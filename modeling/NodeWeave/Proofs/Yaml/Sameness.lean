import Mathlib.Data.List.Forall2
import NodeWeave.Yaml.Basic

/-!
Values in which no map has two entries with one key. On these, `same` goes both ways and
from one value over another to a third: where the entries of a map are among those of another one
with as many, they are all of those.
-/

namespace NodeWeave.Yaml

def Apart (first second : Yaml × Yaml) : Prop :=
  same first.1 second.1 = false ∧ same second.1 first.1 = false

def DistinctKeys (entries : Entries) : Prop :=
  entries.Pairwise Apart

inductive WellFormed : Yaml → Prop where
  | null : WellFormed null
  | bool (value : Bool) : WellFormed (bool value)
  | int (value : Int) : WellFormed (int value)
  | float (value : Binary64) : WellFormed (float value)
  | text (value : String) : WellFormed (text value)
  | list {items : List Yaml} : (∀ item ∈ items, WellFormed item) → WellFormed (list items)
  | map {entries : Entries} : DistinctKeys entries → (∀ entry ∈ entries, WellFormed entry.1) →
      (∀ entry ∈ entries, WellFormed entry.2) → WellFormed (map entries)
  | tagged (tag : String) {value : Yaml} : WellFormed value → WellFormed (tagged tag value)

structure IsMapping (entries : Entries) : Prop where
  distinct : DistinctKeys entries
  keys : ∀ entry ∈ entries, WellFormed entry.1
  values : ∀ entry ∈ entries, WellFormed entry.2

theorem wellFormed_map {entries : Entries} : WellFormed (map entries) ↔ IsMapping entries := by
  constructor
  · rintro ⟨⟩
    exact ⟨‹_›, ‹_›, ‹_›⟩
  · exact fun mapping => .map mapping.distinct mapping.keys mapping.values

/-! ### Cases of `same` -/

attribute [local simp] same sameItems includedIn

theorem same_list {items : List Yaml} {other : Yaml} :
    same (list items) other = true ↔
      ∃ others, other = list others ∧ sameItems items others = true := by
  cases other <;> simp

theorem same_map {entries : Entries} {other : Yaml} :
    same (map entries) other = true ↔
      ∃ others, other = map others ∧ entries.length = others.length ∧
        includedIn entries others = true := by
  cases other <;> simp

theorem same_tagged {tag : String} {value other : Yaml} :
    same (tagged tag value) other = true ↔
      ∃ inner, tagged tag inner = other ∧ same value inner = true := by
  cases other <;> simp

def IsExact : Yaml → Prop
  | null | bool _ | int _ | text _ => True
  | _ => False

theorem same_iff_eq {value other : Yaml} (exact : IsExact value) :
    same value other = true ↔ value = other := by
  cases value with
  | null | bool | int | text => cases other <;> simp
  | _ => cases exact

theorem same_float {value : Binary64} {other : Yaml} :
    same (float value) other = true ↔
      ∃ found, other = float found ∧ sameFloat value found = true := by
  cases other <;> simp

theorem sameItems_iff {items others : List Yaml} :
    sameItems items others = true ↔ List.Forall₂ (fun a b => same a b = true) items others := by
  induction items generalizing others with
  | nil => cases others <;> simp
  | cons item rest ih => cases others <;> simp [ih]

def SameEntry (first second : Yaml × Yaml) : Prop :=
  same first.1 second.1 = true ∧ same first.2 second.2 = true

theorem includedIn_iff {entries others : Entries} :
    includedIn entries others = true ↔
      ∀ entry ∈ entries, ∃ other ∈ others, SameEntry entry other := by
  induction entries with
  | nil => simp
  | cons entry rest ih => simp [ih, SameEntry]

/-! ### Numbers -/

theorem sameFloat_iff {a b : Binary64} :
    sameFloat a b = true ↔ a.isNaN = true ∧ b.isNaN = true ∨
      a.isNaN = false ∧ b.isNaN = false ∧ (a = b ∨ a.isZero = true ∧ b.isZero = true) := by
  unfold sameFloat
  cases a.isNaN <;> cases b.isNaN <;> simp

theorem sameFloat_symm {a b : Binary64} (first : sameFloat a b = true) : sameFloat b a = true := by
  grind [sameFloat_iff]

theorem sameFloat_trans {a b c : Binary64} (first : sameFloat a b = true)
    (second : sameFloat b c = true) : sameFloat a c = true := by
  grind [sameFloat_iff]

/-! ### Sameness goes both ways and on -/

theorem forall₂_trans {first second third : List Yaml}
    (each : ∀ a ∈ first, ∀ {b c}, same a b = true → same b c = true → same a c = true)
    (one : List.Forall₂ (fun a b => same a b = true) first second)
    (two : List.Forall₂ (fun a b => same a b = true) second third) :
    List.Forall₂ (fun a b => same a b = true) first third := by
  induction one generalizing third with
  | nil => exact two
  | cons head _ ih =>
      obtain _ | ⟨next, rest⟩ := two
      obtain ⟨this, others⟩ := List.forall_mem_cons.mp each
      exact .cons (this head next) (ih others rest)

theorem forall₂_symm {first second : List Yaml}
    (each : ∀ a ∈ first, ∀ {b}, same a b = true → same b a = true)
    (one : List.Forall₂ (fun a b => same a b = true) first second) :
    List.Forall₂ (fun a b => same a b = true) second first := by
  induction one with
  | nil => exact .nil
  | cons head _ ih =>
      obtain ⟨this, others⟩ := List.forall_mem_cons.mp each
      exact .cons (this head) (ih others)

theorem same_trans {a b c : Yaml} (wf : WellFormed a) (first : same a b = true)
    (second : same b c = true) : same a c = true := by
  induction wf generalizing b c with
  | null | bool | int | text => exact (same_iff_eq (by trivial)).mp first ▸ second
  | float =>
      obtain ⟨_, rfl, one⟩ := same_float.mp first
      obtain ⟨_, rfl, two⟩ := same_float.mp second
      exact same_float.mpr ⟨_, rfl, sameFloat_trans one two⟩
  | tagged tag _ ih =>
      obtain ⟨_, rfl, one⟩ := same_tagged.mp first
      obtain ⟨_, rfl, two⟩ := same_tagged.mp second
      exact same_tagged.mpr ⟨_, rfl, ih one two⟩
  | @list items _ ih =>
      obtain ⟨others, rfl, one⟩ := same_list.mp first
      obtain ⟨last, rfl, two⟩ := same_list.mp second
      rw [sameItems_iff] at one two
      exact same_list.mpr ⟨last, rfl, sameItems_iff.mpr (forall₂_trans ih one two)⟩
  | map _ _ _ keys values =>
      obtain ⟨others, rfl, length, one⟩ := same_map.mp first
      obtain ⟨last, rfl, more, two⟩ := same_map.mp second
      rw [includedIn_iff] at one two
      refine same_map.mpr ⟨last, rfl, length.trans more, includedIn_iff.mpr fun entry mem => ?_⟩
      obtain ⟨between, among, key, value⟩ := one entry mem
      obtain ⟨found, there, nextKey, nextValue⟩ := two between among
      exact ⟨found, there, keys entry mem key nextKey, values entry mem value nextValue⟩

/-- As many things as there are, each with one of its own, leave none out. -/
theorem exists_of_pairwise_apart {α β : Type} {R : α → β → Prop} {items : List α}
    {others : List β} (length : items.length = others.length)
    (total : ∀ item ∈ items, ∃ other ∈ others, R item other)
    (apart : items.Pairwise fun first second => ∀ other, R first other → ¬ R second other) :
    ∀ other ∈ others, ∃ item ∈ items, R item other := by
  induction items generalizing others with
  | nil =>
      rw [List.length_eq_zero_iff.mp length.symm]
      exact List.forall_mem_nil _
  | cons item rest ih =>
      obtain ⟨⟨own, mem, related⟩, totalRest⟩ := List.forall_mem_cons.mp total
      obtain ⟨apartItem, apartRest⟩ := List.pairwise_cons.mp apart
      obtain ⟨front, back, rfl⟩ := List.append_of_mem mem
      have remaining : ∀ other ∈ front ++ back, ∃ item ∈ rest, R item other := by
        refine ih ?_ (fun next nextMem => ?_) apartRest
        · simp only [List.length_cons, List.length_append] at length ⊢
          omega
        · obtain ⟨other, among, nextRelated⟩ := totalRest next nextMem
          rcases List.mem_append.mp among with before | after
          · exact ⟨other, List.mem_append_left _ before, nextRelated⟩
          · rcases List.mem_cons.mp after with rfl | behind
            · exact absurd nextRelated (apartItem next nextMem other related)
            · exact ⟨other, List.mem_append_right _ behind, nextRelated⟩
      intro other among
      by_cases isOwn : other = own
      · exact ⟨item, List.mem_cons_self, isOwn ▸ related⟩
      · have others : other ∈ front ++ back := by
          simpa [isOwn] using among
        obtain ⟨found, foundMem, foundRelated⟩ := remaining other others
        exact ⟨found, List.mem_cons_of_mem _ foundMem, foundRelated⟩

theorem same_symm {a b : Yaml} (wf : WellFormed a) (first : same a b = true) :
    same b a = true := by
  induction wf generalizing b with
  | null | bool | int | text =>
      obtain rfl := (same_iff_eq (by trivial)).mp first
      exact first
  | float =>
      obtain ⟨_, rfl, one⟩ := same_float.mp first
      exact same_float.mpr ⟨_, rfl, sameFloat_symm one⟩
  | tagged tag _ ih =>
      obtain ⟨_, rfl, one⟩ := same_tagged.mp first
      exact same_tagged.mpr ⟨_, rfl, ih one⟩
  | @list items _ ih =>
      obtain ⟨others, rfl, one⟩ := same_list.mp first
      exact same_list.mpr ⟨items, rfl, sameItems_iff.mpr (forall₂_symm ih (sameItems_iff.mp one))⟩
  | @map entries distinct wfKeys _ keys values =>
      obtain ⟨others, rfl, length, one⟩ := same_map.mp first
      have apart : entries.Pairwise fun first second =>
          ∀ other, SameEntry first other → ¬ SameEntry second other := by
        refine distinct.imp_of_mem ?_
        intro earlier later earlierMem laterMem differ other earlierSame laterSame
        have back := keys earlier earlierMem earlierSame.1
        have same := same_trans (wfKeys later laterMem) laterSame.1 back
        rw [differ.2] at same
        cases same
      refine same_map.mpr ⟨entries, rfl, length.symm, includedIn_iff.mpr fun other mem => ?_⟩
      obtain ⟨entry, among, key, value⟩ :=
        exists_of_pairwise_apart length (includedIn_iff.mp one) apart other mem
      exact ⟨entry, among, keys entry among key, values entry among value⟩

end NodeWeave.Yaml

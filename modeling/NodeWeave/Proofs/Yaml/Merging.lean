import Mathlib.Data.List.Pairwise
import NodeWeave.Proofs.Yaml.Sameness

/-!
Merged maps, key by key. A map of a chain of maps has a key where one of them has it. Its value is
the first one there, or, as long as the first ones are maps, what these are merged to.
-/

namespace NodeWeave.Yaml

variable {key value : Yaml} {entries : Entries}

/-! ### Looking up -/

theorem IsMapping.nil : IsMapping [] where
  distinct := List.Pairwise.nil
  keys := List.forall_mem_nil _
  values := List.forall_mem_nil _

theorem find?_eq_none_iff :
    find? key entries = none ↔ ∀ entry ∈ entries, same key entry.1 = false := by
  induction entries with
  | nil => simp [find?]
  | cons entry rest ih =>
      rw [find?]
      split
      · next found => simp [found]
      · next other => simp [ih, other]

theorem exists_of_find?_eq_some (found : find? key entries = some value) :
    ∃ own, (own, value) ∈ entries ∧ same key own = true := by
  induction entries with
  | nil => cases found
  | cons entry rest ih =>
      obtain ⟨own, first⟩ := entry
      rw [find?] at found
      split at found
      · next here =>
          cases found
          exact ⟨own, List.mem_cons_self, here⟩
      · obtain ⟨other, mem, there⟩ := ih found
        exact ⟨other, List.mem_cons_of_mem _ mem, there⟩

instance : Std.Symm Apart where
  symm _ _ apart := ⟨apart.2, apart.1⟩

namespace IsMapping

variable (mapping : IsMapping entries) (wf : WellFormed key)

include mapping

theorem eq_of_same {first second : Yaml × Yaml} (mem : first ∈ entries) (other : second ∈ entries)
    (same : same first.1 second.1 = true) : first = second := by
  by_contra differ
  have apart := mapping.distinct.forall mem other differ
  rw [apart.1] at same
  cases same

theorem wellFormed_of_find? (found : find? key entries = some value) : WellFormed value := by
  obtain ⟨own, mem, _⟩ := exists_of_find?_eq_some found
  exact mapping.values _ mem

theorem perm {others : Entries} (perm : others.Perm entries) : IsMapping others where
  distinct := (perm.pairwise_iff symm).mpr mapping.distinct
  keys entry mem := mapping.keys entry (perm.mem_iff.mp mem)
  values entry mem := mapping.values entry (perm.mem_iff.mp mem)

theorem sublist {others : Entries} (sublist : others.Sublist entries) : IsMapping others where
  distinct := mapping.distinct.sublist sublist
  keys entry mem := mapping.keys entry (sublist.subset mem)
  values entry mem := mapping.values entry (sublist.subset mem)

include wf

theorem append (wfValue : WellFormed value)
    (absent : ∀ entry ∈ entries, same key entry.1 = false) :
    IsMapping (entries ++ [(key, value)]) := by
  refine ⟨List.pairwise_append.mpr ⟨mapping.distinct, List.pairwise_singleton _ _, ?_⟩, ?_, ?_⟩
  · intro entry mem other isOther
    rw [List.mem_singleton.mp isOther]
    have differ := absent entry mem
    refine ⟨Bool.eq_false_iff.mpr fun same => ?_, differ⟩
    rw [same_symm (mapping.keys entry mem) same] at differ
    cases differ
  · exact List.forall_mem_append.mpr ⟨mapping.keys, List.forall_mem_singleton.mpr wf⟩
  · exact List.forall_mem_append.mpr ⟨mapping.values, List.forall_mem_singleton.mpr wfValue⟩

theorem find?_eq_some_iff :
    find? key entries = some value ↔ ∃ own, (own, value) ∈ entries ∧ same key own = true := by
  constructor
  · exact exists_of_find?_eq_some
  · rintro ⟨own, mem, here⟩
    cases found : find? key entries with
    | none =>
        rw [find?_eq_none_iff.mp found _ mem] at here
        cases here
    | some first =>
        obtain ⟨other, otherMem, there⟩ := exists_of_find?_eq_some found
        have same := same_trans (mapping.keys _ otherMem) (same_symm wf there) here
        cases mapping.eq_of_same otherMem mem same
        rfl

theorem find?_congr {other : Yaml} (wfOther : WellFormed other) (same : same key other = true) :
    find? key entries = find? other entries := by
  ext value
  rw [mapping.find?_eq_some_iff wf,
    mapping.find?_eq_some_iff wfOther]
  refine exists_congr fun own => and_congr_right fun _ => ?_
  exact ⟨same_trans wfOther (same_symm wf same), same_trans wf same⟩

end IsMapping

/-! ### Taking out and putting in -/

def put (key value : Yaml) (entries : Entries) : Entries :=
  insert key value (remove key entries)

theorem insert_of_find?_none (absent : find? key entries = none) :
    insert key value entries = entries ++ [(key, value)] := by
  induction entries with
  | nil => rfl
  | cons entry rest ih =>
      rw [find?] at absent
      rw [insert]
      split at absent
      · cases absent
      · next other => rw [if_neg other, ih absent, List.cons_append]

namespace IsMapping

variable (mapping : IsMapping entries) (wf : WellFormed key)

include mapping

include wf

theorem remove_perm :
    (Yaml.remove key entries).Perm (entries.filter fun entry => !same key entry.1) := by
  induction entries with
  | nil => exact .nil
  | cons entry rest ih =>
      rw [Yaml.remove]
      split
      · next here =>
          have others : ∀ other ∈ rest, (!same key other.1) = true := by
            intro other mem
            have apart := List.rel_of_pairwise_cons mapping.distinct mem
            refine Bool.not_eq_true' _ |>.mpr (Bool.eq_false_iff.mpr fun there => ?_)
            have same := same_trans (mapping.keys entry List.mem_cons_self)
              (same_symm wf here) there
            rw [apart.1] at same
            cases same
          rw [List.filter_cons_of_neg (by simpa using here), List.filter_eq_self.mpr others]
          cases last : rest.getLast? with
          | none =>
              rw [List.getLast?_eq_none_iff.mp last]
          | some final =>
              obtain ⟨front, rfl⟩ := List.getLast?_eq_some_iff.mp last
              rw [List.dropLast_concat]
              exact (List.perm_append_singleton final front).symm
      · next other =>
          rw [List.filter_cons_of_pos (by simpa using other)]
          exact (ih (mapping.sublist (List.sublist_cons_self _ _))).cons _

theorem remove : IsMapping (Yaml.remove key entries) :=
  (mapping.sublist List.filter_sublist).perm (mapping.remove_perm wf)

theorem mem_remove {entry : Yaml × Yaml} :
    entry ∈ Yaml.remove key entries ↔ entry ∈ entries ∧ same key entry.1 = false := by
  rw [(mapping.remove_perm wf).mem_iff, List.mem_filter, Bool.not_eq_true']

theorem put_eq : Yaml.put key value entries = Yaml.remove key entries ++ [(key, value)] :=
  insert_of_find?_none (find?_eq_none_iff.mpr fun _ mem => ((mapping.mem_remove wf).mp mem).2)

theorem mem_put {entry : Yaml × Yaml} :
    entry ∈ Yaml.put key value entries ↔
      entry ∈ entries ∧ same key entry.1 = false ∨ entry = (key, value) := by
  rw [mapping.put_eq wf, List.mem_append, mapping.mem_remove wf, List.mem_singleton]

theorem put (wfValue : WellFormed value) : IsMapping (Yaml.put key value entries) := by
  rw [mapping.put_eq wf]
  exact (mapping.remove wf).append wf wfValue fun _ mem => ((mapping.mem_remove wf).mp mem).2

theorem find?_put {query : Yaml} (wfQuery : WellFormed query) (wfValue : WellFormed value) :
    find? query (Yaml.put key value entries) =
      if same query key = true then some value else find? query entries := by
  ext found
  rw [(mapping.put wf wfValue).find?_eq_some_iff wfQuery]
  simp only [mapping.mem_put wf]
  split
  · next here =>
      constructor
      · rintro ⟨own, ⟨mem, differ⟩ | isPut, there⟩
        · rw [same_trans wf (same_symm wfQuery here) there] at differ
          cases differ
        · cases isPut
          rfl
      · intro isPut
        cases isPut
        exact ⟨key, .inr rfl, here⟩
  · next away =>
      rw [mapping.find?_eq_some_iff wfQuery]
      constructor
      · rintro ⟨own, ⟨mem, differ⟩ | isPut, there⟩
        · exact ⟨own, mem, there⟩
        · cases isPut
          exact absurd there away
      · rintro ⟨own, mem, there⟩
        refine ⟨own, .inl ⟨mem, Bool.eq_false_iff.mpr fun same => away ?_⟩, there⟩
        exact same_trans wfQuery there (same_symm wf same)

end IsMapping

/-! ### Merging two maps -/

/-- What stands at a key after merging, by what the two maps have there. -/
def combine : Option Yaml → Option Yaml → Option Yaml
  | none, inherited => inherited
  | some own, inherited => some (mergeValue own inherited)

theorem merge_of_combines {child parent : Entries} (mapping : IsMapping child)
    (parentMapping : IsMapping parent)
    (combines : ∀ entry ∈ child, ∀ inherited, (∀ old, inherited = some old → WellFormed old) →
      WellFormed (mergeValue entry.2 inherited)) :
    IsMapping (merge child parent) ∧ ∀ {query}, WellFormed query →
      find? query (merge child parent) = combine (find? query child) (find? query parent) := by
  induction child generalizing parent with
  | nil => exact ⟨parentMapping, fun _ => rfl⟩
  | cons entry rest ih =>
      obtain ⟨key, own⟩ := entry
      obtain ⟨combinesOwn, combinesRest⟩ := List.forall_mem_cons.mp combines
      have wf : WellFormed key := mapping.keys _ List.mem_cons_self
      have wfCombined : WellFormed (mergeValue own (find? key parent)) :=
        combinesOwn _ fun _ found => parentMapping.wellFormed_of_find? found
      have restMapping := mapping.sublist (List.sublist_cons_self _ rest)
      obtain ⟨merged, look⟩ := ih restMapping (parentMapping.put wf wfCombined) combinesRest
      refine ⟨merged, fun {query} wfQuery => ?_⟩
      have step := look wfQuery
      rw [parentMapping.find?_put wf wfQuery wfCombined] at step
      rw [merge, find?]
      refine step.trans ?_
      split
      · next here =>
          -- The first key does not come again in the rest.
          have absent : find? query rest = none := by
            refine find?_eq_none_iff.mpr fun entry mem => Bool.eq_false_iff.mpr fun there => ?_
            have same := same_trans wf (same_symm wfQuery here) there
            rw [(List.rel_of_pairwise_cons mapping.distinct mem).1] at same
            cases same
          rw [absent, combine, combine, parentMapping.find?_congr wfQuery wf here]
      · rfl

theorem wellFormed_mergeValue {own : Yaml} (wf : WellFormed own) {inherited : Option Yaml}
    (wfInherited : ∀ old, inherited = some old → WellFormed old) :
    WellFormed (mergeValue own inherited) := by
  induction wf generalizing inherited with
  | @map entries distinct keys values _ ih =>
      have mapping : IsMapping entries := ⟨distinct, keys, values⟩
      rw [mergeValue.eq_def]
      split
      · next child parent isMap =>
          cases isMap
          have parentMapping := wellFormed_map.mp (wfInherited _ rfl)
          refine wellFormed_map.mpr (merge_of_combines mapping parentMapping ?_).1
          exact fun entry mem old wfOld => ih entry mem wfOld
      · exact wellFormed_map.mpr mapping
  | null => exact .null
  | bool value => exact .bool value
  | int value => exact .int value
  | float value => exact .float value
  | text value => exact .text value
  | list items => exact .list items
  | tagged tag value => exact .tagged tag value

section

variable {child parent : Entries} (mapping : IsMapping child) (parentMapping : IsMapping parent)

include mapping parentMapping

theorem isMapping_merge : IsMapping (merge child parent) :=
  (merge_of_combines mapping parentMapping fun entry mem _ wfOld =>
    wellFormed_mergeValue (mapping.values entry mem) wfOld).1

theorem find?_merge {query : Yaml} (wf : WellFormed query) :
    find? query (merge child parent) = combine (find? query child) (find? query parent) :=
  (merge_of_combines mapping parentMapping fun entry mem _ wfOld =>
    wellFormed_mergeValue (mapping.values entry mem) wfOld).2 wf

end

/-! ### Merging a chain of maps -/

def valuesAt (key : Yaml) (maps : List Entries) : List Yaml :=
  maps.filterMap (find? key)

/-- The maps that come before the first value that is no map. -/
def leadingMaps : List Yaml → List Entries
  | map entries :: rest => entries :: leadingMaps rest
  | _ => []

def IsPlain (value : Yaml) : Prop :=
  ∀ entries, value ≠ map entries

/-- The map has the keys of a chain of maps, each once. At a key it holds the first value of the
chain if that is no map, or else the map that the leading maps there make in the same way. -/
inductive MergedFrom : List Entries → Entries → Prop where
  | intro {maps : List Entries} {result : Entries}
      (distinct : DistinctKeys result)
      (keys : ∀ key, WellFormed key → ((find? key result).isSome = true ↔
        ∃ entries ∈ maps, (find? key entries).isSome = true))
      (first : ∀ key value rest, WellFormed key → valuesAt key maps = value :: rest →
        IsPlain value → find? key result = some value)
      (isMap : ∀ key entries rest, WellFormed key → valuesAt key maps = map entries :: rest →
        ∃ merged, find? key result = some (map merged))
      (nested : ∀ key entries rest merged, WellFormed key →
        valuesAt key maps = map entries :: rest → find? key result = some (map merged) →
          MergedFrom (leadingMaps (valuesAt key maps)) merged) :
      MergedFrom maps result

theorem valuesAt_eq_nil_iff {maps : List Entries} :
    valuesAt key maps = [] ↔ ∀ entries ∈ maps, find? key entries = none :=
  List.filterMap_eq_nil_iff

theorem valuesAt_cons_of_none {maps : List Entries} (absent : find? key entries = none) :
    valuesAt key (entries :: maps) = valuesAt key maps :=
  List.filterMap_cons_none absent

theorem valuesAt_cons_of_some {maps : List Entries} (found : find? key entries = some value) :
    valuesAt key (entries :: maps) = value :: valuesAt key maps :=
  List.filterMap_cons_some found

theorem leadingMaps_of_plain {values : List Yaml} (plain : IsPlain value) :
    leadingMaps (value :: values) = [] := by
  cases value with
  | map entries => exact absurd rfl (plain entries)
  | _ => rfl

theorem plain_or_map (value : Yaml) : IsPlain value ∨ ∃ entries, value = map entries := by
  cases value with
  | map entries => exact .inr ⟨entries, rfl⟩
  | _ => exact .inl nofun

theorem exists_mergeValue_map (entries : Entries) (inherited : Option Yaml) :
    ∃ merged, mergeValue (map entries) inherited = map merged := by
  rw [mergeValue.eq_def]
  split
  · exact ⟨_, rfl⟩
  · exact ⟨entries, rfl⟩

theorem mergeValue_of_plain {inherited : Option Yaml} (plain : IsPlain value) :
    mergeValue value inherited = value := by
  cases value with
  | map entries => exact absurd rfl (plain entries)
  | _ => rw [mergeValue]; nofun

theorem mergedFrom_self {own : Yaml} (wf : WellFormed own) :
    ∀ {entries}, own = map entries → MergedFrom [entries] entries := by
  induction wf with
  | @map entries distinct keys values _ ih =>
      intro _ isMap
      cases isMap
      have only {key value : Yaml} {rest : List Yaml}
          (listed : valuesAt key [entries] = value :: rest) :
          find? key entries = some value ∧ rest = [] := by
        cases found : find? key entries with
        | none =>
            rw [valuesAt_cons_of_none found] at listed
            cases listed
        | some value =>
            rw [valuesAt_cons_of_some found] at listed
            cases listed
            exact ⟨rfl, rfl⟩
      refine .intro distinct ?_ ?_ ?_ ?_
      · intro key _
        simp
      · intro key value rest _ listed _
        exact (only listed).1
      · intro key inner rest _ listed
        exact ⟨inner, (only listed).1⟩
      · intro key inner rest merged _ listed found
        obtain ⟨same, rfl⟩ := only listed
        rw [listed]
        cases Option.some.inj (found.symm.trans same)
        obtain ⟨own, mem, _⟩ := exists_of_find?_eq_some same
        exact ih _ mem rfl
  | _ => nofun

namespace MergedFrom

variable {maps : List Entries} {parent : Entries} (from_ : MergedFrom maps parent)
  (wf : WellFormed key)

include from_ wf

theorem leading_eq_nil (noMap : ∀ inner, find? key parent ≠ some (map inner)) :
    leadingMaps (valuesAt key maps) = [] := by
  obtain ⟨_, _, _, isMap, _⟩ := from_
  cases listed : valuesAt key maps with
  | nil => rfl
  | cons value rest =>
      rcases plain_or_map value with plain | ⟨inner, rfl⟩
      · exact leadingMaps_of_plain plain
      · obtain ⟨merged, found⟩ := isMap key inner rest wf listed
        exact absurd found (noMap merged)

theorem leading {inner : Entries} (found : find? key parent = some (map inner)) :
    MergedFrom (leadingMaps (valuesAt key maps)) inner := by
  obtain ⟨_, keys, first, _, nested⟩ := from_
  cases listed : valuesAt key maps with
  | nil =>
      obtain ⟨entries, mem, there⟩ := (keys key wf).mp (found ▸ rfl)
      rw [valuesAt_eq_nil_iff.mp listed entries mem] at there
      cases there
  | cons value rest =>
      rcases plain_or_map value with plain | ⟨outer, rfl⟩
      · have same := (first key value rest wf listed plain).symm.trans found
        exact absurd (Option.some.inj same) (plain inner)
      · exact listed ▸ nested key outer rest inner wf listed found

/-- What is held at a key where one more map of a chain has a map itself. -/
theorem cons_leading {own merged : Entries} (mapping : IsMapping parent)
    (wfOwn : WellFormed (map own))
    (onto : ∀ below, IsMapping below → MergedFrom (leadingMaps (valuesAt key maps)) below →
      MergedFrom (own :: leadingMaps (valuesAt key maps)) (merge own below))
    (held : mergeValue (map own) (find? key parent) = map merged) :
    MergedFrom (own :: leadingMaps (valuesAt key maps)) merged := by
  rw [mergeValue.eq_def] at held
  split at held
  · next _ _ below isMap there =>
      cases isMap
      cases held
      have belowMapping := wellFormed_map.mp (mapping.wellFormed_of_find? there)
      exact onto below belowMapping (from_.leading wf there)
  · next noMap =>
      cases held
      rw [from_.leading_eq_nil wf fun below there => noMap own below rfl there]
      exact mergedFrom_self wfOwn rfl

end MergedFrom

/-- A chain of maps is completed by merging another one onto what it makes. -/
theorem mergedFrom_cons {own : Yaml} (wf : WellFormed own) :
    ∀ {child maps parent}, own = map child → IsMapping parent → MergedFrom maps parent →
      MergedFrom (child :: maps) (merge child parent) := by
  induction wf with
  | @map child distinct keys values _ ih =>
      intro _ maps parent isMap parentMapping from_
      cases isMap
      have mapping : IsMapping child := ⟨distinct, keys, values⟩
      have look {query : Yaml} (wf : WellFormed query) := find?_merge mapping parentMapping wf
      obtain ⟨_, keysParent, firstParent, isMapParent, nestedParent⟩ := id from_
      refine .intro (isMapping_merge mapping parentMapping).distinct ?_ ?_ ?_ ?_
      · intro key wf
        rw [look wf, List.exists_mem_cons_iff, ← keysParent key wf]
        cases find? key child <;> simp [combine]
      · intro key value rest wf listed plain
        rw [look wf]
        cases found : find? key child with
        | none =>
            rw [valuesAt_cons_of_none found] at listed
            exact firstParent key value rest wf listed plain
        | some own =>
            rw [valuesAt_cons_of_some found] at listed
            cases listed
            exact congrArg some (mergeValue_of_plain plain)
      · intro key inner rest wf listed
        rw [look wf]
        cases found : find? key child with
        | none =>
            rw [valuesAt_cons_of_none found] at listed
            exact isMapParent key inner rest wf listed
        | some own =>
            rw [valuesAt_cons_of_some found] at listed
            cases listed
            obtain ⟨merged, same⟩ := exists_mergeValue_map inner (find? key parent)
            exact ⟨merged, congrArg some same⟩
      · intro key inner rest merged wf listed held
        rw [look wf] at held
        cases found : find? key child with
        | none =>
            rw [valuesAt_cons_of_none found] at listed ⊢
            rw [found] at held
            exact nestedParent key inner rest merged wf listed held
        | some own =>
            rw [valuesAt_cons_of_some found] at listed ⊢
            cases listed
            rw [found] at held
            obtain ⟨own, mem, _⟩ := exists_of_find?_eq_some found
            have wfInner := values _ mem
            refine from_.cons_leading wf parentMapping wfInner ?_ (Option.some.inj held)
            exact fun below belowMapping fromBelow => ih _ mem rfl belowMapping fromBelow
  | _ => nofun

/-! ### Maps that may be absent -/

/-- No map of a chain makes none; otherwise they are merged. -/
def MergedFrom? (maps : List Entries) : Option Entries → Prop
  | none => maps = []
  | some result => maps ≠ [] ∧ MergedFrom maps result

theorem mergedFrom?_foldr {α : Type} (field : α → Option Entries) {items : List α}
    (mappings : ∀ item ∈ items, ∀ entries, field item = some entries → IsMapping entries) :
    let made := items.foldr (fun item => merge? (field item)) none
    (∀ result, made = some result → IsMapping result) ∧
      MergedFrom? (items.filterMap field) made := by
  induction items with
  | nil => exact ⟨nofun, rfl⟩
  | cons item rest ih =>
      obtain ⟨mappingsItem, mappingsRest⟩ := List.forall_mem_cons.mp mappings
      obtain ⟨mapping, from_⟩ := ih mappingsRest
      dsimp only at mapping from_ ⊢
      rw [List.foldr_cons]
      cases own : field item with
      | none =>
          rw [merge?_none_left, List.filterMap_cons_none own]
          exact ⟨mapping, from_⟩
      | some child =>
          have childMapping := mappingsItem child own
          have wf := wellFormed_map.mpr childMapping
          rw [List.filterMap_cons_some own]
          cases made : rest.foldr (fun item => merge? (field item)) none with
          | none =>
              rw [made] at from_
              rw [merge?_none_right, show rest.filterMap field = [] from from_]
              refine ⟨?_, List.cons_ne_nil _ _, mergedFrom_self wf rfl⟩
              rintro _ ⟨⟩
              exact childMapping
          | some parent =>
              rw [made] at from_
              have parentMapping := mapping parent made
              refine ⟨?_, List.cons_ne_nil _ _, mergedFrom_cons wf rfl parentMapping from_.2⟩
              rintro _ ⟨⟩
              exact isMapping_merge childMapping parentMapping

end NodeWeave.Yaml

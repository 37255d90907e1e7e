import Mathlib.Data.List.Forall2
import NodeWeave.Proofs.Yaml.Depth
import NodeWeave.Yaml.Printer

/-!
Nodes that are written as a value is printed: no alias, no tag but one that is kept, quotes around
each text that would be something else without them. Every reader finds the value in them, and
follows no alias on the way.
-/

namespace NodeWeave.Yaml

/-! ### Equality -/

mutual
def equals : Yaml → Yaml → Bool
  | null, null => true
  | bool a, bool b => a == b
  | int a, int b => a == b
  | float a, float b => a == b
  | text a, text b => a == b
  | list a, list b => itemsEqual a b
  | map a, map b => entriesEqual a b
  | tagged s a, tagged t b => s == t && equals a b
  | _, _ => false

def itemsEqual : List Yaml → List Yaml → Bool
  | [], [] => true
  | a :: rest, b :: others => equals a b && itemsEqual rest others
  | _, _ => false

def entriesEqual : Entries → Entries → Bool
  | [], [] => true
  | (key, value) :: rest, (k, v) :: others =>
      equals key k && equals value v && entriesEqual rest others
  | _, _ => false
end

mutual
theorem equals_iff : ∀ a b : Yaml, equals a b = true ↔ a = b
  | null, b => by cases b <;> simp [equals]
  | bool _, b => by cases b <;> simp [equals]
  | int _, b => by cases b <;> simp [equals]
  | float _, b => by cases b <;> simp [equals]
  | text _, b => by cases b <;> simp [equals]
  | list items, b => by cases b <;> simp [equals, itemsEqual_iff items]
  | map entries, b => by cases b <;> simp [equals, entriesEqual_iff entries]
  | tagged _ value, b => by cases b <;> simp [equals, equals_iff value]

theorem itemsEqual_iff : ∀ items others : List Yaml, itemsEqual items others = true ↔ items = others
  | [], others => by cases others <;> simp [itemsEqual]
  | item :: rest, others => by
      cases others <;> simp [itemsEqual, equals_iff item, itemsEqual_iff rest]

theorem entriesEqual_iff : ∀ entries others : Entries,
    entriesEqual entries others = true ↔ entries = others
  | [], others => by cases others <;> simp [entriesEqual]
  | (key, value) :: rest, others => by
      cases others <;>
        simp [entriesEqual, equals_iff key, equals_iff value, entriesEqual_iff rest, Prod.ext_iff]
end

instance : DecidableEq Yaml := fun a b => decidable_of_iff _ (equals_iff a b)

/-! ### What is written -/

def withTag? : Option String → Yaml → Option Yaml
  | none, value => some value
  | some tag, value => if tag.startsWith "!" && tag != "!" then some (tagged tag value) else none

def writtenValue? (style : ScalarStyle) (written : String) : Option Yaml :=
  if style = .plain then ofPlain? written else some (text written)

mutual
def Node.literal? : Node → Option Yaml
  | .scalar tag style written => (writtenValue? style written).bind (withTag? tag)
  | .list tag items => (itemsLiteral? items).bind fun values => withTag? tag (list values)
  | .map tag entries => (entriesLiteral? entries).bind fun values => withTag? tag (map values)
  | .alias _ => none

def itemsLiteral? : List Node → Option (List Yaml)
  | [] => some []
  | item :: rest => do return (← item.literal?) :: (← itemsLiteral? rest)

def entriesLiteral? : List (Node × Node) → Option Entries
  | [] => some []
  | (key, value) :: rest => do
      return (← key.literal?, ← value.literal?) :: (← entriesLiteral? rest)
end

def Node.Denotes (node : Node) (value : Yaml) : Prop :=
  node.literal? = some value

def DenotesEntry (entry : Node × Node) (values : Yaml × Yaml) : Prop :=
  entry.1.Denotes values.1 ∧ entry.2.Denotes values.2

/-! ### Printed maps -/

/-- The value that a printed map is written as. -/
def reread? (entries : Entries) : Option Yaml := do
  let d ← (Document.read (writeMap entries)).toOption
  (← d.root).literal?

/-- The printed map is read as nodes that are written as its entries. -/
def RoundTrips (entries : Entries) : Prop :=
  reread? entries = some (map entries)

instance (entries : Entries) : Decidable (RoundTrips entries) :=
  inferInstanceAs (Decidable (_ = _))

theorem RoundTrips.document {entries : Entries} (roundTrips : RoundTrips entries) :
    ∃ d root, Document.read (writeMap entries) = .ok d ∧ d.root = some root ∧
      root.Denotes (map entries) := by
  obtain ⟨d, read, found⟩ := Option.bind_eq_some_iff.mp roundTrips
  obtain ⟨root, isRoot, denotes⟩ := Option.bind_eq_some_iff.mp found
  cases document : Document.read (writeMap entries) with
  | error problem =>
      rw [document] at read
      cases read
  | ok other =>
      rw [document] at read
      cases read
      exact ⟨d, root, rfl, isRoot, denotes⟩

/-! ### Lists and maps -/

theorem forall₂_of_itemsLiteral? {items : List Node} {values : List Yaml}
    (literal : itemsLiteral? items = some values) : List.Forall₂ Node.Denotes items values := by
  induction items generalizing values with
  | nil =>
      cases literal
      exact .nil
  | cons item rest ih =>
      rw [itemsLiteral?] at literal
      simp only [bind, pure, Option.bind_eq_some_iff, Option.some.injEq] at literal
      obtain ⟨value, first, others, later, rfl⟩ := literal
      exact .cons first (ih later)

theorem forall₂_of_entriesLiteral? {entries : List (Node × Node)} {values : Entries}
    (literal : entriesLiteral? entries = some values) :
    List.Forall₂ DenotesEntry entries values := by
  induction entries generalizing values with
  | nil =>
      cases literal
      exact .nil
  | cons entry rest ih =>
      rw [entriesLiteral?] at literal
      simp only [bind, pure, Option.bind_eq_some_iff, Option.some.injEq] at literal
      obtain ⟨key, denotesKey, value, denotesValue, others, later, rfl⟩ := literal
      exact .cons ⟨denotesKey, denotesValue⟩ (ih later)

/-! ### Tags -/

section

variable {tag : Option String} {value made : Yaml}

theorem tagValue_of_withTag? (with_ : withTag? tag value = some made) :
    Document.tagValue tag value = .ok made := by
  cases tag with
  | none =>
      cases with_
      rfl
  | some tag =>
      rw [withTag?] at with_
      split at with_
      · next kept =>
          cases with_
          simp only [Bool.and_eq_true, bne_iff_ne, ne_eq] at kept
          simp [Document.tagValue, Document.keptTag?, Option.filter, kept]
      · cases with_

theorem Legible.of_withTag? {depth : Nat} (legible : Legible depth made)
    (with_ : withTag? tag value = some made) : Legible depth value := by
  cases tag with
  | none =>
      cases with_
      exact legible
  | some tag =>
      rw [withTag?] at with_
      split at with_
      · cases with_
        obtain ⟨⟨⟩, ⟨⟩⟩ := legible
        exact ⟨‹_›, ‹_›⟩
      · cases with_

theorem scalarValue_of_withTag? {style : ScalarStyle} {written : String}
    (plain : writtenValue? style written = some value) (with_ : withTag? tag value = some made) :
    Document.scalarValue tag style written = .ok value := by
  have own : Document.scalarValue none style written = .ok value := by
    unfold Document.scalarValue
    unfold writtenValue? at plain
    dsimp only
    split at plain
    · rw [if_pos ‹_›, plain]
    · cases plain
      rw [if_neg ‹_›]
  cases tag with
  | none => exact own
  | some tag =>
      rw [withTag?] at with_
      split at with_
      · next kept =>
          have starts : tag.startsWith "!" = true := (Bool.and_eq_true_iff.mp kept).1
          have differs {other : String} (away : other.startsWith "!" = false) : tag ≠ other := by
            rintro rfl
            rw [starts] at away
            cases away
          unfold Document.scalarValue
          dsimp only
          rw [if_neg (differs (by decide +kernel)), if_neg (differs (by decide +kernel)),
            if_neg (differs (by decide +kernel)), if_neg (differs (by decide +kernel)),
            if_pos starts]
          exact own
      · cases with_

end

/-! ### Steps that take no alias -/

/-- The steps give the value, whatever aliases are left. -/
def Gives {α : Type} (steps : Decode α) (found : α) : Prop :=
  ∀ left, steps.run left = .ok (found, left)

namespace Gives

variable {α β : Type} {found : α}

theorem pure : Gives (Pure.pure found) found :=
  fun _ => rfl

theorem lift {result : Except Problem α} (read : result = .ok found) :
    Gives (liftM result) found := by
  subst read
  exact fun _ => rfl

theorem bind {first : Decode β} {next : β → Decode α} {between : β} (one : Gives first between)
    (two : Gives (next between) found) : Gives (first >>= next) found := by
  intro left
  rw [StateT.run_bind, one left]
  exact two left

theorem mapM {items : List β} {values : List α} {read : β → Decode α}
    (each : List.Forall₂ (fun item value => Gives (read item) value) items values) :
    Gives (items.mapM read) values := by
  induction each with
  | nil => exact pure
  | cons first _ ih =>
      rw [List.mapM_cons]
      exact bind first (bind ih pure)

end Gives

/-! ### Values -/

theorem distinctEntries_eq {entries : Entries} (distinct : DistinctKeys entries) :
    Document.distinctEntries entries = .ok entries := by
  have folded : ∀ rest start : Entries, DistinctKeys (start ++ rest) →
      rest.foldlM (fun sorted entry =>
        if (find? entry.1 sorted).isSome then Except.error Problem.duplicateKey
        else .ok (sorted ++ [(entry.1, entry.2)])) start = .ok (start ++ rest) := by
    intro rest
    induction rest with
    | nil =>
        intro start _
        rw [List.append_nil]
        rfl
    | cons entry rest ih =>
        intro start distinct
        have absent : find? entry.1 start = none := by
          refine find?_eq_none_iff.mpr fun other mem => ?_
          exact ((List.pairwise_append.mp distinct).2.2 other mem entry List.mem_cons_self).2
        rw [List.append_cons] at distinct ⊢
        rw [List.foldlM_cons, absent, Option.isSome_none, if_neg Bool.false_ne_true]
        exact ih _ distinct
  exact folded entries [] distinct

namespace Legible

variable {depth : Nat}

theorem items {items : List Yaml} (legible : Legible depth (list items)) :
    ∃ inner, depth = inner + 1 ∧ ∀ item ∈ items, Legible inner item := by
  obtain ⟨wf, within⟩ := legible
  cases wf with | list wf =>
  cases within with | list within =>
  exact ⟨_, rfl, fun item mem => ⟨wf item mem, within item mem⟩⟩

theorem entries {entries : Entries} (legible : Legible depth (map entries)) :
    ∃ inner, depth = inner + 1 ∧ DistinctKeys entries ∧
      ∀ entry ∈ entries, Legible inner entry.1 ∧ Legible inner entry.2 := by
  obtain ⟨wf, within⟩ := legible
  cases wf with | map distinct wfKeys wfValues =>
  cases within with | map keys values =>
  exact ⟨_, rfl, distinct, fun entry mem =>
    ⟨⟨wfKeys entry mem, keys entry mem⟩, ⟨wfValues entry mem, values entry mem⟩⟩⟩

end Legible

/-- What is related entry by entry is so with what is known of each entry. -/
theorem forall₂_and_of_forall_right {α β : Type} {R : α → β → Prop} {P : β → Prop}
    {items : List α} {others : List β} (related : List.Forall₂ R items others)
    (each : ∀ other ∈ others, P other) : List.Forall₂ (fun a b => R a b ∧ P b) items others := by
  induction related with
  | nil => exact .nil
  | cons first _ ih =>
      obtain ⟨holds, rest⟩ := List.forall_mem_cons.mp each
      exact .cons ⟨first, holds⟩ (ih rest)

namespace Document

variable (d : Document) {node : Node} {value : Yaml} {depth : Nat}

theorem gives_follow (denotes : node.Denotes value) : Gives (d.follow node) node := by
  cases node with
  | scalar | list | map => exact Gives.pure
  | _ => cases denotes

/-- The entries of a map are given by what gives its keys and values. -/
theorem gives_entries {entries : List (Node × Node)} {values : Entries}
    (literal : List.Forall₂ DenotesEntry entries values)
    (legible : ∀ entry ∈ values, Legible depth entry.1 ∧ Legible depth entry.2)
    (each : ∀ {node value}, node.Denotes value → Legible depth value →
      Gives (d.value depth node) value) :
    Gives (entries.mapM fun entry => do
      let key ← d.value depth entry.1
      let value ← d.value depth entry.2
      return (key, value)) values := by
  refine .mapM ((forall₂_and_of_forall_right literal legible).imp ?_)
  rintro _ _ ⟨⟨denotesKey, denotesValue⟩, legibleKey, legibleValue⟩
  exact .bind (each denotesKey legibleKey) (.bind (each denotesValue legibleValue) .pure)

theorem gives_value (denotes : node.Denotes value) (legible : Legible depth value) :
    Gives (d.value depth node) value := by
  induction depth generalizing node value with
  | zero =>
      rw [Document.value]
      refine .bind (d.gives_follow denotes) ?_
      cases node with
      | scalar tag style written =>
          obtain ⟨plain, own, with_⟩ := Option.bind_eq_some_iff.mp denotes
          exact .bind (.lift (scalarValue_of_withTag? own with_))
            (.lift (tagValue_of_withTag? with_))
      | list tag items =>
          obtain ⟨values, _, with_⟩ := Option.bind_eq_some_iff.mp denotes
          obtain ⟨_, ⟨⟩, _⟩ := (legible.of_withTag? with_).items
      | map tag entries =>
          obtain ⟨values, _, with_⟩ := Option.bind_eq_some_iff.mp denotes
          obtain ⟨_, ⟨⟩, _⟩ := (legible.of_withTag? with_).entries
      | _ => cases denotes
  | succ depth ih =>
      rw [Document.value]
      refine .bind (d.gives_follow denotes) ?_
      cases node with
      | scalar tag style written =>
          obtain ⟨plain, own, with_⟩ := Option.bind_eq_some_iff.mp denotes
          exact .bind (.lift (scalarValue_of_withTag? own with_))
            (.lift (tagValue_of_withTag? with_))
      | list tag items =>
          obtain ⟨values, literal, with_⟩ := Option.bind_eq_some_iff.mp denotes
          obtain ⟨_, ⟨⟩, each⟩ := (legible.of_withTag? with_).items
          have related := forall₂_and_of_forall_right (forall₂_of_itemsLiteral? literal) each
          exact .bind (.mapM (related.imp fun _ _ both => ih both.1 both.2))
            (.lift (tagValue_of_withTag? with_))
      | map tag entries =>
          obtain ⟨values, literal, with_⟩ := Option.bind_eq_some_iff.mp denotes
          obtain ⟨_, ⟨⟩, distinct, each⟩ := (legible.of_withTag? with_).entries
          refine .bind (d.gives_entries (forall₂_of_entriesLiteral? literal) each ih) ?_
          exact .bind (.lift (distinctEntries_eq distinct)) (.lift (tagValue_of_withTag? with_))
      | _ => cases denotes

end Document

/-! ### Values of a wanted kind -/

section

variable {node : Node} {value : Yaml} {style : ScalarStyle} {written : String}

theorem eq_of_withTag? {tag : Option String} {made : Yaml} (with_ : withTag? tag value = some made)
    (noTag : ∀ tag inner, made ≠ tagged tag inner) : tag = none ∧ value = made := by
  cases tag with
  | none => exact ⟨rfl, Option.some.inj with_⟩
  | some tag =>
      rw [withTag?] at with_
      split at with_
      · exact absurd (Option.some.inj with_).symm (noTag _ _)
      · cases with_

theorem within_writtenValue? (own : writtenValue? style written = some value) : Within 0 value :=
  have untagged : withTag? none value = some value := rfl
  within_scalarValue (scalarValue_of_withTag? own untagged)

theorem cases_of_denotes (denotes : node.Denotes value)
    (noTag : ∀ tag inner, value ≠ tagged tag inner) :
    (∃ style written, node = .scalar none style written ∧
        writtenValue? style written = some value) ∨
      (∃ nodes items, node = .list none nodes ∧ value = list items ∧
        List.Forall₂ Node.Denotes nodes items) ∨
      ∃ nodes entries, node = .map none nodes ∧ value = map entries ∧
        List.Forall₂ DenotesEntry nodes entries := by
  cases node with
  | scalar tag style written =>
      obtain ⟨plain, own, with_⟩ := Option.bind_eq_some_iff.mp denotes
      obtain ⟨rfl, rfl⟩ := eq_of_withTag? with_ noTag
      exact .inl ⟨style, written, rfl, own⟩
  | list tag nodes =>
      obtain ⟨items, literal, with_⟩ := Option.bind_eq_some_iff.mp denotes
      obtain ⟨rfl, rfl⟩ := eq_of_withTag? with_ noTag
      exact .inr (.inl ⟨nodes, items, rfl, rfl, forall₂_of_itemsLiteral? literal⟩)
  | map tag nodes =>
      obtain ⟨entries, literal, with_⟩ := Option.bind_eq_some_iff.mp denotes
      obtain ⟨rfl, rfl⟩ := eq_of_withTag? with_ noTag
      exact .inr (.inr ⟨nodes, entries, rfl, rfl, forall₂_of_entriesLiteral? literal⟩)
  | _ => cases denotes

theorem scalar_of_denotes (denotes : node.Denotes value) (exact : IsExact value) :
    ∃ style written, node = .scalar none style written ∧
      writtenValue? style written = some value := by
  have noTag (tag : String) (inner : Yaml) : value ≠ tagged tag inner := by
    rintro rfl
    exact exact
  rcases cases_of_denotes denotes noTag with found | ⟨_, _, _, rfl, _⟩ | ⟨_, _, _, rfl, _⟩
  · exact found
  · exact exact.elim
  · exact exact.elim

theorem list_of_denotes {items : List Yaml} (denotes : node.Denotes (list items)) :
    ∃ nodes, node = .list none nodes ∧ List.Forall₂ Node.Denotes nodes items := by
  rcases cases_of_denotes denotes (by simp) with
    ⟨_, _, _, own⟩ | ⟨nodes, _, isList, ⟨⟩, each⟩ | ⟨_, _, _, ⟨⟩, _⟩
  · cases within_writtenValue? own
  · exact ⟨nodes, isList, each⟩

theorem map_of_denotes {entries : Entries} (denotes : node.Denotes (map entries)) :
    ∃ nodes, node = .map none nodes ∧ List.Forall₂ DenotesEntry nodes entries := by
  rcases cases_of_denotes denotes (by simp) with
    ⟨_, _, _, own⟩ | ⟨_, _, _, ⟨⟩, _⟩ | ⟨nodes, _, isMap, ⟨⟩, each⟩
  · cases within_writtenValue? own
  · exact ⟨nodes, isMap, each⟩

theorem eq_of_ofPlain?_text {s : String} (plain : ofPlain? written = some (text s)) :
    written = s := by
  unfold ofPlain? ofFraction at plain
  grind

theorem boolOf?_of_ofPlain? {b : Bool} (plain : ofPlain? written = some (bool b)) :
    boolOf? written = some b := by
  unfold ofPlain? ofFraction at plain
  grind

theorem ofPlain?_eq_null_iff :
    ofPlain? written = some null ↔ (written.isEmpty || isNullText written) = true := by
  unfold ofPlain? ofFraction
  grind

end

def isNull : Yaml → Bool
  | null => true
  | _ => false

namespace Document

variable (d : Document) {node : Node} {value : Yaml} {depth : Nat}

theorem gives_textOf {s : String} (denotes : node.Denotes (text s)) :
    Gives (d.textOf node) s := by
  obtain ⟨style, written, rfl, own⟩ := scalar_of_denotes denotes trivial
  have same : written = s := by
    unfold writtenValue? at own
    split at own
    · exact eq_of_ofPlain?_text own
    · cases own
      rfl
  subst same
  exact .bind (d.gives_follow denotes) .pure

theorem gives_boolValue {b : Bool} (denotes : node.Denotes (bool b)) :
    Gives (d.boolValue node) b := by
  obtain ⟨style, written, rfl, own⟩ := scalar_of_denotes denotes trivial
  refine .bind (d.gives_follow denotes) ?_
  unfold writtenValue? at own
  split at own
  · next plain =>
      dsimp only
      rw [if_pos (.inl plain), boolOf?_of_ofPlain? own]
      exact .pure
  · cases own

theorem gives_entriesOf {entries : Entries} (denotes : node.Denotes (map entries)) :
    ∃ nodes, List.Forall₂ DenotesEntry nodes entries ∧ Gives (d.entriesOf node) nodes := by
  obtain ⟨nodes, rfl, each⟩ := map_of_denotes denotes
  exact ⟨nodes, each, .bind (d.gives_follow denotes) .pure⟩

theorem gives_itemsOf {items : List Yaml} (denotes : node.Denotes (list items)) :
    ∃ nodes, List.Forall₂ Node.Denotes nodes items ∧ Gives (d.itemsOf node) nodes := by
  obtain ⟨nodes, rfl, each⟩ := list_of_denotes denotes
  exact ⟨nodes, each, .bind (d.gives_follow denotes) .pure⟩

theorem gives_entriesValue {entries : Entries} (denotes : node.Denotes (map entries))
    (legible : Legible (depth + 1) (map entries)) :
    Gives (d.entriesValue (depth + 1) node) entries := by
  obtain ⟨_, ⟨⟩, distinct, legibleEach⟩ := legible.entries
  obtain ⟨nodes, each, given⟩ := d.gives_entriesOf denotes
  refine .bind given (.bind (d.gives_entries each legibleEach ?_) ?_)
  · exact fun denotes legible => d.gives_value denotes legible
  · exact .lift (distinctEntries_eq distinct)

theorem isNull_of_withTag? {tag : Option String} {inner : Yaml}
    (with_ : withTag? tag inner = some value) :
    isNull value = (tag.isNone && isNull inner) := by
  cases tag with
  | none =>
      cases with_
      rfl
  | some tag =>
      rw [withTag?] at with_
      split at with_
      · cases with_
        rfl
      · cases with_

theorem isNull_eq_of_ofPlain? {written : String} (plain : ofPlain? written = some value) :
    (written.isEmpty || isNullText written) = isNull value := by
  rw [Bool.eq_iff_iff, ← ofPlain?_eq_null_iff, plain, Option.some.injEq]
  cases value <;> simp [isNull]

theorem gives_isAbsent (denotes : node.Denotes value) :
    Gives (d.isAbsent node) (isNull value) := by
  refine .bind (d.gives_follow denotes) ?_
  cases node with
  | scalar tag style written =>
      obtain ⟨inner, own, with_⟩ := Option.bind_eq_some_iff.mp denotes
      cases tag with
      | none =>
          cases with_
          by_cases plain : style = .plain
          · subst plain
            rw [← isNull_eq_of_ofPlain? own]
            exact .pure
          · rw [writtenValue?, if_neg plain] at own
            cases own
            cases style with
            | plain => exact absurd rfl plain
            | _ => exact .pure
      | some tag =>
          rw [isNull_of_withTag? with_, Option.isNone_some, Bool.false_and]
          split
          · next isPlain =>
              cases isPlain
              split
              · next isTag =>
                  -- The tag of null is none that is kept.
                  cases isTag
                  rw [withTag?, if_neg (by decide +kernel)] at with_
                  cases with_
              · exact .pure
              · next isTag => cases isTag
          · exact .pure
  | list tag nodes =>
      obtain ⟨items, _, with_⟩ := Option.bind_eq_some_iff.mp denotes
      have present : isNull (list items) = false := rfl
      rw [isNull_of_withTag? with_, present, Bool.and_false]
      exact .pure
  | map tag nodes =>
      obtain ⟨entries, _, with_⟩ := Option.bind_eq_some_iff.mp denotes
      have present : isNull (map entries) = false := rfl
      rw [isNull_of_withTag? with_, present, Bool.and_false]
      exact .pure
  | _ => cases denotes

/-- A field with null counts as a field that is missing. -/
theorem gives_optional {α : Type} {read : Node → Decode α} {found : α}
    (denotes : node.Denotes value) (given : isNull value = false → Gives (read node) found) :
    Gives (d.optional read node) (if isNull value then none else some found) := by
  refine .bind (d.gives_isAbsent denotes) ?_
  cases null : isNull value with
  | true => exact .pure
  | false => exact .bind (given null) .pure

end Document

/-! ### Fields -/

def DenotesField (field : String × Node) (named : String × Yaml) : Prop :=
  field.1 = named.1 ∧ field.2.Denotes named.2

def namedEntries (named : List (String × Yaml)) : Entries :=
  named.map fun (name, value) => (.text name, value)

theorem names_of_denotesField {fields : List (String × Node)} {named : List (String × Yaml)}
    (denote : List.Forall₂ DenotesField fields named) :
    fields.map (·.1) = named.map (·.1) := by
  induction denote with
  | nil => rfl
  | cons first _ ih => rw [List.map_cons, List.map_cons, first.1, ih]

theorem lookup_of_denotesField {fields : List (String × Node)} {named : List (String × Yaml)}
    (denote : List.Forall₂ DenotesField fields named) (name : String) :
    (fields.lookup name = none ∧ named.lookup name = none) ∨
      ∃ node value, fields.lookup name = some node ∧ named.lookup name = some value ∧
        node.Denotes value := by
  induction denote with
  | nil => exact .inl ⟨rfl, rfl⟩
  | @cons field entry _ _ first _ ih =>
      obtain ⟨other, node⟩ := field
      obtain ⟨_, value⟩ := entry
      obtain ⟨rfl, denotes⟩ := first
      rw [List.lookup_cons, List.lookup_cons]
      cases name == other with
      | true => exact .inr ⟨node, value, rfl, rfl, denotes⟩
      | false => exact ih

namespace Document

variable (d : Document) {node : Node}

/-- Names that are read from keys, with the nodes beside them. -/
theorem gives_names {named : List (String × Yaml)} {nodes : List (Node × Node)}
    (each : List.Forall₂ DenotesEntry nodes (namedEntries named)) :
    ∃ fields, List.Forall₂ DenotesField fields named ∧
      Gives (nodes.mapM fun entry => do
        let name ← d.textOf entry.1
        return (name, entry.2)) fields := by
  induction named generalizing nodes with
  | nil =>
      cases each
      exact ⟨[], .nil, .pure⟩
  | cons first rest ih =>
      obtain ⟨name, value⟩ := first
      cases each with
      | @cons entry _ nodes _ denotes later =>
          obtain ⟨fields, fieldsDenote, given⟩ := ih later
          refine ⟨(name, entry.2) :: fields, .cons ⟨rfl, denotes.2⟩ fieldsDenote, ?_⟩
          rw [List.mapM_cons]
          exact .bind (.bind (d.gives_textOf denotes.1) .pure) (.bind given .pure)

theorem gives_fieldsOf {named : List (String × Yaml)} (known : List String)
    (distinct : (named.map (·.1)).Nodup) (denotes : node.Denotes (map (namedEntries named))) :
    ∃ fields, List.Forall₂ DenotesField fields named ∧ Gives (d.fieldsOf known node) fields := by
  obtain ⟨nodes, each, given⟩ := d.gives_entriesOf denotes
  obtain ⟨fields, fieldsDenote, givenNames⟩ := d.gives_names each
  refine ⟨fields, fieldsDenote, .bind given (.bind givenNames ?_)⟩
  have used : ((fields.map (·.1)).filter known.contains).Nodup :=
    (names_of_denotesField fieldsDenote ▸ distinct).filter _
  dsimp only
  rw [if_pos (decide_eq_true used)]
  exact .pure

end Document

end NodeWeave.Yaml

/-! Texts as lists of characters: lengths in UTF-8, searching, splitting and replacing. -/

namespace NodeWeave.Text

def byteLength : List Char → Nat
  | [] => 0
  | c :: rest => c.utf8Size + byteLength rest

@[simp] theorem byteLength_nil : byteLength [] = 0 := rfl

@[simp] theorem byteLength_cons (c : Char) (rest : List Char) :
    byteLength (c :: rest) = c.utf8Size + byteLength rest := rfl

@[simp] theorem byteLength_append (a b : List Char) :
    byteLength (a ++ b) = byteLength a + byteLength b := by
  induction a with
  | nil => simp
  | cons c rest ih => simp [ih, Nat.add_assoc]

def after? : (pattern text : List Char) → Option (List Char)
  | [], text => some text
  | _ :: _, [] => none
  | p :: pattern, c :: text => if p = c then after? pattern text else none

theorem after?_eq_some_iff {pattern text rest : List Char} :
    after? pattern text = some rest ↔ text = pattern ++ rest := by
  induction pattern generalizing text with
  | nil => simp [after?, eq_comm]
  | cons p pattern ih =>
      cases text with
      | nil => simp [after?]
      | cons c text =>
          by_cases same : p = c
          · simp [after?, same, ih]
          · simp [after?, same, Ne.symm same]

theorem after?_eq_none_iff {pattern text : List Char} :
    after? pattern text = none ↔ ¬ pattern <+: text := by
  rw [Option.eq_none_iff_forall_ne_some]
  constructor
  · intro never ⟨rest, same⟩
    exact never rest (after?_eq_some_iff.mpr same.symm)
  · intro apart rest found
    exact apart ⟨rest, (after?_eq_some_iff.mp found).symm⟩

def splitFirst? (pattern : List Char) : List Char → Option (List Char × List Char)
  | [] => if pattern.isEmpty then some ([], []) else none
  | c :: rest =>
      match after? pattern (c :: rest) with
      | some following => some ([], following)
      | none => (splitFirst? pattern rest).map fun (before, following) => (c :: before, following)

theorem eq_of_splitFirst? {pattern text before following : List Char}
    (split : splitFirst? pattern text = some (before, following)) :
    text = before ++ pattern ++ following := by
  induction text generalizing before following with
  | nil =>
      simp only [splitFirst?] at split
      split at split
      · next empty => cases split; simp_all
      · cases split
  | cons c rest ih =>
      simp only [splitFirst?] at split
      split at split
      · next following' found =>
          cases split
          simpa using after?_eq_some_iff.1 found
      · next =>
          rw [Option.map_eq_some_iff] at split
          obtain ⟨⟨b, f⟩, found, same⟩ := split
          cases same
          simp [ih found]

theorem splitFirst?_eq_none_iff {pattern text : List Char} (some : pattern ≠ []) :
    splitFirst? pattern text = none ↔ ¬ pattern <:+: text := by
  induction text with
  | nil =>
      rw [splitFirst?, if_neg (by simpa using some), List.infix_nil]
      exact iff_of_true rfl some
  | cons c rest ih =>
      rw [splitFirst?, List.infix_cons_iff, not_or, ← ih, ← after?_eq_none_iff]
      cases after? pattern (c :: rest) with
      | some following => simp
      | none => simp

theorem length_of_splitFirst? {pattern text before following : List Char}
    (split : splitFirst? pattern text = some (before, following)) :
    before.length + pattern.length + following.length = text.length := by
  simp [eq_of_splitFirst? split, Nat.add_assoc]

def contains (pattern text : List Char) : Bool :=
  (splitFirst? pattern text).isSome

def replaceChar (old new : Char) (text : String) : String :=
  String.ofList (text.toList.map fun c => if c = old then new else c)

/-- The pieces of the text between the separators; there is one more piece than separators. -/
def splitChar (separator : Char) (text : String) : List String :=
  (text.toList.splitOn separator).map String.ofList

/-- The texts one after the other with the separator between them. -/
def join (separator : String) : List String → String
  | [] => ""
  | [text] => text
  | text :: rest => text ++ separator ++ join separator rest

/-- The number in decimal with zeros in front up to the given width. -/
def padZeros (width n : Nat) : String :=
  let digits := toString n
  String.ofList (List.replicate (width - digits.length) '0') ++ digits

end NodeWeave.Text

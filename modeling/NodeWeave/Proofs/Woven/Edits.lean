import NodeWeave.Proofs.Woven.ParserUnit

/-!
What is added to a compilation unit and what it gives way to, as edits of the unit. Main statements:
the edits lead from the unit to the one with the parser's support and back, and drop blanks in front
of a brace only.
-/

namespace NodeWeave

open Text Mark

/-- A piece of an edited text. -/
inductive Edit where
  | kept (text : List Char)
  | added (text : List Char)
  | dropped (text : List Char)
  deriving DecidableEq

namespace Edit

def original : Edit → List Char
  | kept text | dropped text => text
  | added _ => []

def result : Edit → List Char
  | kept text | added text => text
  | dropped _ => []

/-- The part of the piece that makes the first characters of the edited text. -/
def take (n : Nat) : Edit → Edit
  | kept text => kept (text.take n)
  | added text => added (text.take n)
  | dropped _ => added []

/-- The part of the piece behind the first characters of the edited text. -/
def drop (n : Nat) : Edit → Edit
  | kept text => kept (text.drop n)
  | added text => added (text.drop n)
  | dropped text => dropped text

/-- The edits with a text added so many characters behind the start of the edited text. -/
def put (block : List Char) (n : Nat) : List Edit → List Edit
  | [] => [added block]
  | edit :: rest =>
      if n ≤ edit.result.length then edit.take n :: added block :: edit.drop n :: rest
      else edit :: put block (n - edit.result.length) rest

variable (n : Nat) (edit : Edit)

theorem original_take_append_drop :
    (edit.take n).original ++ (edit.drop n).original = edit.original := by
  cases edit with
  | kept text => exact List.take_append_drop n text
  | added text => rfl
  | dropped text => rfl

theorem result_take : (edit.take n).result = edit.result.take n := by
  cases edit <;> simp [take, result]

theorem result_drop : (edit.drop n).result = edit.result.drop n := by
  cases edit <;> simp [drop, result]

end Edit

def originalText (edits : List Edit) : List Char :=
  edits.flatMap Edit.original

def editedText (edits : List Edit) : List Char :=
  edits.flatMap Edit.result

/-- Nothing is dropped but blanks in front of an opening brace. -/
def DropsBlanks : List Edit → Prop
  | [] => True
  | .dropped text :: rest =>
      (∀ c ∈ text, isBlank c = true) ∧ (∃ more, originalText rest = '\x7b' :: more) ∧
        DropsBlanks rest
  | .kept _ :: rest | .added _ :: rest => DropsBlanks rest

/-- Texts are added only in front of what has this property in the text before the edits. -/
def AddsAt (isPlace : List Char → Prop) : List Edit → Prop
  | [] => True
  | .added _ :: rest => isPlace (originalText rest) ∧ AddsAt isPlace rest
  | .kept _ :: rest | .dropped _ :: rest => AddsAt isPlace rest

section Put

variable {block : List Char} {n : Nat} {edits : List Edit} {edit : Edit}

theorem originalText_cons : originalText (edit :: edits) = edit.original ++ originalText edits :=
  rfl

theorem editedText_cons : editedText (edit :: edits) = edit.result ++ editedText edits :=
  rfl

theorem put_kept_append (front behind : List Char) :
    Edit.put block front.length (.kept (front ++ behind) :: edits) =
      .kept front :: .added block :: .kept behind :: edits := by
  have le : front.length ≤ (front ++ behind).length := by
    rw [List.length_append]
    exact Nat.le_add_right _ _
  rw [Edit.put, Edit.result, if_pos le, Edit.take, Edit.drop, List.take_left, List.drop_left]

theorem originalText_put : originalText (Edit.put block n edits) = originalText edits := by
  fun_induction Edit.put block n edits with
  | case1 => rfl
  | case2 n edit rest here =>
      rw [originalText_cons, originalText_cons, originalText_cons, originalText_cons,
        ← Edit.original_take_append_drop n edit, List.append_assoc]
      rfl
  | case3 n edit rest later ih => rw [originalText_cons, originalText_cons, ih]

theorem editedText_put (le : n ≤ (editedText edits).length) :
    editedText (Edit.put block n edits) =
      (editedText edits).take n ++ (block ++ (editedText edits).drop n) := by
  fun_induction Edit.put block n edits with
  | case1 => simp [editedText, Edit.result]
  | case2 n edit rest here =>
      rw [editedText_cons, editedText_cons, editedText_cons, editedText_cons, Edit.result_take,
        Edit.result_drop, List.take_append_of_le_length here, List.drop_append_of_le_length here]
      rfl
  | case3 n edit rest later ih =>
      rw [editedText_cons, List.length_append] at le
      have taken : edit.result.take n = edit.result := List.take_of_length_le (by omega)
      have dropped : edit.result.drop n = [] := List.drop_of_length_le (by omega)
      rw [editedText_cons, editedText_cons, ih (by omega), List.take_append, List.drop_append,
        taken, dropped, List.nil_append, List.append_assoc]

theorem dropsBlanks_cons : DropsBlanks (edit :: edits) ↔
    (∀ text, edit = .dropped text → (∀ c ∈ text, isBlank c = true) ∧
      ∃ more, originalText edits = '\x7b' :: more) ∧ DropsBlanks edits := by
  cases edit <;> simp [DropsBlanks, and_assoc]

theorem DropsBlanks.put (drops : DropsBlanks edits) : DropsBlanks (Edit.put block n edits) := by
  fun_induction Edit.put block n edits with
  | case1 => trivial
  | case2 n edit rest here =>
      cases edit <;> simpa [DropsBlanks, Edit.take, Edit.drop] using drops
  | case3 n edit rest later ih =>
      rw [dropsBlanks_cons] at drops ⊢
      rw [originalText_put]
      exact ⟨drops.1, ih drops.2⟩

end Put

/-! ### The edits of a compilation unit -/

def blanksEnd (text : List Char) : List Char :=
  (text.reverse.takeWhile isBlank).reverse

theorem dropBlanksEnd_append_blanksEnd (text : List Char) :
    dropBlanksEnd text ++ blanksEnd text = text := by
  rw [dropBlanksEnd, blanksEnd, ← List.reverse_append, List.takeWhile_append_dropWhile,
    List.reverse_reverse]

theorem isBlank_of_mem_blanksEnd {c : Char} {text : List Char} (mem : c ∈ blanksEnd text) :
    isBlank c = true :=
  List.all_eq_true.mp List.all_takeWhile c (List.mem_reverse.mp mem)

namespace ParserSupport

variable (interfaces imports : List String) (declarations : String)

/-- What names the interfaces behind these clauses of a class. -/
def implementing (clauses : List Char) : List Char :=
  if interfaces.isEmpty then []
  else (if contains "implements".toList clauses then ", " else " implements ").toList ++
    (join ", " interfaces).toList

def importing : List Char :=
  if imports.isEmpty then [] else (importBlock imports).toList

def headerEdits (header : ClassHeader) : List Edit :=
  [.kept (header.before ++ (header.opening ++ dropBlanksEnd header.clauses)),
    .added (implementing interfaces header.clauses), .dropped (blanksEnd header.clauses),
    .added [' '], .kept ['\x7b'], .added (region declarations), .kept header.following]

def classEdits (body name : List Char) : List Edit :=
  match findHeader? name [] body with
  | some header => headerEdits interfaces declarations header
  | none => [.kept body]

def importPlace (text : List Char) : Nat :=
  match splitPackage? true [] text with
  | some (before, _) => before.length
  | none => 0

def edits (body name : List Char) : List Edit :=
  let edits := classEdits interfaces declarations body name
  Edit.put (importing imports) (importPlace (editedText edits)) edits

variable {interfaces imports declarations}

theorem editedText_headerEdits (header : ClassHeader) :
    editedText (headerEdits interfaces declarations header) =
      (editHeader interfaces declarations header).toList := by
  have start : (Piece.startMark none).toList = startText ++ "*/".toList := by decide
  have opened : "*/\n  ".toList = "*/".toList ++ "\n  ".toList := by decide
  have brace : " \x7b".toList = [' ', '\x7b'] := by decide
  unfold editHeader headerEdits implementing
  dsimp only
  generalize join ", " interfaces = names
  split
  · simp [editedText, Edit.result, region, start, opened, brace, stopText]
  · split <;> simp [editedText, Edit.result, region, start, opened, brace, stopText]

theorem add_eq (body name : String) : add body name imports interfaces declarations =
    addImports imports
      (String.ofList
        (editedText (classEdits interfaces declarations body.toList name.toList))) := by
  unfold add classEdits
  dsimp only
  rcases findHeader? name.toList [] body.toList with _ | header
  · simp [editedText, Edit.result]
  · dsimp only
    rw [editedText_headerEdits, String.ofList_toList]

theorem importPlace_of_some {text before following : List Char}
    (split : splitPackage? true [] text = some (before, following)) :
    importPlace text = before.length := by
  rw [importPlace, split]

theorem importPlace_of_none {text : List Char} (none : splitPackage? true [] text = none) :
    importPlace text = 0 := by
  rw [importPlace, none]

theorem importPlace_le (text : List Char) : importPlace text ≤ text.length := by
  rcases split : splitPackage? true [] text with _ | ⟨before, following⟩
  · rw [importPlace_of_none split]
    exact Nat.zero_le _
  · rw [importPlace_of_some split]
    obtain ⟨front, rfl, rfl, -⟩ := splitPackage?_eq_some split
    simp

theorem toList_addImports (text : List Char) :
    (addImports imports (String.ofList text)).toList =
      text.take (importPlace text) ++ (importing imports ++ text.drop (importPlace text)) := by
  unfold addImports importing
  rw [String.toList_ofList]
  split
  · rw [String.toList_ofList, List.nil_append, List.take_append_drop]
  · rcases split : splitPackage? true [] text with _ | ⟨before, following⟩
    · simp [importPlace_of_none split]
    · rw [importPlace_of_some split]
      obtain ⟨front, rfl, rfl, -⟩ := splitPackage?_eq_some split
      simp

theorem editedText_edits (body name : String) :
    editedText (edits interfaces imports declarations body.toList name.toList) =
      (add body name imports interfaces declarations).toList := by
  unfold edits
  dsimp only
  rw [add_eq, toList_addImports, editedText_put (importPlace_le _)]

theorem originalText_classEdits (body name : List Char) :
    originalText (classEdits interfaces declarations body name) = body := by
  unfold classEdits
  split
  · next header found =>
      have parts := findHeader?_eq_some found
      rw [List.reverse_nil, List.nil_append,
        ← dropBlanksEnd_append_blanksEnd header.clauses] at parts
      simp [parts, originalText, headerEdits, Edit.original]
  · simp [originalText, Edit.original]

theorem originalText_edits (body name : List Char) :
    originalText (edits interfaces imports declarations body name) = body :=
  originalText_put.trans (originalText_classEdits body name)

theorem dropsBlanks_edits (body name : List Char) :
    DropsBlanks (edits interfaces imports declarations body name) := by
  refine DropsBlanks.put ?_
  unfold classEdits
  split
  · next header found =>
      refine ⟨fun c mem => isBlank_of_mem_blanksEnd mem, ⟨header.following, ?_⟩, trivial⟩
      simp [originalText, Edit.original]
  · trivial

end ParserSupport

end NodeWeave

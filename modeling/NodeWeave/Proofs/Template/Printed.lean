import NodeWeave.Proofs.Template.Tag

/-! Printed templates are read back, where the parts are in a form that a reader can tell apart. -/

namespace NodeWeave.Template

open Text

/-! ### Parts in normal form -/

structure IsPath (path : String) : Prop where
  whole : trimmed path.toList = path.toList
  free : ¬ closing <:+: path.toList
  last : path.toList.getLast? ≠ some '\x7d'

def Part.isText : Part → Bool
  | .text _ => true
  | _ => false

/-- What follows a text, among the other parts and behind them, is a tag, and the text does not run
into it. -/
def Part.EndsBefore (rest : List Part) (tagFollows : Prop) : Part → Prop
  | .text t =>
      (∀ next ∈ rest.head?, next.isText = false) ∧
        (rest ≠ [] ∨ tagFollows → t.toList.getLast? ≠ some '\x7b')
  | _ => True

mutual
def Part.IsNormal : Part → Prop
  | .text t => t ≠ "" ∧ ¬ opening <:+: t.toList
  | .value path => IsPath path ∧ ∀ c ∈ path.toList.head?, c ≠ '#' ∧ c ≠ '/'
  | .block _ path body => IsPath path ∧ AreNormal True body

def AreNormal (tagFollows : Prop) : List Part → Prop
  | [] => True
  | part :: rest => part.IsNormal ∧ part.EndsBefore rest tagFollows ∧ AreNormal tagFollows rest
end

/-! ### Printed tags -/

theorem infix_append_cons_iff {mark front text : List Char} {c : Char} (away : c ∉ mark) :
    mark <:+: front ++ c :: text ↔ mark <:+: front ∨ mark <:+: text := by
  induction front with
  | nil =>
      rw [List.nil_append, List.infix_cons_iff, ← List.nil_append (c :: text),
        Mark.prefix_append_cons_iff away, List.prefix_nil, List.infix_nil]
  | cons d front ih =>
      rw [List.cons_append, List.infix_cons_iff, List.infix_cons_iff, ih, ← List.cons_append,
        Mark.prefix_append_cons_iff away, or_assoc]

/-- A double character that a text does not have is not made by one more character behind it, unless
the text ends in that character. -/
theorem not_infix_concat {c : Char} {text : List Char} (free : ¬ [c, c] <:+: text)
    (last : text.getLast? ≠ some c) : ¬ [c, c] <:+: text ++ [c] := by
  rw [List.infix_concat_iff, not_or]
  refine ⟨fun suffix => last ?_, free⟩
  obtain ⟨front, same⟩ := suffix
  have same : (front ++ [c]) ++ [c] = text ++ [c] := by simpa using same
  rw [← List.append_cancel_right same, List.getLast?_concat]

theorem IsPath.isContent {path : String} (ok : IsPath path) : IsContent path.toList :=
  not_infix_concat ok.free ok.last

theorem isContent_of_not_mem {content : List Char} (none : '\x7d' ∉ content) :
    IsContent content := by
  intro within
  have count := within.sublist.count_le '\x7d'
  rw [List.count_append, List.count_eq_zero.mpr none] at count
  exact absurd count (by decide)

theorem isContent_stop (kind : BlockKind) : IsContent (Tag.stop kind.name).written :=
  isContent_of_not_mem (by cases kind <;> decide)

theorem isContent_start {path : String} (ok : IsPath path) (kind : BlockKind) :
    IsContent (Tag.start kind.name path).written := by
  have name : ¬ closing <:+: '#' :: kind.name.toList := by
    cases kind <;> decide
  have parts : ¬ closing <:+: '#' :: kind.name.toList ++ ' ' :: (path.toList ++ ['\x7d']) := by
    rw [infix_append_cons_iff (by decide), not_or]
    exact ⟨name, ok.isContent⟩
  simpa [IsContent, Tag.written] using parts

theorem says_value {path : String} (ok : IsPath path)
    (plain : ∀ c ∈ path.toList.head?, c ≠ '#' ∧ c ≠ '/') :
    Says (Tag.value path).written (.value path) :=
  .value ok.whole plain

theorem says_start {path : String} (ok : IsPath path) (kind : BlockKind) :
    Says (Tag.start kind.name path).written (.start kind.name path) := by
  have word : ∀ c ∈ kind.name.toList, isBlank c = false := by
    cases kind <;> simp [BlockKind.name] <;> decide
  cases chars : path.toList with
  | nil =>
      refine @Says.start _ _ _ [] ?_ word ?_ ?_
      · rw [Tag.written, chars]
        cases kind <;> rfl
      · intro c head
        cases head
      · exact chars.symm
  | cons c rest =>
      refine @Says.start _ _ _ (' ' :: path.toList) ?_ word ?_ ?_
      · refine trimmed_eq_self_iff.mpr ⟨fun c head => ?_, fun c last => ?_⟩
        · cases head
          rfl
        · apply (trimmed_eq_self_iff.mp ok.whole).2
          simpa [Tag.written, chars, List.getLast?_cons, List.getLast?_append] using last
      · intro c head
        cases head
        rfl
      · exact ok.whole

theorem says_stop (kind : BlockKind) :
    Says (Tag.stop kind.name).written (.stop kind.name) := by
  refine @Says.stop _ _ [] ?_ ?_ ?_
  · cases kind <;> rfl
  · intro c head
    cases head
  · cases kind <;> rfl

/-! ### Reading what is printed -/

def charsOf (parts : List Part) : List Char :=
  (writeParts parts).toList

@[simp] theorem charsOf_nil : charsOf [] = [] := rfl

@[simp] theorem charsOf_cons (part : Part) (rest : List Part) :
    charsOf (part :: rest) = part.write.toList ++ charsOf rest := by
  rw [charsOf, writeParts_cons, String.toList_append]
  rfl

theorem toList_write_value (path : String) :
    (Part.value path).write.toList = opening ++ ((Tag.value path).written ++ closing) := by
  simp [Part.write, tagText, Tag.written]

theorem toList_write_block (kind : BlockKind) (path : String) (body : List Part) :
    (Part.block kind path body).write.toList =
      opening ++ ((Tag.start kind.name path).written ++ closing) ++ (charsOf body ++
        (opening ++ ((Tag.stop kind.name).written ++ closing))) := by
  simp [Part.write, tagText, Tag.written, charsOf]

def OpensTag (rest : List Char) : Prop :=
  ∃ more, rest = opening ++ more

theorem opensTag_write {part : Part} (tag : part.isText = false) (rest : List Char) :
    OpensTag (part.write.toList ++ rest) := by
  cases part with
  | text t => cases tag
  | value path =>
      rw [toList_write_value, List.append_assoc]
      exact ⟨_, rfl⟩
  | block kind path body =>
      rw [toList_write_block, List.append_assoc, List.append_assoc]
      exact ⟨_, rfl⟩

theorem isText_nil : IsText [] := by
  intro within
  exact absurd within.length_le (by decide)

theorem tokens_lone_tag {content : List Char} (whole : IsContent content) (rest : List Char)
    (offset : Nat) :
    tokens offset (opening ++ (content ++ closing) ++ rest) =
      .tag (trimmed content) offset ::
        tokens (offset + byteLength (opening ++ (content ++ closing))) rest := by
  rw [List.append_assoc]
  exact tokens_tag isText_nil whole rest offset

theorem tokens_lead {before rest : List Char} (lead : IsText before) (opens : OpensTag rest)
    (offset : Nat) :
    tokens offset (before ++ rest) =
      textToken before ++ tokens (offset + byteLength before) rest := by
  obtain ⟨more, rfl⟩ := opens
  rw [← List.append_assoc]
  cases split : splitFirst? closing more with
  | none =>
      have openEnd := splitFirst?_closing_eq_none_iff.mp split
      rw [tokens_unclosed lead openEnd]
      exact congrArg _ (tokens_unclosed isText_nil openEnd _).symm
  | some found =>
      obtain ⟨content, rest⟩ := found
      have whole : IsContent content := not_infix_of_splitFirst?_double split
      rw [eq_of_splitFirst? split, tokens_tag lead whole, ← List.append_assoc opening,
        tokens_lone_tag whole, List.append_assoc before, byteLength_append before, Nat.add_assoc]

theorem assemble_text {t : String} (some : t ≠ "") (free : ¬ opening <:+: t.toList)
    {rest : List Char}
    (ends : rest = [] ∨ OpensTag rest ∧ t.toList.getLast? ≠ Option.some '\x7b')
    (blocks : List OpenBlock) (parts : List Part) (offset : Nat) :
    assemble blocks parts (tokens offset (t.toList ++ rest)) =
      assemble blocks (.text t :: parts) (tokens (offset + byteLength t.toList) rest) := by
  have part : textPart t.toList = [.text t] := by
    simp [textPart, some]
  have cut : tokens offset (t.toList ++ rest) =
      textToken t.toList ++ tokens (offset + byteLength t.toList) rest := by
    rcases ends with rfl | ⟨opens, last⟩
    · rw [tokens_nil, List.append_nil, List.append_nil, tokens_text free]
    · exact tokens_lead (not_infix_concat free last) opens offset
  rw [cut, assemble_textToken, part]
  rfl

theorem behind_text {t : String} {others : List Part} {tagFollows : Prop}
    (ends : (Part.text t).EndsBefore others tagFollows) {rest : List Char}
    (follows : tagFollows ∧ OpensTag rest ∨ rest = []) :
    charsOf others ++ rest = [] ∨
      OpensTag (charsOf others ++ rest) ∧ t.toList.getLast? ≠ some '\x7b' := by
  obtain ⟨apart, last⟩ := ends
  cases others with
  | nil =>
      rcases follows with ⟨tag, opens⟩ | rfl
      · exact .inr ⟨opens, last (.inr tag)⟩
      · exact .inl rfl
  | cons next more =>
      refine .inr ⟨?_, last (.inl (List.cons_ne_nil _ _))⟩
      rw [charsOf_cons, List.append_assoc]
      exact opensTag_write (apart next rfl) _

mutual
theorem assemble_part {part : Part} (tag : part.isText = false) (normal : part.IsNormal)
    (rest : List Char) (blocks : List OpenBlock) (parts : List Part) (offset : Nat) :
    assemble blocks parts (tokens offset (part.write.toList ++ rest)) =
      assemble blocks (part :: parts) (tokens (offset + byteLength part.write.toList) rest) := by
  cases part with
  | text t => cases tag
  | value path =>
      rw [Part.IsNormal] at normal
      obtain ⟨ok, plain⟩ := normal
      have whole : IsContent (Tag.value path).written := ok.isContent
      rw [toList_write_value, tokens_lone_tag whole, assemble_tag _ _ _ _ (says_value ok plain)]
  | block kind path body =>
      rw [Part.IsNormal] at normal
      obtain ⟨ok, inner⟩ := normal
      have opens : OpensTag (opening ++ ((Tag.stop kind.name).written ++ closing) ++ rest) :=
        ⟨_, List.append_assoc ..⟩
      rw [toList_write_block, List.append_assoc, tokens_lone_tag (isContent_start ok kind),
        assemble_tag _ _ _ _ (says_start ok kind)]
      simp only [BlockKind.ofName?_name]
      rw [List.append_assoc, assemble_parts inner (.inl ⟨trivial, opens⟩),
        tokens_lone_tag (isContent_stop kind), assemble_tag _ _ _ _ (says_stop kind)]
      simp only [if_true, List.append_nil, List.reverse_reverse, byteLength_append, Nat.add_assoc]

theorem assemble_parts {all : List Part} {tagFollows : Prop} (normal : AreNormal tagFollows all)
    {rest : List Char} (follows : tagFollows ∧ OpensTag rest ∨ rest = []) (blocks : List OpenBlock)
    (parts : List Part) (offset : Nat) :
    assemble blocks parts (tokens offset (charsOf all ++ rest)) =
      assemble blocks (all.reverse ++ parts) (tokens (offset + byteLength (charsOf all)) rest) := by
  cases all with
  | nil => rfl
  | cons part others =>
      rw [AreNormal] at normal
      obtain ⟨first, ends, later⟩ := normal
      have step :
          assemble blocks parts
              (tokens offset (part.write.toList ++ (charsOf others ++ rest))) =
            assemble blocks (part :: parts)
              (tokens (offset + byteLength part.write.toList) (charsOf others ++ rest)) := by
        cases part with
        | text t =>
            rw [Part.IsNormal] at first
            rw [Part.write]
            exact assemble_text first.1 first.2 (behind_text ends follows) blocks parts offset
        | value path => exact assemble_part rfl first _ blocks parts offset
        | block kind path body => exact assemble_part rfl first _ blocks parts offset
      rw [charsOf_cons, List.append_assoc, step, assemble_parts later follows, byteLength_append,
        Nat.add_assoc, List.reverse_cons, List.append_assoc, List.singleton_append]
end

theorem read_writeParts {parts : List Part} (normal : AreNormal False parts) :
    read (writeParts parts) = .ok parts := by
  have run := assemble_parts normal (.inr rfl) [] [] 0
  rw [List.append_nil, tokens_nil, assemble, List.append_nil, List.reverse_reverse] at run
  exact run

end NodeWeave.Template

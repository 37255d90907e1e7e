import NodeWeave.Template.Printer
import NodeWeave.Proofs.Template.Cut

/-!
What tags say, as a relation between the content of a tag and its meaning. The blanks around the
content and between its parts are free.
-/

namespace NodeWeave.Text

variable {text : List Char}

/-! ### Trimmed texts -/

theorem dropBlanks_eq_self_iff :
    dropBlanks text = text ↔ ∀ c ∈ text.head?, isBlank c = false := by
  cases text with
  | nil => simp [dropBlanks]
  | cons c rest =>
      cases blank : isBlank c with
      | false => simp [dropBlanks, blank]
      | true =>
          have shorter : (dropBlanks (c :: rest)).length ≤ rest.length := by
            simpa [dropBlanks, blank] using (List.dropWhile_suffix _).length_le
          refine iff_of_false (fun same => ?_) (by simpa using blank)
          rw [same] at shorter
          exact absurd shorter (by simp)

theorem dropBlanksEnd_eq_self_iff :
    dropBlanksEnd text = text ↔ ∀ c ∈ text.getLast?, isBlank c = false := by
  have reversed : dropBlanks text.reverse = text.reverse ↔
      ∀ c ∈ text.reverse.head?, isBlank c = false := dropBlanks_eq_self_iff
  rw [List.head?_reverse] at reversed
  rw [← reversed, dropBlanksEnd, List.reverse_eq_iff]
  rfl

theorem dropBlanksEnd_isPrefixOf (text : List Char) : dropBlanksEnd text <+: text := by
  rw [dropBlanksEnd, ← List.reverse_suffix, List.reverse_reverse]
  exact List.dropWhile_suffix _

theorem not_of_mem_head?_dropWhile {p : Char → Bool} {c : Char}
    (head : c ∈ (text.dropWhile p).head?) : p c = false := by
  have first := List.head?_dropWhile_not p text
  rwa [Option.mem_def.mp head] at first

theorem dropBlanks_dropBlanks (text : List Char) : dropBlanks (dropBlanks text) = dropBlanks text :=
  dropBlanks_eq_self_iff.mpr fun _ head => not_of_mem_head?_dropWhile head

theorem dropBlanksEnd_dropBlanksEnd (text : List Char) :
    dropBlanksEnd (dropBlanksEnd text) = dropBlanksEnd text := by
  rw [dropBlanksEnd, dropBlanksEnd, List.reverse_reverse]
  exact congrArg List.reverse (dropBlanks_dropBlanks _)

end NodeWeave.Text

namespace NodeWeave.Template

open Text Mark

variable {text content : List Char}

theorem trimmed_eq_self_iff :
    trimmed text = text ↔
      (∀ c ∈ text.head?, isBlank c = false) ∧ ∀ c ∈ text.getLast?, isBlank c = false := by
  rw [← dropBlanks_eq_self_iff, ← dropBlanksEnd_eq_self_iff, trimmed]
  constructor
  · intro same
    have suffix : dropBlanks text <:+ text := List.dropWhile_suffix _
    have long : text.length ≤ (dropBlanks text).length := by
      simpa [same] using (dropBlanksEnd_isPrefixOf (dropBlanks text)).length_le
    have start : dropBlanks text = text := suffix.eq_of_length_le long
    exact ⟨start, by rwa [start] at same⟩
  · rintro ⟨start, stop⟩
    rw [start, stop]

theorem trimmed_trimmed (text : List Char) : trimmed (trimmed text) = trimmed text := by
  refine trimmed_eq_self_iff.mpr ⟨fun c head => ?_, ?_⟩
  · obtain ⟨rest, same⟩ := dropBlanksEnd_isPrefixOf (dropBlanks text)
    have free : c ∈ (dropBlanks text).head? → isBlank c = false := not_of_mem_head?_dropWhile
    apply free
    rw [← same, List.head?_append, show (dropBlanksEnd _).head? = some c from head]
    rfl
  · exact dropBlanksEnd_eq_self_iff.mp (dropBlanksEnd_dropBlanksEnd _)

theorem solid_of_blank {blanks : List Char} (blank : ∀ c ∈ blanks, isBlank c = true) :
    solid blanks = [] := by
  apply List.filter_eq_nil_iff.mpr
  intro c mem
  simp [blank c mem]

theorem solid_dropBlanks (text : List Char) : solid (dropBlanks text) = solid text := by
  have front : solid (text.takeWhile isBlank) = [] :=
    solid_of_blank (List.all_eq_true.mp List.all_takeWhile)
  calc solid (dropBlanks text) = solid (text.takeWhile isBlank ++ dropBlanks text) := by
        rw [solid_append, front, List.nil_append]
    _ = solid text := by rw [dropBlanks, List.takeWhile_append_dropWhile]

theorem solid_trimmed (text : List Char) : solid (trimmed text) = solid text := by
  obtain ⟨blanks, same, blank⟩ := exists_dropBlanksEnd (dropBlanks text)
  calc solid (trimmed text) = solid (trimmed text ++ blanks) := by
        rw [solid_append, solid_of_blank blank, List.append_nil]
    _ = solid (dropBlanks text) := congrArg solid same.symm
    _ = solid text := solid_dropBlanks text

/-! ### What tags say -/

/-- The content of a tag says something about values and blocks. -/
inductive Says (content : List Char) : Tag → Prop
  | value {path : String} (same : trimmed content = path.toList)
      (plain : ∀ c ∈ path.toList.head?, c ≠ '#' ∧ c ≠ '/') : Says content (.value path)
  | start {name path : String} {gap : List Char}
      (same : trimmed content = '#' :: (name.toList ++ gap))
      (word : ∀ c ∈ name.toList, isBlank c = false) (apart : ∀ c ∈ gap.head?, isBlank c = true)
      (rest : trimmed gap = path.toList) : Says content (.start name path)
  | stop {name : String} {gap : List Char}
      (same : trimmed content = '/' :: (gap ++ name.toList))
      (blank : ∀ c ∈ gap, isBlank c = true) (whole : trimmed name.toList = name.toList) :
      Says content (.stop name)

theorem says_ofContent (content : List Char) : Says content (Tag.ofContent (trimmed content)) := by
  unfold Tag.ofContent
  split
  · next rest same =>
      refine @Says.start _ _ _ (rest.dropWhile fun c => !isBlank c) ?_ ?_ ?_ ?_
      · rw [same, String.toList_ofList, List.takeWhile_append_dropWhile]
      · intro c mem
        rw [String.toList_ofList] at mem
        simpa using List.all_eq_true.mp List.all_takeWhile c mem
      · intro c head
        simpa using not_of_mem_head?_dropWhile head
      · rw [String.toList_ofList]
  · next rest same =>
      have stop : dropBlanksEnd (dropBlanks rest) = dropBlanks rest := by
        refine dropBlanksEnd_eq_self_iff.mpr fun c last => ?_
        apply (trimmed_eq_self_iff.mp (trimmed_trimmed content)).2
        obtain ⟨front, apart⟩ : dropBlanks rest <:+ '/' :: rest :=
          (List.dropWhile_suffix _).trans (List.suffix_cons _ _)
        rw [same, ← apart, List.getLast?_append, Option.mem_def.mp last]
        rfl
      refine @Says.stop _ _ (rest.takeWhile isBlank) ?_ ?_ ?_
      · rw [same, String.toList_ofList, trimmed, stop, dropBlanks, List.takeWhile_append_dropWhile]
      · exact List.all_eq_true.mp List.all_takeWhile
      · rw [String.toList_ofList, trimmed_trimmed]
  · next noStart noStop =>
      refine .value (by rw [String.toList_ofList]) fun c head => ?_
      rw [String.toList_ofList] at head
      obtain ⟨rest, same⟩ := List.head?_eq_some_iff.mp head
      constructor
      · rintro rfl
        exact noStart rest same
      · rintro rfl
        exact noStop rest same

theorem Says.eq_ofContent {tag : Tag} (meant : Says content tag) :
    Tag.ofContent (trimmed content) = tag := by
  cases meant with
  | @value path same plain =>
      rw [same]
      unfold Tag.ofContent
      split
      · next rest start => exact absurd rfl (plain '#' (by rw [start]; rfl)).1
      · next rest start => exact absurd rfl (plain '/' (by rw [start]; rfl)).2
      · rw [String.ofList_toList]
  | @start name path gap same word apart rest =>
      have solid : ∀ c ∈ name.toList, (!isBlank c) = true := fun c mem => by rw [word c mem]; rfl
      have stops : gap.takeWhile (fun c => !isBlank c) = [] ∧
          gap.dropWhile (fun c => !isBlank c) = gap := by
        cases gap with
        | nil => exact ⟨rfl, rfl⟩
        | cons c gap =>
            have blank : ¬ (!isBlank c) = true := by simp [apart c rfl]
            exact ⟨List.takeWhile_cons_of_neg blank, List.dropWhile_cons_of_neg blank⟩
      rw [same]
      simp only [Tag.ofContent]
      rw [List.takeWhile_append_of_pos solid, List.dropWhile_append_of_pos solid, stops.1, stops.2,
        rest, List.append_nil, String.ofList_toList, String.ofList_toList]
  | @stop name gap same blank whole =>
      have skip : dropBlanks (gap ++ name.toList) = dropBlanks name.toList :=
        List.dropWhile_append_of_pos blank
      rw [same]
      change Tag.stop (String.ofList (trimmed (gap ++ name.toList))) = .stop name
      rw [trimmed, skip, ← trimmed, whole, String.ofList_toList]

def Tag.written : Tag → List Char
  | .value path => path.toList
  | .start name path => '#' :: (name.toList ++ ' ' :: path.toList)
  | .stop name => '/' :: name.toList

/-- Printing a tag changes nothing but its blanks. -/
theorem Says.solid_written {tag : Tag} (meant : Says content tag) :
    solid tag.written = solid content := by
  rw [← solid_trimmed content]
  cases meant with
  | value same plain => rw [same, Tag.written]
  | @start name path gap same word apart rest =>
      have parted : solid (' ' :: path.toList) = solid gap := by
        rw [← rest, ← solid_trimmed gap]
        rfl
      rw [same, Tag.written, ← List.singleton_append, solid_append, solid_append, parted,
        ← solid_append, ← solid_append]
      rfl
  | @stop name gap same blank whole =>
      rw [same, Tag.written, ← List.singleton_append, ← List.singleton_append (l := gap ++ _),
        solid_append, solid_append, solid_append, solid_of_blank blank, List.nil_append]

/-! ### What tags do -/

theorem assemble_tag {tag : Tag} (blocks : List OpenBlock) (parts : List Part) (offset : Nat)
    (rest : List Token) : Says content tag →
    assemble blocks parts (.tag (trimmed content) offset :: rest) =
      match tag with
      | .value path => assemble blocks (.value path :: parts) rest
      | .start name path =>
          match BlockKind.ofName? name with
          | some kind => assemble (⟨kind, path, parts⟩ :: blocks) [] rest
          | none => .error (.unknownBlock name)
      | .stop name =>
          match blocks with
          | [] => .error (.unexpectedClose name offset)
          | b :: outer =>
              if b.kind.name = name then
                assemble outer (.block b.kind b.path parts.reverse :: b.before) rest
              else .error (.unexpectedClose name offset) := by
  intro meant
  obtain rfl := meant.eq_ofContent
  rfl

def textPart (text : List Char) : List Part :=
  if text.isEmpty then [] else [.text (String.ofList text)]

theorem assemble_textToken (blocks : List OpenBlock) (parts : List Part) (text : List Char)
    (rest : List Token) :
    assemble blocks parts (textToken text ++ rest) =
      assemble blocks (textPart text ++ parts) rest := by
  unfold textToken textPart
  split <;> rfl

end NodeWeave.Template

import NodeWeave.Proofs.Template.Printed

/-!
Reading and printing templates. A template that is read is printed again up to the blanks in its
tags; where none is read, the problem names the place of the tag that is at fault.
-/

namespace NodeWeave.Template

open Text Mark

/-! ### What has been read -/

/-- Two templates differ at most in the blanks inside of tags; the tags are those of the first. -/
inductive Respaced : List Char → List Char → Prop
  | text {text : List Char} (free : ¬ opening <:+: text) : Respaced text text
  | tag {before content written rest others : List Char} (lead : IsText before)
      (whole : IsContent content) (same : solid written = solid content)
      (later : Respaced rest others) :
      Respaced (before ++ opening ++ (content ++ closing ++ rest))
        (before ++ opening ++ (written ++ closing ++ others))

def openChars : List OpenBlock → List Part → List Char
  | [], parts => charsOf parts.reverse
  | b :: outer, parts =>
      openChars outer b.before ++ (opening ++ (Tag.start b.kind.name b.path).written ++ closing) ++
        charsOf parts.reverse

theorem charsOf_append (a b : List Part) : charsOf (a ++ b) = charsOf a ++ charsOf b := by
  rw [charsOf, writeParts_append, String.toList_append]
  rfl

theorem openChars_append (blocks : List OpenBlock) (new parts : List Part) :
    openChars blocks (new ++ parts) = openChars blocks parts ++ charsOf new.reverse := by
  cases blocks <;> simp [openChars, charsOf_append]

theorem charsOf_textPart (text : List Char) : charsOf (textPart text).reverse = text := by
  unfold textPart
  split
  · next empty => simpa using (List.isEmpty_iff.mp empty).symm
  · simp [Part.write]

/-- A tag that is read leads on, and is kept up to its blanks. -/
theorem exists_of_assemble_tag {content : List Char} {blocks : List OpenBlock} {parts : List Part}
    {offset : Nat} {rest : List Token} {all : List Part}
    (read : assemble blocks parts (.tag (trimmed content) offset :: rest) = .ok all) :
    ∃ inner more written, assemble inner more rest = .ok all ∧ solid written = solid content ∧
      openChars inner more = openChars blocks parts ++ (opening ++ written ++ closing) := by
  have meant := says_ofContent content
  rw [assemble_tag _ _ _ _ meant] at read
  generalize Tag.ofContent (trimmed content) = tag at meant read
  have same := meant.solid_written
  cases tag with
  | value path =>
      refine ⟨blocks, .value path :: parts, _, read, same, ?_⟩
      rw [← List.singleton_append, openChars_append]
      simp [toList_write_value]
  | start name path =>
      simp only at read
      split at read
      · next kind known =>
          have named := BlockKind.ofName?_eq_some_iff.mp known
          subst named
          exact ⟨_, _, _, read, same, by simp [openChars]⟩
      · cases read
  | stop name =>
      simp only at read
      split at read
      · cases read
      · next b outer =>
          split at read
          · next named =>
              subst named
              refine ⟨_, _, _, read, same, ?_⟩
              rw [← List.singleton_append, openChars_append]
              simp [toList_write_block, openChars]
          · cases read

theorem exists_respaced (text : List Char) {blocks : List OpenBlock} {parts all : List Part}
    {offset : Nat} (read : assemble blocks parts (tokens offset text) = .ok all) :
    ∃ others, Respaced text others ∧ charsOf all = openChars blocks parts ++ others := by
  induction text using cut_induction generalizing blocks parts offset with
  | text text free =>
      rw [tokens_text free, ← List.append_nil (textToken text), assemble_textToken] at read
      cases blocks with
      | nil =>
          cases read
          refine ⟨text, .text free, ?_⟩
          rw [List.reverse_append, charsOf_append, charsOf_textPart]
          rfl
      | cons b outer => cases read
  | unclosed before rest lead openEnd =>
      rw [tokens_unclosed lead openEnd, assemble_textToken, assemble] at read
      cases read
  | tag before content rest lead whole ih =>
      rw [tokens_tag lead whole, assemble_textToken] at read
      obtain ⟨inner, more, written, later, same, chars⟩ := exists_of_assemble_tag read
      obtain ⟨others, respaced, printed⟩ := ih later
      refine ⟨_, .tag lead whole same respaced, ?_⟩
      rw [printed, chars, openChars_append, charsOf_textPart]
      simp only [List.append_assoc]

/-! ### Where reading fails -/

inductive Segment where
  | text (text : List Char)
  /-- What stands between the braces of a tag. -/
  | tag (content : List Char)

def Segment.chars : Segment → List Char
  | text t => t
  | tag content => opening ++ content ++ closing

def segmentChars (segments : List Segment) : List Char :=
  segments.flatMap Segment.chars

/-- Complete tags and texts leave blocks open, the innermost first. The end of a block closes the
innermost one, which is of its kind. -/
inductive LeavesOpen : List Segment → List BlockKind → Prop
  | nothing : LeavesOpen [] []
  | text {segments : List Segment} {kinds : List BlockKind} {text : List Char}
      (before : LeavesOpen segments kinds) (lead : IsText text) :
      LeavesOpen (segments ++ [.text text]) kinds
  | value {segments : List Segment} {kinds : List BlockKind} {content : List Char} {path : String}
      (before : LeavesOpen segments kinds) (whole : IsContent content)
      (meant : Says content (.value path)) : LeavesOpen (segments ++ [.tag content]) kinds
  | start {segments : List Segment} {kinds : List BlockKind} {content : List Char} {path : String}
      (kind : BlockKind) (before : LeavesOpen segments kinds) (whole : IsContent content)
      (meant : Says content (.start kind.name path)) :
      LeavesOpen (segments ++ [.tag content]) (kind :: kinds)
  | stop {segments : List Segment} {kinds : List BlockKind} {content : List Char}
      (kind : BlockKind) (before : LeavesOpen segments (kind :: kinds)) (whole : IsContent content)
      (meant : Says content (.stop kind.name)) : LeavesOpen (segments ++ [.tag content]) kinds

/-- A problem of reading describes a template: where a tag is at fault, the offset is that of the
tag, and complete tags and texts stand in front of it. -/
def Problem.Describes (template : List Char) : Problem → Prop
  | unclosedTag offset => ∃ segments kinds rest,
      template = segmentChars segments ++ opening ++ rest ∧
        offset = byteLength (segmentChars segments) ∧ LeavesOpen segments kinds ∧
        ¬ closing <:+: rest
  | unexpectedClose name offset => ∃ segments kinds content rest,
      template = segmentChars segments ++ opening ++ (content ++ closing ++ rest) ∧
        offset = byteLength (segmentChars segments) ∧ LeavesOpen segments kinds ∧
        IsContent content ∧ Says content (.stop name) ∧ ∀ kind ∈ kinds.head?, kind.name ≠ name
  | unknownBlock name => ∃ segments kinds content path rest,
      template = segmentChars segments ++ opening ++ (content ++ closing ++ rest) ∧
        LeavesOpen segments kinds ∧ IsContent content ∧ Says content (.start name path) ∧
        ∀ kind : BlockKind, kind.name ≠ name
  | unclosedBlock kind => ∃ segments kinds rest,
      template = segmentChars segments ++ rest ∧ LeavesOpen segments (kind :: kinds) ∧
        ¬ opening <:+: rest
  | unknownValue _ | notAList _ => False

theorem describes_or_exists_of_tag (rest : List Char) {content : List Char}
    {segments : List Segment} {blocks : List OpenBlock} {parts : List Part} {later : List Token}
    {problem : Problem}
    (opened : LeavesOpen segments (blocks.map OpenBlock.kind)) (whole : IsContent content)
    (failed : assemble blocks parts
      (.tag (trimmed content) (byteLength (segmentChars segments)) :: later) = .error problem) :
    problem.Describes (segmentChars segments ++ opening ++ (content ++ closing ++ rest)) ∨
      ∃ inner more, LeavesOpen (segments ++ [.tag content]) (inner.map OpenBlock.kind) ∧
        assemble inner more later = .error problem := by
  have meant := says_ofContent content
  rw [assemble_tag _ _ _ _ meant] at failed
  generalize Tag.ofContent (trimmed content) = tag at meant failed
  cases tag with
  | value path => exact .inr ⟨_, _, .value opened whole meant, failed⟩
  | start name path =>
      simp only at failed
      split at failed
      · next kind known =>
          have named := BlockKind.ofName?_eq_some_iff.mp known
          subst named
          exact .inr ⟨⟨kind, path, parts⟩ :: blocks, [], .start kind opened whole meant, failed⟩
      · next unknown =>
          cases failed
          refine .inl ⟨segments, _, content, path, rest, rfl, opened, whole, meant, ?_⟩
          rintro kind rfl
          exact absurd (unknown.symm.trans (BlockKind.ofName?_name kind)) nofun
  | stop name =>
      simp only at failed
      split at failed
      · cases failed
        exact .inl ⟨segments, _, content, rest, rfl, rfl, opened, whole, meant, nofun⟩
      · next b outer =>
          split at failed
          · next named =>
              subst named
              exact .inr ⟨_, _, .stop b.kind opened whole meant, failed⟩
          · next differs =>
              cases failed
              refine .inl ⟨segments, _, content, rest, rfl, rfl, opened, whole, meant, ?_⟩
              rintro kind same
              cases same
              exact differs

theorem describes_of_error (text : List Char) {segments : List Segment} {blocks : List OpenBlock}
    {parts : List Part} {problem : Problem}
    (opened : LeavesOpen segments (blocks.map OpenBlock.kind))
    (failed : assemble blocks parts (tokens (byteLength (segmentChars segments)) text) =
      .error problem) : problem.Describes (segmentChars segments ++ text) := by
  induction text using cut_induction generalizing segments blocks parts with
  | text text free =>
      rw [tokens_text free, ← List.append_nil (textToken text), assemble_textToken] at failed
      cases blocks with
      | nil => cases failed
      | cons b outer =>
          cases failed
          exact ⟨segments, _, text, rfl, opened, free⟩
  | unclosed before rest lead openEnd =>
      rw [tokens_unclosed lead openEnd, assemble_textToken, assemble] at failed
      cases failed
      refine ⟨segments ++ [.text before], _, rest, ?_, ?_, .text opened lead, openEnd⟩
      · simp [segmentChars, Segment.chars]
      · simp [segmentChars, Segment.chars]
  | tag before content rest lead whole ih =>
      have front : segmentChars (segments ++ [.text before]) = segmentChars segments ++ before := by
        simp [segmentChars, Segment.chars]
      rw [tokens_tag lead whole, assemble_textToken, ← byteLength_append, ← byteLength_append,
        ← front] at failed
      rcases describes_or_exists_of_tag rest (.text opened lead) whole failed with
        here | ⟨inner, more, opened, failed⟩
      · rw [front] at here
        simpa only [List.append_assoc] using here
      · have through : segmentChars (segments ++ [.text before] ++ [.tag content]) =
            segmentChars segments ++ (before ++ opening ++ (content ++ closing)) := by
          simp [segmentChars, Segment.chars]
        rw [← through] at failed
        have later := ih opened failed
        rw [through] at later
        simpa only [List.append_assoc] using later

/-- Parts in normal form are read from what is printed of them, a template that is read is printed
again up to the blanks in its tags, and a problem of reading describes its template. -/
theorem read_writeParts_and_back :
    (∀ parts, AreNormal False parts → read (writeParts parts) = .ok parts) ∧
    (∀ template parts, read template = .ok parts →
      Respaced template.toList (writeParts parts).toList) ∧
    ∀ template problem, read template = .error problem → problem.Describes template.toList := by
  refine ⟨fun parts => read_writeParts, fun template parts done => ?_,
    fun template problem failed => ?_⟩
  · obtain ⟨others, respaced, chars⟩ := exists_respaced _ done
    rw [openChars, List.reverse_nil, charsOf_nil, List.nil_append] at chars
    change Respaced _ (charsOf parts)
    rwa [chars]
  · have atStart : LeavesOpen [] (([] : List OpenBlock).map OpenBlock.kind) := .nothing
    exact describes_of_error template.toList atStart failed

def nestedParts : List Part :=
  [.text "é \x7b.", .block .each "xs" [.value "this", .text " \x7d"], .text "\x7b"]

theorem areNormal_nestedParts : AreNormal False nestedParts := by
  have list : IsPath "xs" := ⟨by decide, by decide, by decide⟩
  have item : IsPath "this" := ⟨by decide, by decide, by decide⟩
  simp [nestedParts, AreNormal, Part.IsNormal, Part.EndsBefore, Part.isText, list, item]
  decide

theorem read_strayEnd : read "é \x7b\x7b/ if\x7d\x7d" = .error (.unexpectedClose "if" 3) := by
  have lead : IsText "é ".toList := by decide
  have whole : IsContent "/ if".toList := by decide
  have cut := tokens_tag lead whole [] 0
  rw [tokens_nil] at cut
  exact congrArg (assemble [] []) cut

theorem read_writeParts_and_back_nested :
    AreNormal False nestedParts ∧ read (writeParts nestedParts) = .ok nestedParts ∧
      Respaced (writeParts nestedParts).toList (writeParts nestedParts).toList ∧
      read "é \x7b\x7b/ if\x7d\x7d" = .error (.unexpectedClose "if" 3) ∧
      (Problem.unexpectedClose "if" 3).Describes "é \x7b\x7b/ if\x7d\x7d".toList := by
  obtain ⟨back, respaced, describes⟩ := read_writeParts_and_back
  have done := back nestedParts areNormal_nestedParts
  exact ⟨areNormal_nestedParts, done, respaced _ _ done, read_strayEnd, describes _ _ read_strayEnd⟩

theorem append_inj_of_byteLength {a b x y : List Char} (same : a ++ x = b ++ y)
    (long : byteLength a = byteLength b) : a = b ∧ x = y := by
  induction a generalizing b with
  | nil =>
      cases b with
      | nil => exact ⟨rfl, same⟩
      | cons d b =>
          have pos := d.utf8Size_pos
          simp only [byteLength_nil, byteLength_cons] at long
          omega
  | cons c a ih =>
      cases b with
      | nil =>
          have pos := c.utf8Size_pos
          simp only [byteLength_nil, byteLength_cons] at long
          omega
      | cons d b =>
          obtain ⟨rfl, tails⟩ := List.cons.inj same
          obtain ⟨rfl, rest⟩ := ih tails (Nat.add_left_cancel long)
          exact ⟨rfl, rest⟩

/-- Blanks may stand between the slash and the name. -/
theorem not_slash_then_name :
    ¬ ∀ template name offset, read template = .error (.unexpectedClose name offset) →
      ∃ before content rest, template.toList = before ++ opening ++ (content ++ closing ++ rest) ∧
        offset = byteLength before ∧ IsContent content ∧
        trimmed content = '/' :: name.toList := by
  intro claim
  obtain ⟨before, content, rest, same, start, whole, slash⟩ := claim _ _ _ read_strayEnd
  have same : "é ".toList ++ (opening ++ "/ if\x7d\x7d".toList) =
      before ++ (opening ++ (content ++ closing ++ rest)) := by
    rwa [List.append_assoc] at same
  obtain ⟨-, tag⟩ := append_inj_of_byteLength same start
  have split := splitFirst?_double whole rest
  rw [← closing, ← List.append_cancel_left tag] at split
  cases split
  exact absurd slash (by decide)

end NodeWeave.Template

import NodeWeave.Proofs.Template.Printed
import NodeWeave.Proofs.Text.LastDot
import NodeWeave.Template.Support

/-!
The built-in templates are in normal form, so that what is read from their texts are their parts.
-/

namespace NodeWeave.Template.Support

/-! ### Paths -/

def isSpelled (text : String) : Bool :=
  text.toList.all fun c => c.isAlpha || c == '.'

section

variable {path : String} (spelled : isSpelled path = true)

include spelled

theorem not_mem_of_isSpelled {c : Char} (other : (c.isAlpha || c == '.') = false) :
    c ∉ path.toList := by
  intro mem
  rw [List.all_eq_true.mp spelled c mem] at other
  cases other

theorem solid_of_isSpelled {c : Char} (mem : c ∈ path.toList) : Text.isBlank c = false := by
  have kind := List.all_eq_true.mp spelled c mem
  rw [Bool.or_eq_true, beq_iff_eq] at kind
  rcases kind with alpha | rfl
  · have alnum : c.isAlphanum = true := by rw [Char.isAlphanum, alpha, Bool.true_or]
    exact Text.isBlank_eq_false_of_isWord (Text.isWord_of_isAlphanum alnum)
  · decide

theorem isPath_of_isSpelled : IsPath path where
  whole := trimmed_eq_self_iff.mpr
    ⟨fun _ head => solid_of_isSpelled spelled (List.mem_of_head? head),
      fun _ last => solid_of_isSpelled spelled (List.mem_of_getLast? last)⟩
  free inside := not_mem_of_isSpelled spelled (by decide) (inside.subset List.mem_cons_self)
  last ends := not_mem_of_isSpelled spelled (by decide) (List.mem_of_getLast? ends)

end

/-! ### Lines -/

/-- Lines with too few braces for a tag, where the last one does not run into a tag behind it. -/
structure AreClear (texts : List String) : Prop where
  several : 1 < texts.length
  lone : ∀ line ∈ texts, line.toList.count '\x7b' ≤ 1
  last : ∀ line ∈ texts.getLast?, line.toList.getLast? ≠ some '\x7b'

theorem not_infix_of_lone {text : List Char} (lone : text.count '\x7b' ≤ 1) :
    ¬ opening <:+: text := by
  intro inside
  have two : opening.count '\x7b' ≤ text.count '\x7b' := inside.sublist.count_le _
  exact absurd (two.trans lone) (by decide)

theorem AreClear.join_ne {texts : List String} (clear : AreClear texts) :
    Text.join "\n" texts ≠ "" := by
  have feed : '\n' ∈ (Text.join "\n" texts).toList :=
    Text.mem_join_iff.mpr (.inr ⟨List.mem_singleton_self _, clear.several⟩)
  rintro empty
  rw [empty] at feed
  cases feed

theorem not_infix_join {texts : List String}
    (lone : ∀ line ∈ texts, line.toList.count '\x7b' ≤ 1) :
    ¬ opening <:+: (Text.join "\n" texts).toList := by
  induction texts with
  | nil => decide
  | cons line rest ih =>
      obtain ⟨here, later⟩ := List.forall_mem_cons.mp lone
      have clear := not_infix_of_lone here
      by_cases none : rest = []
      · rw [none]
        exact clear
      · rw [Text.join_cons "\n" line none]
        have chars : (line ++ "\n" ++ Text.join "\n" rest).toList =
            line.toList ++ '\n' :: (Text.join "\n" rest).toList := by simp
        rw [chars, infix_append_cons_iff (by decide), not_or]
        exact ⟨clear, ih later⟩

theorem AreClear.getLast?_ne {texts : List String} (clear : AreClear texts) :
    (Text.join "\n" texts).toList.getLast? ≠ some '\x7b' := by
  obtain ⟨front, last, rfl⟩ := (List.eq_nil_or_concat' texts).resolve_left fun none => by
    have several := clear.several
    simp [none] at several
  have some : front ≠ [] := by
    rintro rfl
    exact absurd clear.several (by simp)
  have ends := clear.last last (by simp)
  rw [Text.join_concat "\n" some, String.toList_append, String.toList_append,
    List.getLast?_append, List.getLast?_append]
  cases behind : last.toList.getLast? with
  | none => simp
  | some c => simpa [behind] using ends

section

variable {tagFollows : Prop} {rest : List Part}

theorem areNormal_lines {texts : List String} (later : AreNormal tagFollows rest)
    (apart : ∀ next ∈ rest.head?, next.isText = false) (clear : AreClear texts) :
    AreNormal tagFollows (lines texts :: rest) := by
  rw [lines, AreNormal, Part.IsNormal]
  exact ⟨⟨clear.join_ne, not_infix_join clear.lone⟩, ⟨apart, fun _ => clear.getLast?_ne⟩, later⟩

theorem areNormal_value {path : String} (later : AreNormal tagFollows rest)
    (spelled : isSpelled path = true) : AreNormal tagFollows (.value path :: rest) := by
  rw [AreNormal, Part.IsNormal]
  refine ⟨⟨isPath_of_isSpelled spelled, fun c head => ⟨?_, ?_⟩⟩, trivial, later⟩
  all_goals
    rintro rfl
    exact not_mem_of_isSpelled spelled (by decide) (List.mem_of_head? head)

theorem areNormal_block {kind : BlockKind} {path : String} {body : List Part}
    (later : AreNormal tagFollows rest) (spelled : isSpelled path = true)
    (inner : AreNormal True body) : AreNormal tagFollows (.block kind path body :: rest) := by
  rw [AreNormal, Part.IsNormal]
  exact ⟨⟨isPath_of_isSpelled spelled, inner⟩, trivial, later⟩

theorem areNormal_text {t : String} (later : AreNormal tagFollows rest) (named : t ≠ "")
    (lone : t.toList.count '\x7b' ≤ 1) (last : t.toList.getLast? ≠ some '\x7b')
    (apart : ∀ next ∈ rest.head?, next.isText = false) :
    AreNormal tagFollows (.text t :: rest) := by
  rw [AreNormal, Part.IsNormal]
  exact ⟨⟨named, not_infix_of_lone lone⟩, ⟨apart, fun _ => last⟩, later⟩

end

/-! ### Templates -/

theorem isNormal_packageStatement : Part.IsNormal
    (.block .whenTrue "package" [.text "package ", .value "package", .text ";"]) := by
  have stop : AreNormal True [.text ";"] :=
    areNormal_text (by rw [AreNormal]; trivial) (by decide) (by decide) (by decide) nofun
  have inner := areNormal_value stop (show isSpelled "package" = true by decide)
  rw [Part.IsNormal]
  refine ⟨isPath_of_isSpelled (by decide), ?_⟩
  exact areNormal_text inner (by decide) (by decide) (by decide) (by simp [Part.isText])

theorem areNormal_stackClass : AreNormal False stackClass := by
  have root : isSpelled "grammar.rootNode.class.qualifiedName" = true := by decide
  unfold stackClass rootClass
  rw [AreNormal]
  refine ⟨isNormal_packageStatement, trivial, ?_⟩
  repeat
    first
    | refine areNormal_lines ?_ (by simp [Part.isText]) ?_
    | refine areNormal_value ?_ root
    | refine areNormal_value ?_ (by decide)
  · trivial
  all_goals
    refine ⟨by decide, ?_, ?_⟩
    · simp only [List.forall_mem_cons]
      repeat rw [String.toList_ofList]
      decide
    · simp only [List.getLast?_cons_cons, List.getLast?_singleton, Option.mem_def,
        Option.some.injEq, forall_eq']
      repeat rw [String.toList_ofList]
      decide

theorem areNormal_declaration : AreNormal True
    [.text "  int ", .value "constant", .text " = ", .value "value", lines [";", ""]] := by
  have stop : AreNormal True [lines [";", ""]] :=
    areNormal_lines (by rw [AreNormal]; trivial) nofun ⟨by decide, by decide, by decide⟩
  have number := areNormal_value stop (show isSpelled "value" = true by decide)
  have assigned := areNormal_text number (t := " = ") (by decide) (by decide) (by decide)
    (by simp [Part.isText])
  have constant := areNormal_value assigned (show isSpelled "constant" = true by decide)
  exact areNormal_text constant (by decide) (by decide) (by decide) (by simp [Part.isText])

theorem areNormal_element : AreNormal True
    [.text "    \"", .value "name", lines ["\",", ""]] := by
  have stop : AreNormal True [lines ["\",", ""]] :=
    areNormal_lines (by rw [AreNormal]; trivial) nofun ⟨by decide, by decide, by decide⟩
  have name := areNormal_value stop (show isSpelled "name" = true by decide)
  exact areNormal_text name (by decide) (by decide) (by decide) (by simp [Part.isText])

theorem areNormal_constantsInterface : AreNormal False constantsInterface := by
  have constants : isSpelled "grammar.nodeConstants" = true := by decide
  unfold constantsInterface
  rw [AreNormal]
  refine ⟨isNormal_packageStatement, trivial, ?_⟩
  repeat
    first
    | refine areNormal_lines ?_ (by simp [Part.isText]) ⟨by decide, by decide, by decide⟩
    | refine areNormal_value ?_ (by decide)
    | refine areNormal_block ?_ constants areNormal_declaration
    | refine areNormal_block ?_ constants areNormal_element
  trivial

/-! ### Names of classes -/

theorem read_stateClassName : read (tagText "grammar.treeState.qualifiedName") =
    .ok [.value "grammar.treeState.qualifiedName"] := by
  have normal : AreNormal False [.value "grammar.treeState.qualifiedName"] :=
    areNormal_value (by rw [AreNormal]; trivial) (by decide)
  have done := read_writeParts normal
  rwa [writeParts_cons, writeParts_nil, Part.write, String.append_empty] at done

theorem read_constantsClassName :
    read (tagText "grammar.parser.qualifiedName" ++ "TreeConstants") =
      .ok [.value "grammar.parser.qualifiedName", .text "TreeConstants"] := by
  have stop : AreNormal False [.text "TreeConstants"] :=
    areNormal_text (by rw [AreNormal]; trivial) (by decide) (by decide) (by decide) nofun
  have done := read_writeParts
    (areNormal_value stop (show isSpelled "grammar.parser.qualifiedName" = true by decide))
  rwa [writeParts_cons, writeParts_cons, writeParts_nil, Part.write, Part.write,
    String.append_empty] at done

end NodeWeave.Template.Support

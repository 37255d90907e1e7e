import NodeWeave.Proofs.Scope.Names
import NodeWeave.Proofs.Text.References
import NodeWeave.Proofs.Text.WholeWords

/-!
The word for the current node in code of the host language. Each whole occurrence gives way to one
text, which is the node variable itself unless the variable reads as a reference.
-/

namespace NodeWeave

open Text

namespace Scope

theorem isPlainWord_selfWord : IsPlainWord selfWord.toList :=
  ⟨by decide, List.all_eq_true.mp (by decide)⟩

/-- What stands for the current node once code is resolved in the scope. -/
def replacement (scope : Scope) : List Char :=
  expandReplacement selfWord.toList scope.names.node.toList

variable {scope : Scope}

theorem toList_resolve (scope : Scope) (code : String) :
    (scope.resolve code).toList =
      replaceWordChars selfWord.toList scope.replacement code.toList.length none code.toList := by
  rw [resolve, replaceWord, String.toList_ofList, replacement]

theorem replacement_eq_iff :
    scope.replacement = scope.names.node.toList ↔ ¬ HasReference scope.names.node.toList :=
  expandReplacement_eq_iff (by decide)

/-- How code comes out of a scope. -/
structure Resolves (scope : Scope) (code : String) (parting : Parting) : Prop where
  parts : parting.Parts selfWord.toList code.toList
  resolve_eq : (scope.resolve code).toList = parting.fill scope.replacement
  literal_iff : (scope.resolve code).toList = parting.fill scope.names.node.toList ↔
    parting.others = [] ∨ ¬ HasReference scope.names.node.toList

theorem exists_resolves (scope : Scope) (code : String) :
    ∃ parting, scope.Resolves code parting := by
  obtain ⟨parting, parts, filled⟩ := exists_parts isPlainWord_selfWord code.toList
  have resolved := (scope.toList_resolve code).trans (filled scope.replacement)
  refine ⟨parting, parts, resolved, ?_⟩
  rw [resolved, ← replacement_eq_iff]
  constructor
  · intro same
    by_cases gaps : parting.others = []
    · exact .inl gaps
    · exact .inr (Parting.eq_of_fill_eq gaps same)
  · rintro (none | same)
    · rw [Parting.fill, Parting.fill, none]
      rfl
    · rw [same]

/-- The word is left if and only if it was there and the variable brings it back. -/
theorem hasWord_resolve_iff (scope : Scope) (code : String) :
    HasWord selfWord.toList (scope.resolve code).toList ↔
      HasWord selfWord.toList code.toList ∧ HasWord selfWord.toList scope.replacement := by
  rw [toList_resolve]
  exact hasWord_replaceWordChars_iff isPlainWord_selfWord _ _

end Scope

namespace ScopeStyle

variable {style : ScopeStyle} {opener : Opener} {depth : Nat} {scope : Scope}

/-- Numbered variables have no dollar sign, and descriptive ones have none besides those of the name
of the node. -/
theorem not_mem_node_of_open? (opened : style.open? opener depth = some scope)
    (plain : style.switches.descriptiveNames = true → '$' ∉ scope.nodeName.toList) :
    '$' ∉ scope.names.node.toList := by
  simp only [open?, Option.map_eq_some_iff] at opened
  obtain ⟨name, _, rfl⟩ := opened
  dsimp only at plain ⊢
  split
  · next descriptive =>
      rw [VariableNames.descriptive, String.toList_append, List.mem_append, not_or]
      refine ⟨VariableNames.not_mem_baseName (by decide) (plain descriptive), ?_⟩
      split
      · decide
      · exact not_mem_digits (by decide) depth
  · rw [VariableNames.numbered, String.toList_append, List.mem_append, not_or]
    exact ⟨by decide, VariableNames.not_mem_depthDigits (by decide) depth⟩

theorem not_hasWord_replacement (opened : style.open? opener depth = some scope)
    (numbered : style.switches.descriptiveNames = false) :
    ¬ HasWord Scope.selfWord.toList scope.replacement := by
  have plain := not_mem_node_of_open? opened fun named => by rw [numbered] at named; cases named
  rw [Scope.replacement_eq_iff.mpr fun has => plain (mem_of_hasReference has)]
  simp only [open?, numbered, Option.map_eq_some_iff] at opened
  obtain ⟨name, _, rfl⟩ := opened
  intro has
  have word : IsPlainWord ("jjtn" ++ VariableNames.depthDigits depth).toList := by
    rw [String.toList_append]
    refine ⟨List.append_ne_nil_of_left_ne_nil (by decide) _, ?_⟩
    have letters : "jjtn".toList.all isWord = true := by decide
    intro c mem
    rcases List.mem_append.mp mem with letter | digit
    · exact List.all_eq_true.mp letters c letter
    · exact VariableNames.isWord_of_mem_depthDigits digit
  have equal := Scope.isPlainWord_selfWord.eq_of_hasWord word has
  have differs : ¬ "jjtn".toList <+: Scope.selfWord.toList := by decide
  rw [String.toList_append] at equal
  exact differs ⟨_, equal.symm⟩

/-- Resolving code replaces the whole occurrences of the word for the current node, and nothing
else. What comes in is the node variable to the letter, unless the variable has a reference; only
variables named for nodes with a dollar sign may have one. -/
theorem resolves_of_open? (opened : style.open? opener depth = some scope) (code : String) :
    (∃ parting, scope.Resolves code parting) ∧
      ((style.switches.descriptiveNames = true → '$' ∉ scope.nodeName.toList) →
        ¬ HasReference scope.names.node.toList) := by
  refine ⟨scope.exists_resolves code, ?_⟩
  intro plain has
  exact not_mem_node_of_open? opened plain (mem_of_hasReference has)

def namedStyle : ScopeStyle :=
  { options := {}, switches := { descriptiveNames := true } }

theorem resolves_of_open?_dollar :
    ∃ scope, namedStyle.open? (.unit ⟨"A$B", none⟩) 0 = some scope ∧
      (∃ parting, scope.Resolves "jjtThis.x()" parting) ∧
        ((namedStyle.switches.descriptiveNames = true → '$' ∉ scope.nodeName.toList) →
          ¬ HasReference scope.names.node.toList) := by
  obtain ⟨scope, opened⟩ : ∃ scope, namedStyle.open? (.unit ⟨"A$B", none⟩) 0 = some scope :=
    ⟨_, rfl⟩
  exact ⟨scope, opened, resolves_of_open? opened "jjtThis.x()"⟩

/-- The name of a node may read as a reference. -/
theorem not_resolve_literal :
    ∃ scope, namedStyle.open? (.unit ⟨"A$B", none⟩) 0 = some scope ∧
      scope.names.node = "a$B" ∧ scope.resolve "jjtThis.x()" = "a.x()" := by
  refine ⟨_, rfl, ?_, ?_⟩
  · decide
  · decide

end ScopeStyle

end NodeWeave

import NodeWeave.Proofs.Scope.SelfWord
import NodeWeave.Proofs.Woven.Region
import NodeWeave.Woven.Printer

/-!
The texts and the names that a user supplies: those of the grammar, and those of the options. From
clean ones no mark arises where the woven grammar puts them together.
-/

namespace NodeWeave

open Mark

/-- A word stands whole somewhere in a text; `before` is the character in front of it. -/
def Text.hasWord (word : List Char) (before : Option Char) : List Char → Bool
  | [] => false
  | c :: rest => (afterWord? word before (c :: rest)).isSome || hasWord word (some c) rest

theorem Text.hasWord_eq_true_iff {word text : List Char} (plain : IsPlainWord word)
    {before : Option Char} : hasWord word before text = true ↔ ∃ lead behind,
      text = lead ++ word ++ behind ∧ isWordAt (lead.getLast?.or before) = false ∧
        isWordAt behind.head? = false := by
  induction text generalizing before with
  | nil =>
      refine iff_of_false Bool.false_ne_true ?_
      intro ⟨lead, behind, split, _⟩
      simp [plain.ne_nil] at split
  | cons c rest ih =>
      rw [hasWord, Bool.or_eq_true, Option.isSome_iff_exists, ih]
      constructor
      · intro found
        rcases found with ⟨following, here⟩ | ⟨lead, behind, rfl, start, stop⟩
        · obtain ⟨split, start, stop⟩ := plain.afterWord?_eq_some_iff.mp here
          exact ⟨[], following, split, start, stop⟩
        · refine ⟨c :: lead, behind, rfl, ?_, stop⟩
          rwa [getLast?_cons_or]
      · intro ⟨lead, behind, split, start, stop⟩
        cases lead with
        | nil => exact .inl ⟨behind, plain.afterWord?_eq_some_iff.mpr ⟨split, start, stop⟩⟩
        | cons d lead =>
            rw [List.cons_append, List.cons_append, List.cons.injEq] at split
            obtain ⟨rfl, split⟩ := split
            rw [getLast?_cons_or] at start
            exact .inr ⟨lead, behind, split, start, stop⟩

/-- The word for the current node does not stand in the text. -/
def Scope.IsWordless (text : String) : Prop :=
  Text.hasWord selfWord.toList none text.toList = false

theorem Text.replaceWordChars_of_wordless {word new text : List Char} {bound : Nat}
    {before : Option Char} (none : hasWord word before text = false) :
    replaceWordChars word new bound before text = text := by
  induction text generalizing bound before with
  | nil => cases bound <;> rfl
  | cons c rest ih =>
      rw [hasWord, Bool.or_eq_false_iff] at none
      cases bound with
      | zero => rfl
      | succ bound =>
          rw [replaceWordChars, Option.isSome_eq_false_iff.mp none.1 |>
            Option.isNone_iff_eq_none.mp]
          exact congrArg (c :: ·) (ih none.2)

theorem Scope.resolve_of_wordless {text : String} (wordless : IsWordless text) (scope : Scope) :
    scope.resolve text = text := by
  rw [resolve, Text.replaceWord, Text.replaceWordChars_of_wordless wordless, String.ofList_toList]

theorem Scope.resolveIn_of_wordless {text : String} (wordless : IsWordless text)
    (scope : Option Scope) : resolveIn scope text = text := by
  cases scope with
  | none => rfl
  | some scope => exact scope.resolve_of_wordless wordless

def SlashFree (text : String) : Prop :=
  '/' ∉ text.toList

instance (text : String) : Decidable (SlashFree text) :=
  inferInstanceAs (Decidable (¬ '/' ∈ text.toList))

namespace Grammar

/-- The texts of a condition. `closing` stands for what is written behind texts that go into
parentheses. -/
def Descriptor.texts (closing : String) (d : Descriptor) : List String :=
  (d.condition.map fun condition => condition.text ++ closing).toList

namespace Expansion

/-- The texts of an expansion, without those of the expansions inside it. -/
def ownTexts (closing : String) : Expansion → List String
  | lookahead text => [text]
  | action code => [code]
  | reference _ _ arguments => [arguments ++ closing]
  | terminal _ text => [text]
  | annotated _ node => node.texts closing
  | guarded _ catches finallyCode =>
      catches.flatMap (fun c => [c.parameter ++ closing, c.body]) ++ finallyCode.toList
  | _ => []

def ownNames : Expansion → List String
  | reference target name _ => name :: target.toList
  | terminal target _ => target.toList
  | annotated _ node => [node.name]
  | _ => []

end Expansion

def Body.texts (closing : String) : Body → List String
  | .rules declarations e => declarations :: e.preorder.flatMap (Expansion.ownTexts closing)
  | .code text => [text]

def Body.names : Body → List String
  | .rules _ e => e.preorder.flatMap Expansion.ownNames
  | .code _ => []

def Production.texts (closing : String) (p : Production) : List String :=
  p.header :: p.descriptor.toList.flatMap (Descriptor.texts closing) ++ p.body.texts closing

def Production.names (p : Production) : List String :=
  p.name :: p.throws ++ p.descriptor.toList.map Descriptor.name ++ p.body.names

def OptionValue.texts : OptionValue → List String
  | text value => [value]
  | _ => []

def Item.texts (closing : String) : Item → List String
  | .options entries => entries.flatMap fun entry => entry.value.texts
  | .parser unit => [unit.body]
  | .verbatim text => [text]
  | .production p => p.texts closing

def Item.names : Item → List String
  | .options entries => entries.map OptionEntry.key
  | .parser unit => [unit.name]
  | .verbatim _ => []
  | .production p => p.names

/-- All texts that a user supplies, those that go into parentheses with `closing` behind them. -/
def texts (closing : String) (g : Grammar) : List String :=
  g.items.flatMap (Item.texts closing)

def names (g : Grammar) : List String :=
  g.items.flatMap Item.names

def NodeOptions.names (o : NodeOptions) : List String :=
  [o.parserName, o.parserPackage, o.nodePrefix, o.nodePackage, o.nodeClass, o.nodeFactory]

/-- No mark stands in a text, even with the parenthesis behind it, and no text speaks of the
current node. Names have no slashes, and that of the parser takes one line. -/
structure IsClean (g : Grammar) (o : NodeOptions) : Prop where
  texts : ∀ text ∈ g.texts ")", IsFree text.toList
  wordless : ∀ text ∈ g.texts "", Scope.IsWordless text
  names : ∀ name ∈ g.names, SlashFree name
  optionNames : ∀ name ∈ o.names, SlashFree name
  oneLine : '\n' ∉ o.parserName.toList

/-! ### Void grammars -/

def voidDescriptor : Descriptor :=
  { name := voidName }

namespace Expansion

mutual
def voided : Expansion → Expansion
  | sequence units => sequence (voidedAll units)
  | choice alternatives => choice (voidedAll alternatives)
  | group inner occurrence => group (voided inner) occurrence
  | optional inner => optional (voided inner)
  | annotated inner _ => annotated (voided inner) voidDescriptor
  | guarded inner catches finallyCode => guarded (voided inner) catches finallyCode
  | lookahead text => lookahead text
  | action code => action code
  | reference target name arguments => reference target name arguments
  | terminal target text => terminal target text

def voidedAll : List Expansion → List Expansion
  | [] => []
  | unit :: rest => voided unit :: voidedAll rest
end

end Expansion

def Body.voided : Body → Body
  | .rules declarations e => .rules declarations e.voided
  | .code text => .code text

/-- The production with all its nodes void, its own one among them. -/
def Production.voided (p : Production) : Production :=
  { p with descriptor := some voidDescriptor, body := p.body.voided }

def Item.voided : Item → Item
  | .production p => .production p.voided
  | item => item

/-- The grammar in which every node descriptor and every production without one is void. -/
def voided (g : Grammar) : Grammar :=
  { g with items := g.items.map Item.voided }

end Grammar

end NodeWeave

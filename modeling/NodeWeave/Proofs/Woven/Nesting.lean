import NodeWeave.Proofs.Scope.Distinct
import NodeWeave.Proofs.Scope.SelfWord
import NodeWeave.Woven.Printer

/-!
The scopes that are open at the same time, and the variables that their code declares. An inner
scope declares no variable of an outer one again, as long as the names of the variables tell depths
apart.
-/

namespace NodeWeave

open Grammar VariableNames

/-! ### Scopes of the source -/

namespace Scope

def varNames (scope : Scope) : List String :=
  scope.names.all

/-- The variables of an outer scope may be those of an inner one, if they are named for their
nodes. -/
def Anticipates (outer inner : Scope) : Prop :=
  VariableNames.Anticipates outer.nodeName outer.depth inner.nodeName inner.depth

end Scope

namespace Grammar

namespace Expansion

mutual
/-- For each scope that the weaver opens in an expansion, the scopes that are open from then on, the
outermost first. The last one is left first, so at all other times it is one of these lists, less
some of its last scopes. -/
def scopeStacks (style : ScopeStyle) (around : List Scope) : Expansion → List (List Scope)
  | sequence units => scopeStacksAll style around units
  | choice alternatives => scopeStacksAll style around alternatives
  | group inner _ => scopeStacks style around inner
  | optional inner => scopeStacks style around inner
  | annotated inner node =>
      match style.open? (.unit node) around.length with
      | none => scopeStacks style around inner
      | some opened => (around ++ [opened]) :: scopeStacks style (around ++ [opened]) inner
  | guarded inner _ _ => scopeStacks style around inner
  | lookahead _ => []
  | action _ => []
  | reference _ _ _ => []
  | terminal _ _ => []

def scopeStacksAll (style : ScopeStyle) (around : List Scope) : List Expansion → List (List Scope)
  | [] => []
  | unit :: rest => scopeStacks style around unit ++ scopeStacksAll style around rest
end

end Expansion

/-- The lists of scopes that are open at the same time in a production. -/
def Production.scopeStacks (style : ScopeStyle) (p : Production) : List (List Scope) :=
  let own := (style.open? (.production p) 0).toList
  let inner := (p.expansion?.map (Expansion.scopeStacks style own)).getD []
  if own.isEmpty then inner else own :: inner

/-- The lists of scopes that are open at the same time. -/
def scopeStacks (g : Grammar) (style : ScopeStyle) : List (List Scope) :=
  g.productions.flatMap (Production.scopeStacks style)

end Grammar

/-! ### Scopes of the woven grammar -/

def Statement.declared? : Statement → Option String
  | makeNode _ var _ => some var
  | raiseFlag flag => some flag
  | _ => none

namespace Woven

/-- The local variables that the code of a scope declares. -/
def declared (opening : List Statement) (guard : Guard) : List String :=
  opening.filterMap Statement.declared? ++ [guard.exception]

mutual
/-- For each scope of a woven expansion, what the scopes around it and itself declare. -/
def scopeStacks (around : List (List String)) : Woven → List (List (List String))
  | element _ => []
  | action _ => []
  | earlyClose _ => []
  | sequence units => scopeStacksAll around units
  | choice alternatives => scopeStacksAll around alternatives
  | group inner _ => scopeStacks around inner
  | optional inner => scopeStacks around inner
  | guarded inner _ _ => scopeStacks around inner
  | scope _ opening body guard =>
      (around ++ [declared opening guard]) :: scopeStacks (around ++ [declared opening guard]) body

def scopeStacksAll (around : List (List String)) : List Woven → List (List (List String))
  | [] => []
  | unit :: rest => scopeStacks around unit ++ scopeStacksAll around rest
end

end Woven

namespace WovenProduction

def scopeStacks : WovenProduction → List (List (List String))
  | rules _ _ body => body.scopeStacks []
  | scopedRules _ _ opening _ body guard =>
      [Woven.declared opening guard] :: body.scopeStacks [Woven.declared opening guard]
  | code _ _ => []
  | scopedCode _ _ opening _ guard => [[Woven.declared opening guard]]

end WovenProduction

namespace WovenItem

def scopeStacks : WovenItem → List (List (List String))
  | production p => p.scopeStacks
  | options _ => []
  | parser _ _ => []
  | verbatim _ => []

end WovenItem

/-! ### The weaver declares the variables of its scopes -/

theorem ScopeStyle.declared_opening (style : ScopeStyle) (scope : Scope)
    (exceptions : List String) :
    Woven.declared (style.opening scope) (style.guard scope exceptions) = scope.varNames := by
  unfold Woven.declared opening firstToken? openHook?
  cases style.switches.tokensBeforeHooks <;> cases style.options.tracksTokens <;>
    cases style.options.scopeHook <;> rfl

namespace Grammar

section

variable (g : Grammar) (style : ScopeStyle) (p : Production)

theorem stacks_weaveAction (scope : Option Scope) (atEnd : Bool) (code : String)
    (around : List (List String)) :
    (weaveAction style scope atEnd code).scopeStacks around = [] := by
  cases scope with
  | none => rfl
  | some opened =>
      simp only [weaveAction]
      split
      · simp [Woven.scopeStacks, Woven.scopeStacksAll]
      · rfl

/-- The depth of the innermost open scope is that of the list of open scopes. -/
def AreStacked (around : List Scope) : Prop :=
  Scope.depthInside around.getLast? = around.length

theorem areStacked_concat {style : ScopeStyle} {opener : Opener} {around : List Scope}
    {opened : Scope} (found : style.open? opener around.length = some opened) :
    AreStacked (around ++ [opened]) := by
  rw [AreStacked, List.getLast?_concat, Scope.depthInside, ScopeStyle.open?_depth found,
    List.length_append, List.length_singleton]

mutual
theorem stacks_weaveExpansion {around : List Scope} (stacked : AreStacked around) (atEnd : Bool) :
    ∀ e : Expansion,
    (weaveExpansion g style p around.getLast? atEnd e).scopeStacks (around.map Scope.varNames) =
      (e.scopeStacks style around).map (List.map Scope.varNames)
  | .sequence units => by
      rw [weaveExpansion, Woven.scopeStacks, Expansion.scopeStacks]
      exact stacks_weaveSequence stacked atEnd units
  | .choice alternatives => by
      rw [weaveExpansion, Woven.scopeStacks, Expansion.scopeStacks]
      exact stacks_weaveChoices stacked atEnd alternatives
  | .group inner occurrence => by
      rw [weaveExpansion, Woven.scopeStacks, Expansion.scopeStacks]
      exact stacks_weaveExpansion stacked _ inner
  | .optional inner => by
      rw [weaveExpansion, Woven.scopeStacks, Expansion.scopeStacks]
      exact stacks_weaveExpansion stacked false inner
  | .guarded inner catches finallyCode => by
      rw [weaveExpansion, Woven.scopeStacks, Expansion.scopeStacks]
      exact stacks_weaveExpansion stacked atEnd inner
  | .annotated inner node => by
      rw [weaveExpansion, Expansion.scopeStacks, stacked]
      cases found : style.open? (.unit node) around.length with
      | none => exact stacks_weaveExpansion stacked atEnd inner
      | some opened =>
          have below := stacks_weaveExpansion (areStacked_concat found) true inner
          rw [List.getLast?_concat, List.map_append, List.map_singleton] at below
          dsimp only
          rw [Woven.scopeStacks, style.declared_opening, below, List.map_cons, List.map_append,
            List.map_singleton]
  | .action code => by
      rw [weaveExpansion, stacks_weaveAction, Expansion.scopeStacks, List.map_nil]
  | .lookahead _ | .reference _ _ _ | .terminal _ _ => by
      simp [weaveExpansion, Woven.scopeStacks, Expansion.scopeStacks]

theorem stacks_weaveSequence {around : List Scope} (stacked : AreStacked around) (atEnd : Bool) :
    ∀ units : List Expansion,
    Woven.scopeStacksAll (around.map Scope.varNames)
        (weaveSequence g style p around.getLast? atEnd units) =
      (Expansion.scopeStacksAll style around units).map (List.map Scope.varNames)
  | [] => rfl
  | [last] => by
      rw [weaveSequence, Woven.scopeStacksAll, Woven.scopeStacksAll, Expansion.scopeStacksAll,
        Expansion.scopeStacksAll, List.append_nil, List.append_nil,
        stacks_weaveExpansion stacked atEnd last]
  | unit :: second :: rest => by
      rw [weaveSequence, Woven.scopeStacksAll, Expansion.scopeStacksAll, List.map_append,
        stacks_weaveExpansion stacked false unit,
        stacks_weaveSequence stacked atEnd (second :: rest)]
      exact nofun

theorem stacks_weaveChoices {around : List Scope} (stacked : AreStacked around) (atEnd : Bool) :
    ∀ alternatives : List Expansion,
    Woven.scopeStacksAll (around.map Scope.varNames)
        (weaveChoices g style p around.getLast? atEnd alternatives) =
      (Expansion.scopeStacksAll style around alternatives).map (List.map Scope.varNames)
  | [] => rfl
  | alternative :: rest => by
      rw [weaveChoices, Woven.scopeStacksAll, Expansion.scopeStacksAll, List.map_append,
        stacks_weaveExpansion stacked atEnd alternative, stacks_weaveChoices stacked atEnd rest]
end

theorem stacks_weaveProduction : (g.weaveProduction style p).scopeStacks =
    (p.scopeStacks style).map (List.map Scope.varNames) := by
  rw [weaveProduction, Production.scopeStacks, Production.expansion?]
  cases body : p.body with
  | code text =>
      cases style.open? (.production p) 0 with
      | none => rfl
      | some own => simp [WovenProduction.scopeStacks, style.declared_opening]
  | rules declarations e =>
      cases found : style.open? (.production p) 0 with
      | none =>
          have stacked : AreStacked [] := rfl
          exact stacks_weaveExpansion g style p stacked false e
      | some own =>
          have stacked : AreStacked ([] ++ [own]) := areStacked_concat found
          have below := stacks_weaveExpansion g style p stacked true e
          rw [List.nil_append, List.map_singleton] at below
          simpa [WovenProduction.scopeStacks, style.declared_opening] using below

theorem stacks_weaveItems : (g.weaveItems style).flatMap WovenItem.scopeStacks =
    (g.scopeStacks style).map (List.map Scope.varNames) := by
  rw [weaveItems, scopeStacks, productions]
  induction g.items with
  | nil => rfl
  | cons item rest ih =>
      rw [List.map_cons, List.flatMap_cons, ih]
      cases item with
      | options _ | parser _ | verbatim _ => rfl
      | production p =>
          rw [weaveItem, WovenItem.scopeStacks, stacks_weaveProduction, ← List.map_append]
          rfl

end

/-! ### Open scopes at each depth -/

/-- The scopes are opened one inside the other, and each at its depth. -/
structure IsStack (style : ScopeStyle) (stack : List Scope) : Prop where
  depths : stack.map Scope.depth = List.range stack.length
  opened : ∀ scope ∈ stack, ∃ opener, style.open? opener scope.depth = some scope

section

variable {style : ScopeStyle} {stack : List Scope}

theorem isStack_nil (style : ScopeStyle) : IsStack style [] :=
  ⟨rfl, nofun⟩

theorem IsStack.concat {around : List Scope} {opener : Opener} {opened : Scope}
    (outer : IsStack style around) (found : style.open? opener around.length = some opened) :
    IsStack style (around ++ [opened]) := by
  have depth := ScopeStyle.open?_depth found
  refine ⟨?_, ?_⟩
  · rw [List.map_append, outer.depths, List.map_singleton, depth, List.length_append,
      List.length_singleton, List.range_succ]
  · intro scope mem
    rcases List.mem_append.mp mem with before | last
    · exact outer.opened scope before
    · rw [List.mem_singleton.mp last, depth]
      exact ⟨opener, found⟩

theorem IsStack.of_isPrefix {inner : List Scope} (is : IsStack style inner)
    (outer : stack <+: inner) : IsStack style stack := by
  obtain ⟨rest, rfl⟩ := outer
  have depths := congrArg (List.take stack.length) is.depths
  rw [List.map_append, List.take_left' (List.length_map ..), List.length_append, List.take_range,
    Nat.min_eq_left (Nat.le_add_right ..)] at depths
  exact ⟨depths, fun scope mem => is.opened scope (List.mem_append_left _ mem)⟩

mutual
theorem Expansion.isStack_of_mem_stacks {around : List Scope} (outer : IsStack style around) :
    ∀ e : Expansion, stack ∈ e.scopeStacks style around → IsStack style stack
  | .sequence units, mem =>
      isStack_of_mem_stacksAll outer units (by rwa [Expansion.scopeStacks] at mem)
  | .choice alternatives, mem =>
      isStack_of_mem_stacksAll outer alternatives (by rwa [Expansion.scopeStacks] at mem)
  | .group inner _, mem => isStack_of_mem_stacks outer inner (by rwa [Expansion.scopeStacks] at mem)
  | .optional inner, mem =>
      isStack_of_mem_stacks outer inner (by rwa [Expansion.scopeStacks] at mem)
  | .guarded inner _ _, mem =>
      isStack_of_mem_stacks outer inner (by rwa [Expansion.scopeStacks] at mem)
  | .annotated inner node, mem => by
      rw [Expansion.scopeStacks] at mem
      cases found : style.open? (.unit node) around.length with
      | none =>
          rw [found] at mem
          exact isStack_of_mem_stacks outer inner mem
      | some opened =>
          rw [found, List.mem_cons] at mem
          rcases mem with rfl | inside
          · exact outer.concat found
          · exact isStack_of_mem_stacks (outer.concat found) inner inside
  | .lookahead _, mem | .action _, mem | .reference _ _ _, mem | .terminal _ _, mem => by
      simp [Expansion.scopeStacks] at mem

theorem Expansion.isStack_of_mem_stacksAll {around : List Scope} (outer : IsStack style around) :
    ∀ units : List Expansion,
      stack ∈ Expansion.scopeStacksAll style around units → IsStack style stack
  | [], mem => nomatch mem
  | unit :: rest, mem => by
      rw [Expansion.scopeStacksAll, List.mem_append] at mem
      rcases mem with here | later
      · exact isStack_of_mem_stacks outer unit here
      · exact isStack_of_mem_stacksAll outer rest later
end

theorem Production.isStack_of_mem_stacks {p : Production} (mem : stack ∈ p.scopeStacks style) :
    IsStack style stack := by
  have own : IsStack style (style.open? (.production p) 0).toList := by
    cases found : style.open? (.production p) 0 with
    | none => exact isStack_nil style
    | some opened => exact (isStack_nil style).concat found
  have inside : stack ∈ (p.expansion?.map
      (Expansion.scopeStacks style (style.open? (.production p) 0).toList)).getD [] →
      IsStack style stack := by
    cases p.expansion? with
    | none => exact nofun
    | some e => exact Expansion.isStack_of_mem_stacks own e
  rw [scopeStacks] at mem
  split at mem
  · exact inside mem
  · rcases List.mem_cons.mp mem with rfl | later
    · exact own
    · exact inside later

theorem isStack_of_mem {g : Grammar} (mem : stack ∈ g.scopeStacks style) :
    IsStack style stack := by
  obtain ⟨p, _, inside⟩ := List.mem_flatMap.mp mem
  exact Production.isStack_of_mem_stacks inside

/-! ### Variables of open scopes -/

theorem IsStack.names_eq (is : IsStack style stack) {scope : Scope} (mem : scope ∈ stack) :
    scope.names = if style.switches.descriptiveNames then .descriptive scope.nodeName scope.depth
      else .numbered scope.depth := by
  obtain ⟨opener, opened⟩ := is.opened scope mem
  simp only [ScopeStyle.open?, Option.map_eq_some_iff] at opened
  obtain ⟨name, _, same⟩ := opened
  rw [← same]

theorem IsStack.nodup_varNames (is : IsStack style stack) {scope : Scope} (mem : scope ∈ stack) :
    scope.varNames.Nodup := by
  rw [Scope.varNames, is.names_eq mem]
  split
  · exact nodup_all_descriptive _ _
  · exact nodup_all_numbered _

theorem IsStack.pairwise_depth (is : IsStack style stack) :
    stack.Pairwise fun outer inner => outer.depth < inner.depth := by
  rw [← List.pairwise_map, is.depths]
  exact List.pairwise_lt_range

theorem IsStack.depth_lt (is : IsStack style stack) {scope : Scope} (mem : scope ∈ stack) :
    scope.depth < stack.length := by
  have listed := List.mem_map_of_mem (f := Scope.depth) mem
  rwa [is.depths, List.mem_range] at listed

theorem IsStack.depth_getElem (is : IsStack style stack) {i : Nat} (within : i < stack.length) :
    stack[i].depth = i := by
  have same := congrArg (fun depths : List Nat => depths[i]?) is.depths
  simpa [within] using same

/-- What is true of the scopes that are open at the same time. -/
structure KeepsApart (style : ScopeStyle) (stack : List Scope) : Prop where
  depths : stack.map Scope.depth = List.range stack.length
  own : ∀ scope ∈ stack, scope.varNames.Nodup
  numbered : style.switches.descriptiveNames = false → ∀ outer ∈ stack, ∀ inner ∈ stack,
    outer.varNames.Disjoint inner.varNames ↔ outer.depth % 1000 ≠ inner.depth % 1000
  few : style.switches.descriptiveNames = false →
    ((stack.flatMap Scope.varNames).Nodup ↔ stack.length ≤ 1000)
  descriptive : style.switches.descriptiveNames = true →
    (stack.Pairwise fun outer inner => ¬ outer.Anticipates inner) →
      (stack.flatMap Scope.varNames).Nodup

theorem IsStack.keepsApart (is : IsStack style stack) : KeepsApart style stack := by
  have own : ∀ scope ∈ stack, scope.varNames.Nodup := fun scope => is.nodup_varNames
  have numbered : style.switches.descriptiveNames = false → ∀ outer ∈ stack, ∀ inner ∈ stack,
      outer.varNames.Disjoint inner.varNames ↔ outer.depth % 1000 ≠ inner.depth % 1000 := by
    intro counted outer outerMem inner innerMem
    rw [Scope.varNames, Scope.varNames, is.names_eq outerMem, is.names_eq innerMem, counted]
    exact disjoint_numbered_iff
  refine ⟨is.depths, own, numbered, ?_, ?_⟩
  · intro counted
    constructor
    · intro distinct
      by_contra many
      have apart := List.pairwise_iff_getElem.mp (List.nodup_flatMap.mp distinct).2 0 1000
        (by omega) (by omega) (by decide)
      have differ := (numbered counted _ (List.getElem_mem _) _ (List.getElem_mem _)).mp apart
      rw [is.depth_getElem, is.depth_getElem] at differ
      exact differ rfl
    · intro few
      refine List.nodup_flatMap.mpr ⟨own, is.pairwise_depth.imp_of_mem ?_⟩
      intro outer inner outerMem innerMem less
      have bound := is.depth_lt innerMem
      exact (numbered counted outer outerMem inner innerMem).mpr (by omega)
  · intro named apart
    refine List.nodup_flatMap.mpr ⟨own, (is.pairwise_depth.and apart).imp_of_mem ?_⟩
    intro outer inner outerMem innerMem ⟨less, notAnticipated⟩
    rw [Function.onFun_apply, Scope.varNames, Scope.varNames, is.names_eq outerMem,
      is.names_eq innerMem, named]
    exact disjoint_descriptive less notAnticipated

end

/-- The code of the open scopes declares the variables of these scopes, and at all times they stand
one inside the other from depth zero on. -/
theorem declares_apart (g : Grammar) (style : ScopeStyle) :
    (g.weaveItems style).flatMap WovenItem.scopeStacks =
        (g.scopeStacks style).map (List.map Scope.varNames) ∧
      ∀ stack ∈ g.scopeStacks style, ∀ opened, opened <+: stack → KeepsApart style opened :=
  ⟨g.stacks_weaveItems style,
    fun _ mem _ before => ((isStack_of_mem mem).of_isPrefix before).keepsApart⟩

/-! ### Scopes with a variable in common -/

def Expansion.nest (node : Descriptor) : Nat → Expansion
  | 0 => terminal none "<X>"
  | n + 1 => annotated (nest node n) node

theorem Expansion.exists_mem_stacks_nest (style : ScopeStyle) {node : Descriptor}
    (named : node.isVoid = false) (around : List Scope) (n : Nat) :
    ∃ stack ∈ (nest node (n + 1)).scopeStacks style around,
      stack.length = around.length + (n + 1) := by
  obtain ⟨opened, found⟩ : ∃ opened, style.open? (.unit node) around.length = some opened := by
    simp [ScopeStyle.open?, Opener.nodeName?, named]
  induction n generalizing around opened with
  | zero =>
      refine ⟨around ++ [opened], ?_, List.length_append⟩
      rw [nest, scopeStacks, found]
      exact List.mem_cons_self
  | succ n ih =>
      obtain ⟨inner, foundInner⟩ :
          ∃ inner, style.open? (.unit node) (around ++ [opened]).length = some inner := by
        simp [ScopeStyle.open?, Opener.nodeName?, named]
      obtain ⟨stack, mem, length⟩ := ih (around ++ [opened]) inner foundInner
      refine ⟨stack, ?_, ?_⟩
      · rw [nest, scopeStacks, found]
        exact List.mem_cons_of_mem _ mem
      · rw [length, List.length_append, List.length_singleton]
        omega

def ofExpansion (e : Expansion) : Grammar :=
  ⟨"P", [.production ⟨"A", "void A()", [], some ⟨voidName, none⟩, .rules "" e, 0⟩]⟩

theorem stacks_ofExpansion (style : ScopeStyle) (e : Expansion) :
    (ofExpansion e).scopeStacks style = e.scopeStacks style [] :=
  List.append_nil _

/-- Variables are declared again where a thousand scopes are open around a scope, and where the name
of a node goes on with the depth of the scope inside. -/
theorem not_nodup_varNames :
    (∃ stack ∈ (ofExpansion (.nest ⟨"B", none⟩ 1001)).scopeStacks ⟨{}, {}⟩,
      ¬ (stack.flatMap Scope.varNames).Nodup) ∧
    ∃ stack ∈ (ofExpansion (.annotated (.nest ⟨"A", none⟩ 1) ⟨"A1", none⟩)).scopeStacks .namedStyle,
      ¬ (stack.flatMap Scope.varNames).Nodup := by
  constructor
  · have named : (⟨"B", none⟩ : Descriptor).isVoid = false := by decide
    obtain ⟨stack, mem, length⟩ := Expansion.exists_mem_stacks_nest ⟨{}, {}⟩ named [] 1000
    have listed := (stacks_ofExpansion ⟨{}, {}⟩ _).symm ▸ mem
    refine ⟨stack, listed, ?_⟩
    rw [(isStack_of_mem listed).keepsApart.few rfl, length]
    decide
  · rw [stacks_ofExpansion]
    exact ⟨_, List.mem_cons_of_mem _ List.mem_cons_self, by decide⟩

end Grammar

end NodeWeave

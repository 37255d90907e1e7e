import NodeWeave.Proofs.Woven.Outside

/-!
Weaving only inserts generated regions: outside of them the text is that of the grammar with all
nodes void.
-/

namespace NodeWeave

open Mark

namespace Grammar

/-! ### Void expansions -/

namespace Expansion

mutual
theorem kept_voided : ∀ e : Expansion, e.voided.kept = e.kept
  | sequence units => by rw [voided, kept, kept, keptAll_voidedAll units]
  | choice alternatives => by rw [voided, kept, kept, keptAlternatives_voidedAll alternatives]
  | group inner _ => by rw [voided, kept, kept, kept_voided inner]
  | optional inner => by rw [voided, kept, kept, kept_voided inner]
  | annotated inner _ => by rw [voided, kept, kept, kept_voided inner]
  | guarded inner _ _ => by rw [voided, kept, kept, kept_voided inner]
  | lookahead _ => rfl
  | action _ => rfl
  | reference _ _ _ => rfl
  | terminal _ _ => rfl

theorem keptAll_voidedAll : ∀ units : List Expansion, keptAll (voidedAll units) = keptAll units
  | [] => rfl
  | unit :: rest => by rw [voidedAll, keptAll, keptAll, kept_voided unit, keptAll_voidedAll rest]

theorem keptAlternatives_voidedAll : ∀ alternatives : List Expansion,
    keptAlternatives (voidedAll alternatives) = keptAlternatives alternatives
  | [] => rfl
  | [last] => by
      rw [voidedAll, voidedAll, keptAlternatives, keptAlternatives, kept_voided last]
  | alternative :: next :: rest => by
      have others := keptAlternatives_voidedAll (next :: rest)
      have more : voidedAll (next :: rest) ≠ [] := List.cons_ne_nil _ _
      rw [voidedAll, keptAlternatives_cons more, keptAlternatives_cons (List.cons_ne_nil _ _),
        others, kept_voided alternative]
end

mutual
theorem preorder_voided : ∀ e : Expansion, e.voided.preorder = e.preorder.map voided
  | sequence units => by
      rw [voided, preorder, preorder, preorderAll_voidedAll units, List.map_cons, voided]
  | choice alternatives => by
      rw [voided, preorder, preorder, preorderAll_voidedAll alternatives, List.map_cons, voided]
  | group inner _ => by
      rw [voided, preorder, preorder, preorder_voided inner, List.map_cons, voided]
  | optional inner => by
      rw [voided, preorder, preorder, preorder_voided inner, List.map_cons, voided]
  | annotated inner _ => by
      rw [voided, preorder, preorder, preorder_voided inner, List.map_cons, voided]
  | guarded inner _ _ => by
      rw [voided, preorder, preorder, preorder_voided inner, List.map_cons, voided]
  | lookahead _ => rfl
  | action _ => rfl
  | reference _ _ _ => rfl
  | terminal _ _ => rfl

theorem preorderAll_voidedAll : ∀ units : List Expansion,
    preorderAll (voidedAll units) = (preorderAll units).map voided
  | [] => rfl
  | unit :: rest => by
      rw [voidedAll, preorderAll, preorderAll, preorder_voided unit, preorderAll_voidedAll rest,
        List.map_append]
end

theorem ownTexts_voided (closing : String) (e : Expansion) :
    ∀ text ∈ e.voided.ownTexts closing, text ∈ e.ownTexts closing := by
  intro text mem
  cases e with
  | annotated inner node => cases mem
  | _ => exact mem

theorem ownNames_voided (e : Expansion) :
    ∀ name ∈ e.voided.ownNames, name = voidName ∨ name ∈ e.ownNames := by
  intro name mem
  cases e with
  | annotated inner node => exact .inl (List.mem_singleton.mp mem)
  | _ => exact .inr mem

end Expansion

/-! ### Void productions -/

theorem Body.texts_voided (closing : String) (body : Body) :
    ∀ text ∈ body.voided.texts closing, text ∈ body.texts closing := by
  intro text mem
  cases body with
  | code _ => exact mem
  | rules declarations e =>
      rw [voided, texts, Expansion.preorder_voided, List.mem_cons] at mem
      rw [texts, List.mem_cons]
      refine mem.imp_right fun inside => ?_
      obtain ⟨part, listed, own⟩ := List.mem_flatMap.mp inside
      obtain ⟨original, within, rfl⟩ := List.mem_map.mp listed
      exact List.mem_flatMap.mpr ⟨original, within, original.ownTexts_voided closing text own⟩

theorem Body.names_voided (body : Body) :
    ∀ name ∈ body.voided.names, name = voidName ∨ name ∈ body.names := by
  intro name mem
  cases body with
  | code _ => exact .inr mem
  | rules declarations e =>
      rw [voided, names, Expansion.preorder_voided] at mem
      obtain ⟨part, listed, own⟩ := List.mem_flatMap.mp mem
      obtain ⟨original, within, rfl⟩ := List.mem_map.mp listed
      refine (original.ownNames_voided name own).imp_right fun named => ?_
      exact List.mem_flatMap.mpr ⟨original, within, named⟩

namespace Production

theorem texts_voided (closing : String) (p : Production) :
    ∀ text ∈ p.voided.texts closing, text ∈ p.texts closing := by
  intro text mem
  simp only [voided, texts, voidDescriptor, Option.toList, List.mem_append,
    List.mem_cons] at mem ⊢
  rcases mem with (rfl | none) | within
  · exact .inl (.inl rfl)
  · exact absurd none List.not_mem_nil
  · exact .inr (p.body.texts_voided closing text within)

theorem names_voided (p : Production) :
    ∀ name ∈ p.voided.names, name = voidName ∨ name ∈ p.names := by
  intro name mem
  simp only [voided, names, voidDescriptor, Option.toList, List.mem_append, List.mem_cons,
    List.map_cons, List.map_nil, List.not_mem_nil, or_false] at mem ⊢
  rcases mem with ((rfl | thrown) | rfl) | within
  · exact .inr (.inl (.inl (.inl rfl)))
  · exact .inr (.inl (.inl (.inr thrown)))
  · exact .inl rfl
  · exact (p.body.names_voided name within).imp_right .inr

theorem IsClean.voided {p : Production} (clean : p.IsClean) : p.voided.IsClean := by
  refine ⟨fun text mem => ?_, fun text mem => ?_, fun name mem => ?_⟩
  · exact clean.texts text (p.texts_voided ")" text mem)
  · exact clean.wordless text (p.texts_voided "" text mem)
  · rcases p.names_voided name mem with rfl | named
    · decide
    · exact clean.names name named

theorem kept_voided (p : Production) : p.voided.kept = p.kept := by
  unfold kept voided Body.voided
  cases p.body with
  | rules declarations e => simp only [Expansion.kept_voided]; rfl
  | code text => rfl

end Production

/-! ### Void grammars -/

theorem productions_voided (g : Grammar) :
    g.voided.productions = g.productions.map Production.voided := by
  unfold productions voided
  dsimp only
  induction g.items with
  | nil => rfl
  | cons item rest ih =>
      cases item with
      | production p => exact congrArg (p.voided :: ·) ih
      | _ => exact ih

variable {g : Grammar} {options : NodeOptions}

theorem IsClean.production (clean : g.IsClean options) {p : Production}
    (mem : Item.production p ∈ g.items) : p.IsClean := by
  refine ⟨fun text listed => ?_, fun text listed => ?_, fun name listed => ?_⟩
  · exact clean.texts text (List.mem_flatMap.mpr ⟨_, mem, listed⟩)
  · exact clean.wordless text (List.mem_flatMap.mpr ⟨_, mem, listed⟩)
  · exact clean.names name (List.mem_flatMap.mpr ⟨_, mem, listed⟩)

theorem mem_items_of_mem_productions {p : Production} (mem : p ∈ g.productions) :
    Item.production p ∈ g.items := by
  obtain ⟨item, listed, same⟩ := List.mem_filterMap.mp mem
  cases item with
  | production q => cases same; exact listed
  | _ => cases same

theorem mem_productions_of_mem_items {p : Production} (mem : Item.production p ∈ g.items) :
    p ∈ g.productions :=
  List.mem_filterMap.mpr ⟨_, mem, rfl⟩

theorem IsClean.setting (clean : g.IsClean options) (switches : Switches) :
    IsCleanSetting g ⟨options, switches⟩ := by
  refine ⟨clean.optionNames, fun q declared exception thrown => ?_⟩
  exact (clean.production (mem_items_of_mem_productions declared)).throws exception thrown

theorem IsClean.settingVoided (clean : g.IsClean options) (switches : Switches) :
    IsCleanSetting g.voided ⟨options, switches⟩ := by
  refine ⟨clean.optionNames, fun q declared exception thrown => ?_⟩
  rw [productions_voided] at declared
  obtain ⟨p, listed, rfl⟩ := List.mem_map.mp declared
  exact (clean.production (mem_items_of_mem_productions listed)).throws exception thrown

/-! ### Items -/

theorem OptionValue.isFree_written {value : OptionValue}
    (free : ∀ text ∈ value.texts, IsFree text.toList) : IsFree value.written.toList := by
  cases value with
  | bool b => cases b <;> exact SlashFree.isFree (by decide)
  | int n => exact (slashFree_int n).isFree
  | text value =>
      have closed := (free value (List.mem_singleton_self _)).append_separator isFree_nil
        (by decide : isSeparator '"' = true)
      have whole := closed.prepend (by decide : '/' ∉ ['"'])
      simpa [written] using whole

theorem leaves_options {entries : List OptionEntry}
    (keys : ∀ entry ∈ entries, SlashFree entry.key)
    (values : ∀ entry ∈ entries, ∀ text ∈ entry.value.texts, IsFree text.toList) :
    ∃ kept, Piece.Leaves (WovenItem.options entries).pieces kept := by
  refine Piece.exists_leaves_of_isPlain (Statement.isPlain_block (by decide) fun piece mem => ?_)
  obtain ⟨entry, listed, rfl⟩ := List.mem_map.mp mem
  have value := OptionValue.isFree_written (values entry listed)
  have closed := value.append_separator isFree_nil (by decide : isSeparator ';' = true)
  have whole := closed.prepend ((keys entry listed).append (by decide : SlashFree " = "))
  exact Piece.isPlain_line 1 (by simpa using whole)

theorem leaves_parserUnit {name body : String} (named : SlashFree name)
    (regions : HasRegions body.toList) :
    ∃ kept, Piece.Leaves (WovenItem.parser name body).pieces kept := by
  have begins : SlashFree ("PARSER_BEGIN(" ++ name ++ ")") :=
    (SlashFree.append (by decide) named).append (by decide)
  have ends : SlashFree ("PARSER_END(" ++ name ++ ")") :=
    (SlashFree.append (by decide) named).append (by decide)
  obtain ⟨kept, unit⟩ := Piece.exists_leaves_raw regions
  exact ⟨_, ((Piece.leaves_line 0 begins.isFree).append unit).append
    (Piece.leaves_line 0 ends.isFree)⟩

theorem exists_leaves_weaveItem (clean : g.IsClean options) (switches : Switches) {item : Item}
    (mem : item ∈ g.items) :
    ∃ kept, Piece.Leaves (g.weaveItem ⟨options, switches⟩ item).pieces kept ∧
      Piece.Leaves (g.voided.weaveItem ⟨options, switches⟩ item.voided).pieces kept := by
  have texts : ∀ text ∈ item.texts ")", IsFree text.toList := fun text listed =>
    clean.texts text (List.mem_flatMap.mpr ⟨item, mem, listed⟩)
  have names : ∀ name ∈ item.names, SlashFree name := fun name listed =>
    clean.names name (List.mem_flatMap.mpr ⟨item, mem, listed⟩)
  cases item with
  | options entries =>
      obtain ⟨kept, leaves⟩ := @leaves_options (entries.filter fun entry => !isNodeOption entry.key)
        (fun entry listed =>
          names entry.key (List.mem_map.mpr ⟨entry, (List.mem_filter.mp listed).1, rfl⟩))
        (fun entry listed text inside =>
          texts text (List.mem_flatMap.mpr ⟨entry, (List.mem_filter.mp listed).1, inside⟩))
      exact ⟨kept, leaves, leaves⟩
  | parser unit =>
      have body : IsFree unit.body.toList := texts unit.body (List.mem_singleton_self _)
      have name : SlashFree unit.name := names unit.name (List.mem_singleton_self _)
      obtain ⟨kept, leaves⟩ := leaves_parserUnit name
        (@ScopeStyle.hasRegions_parserUnit ⟨options, switches⟩ clean.optionNames clean.oneLine
          unit body)
      exact ⟨kept, leaves, leaves⟩
  | verbatim text =>
      have free : IsFree text.toList := texts text (List.mem_singleton_self _)
      have leaves : Piece.Leaves [.raw (text ++ "\n")] _ :=
        Piece.leaves_raw free (by decide : isSeparator '\n' = true) (by simp)
      exact ⟨_, leaves, leaves⟩
  | production p =>
      have listed := mem_productions_of_mem_items mem
      have declared : p.voided ∈ g.voided.productions := by
        rw [productions_voided]
        exact List.mem_map_of_mem listed
      have own := clean.production mem
      refine ⟨p.kept, Production.leaves_weaveProduction (clean.setting switches) listed own, ?_⟩
      rw [← p.kept_voided]
      exact Production.leaves_weaveProduction (clean.settingVoided switches) declared own.voided

theorem exists_leaves_items {style : ScopeStyle} {items : List Item}
    (each : ∀ item ∈ items, ∃ kept, Piece.Leaves (g.weaveItem style item).pieces kept ∧
      Piece.Leaves (g.voided.weaveItem style item.voided).pieces kept) :
    ∃ kept, Piece.Leaves (WovenItem.piecesAll (items.map (g.weaveItem style))) kept ∧
      Piece.Leaves (WovenItem.piecesAll
        ((items.map Item.voided).map (g.voided.weaveItem style))) kept := by
  induction items with
  | nil => exact ⟨[], Piece.leaves_nil, Piece.leaves_nil⟩
  | cons item rest ih =>
      obtain ⟨kept, leaves, voidLeaves⟩ := each item List.mem_cons_self
      cases rest with
      | nil => exact ⟨kept, leaves, voidLeaves⟩
      | cons next others =>
          obtain ⟨following, more, voidMore⟩ :=
            ih fun other mem => each other (List.mem_cons_of_mem _ mem)
          have empty := Piece.leaves_line 0 (SlashFree.isFree (by decide) : IsFree "".toList)
          exact ⟨_, leaves.append (empty.append more), voidLeaves.append (empty.append voidMore)⟩

/-- In the woven grammar marks take turns, and outside regions it is, up to blanks, that of the
grammar with all nodes void. -/
theorem weave_regions (clean : g.IsClean options) (switches : Switches) :
    alternate (tokens (g.weave options switches).toList) = true ∧
      solid (outside (tokens (g.weave options switches).toList)) =
        solid (outside (tokens (g.voided.weave options switches).toList)) := by
  obtain ⟨kept, leaves, voidLeaves⟩ := @exists_leaves_items g ⟨options, switches⟩ g.items
    fun item mem => exists_leaves_weaveItem clean switches mem
  obtain ⟨turns, left⟩ := leaves.render
  obtain ⟨_, voidLeft⟩ := voidLeaves.render
  exact ⟨turns, left.trans voidLeft.symm⟩

/-- A grammar with a scope inside that of a production, and a production in the host language. -/
def nestedGrammar : Grammar :=
  { name := "G.jjt"
    items := [.parser ⟨"P", "class P \x7b\x7d"⟩, .verbatim "TOKEN : \x7b <X: 'x'> \x7d",
      .production
        { name := "A", header := "void A()", throws := ["Oops"], descriptor := none
          body := .rules "int n;" (.sequence [.reference (some "n") "B" "1",
            .annotated (.guarded (.action "n++;") [⟨"Oops e", "n = 0;"⟩] none)
              ⟨"N", some ⟨"n > 0", false⟩⟩])
          offset := 0 },
      .production ⟨"B", "int B(int n)", [], some ⟨"void", none⟩, .code "return n;", 0⟩] }

theorem weave_regions_nestedGrammar :
    nestedGrammar.IsClean {} ∧
      alternate (tokens (nestedGrammar.weave {} {}).toList) = true ∧
      solid (outside (tokens (nestedGrammar.weave {} {}).toList)) =
        solid (outside (tokens (nestedGrammar.voided.weave {} {}).toList)) := by
  have clean : nestedGrammar.IsClean {} := by
    refine ⟨fun text mem => SlashFree.isFree ?_, ?_, ?_, ?_, ?_⟩
    · revert text
      decide +kernel
    · unfold Scope.IsWordless
      decide +kernel
    · decide +kernel
    · decide +kernel
    · decide +kernel
  exact ⟨clean, weave_regions clean {}⟩

/-- Marks of the output take turns up to any place where no mark goes on. -/
theorem alternate_render_take {pieces : List Piece} {count : Nat}
    (ends : EndsApart (Piece.concat (pieces.take count)).toList)
    (turns : alternate (tokens (Piece.render pieces).toList) = true) :
    alternate (tokens (Piece.concat (pieces.take count)).toList) = true ∨
      alternate (tokens (Piece.concat (pieces.take count)).toList ++ [.stop]) = true := by
  have whole : (Piece.concat pieces).toList =
      (Piece.concat (pieces.take count)).toList ++ (Piece.concat (pieces.drop count)).toList := by
    simp only [Piece.concat, String.toList_join]
    rw [← List.flatMap_append, ← List.map_append, List.take_append_drop]
  rw [Piece.alternate_render, whole, ends.tokens_append] at turns
  exact (alternate_of_append _ _).1 turns

/-- Two grammars without marks in their texts and names. In the first one a mark comes from an
option, in the second one it arises from a name and an argument. -/
theorem not_alternate_weave :
    let code : Grammar := ⟨"G.jjt", [.production ⟨"f", "void f()", [], none, .code "", 0⟩]⟩
    let reference : Grammar := ⟨"G.jjt", [.production ⟨"A", "void A()", [], some voidDescriptor,
      .rules "" (.reference none "/*@bgen" "jjtree"), 0⟩]⟩
    (∀ text ∈ code.texts "" ++ code.names, IsFree text.toList ∧ Scope.IsWordless text) ∧
      ¬ alternate (tokens (code.weave { nodePrefix := "/*@egen*/" } {}).toList) = true ∧
      (∀ text ∈ reference.texts "" ++ reference.names,
        IsFree text.toList ∧ Scope.IsWordless text) ∧
      ¬ alternate (tokens (reference.weave {} {}).toList) = true := by
  intro code reference
  refine ⟨?_, fun turns => ?_, ?_, ?_⟩
  · unfold IsFree Scope.IsWordless
    decide +kernel
  · -- The first statement of the scope already has two marks that end a region.
    let start := (code.wovenPieces ⟨{ nodePrefix := "/*@egen*/" }, {}⟩).take 4
    have ends : EndsApart (Piece.concat start).toList :=
      ⟨(Piece.concat start).toList.dropLast, '\n', by decide +kernel, by decide⟩
    exact absurd (alternate_render_take ends turns) (by decide +kernel)
  · unfold IsFree Scope.IsWordless
    decide +kernel
  · decide +kernel

end Grammar

end NodeWeave

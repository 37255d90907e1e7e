import NodeWeave.Proofs.Grammar.Names
import NodeWeave.Proofs.Peg.Parts

/-!
The items of a file that was read, in order. Main statements: an option block comes first if there
is one, then the unit of the parser, then copied items and productions; the keys of options are
names, their integers are in range, and the exceptions that productions throw have dotted names.
-/

namespace NodeWeave.Grammar

open Peg Text

/-! ### The order of items -/

def Item.IsBehind : Item → Prop
  | .verbatim _ | .production _ => True
  | .options _ | .parser _ => False

/-- An option block if there is one, the unit of the parser, and the items behind it. -/
structure IsOrdered (g : Grammar) (options : Option (List OptionEntry)) (unit : ParserUnit)
    (rest : List Item) : Prop where
  items : g.items = options.toList.map .options ++ .parser unit :: rest
  behind : ∀ item ∈ rest, item.IsBehind

section

variable {part : Part} {parts : List Part} {result : Option Item} {results : List (Option Item)}

theorem exists_of_buildItem_optionsDecl (rule : part.rule = .optionsDecl)
    (built : buildItem part = .ok result) : ∃ entries, result = some (.options entries) := by
  rw [buildItem, rule] at built
  obtain ⟨entries, -, built⟩ := exists_of_bind_eq_ok built
  cases built
  exact ⟨entries, rfl⟩

theorem exists_of_buildItem_parserDecl (rule : part.rule = .parserDecl)
    (built : buildItem part = .ok result) : ∃ unit, result = some (.parser unit) := by
  rw [buildItem, rule] at built
  obtain ⟨unit, -, built⟩ := exists_of_bind_eq_ok built
  cases built
  exact ⟨unit, rfl⟩

/-- Behind the unit of the parser, the items of a file are copied or productions. -/
theorem exists_isBehind_of_buildItem (rule : part.rule ∈ Format.item.calls)
    (built : buildItem part = .ok result) : ∃ item : Item, result = some item ∧ item.IsBehind := by
  have listed : part.rule ∈ [.tokenManagerDecls, .regexprProduction, .javacodeProduction,
      .bnfProduction] := rule
  simp only [List.mem_cons, List.not_mem_nil, or_false] at listed
  rcases listed with rule | rule | rule | rule
  all_goals rw [buildItem, rule] at built
  · cases built
    exact ⟨_, rfl, trivial⟩
  · cases built
    exact ⟨_, rfl, trivial⟩
  · obtain ⟨p, -, built⟩ := exists_of_bind_eq_ok built
    cases built
    exact ⟨_, rfl, trivial⟩
  · obtain ⟨p, -, built⟩ := exists_of_bind_eq_ok built
    cases built
    exact ⟨_, rfl, trivial⟩

theorem exists_of_mapM_cons (built : (part :: parts).mapM buildItem = .ok results) :
    ∃ first others, buildItem part = .ok first ∧ parts.mapM buildItem = .ok others ∧
      results = first :: others := by
  rw [List.mapM_cons] at built
  obtain ⟨first, here, built⟩ := exists_of_bind_eq_ok built
  obtain ⟨others, behind, built⟩ := exists_of_bind_eq_ok built
  cases built
  exact ⟨first, others, here, behind, rfl⟩

/-- The items of a file, and the end of the text, which is none. -/
theorem exists_rest_of_mapM {last : Part} (listed : ∀ part ∈ parts, part.rule ∈ Format.item.calls)
    (ends : last.rule = .endOfInput) (built : (parts ++ [last]).mapM buildItem = .ok results) :
    ∃ rest : List Item, results.filterMap id = rest ∧ ∀ item ∈ rest, item.IsBehind := by
  induction parts generalizing results with
  | nil =>
      obtain ⟨first, others, here, none, rfl⟩ := exists_of_mapM_cons built
      rw [buildItem, ends] at here
      cases here
      cases none
      exact ⟨[], rfl, nofun⟩
  | cons part parts ih =>
      rw [List.forall_mem_cons] at listed
      obtain ⟨first, others, here, behind, rfl⟩ := exists_of_mapM_cons built
      obtain ⟨item, rfl, is⟩ := exists_isBehind_of_buildItem listed.1 here
      obtain ⟨rest, same, all⟩ := ih listed.2 behind
      exact ⟨item :: rest, by rw [List.filterMap_cons_some (f := id) rfl, same],
        List.forall_mem_cons.mpr ⟨is, all⟩⟩

end

section

variable {path text : String} {g : Grammar} (done : read path text = .ok g)

include done

theorem exists_isOrdered_of_read : ∃ options unit rest, g.IsOrdered options unit rest := by
  obtain ⟨file, items, isOf, built, same⟩ := exists_file_of_read done
  have asked : (Format.body .file).slots = [.optional [.optionsDecl], .one [.parserDecl],
      .many Format.item.calls, .one [.endOfInput]] := by decide
  obtain ⟨fills, -⟩ := isOf.parts (by decide)
  rw [asked] at fills
  -- The unit of the parser and what stands behind it are the same with an option block and without.
  have behind {parts : List Part} {results : List (Option Item)}
      (fills : Fills [.one [.parserDecl], .many Format.item.calls, .one [.endOfInput]] parts)
      (built : parts.mapM buildItem = .ok results) :
      ∃ (unit : ParserUnit) (rest : List Item), results.filterMap id = .parser unit :: rest ∧
        ∀ item ∈ rest, item.IsBehind := by
    obtain ⟨parser, _, rfl, isParser, front, _, rfl, listed, last⟩ := fills
    obtain ⟨last, rfl, ends⟩ := last.exists_single
    obtain ⟨first, others, here, builtRest, rfl⟩ := exists_of_mapM_cons built
    obtain ⟨unit, rfl⟩ := exists_of_buildItem_parserDecl (List.mem_singleton.mp isParser) here
    obtain ⟨rest, sameRest, all⟩ :=
      exists_rest_of_mapM listed (List.mem_singleton.mp ends) builtRest
    exact ⟨unit, rest, by rw [List.filterMap_cons_some (f := id) rfl, sameRest], all⟩
  rcases fills with fills | ⟨block, others, whole, isBlock, fills⟩
  · obtain ⟨unit, rest, listed, all⟩ := behind fills built
    exact ⟨none, unit, rest, ⟨same.trans listed, all⟩⟩
  · rw [whole] at built
    obtain ⟨first, results, here, builtRest, rfl⟩ := exists_of_mapM_cons built
    obtain ⟨entries, rfl⟩ := exists_of_buildItem_optionsDecl (List.mem_singleton.mp isBlock) here
    obtain ⟨unit, rest, listed, all⟩ := behind fills builtRest
    exact ⟨some entries, unit, rest,
      ⟨same.trans (by rw [List.filterMap_cons_some (f := id) rfl, listed]; rfl), all⟩⟩

end

/-! ### Option entries -/

/-- The key is a name, and an integer is one of 64 bits. -/
structure OptionEntry.IsRead (entry : OptionEntry) : Prop where
  key : isIdentifier entry.key.toList = true
  value : ∀ n, entry.value = .int n → inInt64 n = true

theorem inInt64_of_readInt {text : String} {n : Int} (read : readInt text = some n) :
    inInt64 n = true := by
  unfold readInt at read
  simp only [Option.ite_none_right_eq_some] at read
  obtain ⟨inside, same⟩ := read
  cases same
  exact inside

theorem isRead_of_buildEntry {part : Part} {entry : OptionEntry} (isOf : IsOf .optionEntry part)
    (built : buildEntry part = .ok entry) : entry.IsRead := by
  obtain ⟨key, rest, same, isKey, -⟩ := isOf.first (by decide) rfl
  obtain ⟨⟨first, others⟩, next, built⟩ := exists_of_bind_eq_ok built
  rw [same] at next
  cases eq_cons_of_next next
  obtain ⟨⟨value, behind⟩, -, built⟩ := exists_of_bind_eq_ok built
  simp only at built
  split at built
  · cases built
    exact ⟨isKey.isIdentifier_text, nofun⟩
  · split at built
    · next n read =>
        cases built
        refine ⟨isKey.isIdentifier_text, ?_⟩
        rintro _ ⟨⟩
        exact inInt64_of_readInt read
    · cases built
  · cases built
    exact ⟨isKey.isIdentifier_text, nofun⟩

theorem isRead_of_read {path text : String} {g : Grammar} (done : read path text = .ok g)
    {entries : List OptionEntry} (mem : Item.options entries ∈ g.items) :
    ∀ entry ∈ entries, entry.IsRead := by
  obtain ⟨part, made, built⟩ := exists_buildItem_of_read done _ mem
  unfold buildItem at built
  split at built
  · next rule =>
      obtain ⟨listed, all, built⟩ := exists_of_bind_eq_ok built
      cases built
      intro entry inside
      obtain ⟨inner, child, builtEntry⟩ := exists_mem_of_mapM_eq_ok all entry inside
      exact isRead_of_buildEntry
        (IsOf.forall_children ⟨rule, made⟩ (by decide) (by decide) inner child) builtEntry
  · obtain ⟨unit, -, built⟩ := exists_of_bind_eq_ok built
    cases built
  · cases built
  · cases built
  · obtain ⟨p, -, built⟩ := exists_of_bind_eq_ok built
    cases built
  · obtain ⟨p, -, built⟩ := exists_of_bind_eq_ok built
    cases built
  all_goals cases built

/-! ### Exceptions -/

theorem isDotted_of_add {header later : Header} {part : Part} (made : Format.rules.Makes part)
    (dotted : ∀ name ∈ header.throws, isDotted name.toList = true)
    (added : header.add part = .ok later) : ∀ name ∈ later.throws, isDotted name.toList = true := by
  unfold Header.add at added
  split at added <;> cases added
  all_goals try exact dotted
  next rule =>
    intro name mem
    obtain ⟨inner, child, rfl⟩ := List.mem_map.mp mem
    have children : ∀ inner ∈ part.children, IsOf .qualifiedName inner :=
      IsOf.forall_children ⟨rule, made⟩ (by decide) (by decide)
    obtain ⟨isName, made⟩ := children inner child
    have read := made.reads (by rw [isName]; rfl)
    rw [isName] at read
    exact isDotted_of_reads read

theorem isDotted_throws_of_buildProduction {part header block : Part} {descriptor rest : List Part}
    {p : Production} (parts : IsProduction part header descriptor block rest)
    (built : buildProduction part = .ok p) : ∀ name ∈ p.throws, isDotted name.toList = true := by
  obtain ⟨written, added, throws⟩ : ∃ written : Header,
      header.children.foldlM Header.add {} = .ok written ∧ p.throws = written.throws := by
    obtain ⟨⟨first, others⟩, next, built⟩ := exists_of_bind_eq_ok built
    rw [parts.children] at next
    cases eq_cons_of_next next
    obtain ⟨written, added, built⟩ := exists_of_bind_eq_ok built
    refine ⟨written, added, ?_⟩
    split at built
    · obtain ⟨node, -, built⟩ := exists_of_bind_eq_ok built
      obtain ⟨block, -, built⟩ := exists_of_bind_eq_ok built
      simp only at built
      split at built
      · cases built
        rfl
      · obtain ⟨choices, -, built⟩ := exists_of_bind_eq_ok built
        obtain ⟨e, -, built⟩ := exists_of_bind_eq_ok built
        cases built
        rfl
    · cases built
  rw [throws]
  have made := (parts.header.parts (by decide)).2
  exact holds_of_foldlM_add (P := fun header => ∀ name ∈ header.throws, isDotted name.toList = true)
    (fun part mem _ _ dotted added => isDotted_of_add (made part mem) dotted added)
    (List.forall_mem_nil _) added

theorem isDotted_throws_of_read {path text : String} {g : Grammar} (done : read path text = .ok g)
    {p : Production} (mem : p ∈ g.productions) :
    ∀ name ∈ p.throws, isDotted name.toList = true := by
  obtain ⟨item, listed, same⟩ := List.mem_filterMap.mp mem
  split at same
  · cases same
    obtain ⟨part, built⟩ := exists_isBuiltOf_of_read done _ listed
    cases built with
    | production parts built => exact isDotted_throws_of_buildProduction parts built
  · cases same

end NodeWeave.Grammar

import NodeWeave.Proofs.Woven.Openings

/-!
How the printed lines of an expansion belong together. Sequences and choices are printed without
brackets of their own, so only the brackets and bars among the lines tell. Main statement: outside
of generated regions the weaver prints the lines of the grouping that the expansion has.
-/

namespace NodeWeave

open Grammar

/-! ### Groupings -/

/-- What a line is to the lines around it. -/
inductive LineKind where
  | unit
  | bar
  | opening
  | closing
  deriving DecidableEq, Repr

namespace LineKind

def of (line : String) : LineKind :=
  if line = "|" then bar
  else if line = "(" ∨ line = "[" ∨ line = "try \x7b" then opening
  else
    match line.toList with
    | ')' :: _ | ']' :: _ | '\x7d' :: _ => closing
    | _ => unit

/-- A line that starts like no bracket and no bar, and is not the start of a guarded unit. -/
theorem of_eq_unit {line : String} (first c : Char) (starts : line.toList.head? = some first)
    (apart : first ∉ ['|', '(', '[', ')', ']', '\x7d']) (mem : c ∈ line.toList)
    (other : c ∉ ['t', 'r', 'y', ' ', '\x7b']) : of line = unit := by
  have notBar : line ≠ "|" := by
    rintro rfl
    cases starts
    exact apart (by decide)
  have notOpening : ¬ (line = "(" ∨ line = "[" ∨ line = "try \x7b") := by
    rintro (rfl | rfl | rfl)
    · cases starts
      exact apart (by decide)
    · cases starts
      exact apart (by decide)
    · exact other mem
  obtain ⟨rest, same⟩ := List.head?_eq_some_iff.mp starts
  rw [of, if_neg notBar, if_neg notOpening, same]
  split <;> simp_all

theorem of_eq_closing {line : String} (first : Char) (starts : line.toList.head? = some first)
    (closes : first ∈ [')', ']', '\x7d']) : of line = closing := by
  have apart : line ∉ ["|", "(", "[", "try \x7b"] := by
    intro mem
    simp only [List.mem_cons, List.not_mem_nil, or_false] at mem
    rcases mem with rfl | rfl | rfl | rfl
    all_goals
      cases starts
      revert closes
      decide
  simp only [List.mem_cons, List.not_mem_nil, or_false, not_or] at apart closes
  obtain ⟨rest, same⟩ := List.head?_eq_some_iff.mp starts
  rw [of, if_neg apart.1, if_neg (by simp [apart]), same]
  rcases closes with rfl | rfl | rfl <;> rfl

theorem of_braced (code : String) : of ("\x7b" ++ code ++ "\x7d") = unit :=
  of_eq_unit '\x7b' '\x7d' (by simp) (by decide) (by simp) (by decide)

theorem of_closingGroup (occurrence : Option Occurrence) :
    of (")" ++ (occurrence.map Occurrence.symbol).getD "") = closing :=
  of_eq_closing ')' (by simp) (by decide)

theorem of_clausesText (catches : List CatchClause) (finallyCode : Option String) :
    of (Woven.clausesText catches finallyCode) = closing :=
  of_eq_closing '\x7d' (by simp [Woven.clausesText]) (by decide)

end LineKind

/-- Printed lines as they belong together. -/
inductive Grouping where
  | line (text : String)
  | sequence (units : List Grouping)
  | choice (alternatives : List Grouping)
  | enclosed (opening : String) (inner : Grouping) (closing : String)
  deriving Repr

namespace Grouping

mutual
def lines : Grouping → List String
  | line text => [text]
  | sequence units => linesAll units
  | choice alternatives => alternativeLines alternatives
  | enclosed opening inner closing => opening :: lines inner ++ [closing]

def linesAll : List Grouping → List String
  | [] => []
  | unit :: rest => lines unit ++ linesAll rest

def alternativeLines : List Grouping → List String
  | [] => []
  | [last] => lines last
  | alternative :: rest => lines alternative ++ "|" :: alternativeLines rest
end

def ofUnits : List Grouping → Grouping
  | [only] => only
  | units => sequence units

def ofAlternatives : List Grouping → Grouping
  | [only] => only
  | alternatives => choice alternatives

theorem ofUnits_eq_sequence {units : List Grouping} (several : units.length ≠ 1) :
    ofUnits units = sequence units := by
  match units with
  | [] => rfl
  | [_] => exact absurd rfl several
  | _ :: _ :: _ => rfl

theorem ofAlternatives_eq_choice {alternatives : List Grouping}
    (several : 2 ≤ alternatives.length) : ofAlternatives alternatives = choice alternatives := by
  match alternatives with
  | [] | [_] => simp at several
  | _ :: _ :: _ => rfl

end Grouping

/-! ### Grouping lines -/

/-- Brackets that are open: their first line, the alternatives in front of the last bar, and the
units behind it. -/
structure OpenBrackets where
  opening : String := ""
  alternatives : List Grouping := []
  units : List Grouping := []

namespace OpenBrackets

def push (b : OpenBrackets) (unit : Grouping) : OpenBrackets :=
  { b with units := b.units ++ [unit] }

def bar (b : OpenBrackets) : OpenBrackets :=
  { b with alternatives := b.alternatives ++ [.ofUnits b.units], units := [] }

def inner (b : OpenBrackets) : Grouping :=
  .ofAlternatives (b.alternatives ++ [.ofUnits b.units])

/-- Takes in one more line. The innermost open brackets come first. -/
def next : OpenBrackets × List OpenBrackets → String → Option (OpenBrackets × List OpenBrackets)
  | (b, around), line =>
      match LineKind.of line, around with
      | .unit, _ => some (b.push (.line line), around)
      | .bar, _ => some (b.bar, around)
      | .opening, _ => some ({ opening := line }, b :: around)
      | .closing, outer :: rest => some (outer.push (.enclosed b.opening b.inner line), rest)
      | .closing, [] => none

/-- The lines lead from what stands in the innermost brackets to this. -/
def Leads (lines : List String) (b later : OpenBrackets) : Prop :=
  ∀ around, lines.foldlM next (b, around) = some (later, around)

variable {first second : List String} {a b c : OpenBrackets}

theorem Leads.nothing (b : OpenBrackets) : Leads [] b b :=
  fun _ => rfl

theorem Leads.append (early : Leads first a b) (late : Leads second b c) :
    Leads (first ++ second) a c := by
  intro around
  rw [List.foldlM_append, early]
  exact late around

theorem leads_bar (b : OpenBrackets) : Leads ["|"] b b.bar :=
  fun _ => rfl

end OpenBrackets

namespace Grouping

open OpenBrackets

/-- The lines of the grouping add it as one unit to those in front of it. -/
def StandsAsUnit (g : Grouping) : Prop :=
  ∀ b, Leads g.lines b (b.push g)

/-- Behind an opening bracket or a bar, the lines leave the units of this alternative. -/
def StandsAsAlternative (g : Grouping) : Prop :=
  ∀ b : OpenBrackets, b.units = [] →
    ∃ units, Leads g.lines b { b with units } ∧ ofUnits units = g

/-- Between brackets the lines are grouped like this. -/
def StandsAsWhole (g : Grouping) : Prop :=
  ∀ opening, ∃ b, Leads g.lines { opening } b ∧ b.opening = opening ∧ b.inner = g

variable {g : Grouping}

theorem standsAsUnit_line {text : String} (unit : LineKind.of text = .unit) :
    (line text).StandsAsUnit := by
  intro b around
  simp [lines, next, unit]

theorem StandsAsWhole.enclosed (whole : g.StandsAsWhole) {opening closing : String}
    (opens : LineKind.of opening = .opening) (closes : LineKind.of closing = .closing) :
    (enclosed opening g closing).StandsAsUnit := by
  intro b around
  obtain ⟨last, leads, rfl, rfl⟩ := whole opening
  have entered : next (b, around) last.opening =
      some ({ opening := last.opening }, b :: around) := by
    simp [next, opens]
  have left : next (last, b :: around) closing =
      some (b.push (.enclosed last.opening last.inner closing), around) := by
    simp [next, closes]
  rw [lines, List.cons_append, List.foldlM_cons, entered, Option.bind_eq_bind, Option.bind_some,
    List.foldlM_append, leads, Option.bind_eq_bind, Option.bind_some]
  simpa using left

theorem StandsAsUnit.alternative (unit : g.StandsAsUnit) : g.StandsAsAlternative := by
  intro b fresh
  have leads := unit b
  rw [push, fresh] at leads
  exact ⟨[g], leads, rfl⟩

theorem leads_linesAll {units : List Grouping} (each : ∀ unit ∈ units, unit.StandsAsUnit)
    (b : OpenBrackets) : Leads (linesAll units) b { b with units := b.units ++ units } := by
  induction units generalizing b with
  | nil => simpa [linesAll] using Leads.nothing b
  | cons unit rest ih =>
      rw [List.forall_mem_cons] at each
      simpa [linesAll, push] using (each.1 b).append (ih each.2 (b.push unit))

theorem standsAsAlternative_sequence {units : List Grouping} (several : units.length ≠ 1)
    (each : ∀ unit ∈ units, unit.StandsAsUnit) : (sequence units).StandsAsAlternative := by
  intro b fresh
  have leads := leads_linesAll each b
  rw [fresh, List.nil_append] at leads
  exact ⟨units, leads, ofUnits_eq_sequence several⟩

theorem StandsAsAlternative.whole (alternative : g.StandsAsAlternative) : g.StandsAsWhole := by
  intro opening
  obtain ⟨units, leads, same⟩ := alternative { opening } rfl
  exact ⟨_, leads, rfl, by rw [OpenBrackets.inner, same]; rfl⟩

/-- Behind the last of some alternatives, those of the brackets are the former ones and these. -/
theorem exists_leads_alternativeLines {alternatives : List Grouping} (some : alternatives ≠ [])
    (each : ∀ alternative ∈ alternatives, alternative.StandsAsAlternative) {b : OpenBrackets}
    (fresh : b.units = []) : ∃ c, Leads (alternativeLines alternatives) b c ∧
      c.opening = b.opening ∧
        c.alternatives ++ [ofUnits c.units] = b.alternatives ++ alternatives := by
  induction alternatives generalizing b with
  | nil => exact absurd rfl some
  | cons alternative rest ih =>
      rw [List.forall_mem_cons] at each
      obtain ⟨units, here, same⟩ := each.1 b fresh
      cases rest with
      | nil => exact ⟨_, here, rfl, by rw [same]⟩
      | cons second others =>
          obtain ⟨c, later, opening, all⟩ := ih (List.cons_ne_nil _ _) each.2
            (b := bar { b with units }) rfl
          refine ⟨c, ?_, opening, ?_⟩
          · rw [alternativeLines]
            · exact here.append ((leads_bar _).append later)
            · exact nofun
          · rw [all, bar, same, List.append_assoc, List.singleton_append]

theorem standsAsWhole_choice {alternatives : List Grouping} (several : 2 ≤ alternatives.length)
    (each : ∀ alternative ∈ alternatives, alternative.StandsAsAlternative) :
    (choice alternatives).StandsAsWhole := by
  intro opening
  have some : alternatives ≠ [] := by
    rintro rfl
    simp at several
  obtain ⟨b, leads, same, all⟩ :=
    exists_leads_alternativeLines some each (b := { opening }) rfl
  exact ⟨b, leads, same, by rw [OpenBrackets.inner, all]; exact ofAlternatives_eq_choice several⟩

end Grouping

/-- Groups lines by the brackets and bars among them, if all brackets are closed. -/
def Grouping.ofLines? (lines : List String) : Option Grouping :=
  match lines.foldlM OpenBrackets.next ({}, []) with
  | some (b, []) => some b.inner
  | _ => none

theorem Grouping.StandsAsWhole.ofLines?_lines {g : Grouping} (whole : g.StandsAsWhole) :
    Grouping.ofLines? g.lines = some g := by
  obtain ⟨b, leads, -, rfl⟩ := whole ""
  rw [ofLines?, leads []]

example : Grouping.ofLines? ["a", "|", "(", "b", "c", ")?", "d"] =
    some (.choice [.line "a", .sequence [.enclosed "(" (.sequence [.line "b", .line "c"]) ")?",
      .line "d"]]) := by
  rfl

-- Printed without brackets, a choice in a sequence comes back as a choice of sequences.
example : Grouping.ofLines? (Grouping.sequence [.choice [.line "a", .line "b"], .line "c"]).lines =
    some (.choice [.line "a", .sequence [.line "b", .line "c"]]) := by
  rfl

/-! ### The grouping of an expansion -/

namespace Grammar.Expansion

mutual
/-- The lines that an expansion is woven to, as its sequences, choices and brackets hold them
together. The statements of scopes are no part of it. -/
def grouping (style : ScopeStyle) (scope : Option Scope) : Expansion → Grouping
  | sequence units => .sequence (groupings style scope units)
  | choice alternatives => .choice (groupings style scope alternatives)
  | lookahead text => .line text
  | action code => .line ("\x7b" ++ Scope.resolveIn scope code ++ "\x7d")
  | reference target name arguments =>
      .line (assigned target (name ++ "(" ++ arguments ++ ")"))
  | terminal target text => .line (assigned target text)
  | group inner occurrence =>
      .enclosed "(" (grouping style scope inner)
        (")" ++ (occurrence.map Occurrence.symbol).getD "")
  | optional inner => .enclosed "[" (grouping style scope inner) "]"
  | annotated inner node =>
      match style.open? (.unit node) (Scope.depthInside scope) with
      | none => grouping style scope inner
      | some opened => grouping style (some opened) inner
  | guarded inner catches finallyCode =>
      .enclosed "try \x7b" (grouping style scope inner)
        (Woven.clausesText (catches.map (resolveClause scope))
          (finallyCode.map (Scope.resolveIn scope)))

def groupings (style : ScopeStyle) (scope : Option Scope) : List Expansion → List Grouping
  | [] => []
  | e :: rest => grouping style scope e :: groupings style scope rest
end

end Grammar.Expansion

/-! ### Lines outside of generated regions -/

namespace Piece

/-- Outside of generated regions the pieces print these lines, whatever stands behind them. -/
def Prints (pieces : List Piece) (lines : List String) : Prop :=
  ∀ rest, lineTexts (outside (pieces ++ rest)) = lines ++ lineTexts (outside rest)

variable {first second : List Piece} {lines others : List String}

theorem prints_nil : Prints [] [] :=
  fun _ => rfl

theorem prints_line (level : Nat) (text : String) : Prints [line level text] [text] := by
  intro rest
  rw [List.singleton_append, outside_line, lineTexts_line, List.singleton_append]

theorem Prints.append (early : Prints first lines) (late : Prints second others) :
    Prints (first ++ second) (lines ++ others) := by
  intro rest
  rw [List.append_assoc, early, late, List.append_assoc]

theorem Prints.eq (prints : Prints first lines) : lineTexts (outside first) = lines := by
  have alone := prints []
  rwa [List.append_nil, outside, lineTexts_nil, List.append_nil] at alone

def IsLine (piece : Piece) : Prop :=
  ∃ level text, piece = line level text

theorem skipRegion_append {inside : List Piece} (plain : ∀ piece ∈ inside, piece.IsLine)
    (last : Nat) (rest : List Piece) :
    outside.skipRegion (inside ++ regionStop last :: rest) = outside rest := by
  induction inside with
  | nil => rw [List.nil_append, outside.skipRegion]
  | cons piece others ih =>
      rw [List.forall_mem_cons] at plain
      obtain ⟨level, text, rfl⟩ := plain.1
      rw [List.cons_append, outside.skipRegion, ih plain.2]
      exact nofun

theorem prints_region (level last : Nat) (label : Option String) {inside : List Piece}
    (plain : ∀ piece ∈ inside, piece.IsLine) :
    Prints (regionStart level label :: inside ++ [regionStop last]) [] := by
  intro rest
  rw [List.append_assoc, List.singleton_append, List.cons_append, outside,
    skipRegion_append plain, List.nil_append]

theorem isLine_block {level : Nat} {head : String} {body : List Piece}
    (plain : ∀ piece ∈ body, piece.IsLine) : ∀ piece ∈ block level head body, piece.IsLine := by
  intro piece mem
  rw [block, List.cons_append, List.mem_cons, List.mem_append, List.mem_singleton] at mem
  rcases mem with rfl | mem | rfl
  · exact ⟨_, _, rfl⟩
  · exact plain piece mem
  · exact ⟨_, _, rfl⟩

end Piece

open Piece

namespace Statement

mutual
theorem isLine_pieces (level : Nat) : ∀ statement : Statement,
    ∀ piece ∈ pieces level statement, piece.IsLine
  | ifFlag flag body => by
      rw [pieces]
      exact isLine_block (isLine_piecesAll (level + 1) body)
  | ifFlagElse flag body otherwise => by
      rw [pieces]
      simp only [List.cons_append, List.append_assoc, List.forall_mem_cons,
        List.forall_mem_append]
      exact ⟨⟨_, _, rfl⟩, isLine_piecesAll (level + 1) body, ⟨_, _, rfl⟩,
        isLine_piecesAll (level + 1) otherwise, ⟨_, _, rfl⟩, List.forall_mem_nil _⟩
  | rethrow exception type => by
      rw [pieces]
      exact isLine_block (List.forall_mem_singleton.mpr ⟨_, _, rfl⟩)
  | makeNode _ _ _ | raiseFlag _ | lowerFlag _ | openScope _ | closeScope _ _ | clearScope _
  | popNode | openHook _ | closeHook _ | firstToken _ | lastToken _ | throwAsError _ =>
      fun _ mem => ⟨_, _, List.mem_singleton.mp mem⟩

theorem isLine_piecesAll (level : Nat) : ∀ statements : List Statement,
    ∀ piece ∈ piecesAll level statements, piece.IsLine
  | [] => List.forall_mem_nil _
  | statement :: rest => by
      rw [piecesAll, List.forall_mem_append]
      exact ⟨isLine_pieces level statement, isLine_piecesAll level rest⟩
end

end Statement

namespace Woven

theorem prints_earlyClose (level : Nat) (statements : List Statement) :
    Prints ((earlyClose statements).pieces level) [] := by
  rw [pieces]
  exact prints_region level level none (isLine_block (Statement.isLine_piecesAll _ _))

/-- Around its body a scope has one region that opens it and one that ends it. -/
theorem prints_scope (level : Nat) (label : String) (opening : List Statement) (guard : Guard)
    {body : Woven} {lines : List String} (inside : Prints (body.pieces (level + 1)) lines) :
    Prints ((scope label opening body guard).pieces level) lines := by
  have before : Prints (regionStart level (some label) ::
      (block level "" (Statement.piecesAll (level + 1) opening) ++ [.line level "try \x7b"]) ++
        [regionStop level]) [] := by
    refine prints_region level level (some label) (List.forall_mem_append.mpr ⟨?_, ?_⟩)
    · exact isLine_block (Statement.isLine_piecesAll _ _)
    · exact List.forall_mem_singleton.mpr ⟨_, _, rfl⟩
  have behind : Prints (regionStart level none ::
      (.line level ("\x7d catch (Throwable " ++ guard.exception ++ ") \x7b") ::
        (Statement.piecesAll (level + 1) guard.handler ++ .line level "\x7d finally \x7b" ::
          (Statement.piecesAll (level + 1) guard.cleanup ++ [.line level "\x7d"]))) ++
        [regionStop level]) [] := by
    refine prints_region level level none ?_
    simp only [List.forall_mem_cons, List.forall_mem_append]
    exact ⟨⟨_, _, rfl⟩, Statement.isLine_piecesAll _ _, ⟨_, _, rfl⟩,
      Statement.isLine_piecesAll _ _, ⟨_, _, rfl⟩, List.forall_mem_nil _⟩
  have whole := (before.append inside).append behind
  simpa [pieces, Guard.around] using whole

end Woven

/-! ### What the weaver prints -/

namespace Grammar

variable (g : Grammar) (style : ScopeStyle) (p : Production)

theorem prints_weaveAction (scope : Option Scope) (atEnd : Bool) (level : Nat) (code : String) :
    Prints ((weaveAction style scope atEnd code).pieces level)
      ["\x7b" ++ Scope.resolveIn scope code ++ "\x7d"] := by
  have plain (code : String) :
      Prints ((Woven.action code).pieces level) ["\x7b" ++ code ++ "\x7d"] := by
    rw [Woven.pieces]
    exact prints_line level _
  cases scope with
  | none => exact plain code
  | some scope =>
      rw [weaveAction]
      split
      · have closed := Woven.prints_earlyClose level (style.closing scope false)
        have whole := (closed.append (plain (Scope.resolveIn (some scope) code))).append prints_nil
        simpa [Woven.pieces, Woven.piecesAll] using whole
      · exact plain _

open Expansion Woven Grouping in
mutual
theorem prints_weaveExpansion (scope : Option Scope) (atEnd : Bool) (level : Nat) :
    ∀ e : Expansion, Prints ((weaveExpansion g style p scope atEnd e).pieces level)
      (e.grouping style scope).lines
  | .sequence units => by
      rw [weaveExpansion, pieces, grouping, lines]
      exact prints_weaveSequence scope atEnd level units
  | .choice alternatives => by
      rw [weaveExpansion, pieces, grouping, lines]
      exact prints_weaveChoices scope atEnd level alternatives
  | .lookahead text => by
      rw [weaveExpansion, pieces, grouping, lines]
      exact prints_line level text
  | .action code => by
      rw [weaveExpansion, grouping, lines]
      exact prints_weaveAction style scope atEnd level code
  | .reference target name arguments => by
      rw [weaveExpansion, pieces, grouping, lines]
      exact prints_line level _
  | .terminal target text => by
      rw [weaveExpansion, pieces, grouping, lines]
      exact prints_line level _
  | .group inner occurrence => by
      rw [weaveExpansion, pieces, grouping, lines]
      have inside := prints_weaveExpansion scope (atEnd && occurrence.isNone) (level + 1) inner
      exact ((prints_line level "(").append inside).append (prints_line level _)
  | .optional inner => by
      rw [weaveExpansion, pieces, grouping, lines]
      have inside := prints_weaveExpansion scope false (level + 1) inner
      exact ((prints_line level "[").append inside).append (prints_line level "]")
  | .annotated inner node => by
      rw [weaveExpansion, grouping]
      cases style.open? (.unit node) (Scope.depthInside scope) with
      | none => exact prints_weaveExpansion scope atEnd level inner
      | some opened =>
          exact prints_scope level _ _ _
            (prints_weaveExpansion (some opened) true (level + 1) inner)
  | .guarded inner catches finallyCode => by
      rw [weaveExpansion, pieces, grouping, lines]
      have inside := prints_weaveExpansion scope atEnd (level + 1) inner
      exact ((prints_line level "try \x7b").append inside).append (prints_line level _)

theorem prints_weaveSequence (scope : Option Scope) (atEnd : Bool) (level : Nat) :
    ∀ units : List Expansion, Prints (piecesAll level (weaveSequence g style p scope atEnd units))
      (linesAll (groupings style scope units))
  | [] => by
      rw [weaveSequence, piecesAll, groupings, linesAll]
      exact prints_nil
  | [last] => by
      rw [weaveSequence, piecesAll, piecesAll, groupings, groupings, linesAll, linesAll]
      exact (prints_weaveExpansion scope atEnd level last).append prints_nil
  | unit :: next :: rest => by
      rw [weaveSequence, piecesAll, groupings, linesAll]
      · exact (prints_weaveExpansion scope false level unit).append
          (prints_weaveSequence scope atEnd level (next :: rest))
      · exact nofun

theorem prints_weaveChoices (scope : Option Scope) (atEnd : Bool) (level : Nat) :
    ∀ alternatives : List Expansion,
      Prints (alternativePieces level (weaveChoices g style p scope atEnd alternatives))
        (alternativeLines (groupings style scope alternatives))
  | [] => by
      rw [weaveChoices, alternativePieces, groupings, alternativeLines]
      exact prints_nil
  | [last] => by
      rw [weaveChoices, weaveChoices, alternativePieces, groupings, groupings, alternativeLines]
      exact prints_weaveExpansion scope atEnd level last
  | alternative :: next :: rest => by
      have later := prints_weaveChoices scope atEnd level (next :: rest)
      rw [weaveChoices, groupings] at later
      rw [weaveChoices, weaveChoices, groupings, groupings, alternativePieces, alternativeLines]
      · exact (prints_weaveExpansion scope atEnd level alternative).append
          ((prints_line level "|").append later)
      · exact nofun
      · exact nofun
end

end Grammar

end NodeWeave

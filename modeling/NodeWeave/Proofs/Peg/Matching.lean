import NodeWeave.Peg.Run

/-!
What runs of a parsing expression grammar read. Main statements: a run that ends at a later place
has read a text that its expression matches, with the trees that it has built; and the trees that an
expression leaves stand in the order in which it calls its rules.
-/

namespace NodeWeave.Peg

variable {R : Type}

def Expr.IsRuleFree : Expr R → Prop
  | .seq first second | .alt first second => first.IsRuleFree ∧ second.IsRuleFree
  | .opt body | .star body | .more body | .unless body => body.IsRuleFree
  | .rule _ => False
  | _ => True

namespace Rules

/-- The expression matches the text, and leaves the trees of the rules that show themselves in it.
Where the mode admits blanks, they stand between the parts. -/
inductive Matches (g : Rules R) : Mode → Expr R → List Char → List (Tree R) → Prop where
  | done {mode : Mode} : Matches g mode .done [] []
  | text {mode : Mode} (chars : List Char) : Matches g mode (.text chars) chars []
  | one {mode : Mode} {accepts : Char → Bool} {c : Char} (accepted : accepts c = true) :
      Matches g mode (.one accepts) [c] []
  | finish {mode : Mode} : Matches g mode .finish [] []
  | seq {mode : Mode} {a b : Expr R} {front gap back : List Char} {before behind : List (Tree R)}
      (first : Matches g mode a front before)
      (apart : mode = .spaced → Matches g .token g.blank gap [])
      (joined : mode ≠ .spaced → gap = []) (second : Matches g mode b back behind) :
      Matches g mode (.seq a b) (front ++ gap ++ back) (before ++ behind)
  | altFirst {mode : Mode} {a b : Expr R} {text : List Char} {trees : List (Tree R)}
      (first : Matches g mode a text trees) : Matches g mode (.alt a b) text trees
  | altSecond {mode : Mode} {a b : Expr R} {text : List Char} {trees : List (Tree R)}
      (second : Matches g mode b text trees) : Matches g mode (.alt a b) text trees
  | optNone {mode : Mode} {a : Expr R} : Matches g mode (.opt a) [] []
  | optSome {mode : Mode} {a : Expr R} {text : List Char} {trees : List (Tree R)}
      (body : Matches g mode a text trees) : Matches g mode (.opt a) text trees
  | starNone {mode : Mode} {a : Expr R} : Matches g mode (.star a) [] []
  | starSome {mode : Mode} {a : Expr R} {front back : List Char} {before behind : List (Tree R)}
      (first : Matches g mode a front before) (rest : Matches g mode (.more a) back behind) :
      Matches g mode (.star a) (front ++ back) (before ++ behind)
  | moreNone {mode : Mode} {a : Expr R} : Matches g mode (.more a) [] []
  | moreSome {mode : Mode} {a : Expr R} {gap front back : List Char}
      {before behind : List (Tree R)}
      (apart : mode = .spaced → Matches g .token g.blank gap [])
      (joined : mode ≠ .spaced → gap = []) (first : Matches g mode a front before)
      (rest : Matches g mode (.more a) back behind) :
      Matches g mode (.more a) (gap ++ front ++ back) (before ++ behind)
  | absent {mode : Mode} {a : Expr R} : Matches g mode (.unless a) [] []
  | hidden {mode : Mode} {name : R} {text : List Char} {trees : List (Tree R)}
      (hides : g.kind name = .silent ∨ (g.kind name).outer mode = .token)
      (body : Matches g ((g.kind name).inner mode) (g.body name) text trees) :
      Matches g mode (.rule name) text trees
  | shown {mode : Mode} {name : R} {text : List Char} {children : List (Tree R)}
      (start stop : Nat)
      (shows : ¬ (g.kind name = .silent ∨ (g.kind name).outer mode = .token))
      (body : Matches g ((g.kind name).inner mode) (g.body name) text children) :
      Matches g mode (.rule name) text [.node name start stop (String.ofList text) children]

variable {g : Rules R} {mode : Mode} {e : Expr R} {text : List Char} {trees : List (Tree R)}

theorem Matches.trees_eq_nil (matched : g.Matches mode e text trees) (free : e.IsRuleFree) :
    trees = [] := by
  induction matched with
  | done | text | one | finish | optNone | starNone | moreNone | absent => rfl
  | seq _ _ _ _ ihFirst _ ihSecond => rw [ihFirst free.1, ihSecond free.2]; rfl
  | altFirst _ ih => exact ih free.1
  | altSecond _ ih => exact ih free.2
  | optSome _ ih => exact ih free
  | starSome _ _ ihFirst ihRest => rw [ihFirst free, ihRest free]; rfl
  | moreSome _ _ _ _ _ ihFirst ihRest => rw [ihFirst free, ihRest free]; rfl
  | hidden | shown => exact free.elim

end Rules

/-! ### Runs -/

/-- A text leads from one cursor to a later one, and these trees are built on the way. -/
structure Cursor.Moves (text : List Char) (trees : List (Tree R)) (c later : Cursor R) : Prop where
  rest : c.rest = text ++ later.rest
  index : later.index = c.index + text.length
  made : later.made = trees.reverse ++ c.made

namespace Cursor

variable {a b : List Char} {s t : List (Tree R)} {c d e : Cursor R}

theorem Moves.nothing (c : Cursor R) : Moves [] [] c c :=
  ⟨rfl, rfl, rfl⟩

theorem Moves.append (first : Moves a s c d) (second : Moves b t d e) :
    Moves (a ++ b) (s ++ t) c e where
  rest := by rw [first.rest, second.rest, List.append_assoc]
  index := by rw [second.index, first.index, List.length_append, Nat.add_assoc]
  made := by rw [second.made, first.made, List.reverse_append, List.append_assoc]

theorem moves_of_text? {chars : List Char} (read : c.text? chars = some d) :
    Moves chars [] c d := by
  unfold text? at read
  split at read
  · next found =>
      cases read
      exact ⟨Text.after?_eq_some_iff.mp found, rfl, rfl⟩
  · cases read

theorem exists_moves_of_one? {accepts : Char → Bool} (read : c.one? accepts = some d) :
    ∃ ch, accepts ch = true ∧ Moves [ch] [] c d := by
  unfold one? at read
  split at read
  · cases read
  · next ch rest same =>
      split at read
      · next accepted =>
          cases read
          exact ⟨ch, accepted, same, rfl, rfl⟩
      · cases read

theorem Moves.textTo (moves : Moves a s c d) : c.textTo d = String.ofList a := by
  rw [Cursor.textTo, moves.index, moves.rest, Nat.add_sub_cancel_left, List.take_left]

end Cursor

namespace Rules

variable {g : Rules R}

/-- The expression matches a text that leads from one cursor to the other. -/
def Consumes (g : Rules R) (mode : Mode) (e : Expr R) (c later : Cursor R) : Prop :=
  ∃ text trees, c.Moves text trees later ∧ g.Matches mode e text trees

section

variable {depth : Nat} {mode : Mode} {c later : Cursor R} {x y : Expectation R}
  (sound : ∀ {mode e c x later y}, g.run depth mode e c x = (some later, y) →
    g.Consumes mode e c later)

include sound

theorem consumes_rule {name : R}
    (run : g.run (depth + 1) mode (.rule name) c x = (some later, y)) :
    g.Consumes mode (.rule name) c later := by
  simp only [Rules.run] at run
  split at run
  · next hides =>
      obtain ⟨text, trees, moves, matched⟩ := sound run
      exact ⟨text, trees, moves, .hidden (by simpa using hides) matched⟩
  · next shows =>
      split at run
      · cases run
      · next inner z ran =>
          cases run
          obtain ⟨text, children, moves, matched⟩ := sound ran
          have made : inner.made.reverse = children := by simp [moves.made]
          have whole : c.textTo inner = String.ofList text := moves.textTo
          refine ⟨text, _, ⟨moves.rest, moves.index, ?_⟩,
            .shown c.offset inner.offset (by simpa using shows) matched⟩
          rw [made, whole]
          rfl

variable (plain : g.blank.IsRuleFree)

include plain

theorem exists_gap_of_run (run : (match mode with
      | .spaced => g.run depth .token g.blank c x
      | _ => (some c, x)) = (some later, y)) :
    ∃ gap, c.Moves gap [] later ∧ (mode = .spaced → g.Matches .token g.blank gap []) ∧
      (mode ≠ .spaced → gap = []) := by
  cases mode with
  | spaced =>
      obtain ⟨gap, trees, moves, matched⟩ := sound run
      obtain rfl := matched.trees_eq_nil plain
      exact ⟨gap, moves, fun _ => matched, fun other => absurd rfl other⟩
  | compact | token =>
      cases run
      exact ⟨[], .nothing c, nofun, fun _ => rfl⟩

theorem consumes_seq {first second : Expr R}
    (run : g.run (depth + 1) mode (.seq first second) c x = (some later, y)) :
    g.Consumes mode (.seq first second) c later := by
  simp only [Rules.run] at run
  split at run
  · cases run
  · next middle z ranFirst =>
      have split : ∃ next w, (match mode with
          | .spaced => g.run depth .token g.blank middle z
          | _ => (some middle, z)) = (some next, w) ∧
          g.run depth mode second next w = (some later, y) := by
        cases mode with
        | spaced =>
            simp only at run
            split at run
            · cases run
            · next ranBlank => exact ⟨_, _, ranBlank, run⟩
        | compact | token => exact ⟨_, _, rfl, run⟩
      obtain ⟨next, w, ranGap, ranSecond⟩ := split
      obtain ⟨front, before, toMiddle, matchedFirst⟩ := sound ranFirst
      obtain ⟨gap, toNext, apart, joined⟩ := exists_gap_of_run sound plain ranGap
      obtain ⟨back, behind, toLater, matchedSecond⟩ := sound ranSecond
      refine ⟨_, _, ?_, .seq matchedFirst apart joined matchedSecond⟩
      simpa using (toMiddle.append toNext).append toLater

theorem consumes_more {body : Expr R}
    (run : g.run (depth + 1) mode (.more body) c x = (some later, y)) :
    g.Consumes mode (.more body) c later := by
  simp only [Rules.run] at run
  split at run
  · cases run
    exact ⟨[], [], .nothing c, .moreNone⟩
  · next ranGap =>
      split at run
      · cases run
        exact ⟨[], [], .nothing c, .moreNone⟩
      · next ran =>
          obtain ⟨gap, toStart, apart, joined⟩ := exists_gap_of_run sound plain ranGap
          obtain ⟨front, before, toNext, matchedFirst⟩ := sound ran
          obtain ⟨back, behind, toLater, matchedRest⟩ := sound run
          refine ⟨_, _, ?_, .moreSome apart joined matchedFirst matchedRest⟩
          simpa using (toStart.append toNext).append toLater

end

theorem consumes_of_run (plain : g.blank.IsRuleFree) {depth : Nat} {mode : Mode} {e : Expr R}
    {c later : Cursor R} {x y : Expectation R} (run : g.run depth mode e c x = (some later, y)) :
    g.Consumes mode e c later := by
  induction depth generalizing mode e c later x y with
  | zero => cases run
  | succ depth ih =>
      cases e with
      | done =>
          cases run
          exact ⟨[], [], .nothing c, .done⟩
      | text chars =>
          obtain ⟨read, -⟩ := Prod.mk.inj run
          exact ⟨chars, [], Cursor.moves_of_text? read, .text chars⟩
      | one accepts =>
          obtain ⟨read, -⟩ := Prod.mk.inj run
          obtain ⟨ch, accepted, moves⟩ := Cursor.exists_moves_of_one? read
          exact ⟨[ch], [], moves, .one accepted⟩
      | finish =>
          simp only [Rules.run] at run
          split at run <;> cases run
          exact ⟨[], [], .nothing c, .finish⟩
      | seq first second => exact consumes_seq ih plain run
      | alt first second =>
          simp only [Rules.run] at run
          split at run
          · next ran =>
              cases run
              obtain ⟨text, trees, moves, matched⟩ := ih ran
              exact ⟨text, trees, moves, .altFirst matched⟩
          · obtain ⟨text, trees, moves, matched⟩ := ih run
            exact ⟨text, trees, moves, .altSecond matched⟩
      | opt body =>
          simp only [Rules.run] at run
          split at run
          · next ran =>
              cases run
              obtain ⟨text, trees, moves, matched⟩ := ih ran
              exact ⟨text, trees, moves, .optSome matched⟩
          · cases run
            exact ⟨[], [], .nothing c, .optNone⟩
      | star body =>
          simp only [Rules.run] at run
          split at run
          · cases run
            exact ⟨[], [], .nothing c, .starNone⟩
          · next ran =>
              obtain ⟨front, before, toNext, matchedFirst⟩ := ih ran
              obtain ⟨back, behind, toLater, matchedRest⟩ := ih run
              exact ⟨_, _, toNext.append toLater, .starSome matchedFirst matchedRest⟩
      | more body => exact consumes_more ih plain run
      | «unless» body =>
          simp only [Rules.run] at run
          split at run <;> cases run
          exact ⟨[], [], .nothing c, .absent⟩
      | rule name => exact consumes_rule ih run

end Rules

/-! ### Trees -/

/-- The tree shows what the body of its rule has matched. -/
def Rules.Makes (g : Rules R) (tree : Tree R) : Prop :=
  ∃ mode, (mode = .token ↔ g.kind tree.rule = .token) ∧
    g.Matches mode (g.body tree.rule) tree.text.toList tree.children

def Expr.Leaves (g : Rules R) : Expr R → List (Tree R) → Prop
  | .seq first second, trees => ∃ before behind, trees = before ++ behind ∧
      first.Leaves g before ∧ second.Leaves g behind
  | .alt first second, trees => first.Leaves g trees ∨ second.Leaves g trees
  | .opt body, trees => trees = [] ∨ body.Leaves g trees
  | .star body, trees | .more body, trees => ∃ parts : List (List (Tree R)),
      trees = parts.flatten ∧ ∀ part ∈ parts, body.Leaves g part
  | .rule name, trees => g.kind name = .silent ∨
      ∃ tree, trees = [tree] ∧ tree.rule = name ∧ g.Makes tree
  | _, trees => trees = []

namespace Rules

variable {g : Rules R} {mode : Mode} {e : Expr R} {text : List Char} {trees : List (Tree R)}

theorem Matches.leaves (matched : g.Matches mode e text trees) (showing : mode ≠ .token) :
    e.Leaves g trees := by
  induction matched with
  | done | text | one | finish | absent => rfl
  | seq _ _ _ _ ihFirst _ ihSecond => exact ⟨_, _, rfl, ihFirst showing, ihSecond showing⟩
  | altFirst _ ih => exact .inl (ih showing)
  | altSecond _ ih => exact .inr (ih showing)
  | optNone => exact .inl rfl
  | optSome _ ih => exact .inr (ih showing)
  | starNone | moreNone => exact ⟨[], rfl, nofun⟩
  | starSome _ _ ihFirst ihRest =>
      obtain ⟨parts, rfl, each⟩ := ihRest showing
      exact ⟨_ :: parts, rfl, List.forall_mem_cons.mpr ⟨ihFirst showing, each⟩⟩
  | moreSome _ _ _ _ _ ihFirst ihRest =>
      obtain ⟨parts, rfl, each⟩ := ihRest showing
      exact ⟨_ :: parts, rfl, List.forall_mem_cons.mpr ⟨ihFirst showing, each⟩⟩
  | @hidden mode name text trees hides body ih =>
      refine .inl (hides.resolve_right fun outer => ?_)
      cases kind : g.kind name <;> simp_all [Kind.outer]
  | @shown mode name text children start stop shows body ih =>
      refine .inr ⟨_, rfl, rfl, (g.kind name).inner mode, ?_,
        by simpa [Tree.rule, Tree.text, Tree.children] using body⟩
      cases kind : g.kind name <;> simp_all [Kind.inner, Kind.outer, Tree.rule]

theorem makes_of_parse (plain : g.blank.IsRuleFree) {root : R} (shows : g.kind root ≠ .silent)
    {text : String} {tree : Tree R} (parsed : g.parse root text = .ok tree) :
    tree.rule = root ∧ g.Makes tree := by
  unfold parse at parsed
  simp only at parsed
  split at parsed
  · next made ran =>
      cases parsed
      obtain ⟨whole, trees, moves, matched⟩ := consumes_of_run plain ran
      obtain ⟨only, rfl, rule, makes⟩ := (matched.leaves nofun).resolve_left shows
      have same := moves.made
      cases same
      exact ⟨rule, makes⟩
  · cases parsed

theorem Makes.leaves {tree : Tree R} (made : g.Makes tree) (showing : g.kind tree.rule ≠ .token) :
    (g.body tree.rule).Leaves g tree.children := by
  obtain ⟨mode, iff, matched⟩ := made
  exact matched.leaves fun token => showing (iff.mp token)

end Rules

/-! ### Texts without blanks -/

namespace Rules

variable {g : Rules R} {text : List Char}

/-- The expression matches the text where nothing may stand between the parts and no trees are
left. -/
def Reads (g : Rules R) (e : Expr R) (text : List Char) : Prop :=
  ∃ trees, g.Matches .token e text trees

theorem Makes.reads {tree : Tree R} (made : g.Makes tree) (token : g.kind tree.rule = .token) :
    g.Reads (g.body tree.rule) tree.text.toList := by
  obtain ⟨mode, iff, matched⟩ := made
  obtain rfl := iff.mpr token
  exact ⟨_, matched⟩

theorem reads_text_iff {chars : List Char} : g.Reads (.text chars) text ↔ text = chars := by
  constructor
  · rintro ⟨_, ⟨⟩⟩
    rfl
  · rintro rfl
    exact ⟨[], .text text⟩

theorem reads_one_iff {accepts : Char → Bool} :
    g.Reads (.one accepts) text ↔ ∃ c, accepts c = true ∧ text = [c] := by
  constructor
  · rintro ⟨_, _ | _ | accepted⟩
    exact ⟨_, accepted, rfl⟩
  · rintro ⟨c, accepted, rfl⟩
    exact ⟨[], .one accepted⟩

theorem reads_seq_iff {first second : Expr R} : g.Reads (.seq first second) text ↔
    ∃ front back, text = front ++ back ∧ g.Reads first front ∧ g.Reads second back := by
  constructor
  · rintro ⟨_, matched⟩
    cases matched with
    | seq front apart joined back =>
        rw [joined nofun, List.append_nil]
        exact ⟨_, _, rfl, ⟨_, front⟩, ⟨_, back⟩⟩
  · rintro ⟨front, back, rfl, ⟨before, first⟩, ⟨behind, second⟩⟩
    rw [← List.append_nil front]
    exact ⟨before ++ behind, .seq first nofun (fun _ => rfl) second⟩

theorem reads_alt_iff {first second : Expr R} :
    g.Reads (.alt first second) text ↔ g.Reads first text ∨ g.Reads second text := by
  constructor
  · rintro ⟨trees, matched⟩
    cases matched with
    | altFirst first => exact .inl ⟨trees, first⟩
    | altSecond second => exact .inr ⟨trees, second⟩
  · rintro (⟨trees, first⟩ | ⟨trees, second⟩)
    · exact ⟨trees, .altFirst first⟩
    · exact ⟨trees, .altSecond second⟩

/-- No rule but a compact one starts to show itself inside a token. -/
theorem Reads.body {name : R} (read : g.Reads (.rule name) text) (loose : g.kind name ≠ .compact) :
    g.Reads (g.body name) text := by
  obtain ⟨trees, matched⟩ := read
  cases matched with
  | hidden _ body =>
      refine ⟨trees, ?_⟩
      cases kind : g.kind name <;> simp_all [Kind.inner]
  | shown _ _ shows => cases kind : g.kind name <;> simp_all [Kind.outer]

theorem reads_rule_iff {name : R} (kind : g.kind name = .token) :
    g.Reads (.rule name) text ↔ g.Reads (g.body name) text := by
  have hides : g.kind name = .silent ∨ (g.kind name).outer .token = .token := by
    rw [kind]
    exact .inr rfl
  have inner : (g.kind name).inner .token = .token := by rw [kind]; rfl
  constructor
  · rintro ⟨trees, matched⟩
    cases matched with
    | hidden _ body => exact ⟨trees, inner ▸ body⟩
    | shown _ _ shows => exact absurd hides shows
  · rintro ⟨trees, matched⟩
    exact ⟨trees, .hidden hides (inner.symm ▸ matched)⟩

theorem Matches.exists_parts_of_more {mode : Mode} {e body : Expr R} {trees : List (Tree R)}
    (matched : g.Matches mode e text trees) (tight : mode = .token) (repeated : e = .more body) :
    ∃ parts : List (List Char), text = parts.flatten ∧ ∀ part ∈ parts, g.Reads body part := by
  induction matched with
  | moreNone => exact ⟨[], rfl, nofun⟩
  | moreSome _ joined first _ _ _ ih =>
      cases repeated
      subst tight
      obtain ⟨parts, rfl, each⟩ := ih rfl rfl
      rw [joined nofun, List.nil_append]
      exact ⟨_ :: parts, rfl, List.forall_mem_cons.mpr ⟨⟨_, first⟩, each⟩⟩
  | _ => cases repeated

theorem Reads.exists_parts {body : Expr R} (read : g.Reads (.star body) text) :
    ∃ parts : List (List Char), text = parts.flatten ∧ ∀ part ∈ parts, g.Reads body part := by
  obtain ⟨trees, matched⟩ := read
  cases matched with
  | starNone => exact ⟨[], rfl, nofun⟩
  | starSome first rest =>
      obtain ⟨parts, rfl, each⟩ := rest.exists_parts_of_more rfl rfl
      exact ⟨_ :: parts, rfl, List.forall_mem_cons.mpr ⟨⟨_, first⟩, each⟩⟩

end Rules

/-! ### Rules that leave trees -/

def Expr.calls : Expr R → List R
  | .seq first second | .alt first second => first.calls ++ second.calls
  | .opt body | .star body | .more body | .unless body => body.calls
  | .rule name => [name]
  | _ => []

theorem Expr.Leaves.forall_mem {g : Rules R} {e : Expr R} {trees : List (Tree R)}
    (leaves : e.Leaves g trees) (shows : ∀ name ∈ e.calls, g.kind name ≠ .silent) :
    ∀ tree ∈ trees, tree.rule ∈ e.calls ∧ g.Makes tree := by
  induction e generalizing trees with
  | done | text | one | finish =>
      cases leaves
      exact nofun
  | seq first second ihFirst ihSecond =>
      obtain ⟨before, behind, rfl, front, back⟩ := leaves
      rw [calls, List.forall_mem_append] at shows
      rw [List.forall_mem_append]
      constructor
      · intro tree mem
        exact (ihFirst front shows.1 tree mem).imp_left (List.mem_append_left _)
      · intro tree mem
        exact (ihSecond back shows.2 tree mem).imp_left (List.mem_append_right _)
  | alt first second ihFirst ihSecond =>
      rw [calls, List.forall_mem_append] at shows
      intro tree mem
      rcases leaves with front | back
      · exact (ihFirst front shows.1 tree mem).imp_left (List.mem_append_left _)
      · exact (ihSecond back shows.2 tree mem).imp_left (List.mem_append_right _)
  | opt body ih =>
      rcases leaves with rfl | inner
      · exact nofun
      · exact ih inner shows
  | star body ih | more body ih =>
      obtain ⟨parts, rfl, each⟩ := leaves
      intro tree mem
      obtain ⟨part, listed, inside⟩ := List.mem_flatten.mp mem
      exact ih (each part listed) shows tree inside
  | «unless» body =>
      cases leaves
      exact nofun
  | rule name =>
      obtain ⟨tree, rfl, same, made⟩ := leaves.resolve_left (shows name (List.mem_singleton_self _))
      rw [List.forall_mem_singleton, calls, List.mem_singleton]
      exact ⟨same, made⟩

end NodeWeave.Peg

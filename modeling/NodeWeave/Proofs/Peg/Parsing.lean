import NodeWeave.Proofs.Peg.Termination

/-!
What a parsing expression grammar makes of a text, by rules for match and refusal alike. Main
statement: whatever follows from the rules is what all runs give that have room enough, and nothing
else follows.
-/

namespace NodeWeave.Peg

variable {R : Type}

/-- The front of a text that is matched, what is left of the text, and the trees of the front. -/
structure Match (R : Type) where
  front : List Char
  rest : List Char
  trees : List (Tree R)

namespace Match

def nothing (text : List Char) : Match R :=
  ⟨[], text, []⟩

end Match

def Cursor.after (c : Cursor R) (m : Match R) : Cursor R :=
  { rest := m.rest
    offset := c.offset + Text.byteLength m.front
    index := c.index + m.front.length
    made := m.trees.reverse ++ c.made }

namespace Cursor

variable {c : Cursor R} {front text rest : List Char} {trees more : List (Tree R)}

theorem after_nothing (same : c.rest = text) : c.after (.nothing text) = c := by
  cases same
  cases c
  simp [after, Match.nothing]

theorem after_after {back : List Char} :
    (c.after ⟨front, text, trees⟩).after ⟨back, rest, more⟩ =
      c.after ⟨front ++ back, rest, trees ++ more⟩ := by
  simp [after, Nat.add_assoc]

end Cursor

namespace Rules

def gap (g : Rules R) : Mode → Expr R
  | .spaced => g.blank
  | .compact | .token => .done

/-- The name hides in the mode: it leaves no tree of its own. -/
def Hides (g : Rules R) (mode : Mode) (name : R) : Prop :=
  g.kind name = .silent ∨ (g.kind name).outer mode = .token

/-- What an expression makes of a text from an offset on: a match of its front, or nothing. -/
inductive Parses (g : Rules R) : Mode → Expr R → Nat → List Char → Option (Match R) → Prop where
  | done {mode : Mode} {o : Nat} {t : List Char} : Parses g mode .done o t (some (.nothing t))
  | text {mode : Mode} {o : Nat} (chars t : List Char) :
      Parses g mode (.text chars) o (chars ++ t) (some ⟨chars, t, []⟩)
  | otherText {mode : Mode} {o : Nat} {chars t : List Char} (other : ¬ chars <+: t) :
      Parses g mode (.text chars) o t none
  | one {mode : Mode} {o : Nat} {accepts : Char → Bool} {c : Char} (accepted : accepts c = true)
      (t : List Char) : Parses g mode (.one accepts) o (c :: t) (some ⟨[c], t, []⟩)
  | otherOne {mode : Mode} {o : Nat} {accepts : Char → Bool} {t : List Char}
      (other : ∀ c ∈ t.head?, accepts c = false) : Parses g mode (.one accepts) o t none
  | finish {mode : Mode} {o : Nat} : Parses g mode .finish o [] (some (.nothing []))
  | unfinished {mode : Mode} {o : Nat} {t : List Char} (more : t ≠ []) :
      Parses g mode .finish o t none
  | seq {mode : Mode} {a b : Expr R} {o : Nat} {t u v w front space back : List Char}
      {before between behind : List (Tree R)}
      (first : Parses g mode a o t (some ⟨front, u, before⟩))
      (apart : Parses g .token (g.gap mode) (o + Text.byteLength front) u
        (some ⟨space, v, between⟩))
      (second : Parses g mode b (o + Text.byteLength (front ++ space)) v (some ⟨back, w, behind⟩)) :
      Parses g mode (.seq a b) o t (some ⟨front ++ space ++ back, w, before ++ between ++ behind⟩)
  | noFirst {mode : Mode} {a b : Expr R} {o : Nat} {t : List Char}
      (first : Parses g mode a o t none) : Parses g mode (.seq a b) o t none
  | notApart {mode : Mode} {a b : Expr R} {o : Nat} {t u front : List Char}
      {before : List (Tree R)} (first : Parses g mode a o t (some ⟨front, u, before⟩))
      (apart : Parses g .token (g.gap mode) (o + Text.byteLength front) u none) :
      Parses g mode (.seq a b) o t none
  | noSecond {mode : Mode} {a b : Expr R} {o : Nat} {t u v front space : List Char}
      {before between : List (Tree R)} (first : Parses g mode a o t (some ⟨front, u, before⟩))
      (apart : Parses g .token (g.gap mode) (o + Text.byteLength front) u
        (some ⟨space, v, between⟩))
      (second : Parses g mode b (o + Text.byteLength (front ++ space)) v none) :
      Parses g mode (.seq a b) o t none
  | altFirst {mode : Mode} {a b : Expr R} {o : Nat} {t : List Char} {m : Match R}
      (first : Parses g mode a o t (some m)) : Parses g mode (.alt a b) o t (some m)
  | altSecond {mode : Mode} {a b : Expr R} {o : Nat} {t : List Char} {r : Option (Match R)}
      (first : Parses g mode a o t none) (second : Parses g mode b o t r) :
      Parses g mode (.alt a b) o t r
  | opt {mode : Mode} {a : Expr R} {o : Nat} {t : List Char} {m : Match R}
      (body : Parses g mode a o t (some m)) : Parses g mode (.opt a) o t (some m)
  | noOpt {mode : Mode} {a : Expr R} {o : Nat} {t : List Char}
      (body : Parses g mode a o t none) : Parses g mode (.opt a) o t (some (.nothing t))
  | star {mode : Mode} {a : Expr R} {o : Nat} {t u v front back : List Char}
      {before behind : List (Tree R)} (first : Parses g mode a o t (some ⟨front, u, before⟩))
      (rest : Parses g mode (.more a) (o + Text.byteLength front) u (some ⟨back, v, behind⟩)) :
      Parses g mode (.star a) o t (some ⟨front ++ back, v, before ++ behind⟩)
  | noStar {mode : Mode} {a : Expr R} {o : Nat} {t : List Char}
      (first : Parses g mode a o t none) : Parses g mode (.star a) o t (some (.nothing t))
  | more {mode : Mode} {a : Expr R} {o : Nat} {t u v w space front back : List Char}
      {between before behind : List (Tree R)}
      (apart : Parses g .token (g.gap mode) o t (some ⟨space, u, between⟩))
      (first : Parses g mode a (o + Text.byteLength space) u (some ⟨front, v, before⟩))
      (rest : Parses g mode (.more a) (o + Text.byteLength (space ++ front)) v
        (some ⟨back, w, behind⟩)) :
      Parses g mode (.more a) o t
        (some ⟨space ++ front ++ back, w, between ++ before ++ behind⟩)
  | notMore {mode : Mode} {a : Expr R} {o : Nat} {t : List Char}
      (apart : Parses g .token (g.gap mode) o t none) :
      Parses g mode (.more a) o t (some (.nothing t))
  | noMore {mode : Mode} {a : Expr R} {o : Nat} {t u space : List Char}
      {between : List (Tree R)}
      (apart : Parses g .token (g.gap mode) o t (some ⟨space, u, between⟩))
      (first : Parses g mode a (o + Text.byteLength space) u none) :
      Parses g mode (.more a) o t (some (.nothing t))
  | unless {mode : Mode} {a : Expr R} {o : Nat} {t : List Char}
      (body : Parses g mode a o t none) : Parses g mode (.unless a) o t (some (.nothing t))
  | noUnless {mode : Mode} {a : Expr R} {o : Nat} {t : List Char} {m : Match R}
      (body : Parses g mode a o t (some m)) : Parses g mode (.unless a) o t none
  | hidden {mode : Mode} {name : R} {o : Nat} {t : List Char} {r : Option (Match R)}
      (hides : g.Hides mode name)
      (body : Parses g ((g.kind name).inner mode) (g.body name) o t r) :
      Parses g mode (.rule name) o t r
  | shown {mode : Mode} {name : R} {o : Nat} {t u front : List Char} {children : List (Tree R)}
      (shows : ¬ g.Hides mode name)
      (body : Parses g ((g.kind name).inner mode) (g.body name) o t (some ⟨front, u, children⟩)) :
      Parses g mode (.rule name) o t
        (some ⟨front, u,
          [.node name o (o + Text.byteLength front) (String.ofList front) children]⟩)
  | notShown {mode : Mode} {name : R} {o : Nat} {t : List Char} (shows : ¬ g.Hides mode name)
      (body : Parses g ((g.kind name).inner mode) (g.body name) o t none) :
      Parses g mode (.rule name) o t none

variable {g : Rules R} {mode : Mode} {e : Expr R} {o : Nat} {t : List Char}

theorem Parses.eq_append {m : Match R} (parses : g.Parses mode e o t (some m)) :
    t = m.front ++ m.rest := by
  generalize found : some m = r at parses
  induction parses generalizing m with
  | done | finish | noOpt | noStar | notMore | noMore | «unless» =>
      cases found
      rfl
  | text | one =>
      cases found
      rfl
  | otherText | otherOne | unfinished | noFirst | notApart | noSecond | noUnless | notShown =>
      cases found
  | seq _ _ _ ihFirst ihApart ihSecond =>
      cases found
      rw [ihFirst rfl]
      simp only at ihApart ihSecond ⊢
      rw [ihApart rfl, List.append_assoc, List.append_assoc]
      simp only
      rw [ihSecond rfl]
  | altFirst _ ih | opt _ ih => exact ih found
  | altSecond _ _ _ ih | hidden _ _ ih => exact ih found
  | star _ _ ihFirst ihRest =>
      cases found
      rw [ihFirst rfl, List.append_assoc]
      simp only at ihRest ⊢
      rw [ihRest rfl]
  | more _ _ _ ihApart ihFirst ihRest =>
      cases found
      rw [ihApart rfl]
      simp only at ihFirst ihRest ⊢
      rw [ihFirst rfl, List.append_assoc, List.append_assoc]
      simp only
      rw [ihRest rfl]
  | shown _ _ ih =>
      cases found
      simpa using ih rfl

/-! ### Runs follow the rules -/

/-- Runs with room enough lead from a cursor to this result. -/
def Leads (g : Rules R) (mode : Mode) (e : Expr R) (c : Cursor R) (r : Option (Cursor R)) : Prop :=
  ∃ depth, ∀ larger, depth ≤ larger → ∀ x, (g.run larger mode e c x).1 = r

namespace Leads

variable {a b : Expr R} {c d f : Cursor R} {r : Option (Cursor R)}

/-- Where runs one level deeper come to a result in the end, so do these. -/
theorem step (late : ∃ depth, ∀ larger, depth ≤ larger → ∀ x,
    (g.run (larger + 1) mode e c x).1 = r) : g.Leads mode e c r := by
  obtain ⟨depth, late⟩ := late
  refine ⟨depth + 1, ?_⟩
  rintro (_ | larger) le x
  · omega
  · exact late larger (by omega) x

theorem exists_eq (leads : g.Leads mode e c r) :
    ∃ depth, ∀ larger, depth ≤ larger → ∀ x, ∃ y, g.run larger mode e c x = (r, y) := by
  obtain ⟨depth, late⟩ := leads
  exact ⟨depth, fun larger le x => ⟨_, Prod.ext (late larger le x) rfl⟩⟩

theorem between (gap : g.Leads .token (g.gap mode) c (some d)) :
    ∃ depth, ∀ larger, depth ≤ larger → ∀ x, ∃ y, (match mode with
      | .spaced => g.run larger .token g.blank c x
      | _ => (some c, x)) = (some d, y) := by
  obtain ⟨depth, late⟩ := gap.exists_eq
  cases mode with
  | spaced => exact ⟨depth, late⟩
  | compact | token =>
      obtain ⟨y, same⟩ := late (depth + 1) (Nat.le_succ depth) {}
      cases same
      exact ⟨0, fun _ _ x => ⟨x, rfl⟩⟩

theorem seq (first : g.Leads mode a c (some d)) (apart : g.Leads .token (g.gap mode) d (some f))
    (second : g.Leads mode b f r) : g.Leads mode (.seq a b) c r := by
  obtain ⟨m, first⟩ := first.exists_eq
  obtain ⟨n, apart⟩ := apart.between
  obtain ⟨k, second⟩ := second
  refine step ⟨m + n + k, fun larger le x => ?_⟩
  obtain ⟨y, ranFirst⟩ := first larger (by omega) x
  obtain ⟨z, ranGap⟩ := apart larger (by omega) y
  simp only [Rules.run]
  rw [ranFirst]
  cases mode with
  | spaced =>
      simp only at ranGap ⊢
      rw [ranGap]
      exact second larger (by omega) z
  | compact | token =>
      cases ranGap
      exact second larger (by omega) _

theorem noFirst (first : g.Leads mode a c none) : g.Leads mode (.seq a b) c none := by
  obtain ⟨m, first⟩ := first.exists_eq
  refine step ⟨m, fun larger le x => ?_⟩
  obtain ⟨y, ran⟩ := first larger le x
  simp only [Rules.run]
  rw [ran]

theorem notApart (first : g.Leads mode a c (some d)) (apart : g.Leads .token (g.gap mode) d none) :
    g.Leads mode (.seq a b) c none := by
  obtain ⟨m, first⟩ := first.exists_eq
  obtain ⟨n, apart⟩ := apart.exists_eq
  refine step ⟨m + n + 1, fun larger le x => ?_⟩
  obtain ⟨y, ranFirst⟩ := first larger (by omega) x
  obtain ⟨z, ranGap⟩ := apart larger (by omega) y
  simp only [Rules.run]
  rw [ranFirst]
  cases mode with
  | spaced =>
      rw [gap] at ranGap
      simp only
      rw [ranGap]
  | compact | token =>
      obtain ⟨larger, rfl⟩ := Nat.exists_eq_add_of_le' (show 1 ≤ larger by omega)
      cases ranGap

theorem altFirst (first : g.Leads mode a c (some d)) : g.Leads mode (.alt a b) c (some d) := by
  obtain ⟨m, first⟩ := first.exists_eq
  refine step ⟨m, fun larger le x => ?_⟩
  obtain ⟨y, ran⟩ := first larger le x
  simp only [Rules.run]
  rw [ran]

theorem altSecond (first : g.Leads mode a c none) (second : g.Leads mode b c r) :
    g.Leads mode (.alt a b) c r := by
  obtain ⟨m, first⟩ := first.exists_eq
  obtain ⟨n, second⟩ := second
  refine step ⟨m + n, fun larger le x => ?_⟩
  obtain ⟨y, ran⟩ := first larger (by omega) x
  simp only [Rules.run]
  rw [ran]
  exact second larger (by omega) y

theorem opt (body : g.Leads mode a c r) : g.Leads mode (.opt a) c (some (r.getD c)) := by
  obtain ⟨m, body⟩ := body.exists_eq
  refine step ⟨m, fun larger le x => ?_⟩
  obtain ⟨y, ran⟩ := body larger le x
  simp only [Rules.run]
  rw [ran]
  cases r <;> rfl

theorem star (first : g.Leads mode a c (some d)) (rest : g.Leads mode (.more a) d r) :
    g.Leads mode (.star a) c r := by
  obtain ⟨m, first⟩ := first.exists_eq
  obtain ⟨n, rest⟩ := rest
  refine step ⟨m + n, fun larger le x => ?_⟩
  obtain ⟨y, ran⟩ := first larger (by omega) x
  simp only [Rules.run]
  rw [ran]
  exact rest larger (by omega) y

theorem noStar (first : g.Leads mode a c none) : g.Leads mode (.star a) c (some c) := by
  obtain ⟨m, first⟩ := first.exists_eq
  refine step ⟨m, fun larger le x => ?_⟩
  obtain ⟨y, ran⟩ := first larger le x
  simp only [Rules.run]
  rw [ran]

theorem more {h : Cursor R} (apart : g.Leads .token (g.gap mode) c (some d))
    (first : g.Leads mode a d (some f)) (rest : g.Leads mode (.more a) f (some h)) :
    g.Leads mode (.more a) c (some h) := by
  obtain ⟨m, apart⟩ := apart.between
  obtain ⟨n, first⟩ := first.exists_eq
  obtain ⟨k, rest⟩ := rest
  refine step ⟨m + n + k, fun larger le x => ?_⟩
  obtain ⟨y, ranGap⟩ := apart larger (by omega) x
  obtain ⟨z, ranFirst⟩ := first larger (by omega) y
  obtain ran := rest larger (by omega) z
  simp only [Rules.run]
  cases mode with
  | spaced =>
      simp only at ranGap ⊢
      rw [ranGap]
      simp only
      rw [ranFirst]
      exact ran
  | compact | token =>
      cases ranGap
      simp only
      rw [ranFirst]
      exact ran

theorem notMore (apart : g.Leads .token (g.gap mode) c none) :
    g.Leads mode (.more a) c (some c) := by
  obtain ⟨m, apart⟩ := apart.exists_eq
  refine step ⟨m + 1, fun larger le x => ?_⟩
  obtain ⟨y, ranGap⟩ := apart larger (by omega) x
  simp only [Rules.run]
  cases mode with
  | spaced =>
      rw [gap] at ranGap
      simp only
      rw [ranGap]
  | compact | token =>
      obtain ⟨larger, rfl⟩ := Nat.exists_eq_add_of_le' (show 1 ≤ larger by omega)
      cases ranGap

theorem noMore (apart : g.Leads .token (g.gap mode) c (some d)) (first : g.Leads mode a d none) :
    g.Leads mode (.more a) c (some c) := by
  obtain ⟨m, apart⟩ := apart.between
  obtain ⟨n, first⟩ := first.exists_eq
  refine step ⟨m + n, fun larger le x => ?_⟩
  obtain ⟨y, ranGap⟩ := apart larger (by omega) x
  obtain ⟨z, ranFirst⟩ := first larger (by omega) y
  simp only [Rules.run]
  cases mode with
  | spaced =>
      simp only at ranGap ⊢
      rw [ranGap]
      simp only
      rw [ranFirst]
  | compact | token =>
      cases ranGap
      simp only
      rw [ranFirst]

theorem «unless» (body : g.Leads mode a c r) :
    g.Leads mode (.unless a) c (if r.isSome then none else some c) := by
  obtain ⟨m, body⟩ := body.exists_eq
  refine step ⟨m, fun larger le x => ?_⟩
  obtain ⟨y, ran⟩ := body larger le x
  simp only [Rules.run]
  rw [ran]
  cases r <;> rfl

theorem hidden {name : R} (hides : g.Hides mode name)
    (body : g.Leads ((g.kind name).inner mode) (g.body name) c r) :
    g.Leads mode (.rule name) c r := by
  obtain ⟨m, body⟩ := body
  refine step ⟨m, fun larger le x => ?_⟩
  simp only [Rules.run]
  rw [if_pos (by simpa [Hides] using hides)]
  exact body larger le x

theorem shown {name : R} (shows : ¬ g.Hides mode name)
    (body : g.Leads ((g.kind name).inner mode) (g.body name) { c with made := [] } r) :
    g.Leads mode (.rule name) c (r.map fun d =>
      { d with made := .node name c.offset d.offset (c.textTo d) d.made.reverse :: c.made }) := by
  obtain ⟨m, body⟩ := body.exists_eq
  refine step ⟨m, fun larger le x => ?_⟩
  obtain ⟨y, ran⟩ := body larger le x
  simp only [Rules.run]
  rw [if_neg (by simpa [Hides] using shows), ran]
  cases r <;> rfl

end Leads

/-- Runs with room enough lead from this place of a text to behind what is matched. -/
def Yields (g : Rules R) (mode : Mode) (e : Expr R) (o : Nat) (t : List Char)
    (r : Option (Match R)) : Prop :=
  ∀ c : Cursor R, c.rest = t → c.offset = o → g.Leads mode e c (r.map c.after)

namespace Yields

variable {a b : Expr R} {u v w front space back : List Char}
  {before between behind : List (Tree R)} {m : Match R}

theorem nothing (leads : ∀ c : Cursor R, c.rest = t → c.offset = o → g.Leads mode e c (some c)) :
    g.Yields mode e o t (some (.nothing t)) := by
  intro c same offset
  rw [Option.map_some, Cursor.after_nothing same]
  exact leads c same offset

/-! #### Characters -/

theorem text (chars t : List Char) :
    g.Yields mode (.text chars) o (chars ++ t) (some ⟨chars, t, []⟩) := by
  rintro c same rfl
  refine .step ⟨0, fun _ _ _ => ?_⟩
  simp [Rules.run, Cursor.text?, same, Text.after?_eq_some_iff.mpr rfl, Cursor.after]

theorem otherText {chars : List Char} (other : ¬ chars <+: t) :
    g.Yields mode (.text chars) o t none := by
  rintro c rfl rfl
  refine .step ⟨0, fun _ _ _ => ?_⟩
  simp [Rules.run, Cursor.text?, Text.after?_eq_none_iff.mpr other]

theorem one {accepts : Char → Bool} {c : Char} (accepted : accepts c = true) (t : List Char) :
    g.Yields mode (.one accepts) o (c :: t) (some ⟨[c], t, []⟩) := by
  rintro c same rfl
  refine .step ⟨0, fun _ _ _ => ?_⟩
  simp [Rules.run, Cursor.one?, same, accepted, Cursor.after]

theorem otherOne {accepts : Char → Bool} (other : ∀ c ∈ t.head?, accepts c = false) :
    g.Yields mode (.one accepts) o t none := by
  rintro c rfl rfl
  refine .step ⟨0, fun _ _ _ => ?_⟩
  rcases begins : c.rest with _ | ⟨ch, rest⟩
  · simp [Rules.run, Cursor.one?, begins]
  · have refused := other ch (by rw [begins]; rfl)
    simp [Rules.run, Cursor.one?, begins, refused]

/-! #### Parts one after the other -/

theorem seq (first : g.Yields mode a o t (some ⟨front, u, before⟩))
    (apart : g.Yields .token (g.gap mode) (o + Text.byteLength front) u (some ⟨space, v, between⟩))
    (second : g.Yields mode b (o + Text.byteLength (front ++ space)) v (some ⟨back, w, behind⟩)) :
    g.Yields mode (.seq a b) o t
      (some ⟨front ++ space ++ back, w, before ++ between ++ behind⟩) := by
  rintro c rfl rfl
  refine .seq (first c rfl rfl) (apart _ rfl rfl) ?_
  rw [Cursor.after_after]
  have leads := second (c.after ⟨front ++ space, v, before ++ between⟩) rfl rfl
  rwa [Option.map_some, Cursor.after_after] at leads

theorem noSecond (first : g.Yields mode a o t (some ⟨front, u, before⟩))
    (apart : g.Yields .token (g.gap mode) (o + Text.byteLength front) u (some ⟨space, v, between⟩))
    (second : g.Yields mode b (o + Text.byteLength (front ++ space)) v none) :
    g.Yields mode (.seq a b) o t none := by
  rintro c rfl rfl
  refine .seq (first c rfl rfl) (apart _ rfl rfl) ?_
  rw [Cursor.after_after]
  exact second (c.after ⟨_, _, _⟩) rfl rfl

theorem star (first : g.Yields mode a o t (some ⟨front, u, before⟩))
    (rest : g.Yields mode (.more a) (o + Text.byteLength front) u (some ⟨back, v, behind⟩)) :
    g.Yields mode (.star a) o t (some ⟨front ++ back, v, before ++ behind⟩) := by
  rintro c rfl rfl
  refine .star (first c rfl rfl) ?_
  simpa [Cursor.after_after] using rest (c.after ⟨_, _, _⟩) rfl rfl

theorem more (apart : g.Yields .token (g.gap mode) o t (some ⟨space, u, between⟩))
    (first : g.Yields mode a (o + Text.byteLength space) u (some ⟨front, v, before⟩))
    (rest : g.Yields mode (.more a) (o + Text.byteLength (space ++ front)) v
      (some ⟨back, w, behind⟩)) :
    g.Yields mode (.more a) o t
      (some ⟨space ++ front ++ back, w, between ++ before ++ behind⟩) := by
  rintro c rfl rfl
  have leadsFirst := first (c.after ⟨space, u, between⟩) rfl rfl
  rw [Option.map_some, Cursor.after_after] at leadsFirst
  refine .more (apart c rfl rfl) leadsFirst ?_
  have leads := rest (c.after ⟨space ++ front, v, between ++ before⟩) rfl rfl
  rwa [Option.map_some, Cursor.after_after] at leads

theorem shown {name : R} {children : List (Tree R)} (shows : ¬ g.Hides mode name)
    (split : t = front ++ u) (body : g.Yields ((g.kind name).inner mode) (g.body name) o t
      (some ⟨front, u, children⟩)) :
    g.Yields mode (.rule name) o t (some ⟨front, u,
      [.node name o (o + Text.byteLength front) (String.ofList front) children]⟩) := by
  rintro c rfl rfl
  have ran := Leads.shown shows (body _ rfl rfl)
  simpa [Cursor.after, Cursor.textTo, split] using ran

end Yields

/-- What follows from the rules is what runs with room enough give. -/
theorem Parses.yields {r : Option (Match R)} (parses : g.Parses mode e o t r) :
    g.Yields mode e o t r := by
  induction parses with
  | done => exact .nothing fun _ _ _ => .step ⟨0, fun _ _ _ => rfl⟩
  | text chars t => exact .text chars t
  | otherText other => exact .otherText other
  | one accepted t => exact .one accepted t
  | otherOne other => exact .otherOne other
  | finish => exact .nothing fun _ same _ => .step ⟨0, fun _ _ _ => by simp [Rules.run, same]⟩
  | unfinished more =>
      rintro c rfl rfl
      exact .step ⟨0, fun _ _ _ => by simp [Rules.run, more]⟩
  | seq _ _ _ ihFirst ihApart ihSecond => exact .seq ihFirst ihApart ihSecond
  | noFirst _ ih => exact fun c same offset => .noFirst (ih c same offset)
  | notApart _ _ ihFirst ihApart =>
      rintro c rfl rfl
      exact .notApart (ihFirst c rfl rfl) (ihApart _ rfl rfl)
  | noSecond _ _ _ ihFirst ihApart ihSecond => exact .noSecond ihFirst ihApart ihSecond
  | altFirst _ ih => exact fun c same offset => .altFirst (ih c same offset)
  | altSecond _ _ ihFirst ihSecond =>
      exact fun c same offset => .altSecond (ihFirst c same offset) (ihSecond c same offset)
  | opt _ ih => exact fun c same offset => .opt (ih c same offset)
  | noOpt _ ih => exact .nothing fun c same offset => .opt (ih c same offset)
  | star _ _ ihFirst ihRest => exact .star ihFirst ihRest
  | noStar _ ih => exact .nothing fun c same offset => .noStar (ih c same offset)
  | more _ _ _ ihApart ihFirst ihRest => exact .more ihApart ihFirst ihRest
  | notMore _ ih => exact .nothing fun c same offset => .notMore (ih c same offset)
  | noMore _ _ ihApart ihFirst =>
      refine .nothing ?_
      rintro c rfl rfl
      exact .noMore (ihApart c rfl rfl) (ihFirst _ rfl rfl)
  | «unless» _ ih => exact .nothing fun c same offset => .unless (ih c same offset)
  | noUnless _ ih => exact fun c same offset => .unless (ih c same offset)
  | hidden hides _ ih => exact fun c same offset => .hidden hides (ih c same offset)
  | shown shows body ih => exact .shown shows body.eq_append ih
  | notShown shows _ ih =>
      rintro c rfl rfl
      exact .shown shows (ih _ rfl rfl)

theorem Parses.unique {r s : Option (Match R)} (first : g.Parses mode e o t r)
    (second : g.Parses mode e o t s) : r = s := by
  obtain ⟨m, runsFirst⟩ := first.yields ⟨t, o, 0, []⟩ rfl rfl
  obtain ⟨n, runsSecond⟩ := second.yields ⟨t, o, 0, []⟩ rfl rfl
  have same := (runsFirst (m + n) (by omega) {}).symm.trans (runsSecond (m + n) (by omega) {})
  cases r with
  | none =>
      cases s with
      | none => rfl
      | some m => cases same
  | some m =>
      cases s with
      | none => cases same
      | some k =>
          have fronts := first.eq_append.symm.trans second.eq_append
          obtain ⟨front, rest, trees⟩ := m
          obtain ⟨front', rest', trees'⟩ := k
          simp only [Cursor.after, Option.map_some, Option.some.injEq, Cursor.mk.injEq,
            List.append_nil, List.reverse_inj] at same
          obtain ⟨rfl, -, -, rfl⟩ := same
          simp only at fronts
          rw [List.append_cancel_right fronts]

/-! ### Whole texts -/

variable {root : R} {text : String}

/-- Where runs have room enough, a parse gives the tree that the rules leave. -/
theorem Parses.parse_eq_ok {tree : Tree R} {front rest : List Char}
    (settled : g.Settles (depthFor text.toList.length) .spaced (.rule root) (.start text))
    (parses : g.Parses .spaced (.rule root) 0 text.toList (some ⟨front, rest, [tree]⟩)) :
    g.parse root text = .ok tree := by
  obtain ⟨depth, ran⟩ := parses.yields (.start text) rfl rfl
  have same := ran (depth + depthFor text.toList.length) (by omega) {}
  rw [settled _ (by omega)] at same
  obtain ⟨x, whole⟩ : ∃ x, g.run (depthFor text.toList.length) .spaced (.rule root)
      (.start text) {} = (some ((Cursor.start text).after ⟨front, rest, [tree]⟩), x) :=
    ⟨_, Prod.ext same rfl⟩
  simp only [parse, Cursor.start] at whole ⊢
  rw [whole]
  rfl

end Rules

end NodeWeave.Peg

/-!
## Taking

What expressions take from the front of a text where nothing may stand between their parts, and
what they refuse. One lemma for each operator.
-/

namespace NodeWeave.Peg.Rules

variable {R : Type}

/-- Where texts of tokens are read, nothing is skipped between parts. -/
theorem token_ne_spaced : Mode.token ≠ .spaced := by decide

/-- The expression takes this front of the text, and leaves no trees. -/
def Takes (g : Rules R) (mode : Mode) (e : Expr R) (w u : List Char) : Prop :=
  ∀ o, g.Parses mode e o (w ++ u) (some ⟨w, u, []⟩)

def Refuses (g : Rules R) (mode : Mode) (e : Expr R) (t : List Char) : Prop :=
  ∀ o, g.Parses mode e o t none

variable {g : Rules R} {mode : Mode} {a b : Expr R} {w v u t chars : List Char} {c : Char}
  {accepts : Char → Bool} {name : R}

/-! ### Characters and choices -/

theorem Takes.text : g.Takes mode (.text chars) chars u :=
  fun _ => .text chars u

theorem Takes.one (accepted : accepts c = true) : g.Takes mode (.one accepts) [c] u :=
  fun _ => .one accepted u

theorem Takes.altFirst (first : g.Takes mode a w u) : g.Takes mode (.alt a b) w u :=
  fun o => .altFirst (first o)

theorem Takes.altSecond (first : g.Refuses mode a (w ++ u))
    (second : g.Takes mode b w u) : g.Takes mode (.alt a b) w u :=
  fun o => .altSecond (first o) (second o)

theorem Takes.opt (body : g.Takes mode a w u) : g.Takes mode (.opt a) w u :=
  fun o => .opt (body o)

theorem Takes.noOpt (body : g.Refuses mode a u) : g.Takes mode (.opt a) [] u :=
  fun o => .noOpt (body o)

theorem Takes.unless (body : g.Refuses mode a u) : g.Takes mode (.unless a) [] u :=
  fun o => .unless (body o)

theorem Takes.noStar (first : g.Refuses mode a u) : g.Takes mode (.star a) [] u :=
  fun o => .noStar (first o)

theorem Takes.hidden (hides : g.Hides mode name)
    (body : g.Takes ((g.kind name).inner mode) (g.body name) w u) :
    g.Takes mode (.rule name) w u :=
  fun o => .hidden hides (body o)

namespace Refuses

theorem text (other : ¬ chars <+: t) : g.Refuses mode (.text chars) t :=
  fun _ => .otherText other

theorem one (other : ∀ c ∈ t.head?, accepts c = false) : g.Refuses mode (.one accepts) t :=
  fun _ => .otherOne other

theorem alt (first : g.Refuses mode a t) (second : g.Refuses mode b t) :
    g.Refuses mode (.alt a b) t :=
  fun o => .altSecond (first o) (second o)

theorem seq (first : g.Refuses mode a t) : g.Refuses mode (.seq a b) t :=
  fun o => .noFirst (first o)

theorem «unless» (body : g.Takes mode a w u) :
    g.Refuses mode (.unless a) (w ++ u) :=
  fun o => .noUnless (body o)

theorem rule (body : g.Refuses ((g.kind name).inner mode) (g.body name) t) :
    g.Refuses mode (.rule name) t := by
  intro o
  by_cases hides : g.Hides mode name
  · exact .hidden hides (body o)
  · exact .notShown hides (body o)

end Refuses

/-! ### Rows -/

section

variable (tight : mode ≠ .spaced)

include tight

theorem gap_of_tight : g.gap mode = .done := by
  cases mode with
  | spaced => exact absurd rfl tight
  | compact | token => rfl

theorem Takes.apart : g.Takes .token (g.gap mode) [] u := by
  rw [gap_of_tight tight]
  exact fun _ => .done

theorem Takes.seq (first : g.Takes mode a w (v ++ u)) (second : g.Takes mode b v u) :
    g.Takes mode (.seq a b) (w ++ v) u := by
  intro o
  have whole := Parses.seq (first o) (Takes.apart tight _) (second _)
  simpa using whole

theorem Refuses.seqSecond (first : g.Takes mode a w u) (second : g.Refuses mode b u) :
    g.Refuses mode (.seq a b) (w ++ u) := by
  intro o
  exact .noSecond (first o) (Takes.apart tight _) (second _)

/-- Further repetitions take what repetitions take. -/
theorem Takes.more (star : g.Takes mode (.star a) w u) : g.Takes mode (.more a) w u := by
  intro o
  have apart : g.Takes .token (g.gap mode) [] (w ++ u) := Takes.apart tight
  generalize whole : w ++ u = t at apart
  generalize read : some (Match.mk w u ([] : List (Tree R))) = result
  have parses := star o
  rw [whole, read] at parses
  cases parses with
  | star first others =>
      simp only [Option.some.injEq, Match.mk.injEq, List.nil_eq, List.append_eq_nil_iff] at read
      obtain ⟨rfl, rfl, rfl, rfl⟩ := read
      have whole := Parses.more (apart o) (by simpa using first) (by simpa using others)
      simpa using whole
  | noStar first =>
      cases read
      exact .noMore (apart o) (by simpa using first)

theorem Takes.star (first : g.Takes mode a w (v ++ u))
    (others : g.Takes mode (.star a) v u) : g.Takes mode (.star a) (w ++ v) u := by
  intro o
  have whole := Parses.star (first o) (others.more tight _)
  simpa using whole

theorem Takes.consSeq (first : g.Takes mode a [c] (v ++ u)) (second : g.Takes mode b v u) :
    g.Takes mode (.seq a b) (c :: v) u :=
  first.seq tight second

theorem Takes.consStar (first : g.Takes mode a [c] (v ++ u))
    (others : g.Takes mode (.star a) v u) : g.Takes mode (.star a) (c :: v) u :=
  first.star tight others

end

end NodeWeave.Peg.Rules

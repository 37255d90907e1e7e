import NodeWeave.Scope.Thrown
import Mathlib.Data.String.Basic

/-!
The exceptions that leave a body are those of the production around it and of all productions that
are reached from the body without going through the name of the production around it. Where the
body is all that this production expands to, nothing is lost by going around it.
-/

namespace NodeWeave.Grammar

variable (g : Grammar)

/-! ### Reaching productions -/

def Production.references (p : Production) : List String :=
  (p.expansion?.map Expansion.references).getD []

/-- A production is reached from some names through references, none of which is avoided. -/
inductive Reaches (avoided start : List String) : Production → Prop
  | first {name : String} {p : Production} (mem : name ∈ start) (free : name ∉ avoided)
      (declared : g.production? name = some p) : Reaches avoided start p
  | next {name : String} {p q : Production} (reached : Reaches avoided start p)
      (mem : name ∈ p.references) (free : name ∉ avoided)
      (declared : g.production? name = some q) : Reaches avoided start q

variable {g}

namespace Reaches

variable {avoided others start names : List String} {p q : Production}

theorem not_from_nothing : ¬ g.Reaches avoided [] q := by
  intro reached
  generalize nothing : ([] : List String) = start at reached
  induction reached with
  | first mem =>
      subst nothing
      exact absurd mem List.not_mem_nil
  | next _ _ _ _ ih => exact ih

theorem mono (fewer : ∀ name, name ∉ avoided → name ∉ others)
    (wider : ∀ name ∈ start, name ∈ names) (reached : g.Reaches avoided start q) :
    g.Reaches others names q := by
  induction reached with
  | first mem free declared => exact .first (wider _ mem) (fewer _ free) declared
  | next _ mem free declared ih => exact .next ih mem (fewer _ free) declared

/-- What is reached from the references of a production is reached from the production. -/
theorem through (reached : g.Reaches avoided names p)
    (beyond : g.Reaches avoided (p.references ++ start) q)
    (wider : ∀ name ∈ start, name ∈ names) : g.Reaches avoided names q := by
  induction beyond with
  | first mem free declared =>
      cases List.mem_append.mp mem with
      | inl mem => exact .next reached mem free declared
      | inr mem => exact .first (wider _ mem) free declared
  | next _ mem free declared ih => exact .next ih mem free declared

/-- A way that starts at a production or comes back to it can be cut short there: from then on its
name need not be met again. -/
theorem around {name : String} (declared : g.production? name = some p)
    (reached : g.Reaches avoided (name :: start) q) :
    q = p ∨ g.Reaches (name :: avoided) (p.references ++ start) q := by
  have here : ∀ {other r}, other = name → g.production? other = some r → r = p := by
    rintro other r rfl found
    exact Option.some.inj (found.symm.trans declared)
  induction reached with
  | @first other r mem free found =>
      by_cases same : other = name
      · exact .inl (here same found)
      · have mem : other ∈ start := (List.mem_cons.mp mem).resolve_left same
        exact .inr (.first (List.mem_append_right _ mem)
          (List.not_mem_cons_of_ne_of_not_mem same free) found)
  | @next other r s _ mem free found ih =>
      by_cases same : other = name
      · exact .inl (here same found)
      · have free : other ∉ name :: avoided := List.not_mem_cons_of_ne_of_not_mem same free
        cases ih with
        | inl back =>
            subst back
            exact .inr (.first (List.mem_append_left _ mem) free found)
        | inr reached => exact .inr (.next reached mem free found)

theorem cons_iff_of_idle {name : String} (idle : name ∉ avoided → g.production? name = none) :
    g.Reaches avoided (name :: start) q ↔ g.Reaches avoided start q := by
  constructor
  · intro reached
    induction reached with
    | @first other r mem free found =>
        rcases List.mem_cons.mp mem with rfl | mem
        · exact absurd ((idle free).symm.trans found) nofun
        · exact .first mem free found
    | next _ mem free found ih => exact .next ih mem free found
  · exact mono (fun _ free => free) fun _ mem => List.mem_cons_of_mem _ mem

theorem cons_iff_of_declared {name : String} (free : name ∉ avoided)
    (declared : g.production? name = some p) :
    g.Reaches avoided (name :: start) q ↔
      q = p ∨ g.Reaches (name :: avoided) (p.references ++ start) q := by
  have itself : g.Reaches avoided (name :: start) p :=
    .first List.mem_cons_self free declared
  constructor
  · exact around declared
  · rintro (rfl | reached)
    · exact itself
    · have reached : g.Reaches avoided (p.references ++ start) q :=
        reached.mono (fun _ free => fun mem => free (List.mem_cons_of_mem _ mem)) fun _ mem => mem
      exact itself.through reached fun _ mem => List.mem_cons_of_mem _ mem

end Reaches

/-! ### The traversal -/

theorem reachable_of_visited {visited : List String} {name : String}
    (known : visited.contains name = true) (pending : List String) :
    g.reachable visited (name :: pending) = g.reachable visited pending := by
  rw [reachable]
  split
  · rfl
  · next fresh => exact absurd (known.symm.trans fresh) (by decide)

theorem reachable_of_undeclared (visited : List String) {name : String}
    (nothing : g.production? name = none) (pending : List String) :
    g.reachable visited (name :: pending) = g.reachable visited pending := by
  rw [reachable]
  split
  · rfl
  · split
    · rfl
    · next found =>
        rw [nothing] at found
        cases found

theorem reachable_of_declared {visited : List String} {name : String} {p : Production}
    (fresh : visited.contains name = false) (declared : g.production? name = some p)
    (pending : List String) :
    g.reachable visited (name :: pending) =
      p :: g.reachable (name :: visited) (p.references ++ pending) := by
  rw [reachable]
  split
  · next known => exact absurd (fresh.symm.trans known) (by decide)
  · split
    · next nothing =>
        rw [nothing] at declared
        cases declared
    · next found =>
        cases found.symm.trans declared
        rfl

/-- The traversal marks a name before it follows what the name stands for, and yet meets all that
is reached. -/
theorem mem_reachable_iff (visited pending : List String) {q : Production} :
    q ∈ g.reachable visited pending ↔ g.Reaches visited pending q := by
  induction visited, pending using reachable.induct g with
  | case1 visited =>
      rw [reachable]
      exact iff_of_false List.not_mem_nil Reaches.not_from_nothing
  | case2 visited name pending known ih =>
      have closed : name ∈ visited := List.contains_iff_mem.mp known
      rw [reachable_of_visited known, ih, Reaches.cons_iff_of_idle fun free => absurd closed free]
  | case3 visited name pending fresh nothing ih =>
      rw [reachable_of_undeclared visited nothing, ih, Reaches.cons_iff_of_idle fun _ => nothing]
  | case4 visited name pending fresh p declared ih =>
      have free : name ∉ visited := by simpa using fresh
      rw [reachable_of_declared fresh declared, List.mem_cons,
        Reaches.cons_iff_of_declared free declared]
      exact or_congr_right ih

/-! ### Sets of exceptions -/

theorem pairwise_insertSorted {names : List String} (sorted : names.Pairwise (· < ·))
    (name : String) : (insertSorted name names).Pairwise (· < ·) := by
  induction names with
  | nil => exact List.pairwise_singleton _ _
  | cons other rest ih =>
      obtain ⟨above, tail⟩ := List.pairwise_cons.mp sorted
      simp only [insertSorted]
      split
      · next less =>
          refine List.pairwise_cons.mpr ⟨fun later mem => ?_, sorted⟩
          rcases List.mem_cons.mp mem with rfl | mem
          · exact less
          · exact less.trans (above later mem)
      · next notLess =>
          split
          · exact sorted
          · next differs =>
              refine List.pairwise_cons.mpr ⟨fun later mem => ?_, ih tail⟩
              rcases mem_insertSorted.mp mem with rfl | mem
              · exact lt_of_le_of_ne (not_lt.mp notLess) (Ne.symm differs)
              · exact above later mem

theorem pairwise_sortedDistinct (names : List String) :
    (sortedDistinct names).Pairwise (· < ·) := by
  induction names with
  | nil => exact List.Pairwise.nil
  | cons name rest ih => exact pairwise_insertSorted ih name

/-- An exception is declared by a production, or by one that is reached from a body inside it. -/
def MayLeave (g : Grammar) (avoided : List String) (p : Production) (body : Expansion)
    (e : String) : Prop :=
  e ∈ p.throws ∨ ∃ q, g.Reaches avoided body.references q ∧ e ∈ q.throws

theorem mem_thrown_iff {p : Production} {body : Expansion} {e : String} :
    e ∈ p.throws ++ (g.reachable [p.name] body.references).flatMap Production.throws ↔
      g.MayLeave [p.name] p body e := by
  simp only [MayLeave, List.mem_append, List.mem_flatMap, mem_reachable_iff]

/-- A production that is met again adds nothing to a body that is all it expands to. -/
theorem mayLeave_whole_iff {p : Production} {body : Expansion}
    (declared : g.production? p.name = some p) (whole : p.expansion? = some body) (e : String) :
    g.MayLeave [p.name] p body e ↔ g.MayLeave [] p body e := by
  have same : p.references = body.references := by rw [Production.references, whole]; rfl
  refine or_congr_right' fun undeclared => ?_
  constructor
  · rintro ⟨q, reached, mem⟩
    exact ⟨q, reached.mono (fun _ _ => List.not_mem_nil) fun _ mem => mem, mem⟩
  · rintro ⟨q, reached, mem⟩
    have itself : g.Reaches [] [p.name] p := .first List.mem_cons_self List.not_mem_nil declared
    have beyond : g.Reaches [] (p.references ++ []) q := by simpa [same] using reached
    have fromItself : g.Reaches [] [p.name] q :=
      itself.through beyond fun _ mem => absurd mem List.not_mem_nil
    cases fromItself.around declared with
    | inl back =>
        subst back
        exact absurd mem undeclared
    | inr beyond => exact ⟨q, by simpa [same] using beyond, mem⟩

/-- The standard exceptions come first. The others follow in order, each once: those declared by
the production around the body and by what is reached from the body without meeting the name of
that production. Where the body is all of its production, this leaves out nothing that is
reached. -/
theorem exceptionSet_eq (g : Grammar) (p : Production) (body : Expansion) :
    ∃ others, g.exceptionSet (some p) body = runtimeException :: parseException :: others ∧
      others.Pairwise (· < ·) ∧
      (∀ e, e ∈ others ↔
        e ≠ runtimeException ∧ e ≠ parseException ∧ g.MayLeave [p.name] p body e) ∧
      (g.production? p.name = some p → p.expansion? = some body →
        ∀ e, e ∈ others ↔ e ≠ runtimeException ∧ e ≠ parseException ∧ g.MayLeave [] p body e) := by
  have mem_others : ∀ e, e ∈ (sortedDistinct (p.throws ++
      (g.reachable [p.name] body.references).flatMap Production.throws)).filter
        (fun e => e != runtimeException && e != parseException) ↔
        e ≠ runtimeException ∧ e ≠ parseException ∧ g.MayLeave [p.name] p body e := by
    intro e
    rw [List.mem_filter, mem_sortedDistinct, mem_thrown_iff, Bool.and_eq_true, bne_iff_ne,
      bne_iff_ne, and_comm, and_assoc]
  refine ⟨_, rfl, (pairwise_sortedDistinct _).filter _, mem_others, fun declared whole e => ?_⟩
  rw [← mayLeave_whole_iff declared whole]
  exact mem_others e

/-! A production whose scope calls it back, and which then calls what may throw. -/

def innerCall : Expansion :=
  .reference none "A" ""

def outerBody : Expansion :=
  .sequence [.annotated innerCall ⟨"N", none⟩, .reference none "C" ""]

def caller : Production :=
  { name := "A", header := "void A()", throws := [], descriptor := none, offset := 0
    body := .rules "" outerBody }

def thrower : Production :=
  { name := "C", header := "void C()", throws := ["E"], descriptor := none, offset := 0
    body := .rules "" (.sequence []) }

def callingBack : Grammar :=
  { name := "G.jjt", items := [.production caller, .production thrower] }

theorem exceptionSet_eq_callingBack :
    callingBack.production? "A" = some caller ∧ caller.expansion? = some outerBody ∧
      "E" ∈ callingBack.exceptionSet (some caller) outerBody := by
  obtain ⟨others, same, -, -, whole⟩ := exceptionSet_eq callingBack caller outerBody
  have mem : "C" ∈ outerBody.references := by decide
  have reached : callingBack.Reaches [] outerBody.references thrower :=
    .first mem List.not_mem_nil rfl
  have found : "E" ∈ others :=
    (whole rfl rfl "E").mpr ⟨by decide, by decide, .inr ⟨thrower, reached, by decide⟩⟩
  rw [same]
  exact ⟨rfl, rfl, List.mem_cons_of_mem _ (List.mem_cons_of_mem _ found)⟩

/-- The call in the scope reaches the exception, but only through the name that is gone around. -/
theorem not_mem_exceptionSet_callingBack :
    callingBack.MayLeave [] caller innerCall "E" ∧
      "E" ∉ callingBack.exceptionSet (some caller) innerCall := by
  have back : callingBack.Reaches [] innerCall.references caller :=
    .first (by decide : "A" ∈ innerCall.references) List.not_mem_nil rfl
  have reached : callingBack.Reaches [] innerCall.references thrower :=
    back.next (by decide : "C" ∈ caller.references) List.not_mem_nil rfl
  have stops : callingBack.reachable ["A"] innerCall.references = [] := by
    change callingBack.reachable ["A"] ["A"] = []
    rw [reachable_of_visited (by decide), reachable]
  refine ⟨.inr ⟨thrower, reached, by decide⟩, ?_⟩
  change "E" ∉ withStandardExceptions ([] ++ (callingBack.reachable ["A"] _).flatMap _)
  rw [stops]
  decide

end NodeWeave.Grammar

import NodeWeave.Proofs.Files.Walk

/-!
The trail of a path: the routes where directories must stand for the path to be followed, up to the
first name that is a file or too long.
-/

namespace NodeWeave.Files

open NodeWeave.Path Route

variable (files : Files)

def isFileAt (route : Route) : Bool :=
  match files.entryAt? route with
  | some (.file ..) => true
  | _ => false

theorem isFileAt_eq_false_iff {route : Route} : files.isFileAt route = false ↔
    files.entryAt? route = none ∨ files.entryAt? route = some .directory := by
  rw [isFileAt]
  split
  · next entry => simp [entry]
  · next other =>
      simp only [true_iff]
      cases entry : files.entryAt? route with
      | none => exact .inl rfl
      | some found =>
          cases found with
          | directory => exact .inr rfl
          | file text executable => exact (other text executable entry).elim

/-- Where directories must stand for names to be followed, and whether they can all be there. -/
structure Trail where
  stops : List Route
  isClear : Bool

def trail : Route → List String → Trail
  | _, [] => ⟨[], true⟩
  | route, name :: rest =>
      if isFiller name then trail route rest
      else if maxNameLength < name.utf8ByteSize || files.isFileAt (step route name) then ⟨[], false⟩
      else
        let further := trail (step route name) rest
        ⟨step route name :: further.stops, further.isClear⟩

/-! ### Trails -/

@[simp] theorem trail_nil (route : Route) : files.trail route [] = ⟨[], true⟩ := rfl

theorem trail_filler (route : Route) {name : String} (filler : isFiller name = true)
    (rest : List String) : files.trail route (name :: rest) = files.trail route rest := by
  rw [trail, if_pos filler]

theorem trail_append (route : Route) (a b : List String) : files.trail route (a ++ b) =
    if (files.trail route a).isClear then
      ⟨(files.trail route a).stops ++ (files.trail (lead route a) b).stops,
        (files.trail (lead route a) b).isClear⟩
    else files.trail route a := by
  fun_induction files.trail route a with
  | case1 route => rfl
  | case2 route name rest filler ih =>
      rw [List.cons_append, trail_filler _ _ filler, ih, lead_cons, step_filler route filler]
  | case3 route name rest solid blocked =>
      rw [List.cons_append, trail, if_neg solid, if_pos blocked]
      rfl
  | case4 route name rest solid open_ further ih =>
      rw [List.cons_append, trail, if_neg solid, if_neg open_, ih, lead_cons]
      split <;> rfl

theorem trail_last (route : Route) {last : String} (solid : isFiller last = false)
    (short : last.utf8ByteSize ≤ maxNameLength) : files.trail route [last] =
      if files.isFileAt (step route last) then ⟨[], false⟩ else ⟨[step route last], true⟩ := by
  rw [trail, if_neg (by simp [solid])]
  cases files.isFileAt (step route last) <;> simp [Nat.not_lt.mpr short]

theorem trail_fillers (route : Route) {fillers : List String}
    (all : ∀ name ∈ fillers, isFiller name = true) : files.trail route fillers = ⟨[], true⟩ := by
  induction fillers with
  | nil => rfl
  | cons name rest ih =>
      rw [trail_filler _ _ (all name List.mem_cons_self)]
      exact ih fun name mem => all name (List.mem_cons_of_mem _ mem)

theorem trail_core (route : Route) (names : List String) :
    files.trail route (core names) = files.trail route names := by
  obtain ⟨fillers, all, same⟩ := exists_core_append names
  conv_rhs => rw [same, trail_append, trail_fillers _ _ all, List.append_nil]
  cases clear : (files.trail route (core names)).isClear with
  | true => rw [if_pos rfl, ← clear]
  | false => rfl

theorem not_isFileAt_of_mem_stops {route stop : Route} {names : List String}
    (mem : stop ∈ (files.trail route names).stops) : files.isFileAt stop = false := by
  fun_induction files.trail route names with
  | case1 => cases mem
  | case2 route name rest filler ih => exact ih mem
  | case3 => cases mem
  | case4 route name rest solid open_ further ih =>
      simp only [Bool.or_eq_true, decide_eq_true_eq, not_or, Bool.not_eq_true] at open_
      cases mem with
      | head => exact open_.2
      | tail _ mem => exact ih mem

theorem mem_entered_self (route : Route) {names : List String} (some : names ≠ []) :
    route ∈ entered route names := by
  obtain ⟨name, rest, rfl⟩ := List.exists_cons_of_ne_nil some
  exact List.mem_cons_self

/-- All stops are passed on the way to a further name. -/
theorem mem_entered_of_mem_stops {route stop : Route} {names : List String}
    (mem : stop ∈ (files.trail route names).stops) (last : String) :
    stop ∈ entered route (names ++ [last]) := by
  fun_induction files.trail route names with
  | case1 => cases mem
  | case2 route name rest filler ih =>
      rw [List.cons_append, entered_cons, step_filler route filler]
      exact List.mem_cons_of_mem _ (ih mem)
  | case3 => cases mem
  | case4 route name rest solid open_ further ih =>
      rw [List.cons_append, entered_cons]
      apply List.mem_cons_of_mem
      cases mem with
      | head => exact mem_entered_self _ (by simp)
      | tail _ mem => exact ih mem

theorem mem_stops_of_isClear {route passed : Route} {names : List String}
    (clear : (files.trail route names).isClear = true) {last : String}
    (mem : passed ∈ entered route (names ++ [last])) :
    passed = route ∨ passed ∈ (files.trail route names).stops := by
  fun_induction files.trail route names with
  | case1 route => exact .inl (List.mem_singleton.mp mem)
  | case2 route name rest filler ih =>
      rw [List.cons_append, entered_cons, step_filler route filler] at mem
      cases mem with
      | head => exact .inl rfl
      | tail _ mem => exact ih clear mem
  | case3 => cases clear
  | case4 route name rest solid open_ further ih =>
      rw [List.cons_append, entered_cons] at mem
      cases mem with
      | head => exact .inl rfl
      | tail _ mem =>
          rcases ih clear mem with rfl | mem
          · exact .inr List.mem_cons_self
          · exact .inr (List.mem_cons_of_mem _ mem)

theorem short_of_isClear {route : Route} {names : List String}
    (clear : (files.trail route names).isClear = true) :
    ∀ name ∈ names, name.utf8ByteSize ≤ maxNameLength := by
  fun_induction files.trail route names with
  | case1 route => exact List.forall_mem_nil _
  | case2 route name rest filler ih =>
      exact List.forall_mem_cons.mpr ⟨short_of_isFiller filler, ih clear⟩
  | case3 => cases clear
  | case4 route name rest solid open_ further ih =>
      simp only [Bool.or_eq_true, decide_eq_true_eq, not_or, Bool.not_eq_true] at open_
      exact List.forall_mem_cons.mpr ⟨Nat.not_lt.mp open_.1, ih clear⟩

theorem isClear_of_entered {route : Route} {names : List String} {last : String}
    (directories : ∀ passed ∈ entered route (names ++ [last]),
      files.entryAt? passed = some .directory)
    (short : ∀ name ∈ names, name.utf8ByteSize ≤ maxNameLength) :
    (files.trail route names).isClear = true := by
  fun_induction files.trail route names with
  | case1 route => rfl
  | case2 route name rest filler ih =>
      rw [List.forall_mem_cons] at short
      rw [List.cons_append, entered_cons, step_filler route filler, List.forall_mem_cons]
        at directories
      exact ih directories.2 short.2
  | case3 route name rest solid blocked =>
      rw [List.forall_mem_cons] at short
      rw [List.cons_append, entered_cons, List.forall_mem_cons] at directories
      have next := directories.2 _ (mem_entered_self _ (by simp))
      simp [isFileAt, next, Nat.not_lt.mpr short.1] at blocked
  | case4 route name rest solid open_ further ih =>
      rw [List.forall_mem_cons] at short
      rw [List.cons_append, entered_cons, List.forall_mem_cons] at directories
      exact ih directories.2 short.2

/-- Trails depend on the files that stand on the way, and on nothing else. -/
theorem trail_congr {files other : Files} {route : Route} {names : List String} (last : String)
    (same : ∀ passed ∈ entered route (names ++ [last]),
      other.isFileAt passed = files.isFileAt passed) :
    other.trail route names = files.trail route names := by
  induction names generalizing route with
  | nil => rfl
  | cons name rest ih =>
      rw [List.cons_append, entered_cons, List.forall_mem_cons] at same
      have next := same.2 _ (mem_entered_self _ (by simp))
      have further := ih same.2
      rw [trail, trail, next, further]
      split
      · next filler => rw [step_filler route filler] at further; exact further
      · rfl

end NodeWeave.Files

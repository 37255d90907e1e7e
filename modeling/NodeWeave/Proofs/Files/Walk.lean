import Mathlib.Tactic.MkIffOfInductiveProp
import NodeWeave.Files.Work
import NodeWeave.Proofs.Files.Segments

/-!
The way of a path through directories. Where it leads is told by its names alone; whether it gets
there depends on what stands at the routes it passes. Making directories fills the way up to the
first name that is a file or too long.
-/

namespace NodeWeave

open NodeWeave.Path

/-! ### Ways -/

namespace Route

instance instLawfulBEqRoute : LawfulBEq Route :=
  inferInstance

def step (route : Route) (name : String) : Route :=
  if isFiller name then route
  else if name = ".." then route.dropLast
  else route ++ [name]

def lead (route : Route) (names : List String) : Route :=
  names.foldl step route

def entered : Route → List String → List Route
  | _, [] => []
  | route, name :: rest => route :: entered (step route name) rest

@[simp] theorem step_filler (route : Route) {name : String} (filler : isFiller name = true) :
    step route name = route := if_pos filler

theorem step_eq_append (route : Route) {name : String} (solid : isFiller name = false)
    (down : name ≠ "..") : step route name = route ++ [name] := by
  rw [step, if_neg (by simp [solid]), if_neg down]

@[simp] theorem lead_nil (route : Route) : lead route [] = route := rfl

@[simp] theorem lead_cons (route : Route) (name : String) (rest : List String) :
    lead route (name :: rest) = lead (step route name) rest := rfl

@[simp] theorem lead_append (route : Route) (a b : List String) :
    lead route (a ++ b) = lead (lead route a) b :=
  List.foldl_append

@[simp] theorem entered_nil (route : Route) : entered route [] = [] := rfl

@[simp] theorem entered_cons (route : Route) (name : String) (rest : List String) :
    entered route (name :: rest) = route :: entered (step route name) rest := rfl

@[simp] theorem entered_append (route : Route) (a b : List String) :
    entered route (a ++ b) = entered route a ++ entered (lead route a) b := by
  induction a generalizing route with
  | nil => rfl
  | cons name rest ih => simp [ih]

end Route

open Route

namespace Path

@[mk_iff]
structure IsUsable (path : String) : Prop where
  named : path ≠ ""
  nulFree : '\x00' ∉ path.toList
  short : path.utf8ByteSize ≤ Files.maxPathLength

instance decidableIsUsable (path : String) : Decidable (IsUsable path) :=
  decidable_of_iff' _ (isUsable_iff path)

end Path

namespace Files

variable (files : Files)

def start (path : String) : Route :=
  if isAbsolute path then [] else files.here

def destination (path : String) : Route :=
  lead (files.start path) (segments path)

/-- Where the names of a path are looked up on its way. -/
def passage (path : String) : List Route :=
  entered (files.start path) (segments path)

structure Reaches (path : String) : Prop where
  usable : IsUsable path
  passes : ∀ route ∈ files.passage path, files.entryAt? route = some .directory
  short : ∀ name ∈ segments path, name.utf8ByteSize ≤ maxNameLength

theorem enter_eq_ok_iff {route : Route} :
    files.enter route = .ok () ↔ files.entryAt? route = some .directory := by
  rw [enter]
  split <;> simp_all

theorem short_of_isFiller {name : String} (filler : isFiller name = true) :
    name.utf8ByteSize ≤ maxNameLength := by
  rw [isFiller, Bool.or_eq_true, beq_iff_eq, beq_iff_eq] at filler
  rcases filler with rfl | rfl <;> decide

theorem follow_eq (route : Route) (name : String) : files.follow route name =
    (files.enter route).bind fun _ =>
      if maxNameLength < name.utf8ByteSize then .error .nameTooLong else .ok (step route name) := by
  rw [follow, step]
  by_cases filler : isFiller name = true
  · rw [if_pos filler, if_pos filler, if_neg (Nat.not_lt.mpr (short_of_isFiller filler))]
    rfl
  · rw [if_neg filler, if_neg filler]
    by_cases up : name = ".."
    · rw [if_pos up, if_pos up, if_neg (by rw [up]; decide)]
      rfl
    · rw [if_neg up, if_neg up]
      rfl

theorem follow_eq_ok_iff {route target : Route} {name : String} :
    files.follow route name = .ok target ↔ files.entryAt? route = some .directory ∧
      name.utf8ByteSize ≤ maxNameLength ∧ target = step route name := by
  rw [← enter_eq_ok_iff, follow_eq]
  cases files.enter route with
  | error problem => simp [Except.bind]
  | ok _ =>
      by_cases long : maxNameLength < name.utf8ByteSize
      · simp only [Except.bind, if_pos long, reduceCtorEq, true_and, false_iff, not_and]
        exact fun short => absurd long (Nat.not_lt.mpr short)
      · simp only [Except.bind, if_neg long, Except.ok.injEq, true_and, Nat.not_lt.mp long]
        exact eq_comm

theorem foldlM_follow_eq_ok_iff {names : List String} {route target : Route} :
    names.foldlM files.follow route = .ok target ↔
      (∀ passed ∈ entered route names, files.entryAt? passed = some .directory) ∧
        (∀ name ∈ names, name.utf8ByteSize ≤ maxNameLength) ∧ target = lead route names := by
  induction names generalizing route with
  | nil => simp [pure, Except.pure, eq_comm]
  | cons name rest ih =>
      rw [List.foldlM_cons]
      constructor
      · intro walked
        obtain ⟨next, followed, walked⟩ := exists_of_bind_eq_ok walked
        obtain ⟨directory, short, rfl⟩ := files.follow_eq_ok_iff.mp followed
        obtain ⟨directories, shorts, same⟩ := ih.mp walked
        exact ⟨by simpa using ⟨directory, directories⟩, by simpa using ⟨short, shorts⟩, same⟩
      · rintro ⟨directories, shorts, rfl⟩
        have followed : files.follow route name = .ok (step route name) :=
          files.follow_eq_ok_iff.mpr
            ⟨directories _ List.mem_cons_self, shorts _ List.mem_cons_self, rfl⟩
        rw [followed]
        exact ih.mpr ⟨fun passed mem => directories passed (List.mem_cons_of_mem _ mem),
          fun name mem => shorts name (List.mem_cons_of_mem _ mem), rfl⟩

theorem followAll_eq {path : String} (usable : IsUsable path) (names : List String) :
    files.followAll path names = names.foldlM files.follow (files.start path) := by
  rw [followAll, if_neg (by simpa using usable.nulFree), if_neg (by simpa using usable.named),
    if_neg (Nat.not_lt.mpr usable.short), start]

theorem isUsable_of_followAll {path : String} {names : List String} {target : Route}
    (walked : files.followAll path names = .ok target) : IsUsable path := by
  rw [followAll] at walked
  split at walked
  · cases walked
  · next nulFree =>
      split at walked
      · cases walked
      · next named =>
          split at walked
          · cases walked
          · next short => exact ⟨by simpa using named, by simpa using nulFree, Nat.not_lt.mp short⟩

theorem route_eq_ok_iff {path : String} {target : Route} : files.route path = .ok target ↔
    files.Reaches path ∧ target = files.destination path := by
  rw [route]
  constructor
  · intro walked
    have usable := files.isUsable_of_followAll walked
    rw [followAll_eq files usable, foldlM_follow_eq_ok_iff] at walked
    exact ⟨⟨usable, walked.1, walked.2.1⟩, walked.2.2⟩
  · rintro ⟨reaches, same⟩
    rw [followAll_eq files reaches.usable, foldlM_follow_eq_ok_iff]
    exact ⟨reaches.passes, reaches.short, same⟩

theorem find?_eq_some_iff {path : String} {entry : FileEntry} : files.find? path = some entry ↔
    files.Reaches path ∧ files.entryAt? (files.destination path) = some entry := by
  rw [find?]
  split
  · next target walked =>
      obtain ⟨reaches, rfl⟩ := files.route_eq_ok_iff.mp walked
      simp [reaches]
  · next problem walked =>
      constructor
      · intro found
        cases found
      · rintro ⟨reaches, _⟩
        rw [files.route_eq_ok_iff.mpr ⟨reaches, rfl⟩] at walked
        cases walked

theorem isFile_iff {path : String} : files.isFile path = true ↔
    ∃ text executable, files.find? path = some (.file text executable) := by
  rw [isFile]
  split <;> simp_all

theorem read_eq_ok_iff {path text : String} : files.read path = .ok text ↔
    ∃ executable, files.find? path = some (.file text executable) := by
  rw [read, find?]
  cases files.route path with
  | error problem => simp [bind, Except.bind]
  | ok route =>
      simp only [bind, Except.bind]
      cases files.entryAt? route with
      | none => simp [throw, throwThe, MonadExceptOf.throw]
      | some entry =>
          cases entry <;> simp [throw, throwThe, MonadExceptOf.throw, pure, Except.pure]

/-! ### Paths with a last name -/

theorem followAll_concat (path last : String) (names : List String) :
    files.followAll path (names ++ [last]) =
      (files.followAll path names).bind fun parent => files.follow parent last := by
  simp only [followAll, List.foldlM_append, List.foldlM_cons, List.foldlM_nil]
  split
  · rfl
  · split
    · rfl
    · split
      · rfl
      · cases names.foldlM files.follow _ with
        | error problem => rfl
        | ok parent =>
            show ((files.follow parent last) >>= pure) = files.follow parent last
            exact bind_pure _

/-- Looking up the last name in the directory of a path is following the path. -/
theorem parentRoute_follow {path last : String} {names : List String}
    (cut : segments path = names ++ [last]) (named : last ≠ "") :
    (files.parentRoute path).bind (fun found => files.follow found.1 found.2) =
      files.route path := by
  have all : ((segments path).reverse.dropWhile (· == "")).reverse = names ++ [last] := by
    rw [cut, List.reverse_concat, List.dropWhile_cons_of_neg (by simpa using named),
      List.reverse_cons, List.reverse_reverse]
  have both (parent : Route) : ((files.enter parent).bind fun _ => files.follow parent last) =
      files.follow parent last := by
    rw [follow_eq]
    cases files.enter parent <;> rfl
  rw [route, cut, followAll_concat]
  simp only [parentRoute, all, List.dropLast_concat, List.getLast?_concat, Option.getD_some]
  cases files.followAll path names with
  | error problem => rfl
  | ok parent =>
      show _ = files.follow parent last
      rw [← both parent]
      show ((files.enter parent).bind fun _ => .ok (parent, last)).bind _ = _
      cases files.enter parent <;> rfl

def withDirectory (route : Route) : Except FileProblem Files :=
  match files.entryAt? route with
  | some _ => throw .alreadyThere
  | none => return files.put route .directory

theorem makeDirectory_eq {path last : String} {names : List String}
    (cut : segments path = names ++ [last]) (named : last ≠ "") :
    files.makeDirectory path = (files.route path).bind fun route => files.withDirectory route := by
  rw [← files.parentRoute_follow cut named, makeDirectory]
  cases files.parentRoute path with
  | error problem => rfl
  | ok found =>
      obtain ⟨parent, name⟩ := found
      rfl

end Files

end NodeWeave

import NodeWeave.Proofs.Files.Trail

/-!
Making the directories of a path. Nothing but directories comes to be, where nothing stood before:
at the stops of its trail.
-/

namespace NodeWeave.Files

open NodeWeave.Path Route

variable (files : Files)

/-! ### Making directories -/

theorem entryAt?_put_self {route : Route} (inner : route ≠ []) (entry : FileEntry) :
    (files.put route entry).entryAt? route = some entry := by
  obtain ⟨name, rest, rfl⟩ := List.exists_cons_of_ne_nil inner
  exact lookup_putIn_self _ entry files.entries

theorem entryAt?_put_of_ne {route passed : Route} (ne : passed ≠ route) (entry : FileEntry) :
    (files.put route entry).entryAt? passed = files.entryAt? passed := by
  cases passed with
  | nil => rfl
  | cons name rest => exact lookup_putIn_of_ne ne entry files.entries

/-- The later files have directories where the earlier ones have nothing. -/
structure Fills (before : Files) (stops : List Route) (after : Files) : Prop where
  here : after.here = before.here
  entry : ∀ route, after.entryAt? route =
    if before.entryAt? route = none ∧ route ∈ stops then some .directory
    else before.entryAt? route

theorem fills_self {stops : List Route}
    (there : ∀ stop ∈ stops, files.entryAt? stop = some .directory) : Fills files stops files := by
  refine ⟨rfl, ?_⟩
  intro route
  rw [if_neg]
  rintro ⟨none, mem⟩
  rw [there route mem] at none
  cases none

theorem fills_nothing : Fills files [] files :=
  files.fills_self (List.forall_mem_nil _)

theorem fills_put {stop : Route} (none : files.entryAt? stop = none) :
    Fills files [stop] (files.put stop .directory) := by
  refine ⟨rfl, ?_⟩
  intro route
  by_cases same : route = stop
  · have inner : stop ≠ [] := by
      rintro rfl
      cases none
    rw [same, files.entryAt?_put_self inner, if_pos ⟨none, List.mem_singleton_self _⟩]
  · rw [files.entryAt?_put_of_ne same, if_neg (fun made => same (List.mem_singleton.mp made.2))]

theorem Fills.trans {before between after : Files} {stops others : List Route}
    (first : Fills before stops between) (second : Fills between others after) :
    Fills before (stops ++ others) after := by
  refine ⟨second.here.trans first.here, ?_⟩
  intro route
  rw [second.entry, first.entry]
  by_cases none : before.entryAt? route = none
  · by_cases early : route ∈ stops <;> by_cases late : route ∈ others <;> simp [none, early, late]
  · simp [none]

theorem Fills.start {before after : Files} {stops : List Route} (fills : Fills before stops after)
    (path : String) : after.start path = before.start path := by
  rw [Files.start, Files.start, fills.here]

def Makes (trail : Trail) (made : Files × Except FileProblem Unit) : Prop :=
  Fills files trail.stops made.1 ∧ (made.2 = .ok () ↔ trail.isClear = true)

theorem Fills.makes {before between : Files} {stops : List Route} {trail : Trail}
    {made : Files × Except FileProblem Unit} (fills : Fills before stops between)
    (makes : Makes between trail made) : Makes before ⟨stops ++ trail.stops, trail.isClear⟩ made :=
  ⟨fills.trans makes.1, makes.2⟩

def makeAt (route : Route) : Files × Except FileProblem Unit :=
  match files.entryAt? route with
  | none => (files.put route .directory, .ok ())
  | some .directory => (files, .ok ())
  | some (.file ..) => (files, .error .alreadyThere)

theorem makes_makeAt (route : Route) :
    Makes files (if files.isFileAt route then ⟨[], false⟩ else ⟨[route], true⟩)
      (files.makeAt route) := by
  rw [makeAt, isFileAt]
  cases entry : files.entryAt? route with
  | none => exact ⟨files.fills_put entry, by simp⟩
  | some found =>
      cases found with
      | directory => exact ⟨files.fills_self (by simpa using entry), by simp⟩
      | file text executable => exact ⟨files.fills_nothing, by simp⟩

def makeLast (path : String) : Files × Except FileProblem Unit :=
  match files.route path with
  | .error problem => (files, .error problem)
  | .ok route => files.makeAt route

theorem isDirectory_eq_false {path : String} {problem : FileProblem}
    (blocked : files.route path = .error problem) : files.isDirectory path = false := by
  rw [isDirectory, find?, blocked]
  rfl

/-- Where the directories around it are there, one directory is made at most. -/
theorem makeDirectory_last {path last : String} {names : List String}
    (cut : segments path = names ++ [last]) (named : last ≠ "") :
    (match files.makeDirectory path with
      | .ok files => (files, .ok ())
      | .error problem =>
          (files, if files.isDirectory path then .ok () else .error problem)) =
      files.makeLast path := by
  rw [makeDirectory_eq files cut named, makeLast]
  cases walked : files.route path with
  | error problem => simp [Except.bind, files.isDirectory_eq_false walked]
  | ok route =>
      simp only [Except.bind, withDirectory, makeAt]
      cases entry : files.entryAt? route with
      | none => rfl
      | some found =>
          have there : files.find? path = some found := by rw [find?, walked, ← entry]
          cases found <;> simp [isDirectory, there, throw, throwThe, MonadExceptOf.throw]

theorem makeDirectory_notFound_iff {path last : String} {names : List String}
    (cut : segments path = names ++ [last]) (named : last ≠ "") :
    files.makeDirectory path = .error .notFound ↔ files.route path = .error .notFound := by
  rw [makeDirectory_eq files cut named]
  cases files.route path with
  | error problem => simp [Except.bind]
  | ok route =>
      simp only [Except.bind, withDirectory, reduceCtorEq, iff_false]
      split <;> simp [throw, throwThe, MonadExceptOf.throw, pure, Except.pure]

theorem makeAll_eq {path last : String} {names : List String}
    (cut : segments path = names ++ [last]) (named : last ≠ "") (some : path ≠ "")
    (parents : List String) : files.makeAll (path :: parents) =
      if files.route path = .error .notFound then
        match files.makeAll parents with
        | (files, .error problem) => (files, .error problem)
        | (files, .ok ()) => files.makeLast path
      else files.makeLast path := by
  have missing := files.makeDirectory_notFound_iff cut named
  rw [makeAll, if_neg (by simpa using some), ← makeDirectory_last files cut named]
  cases made : files.makeDirectory path with
  | ok files =>
      rw [made] at missing
      rw [if_neg (by simpa using missing)]
  | error problem =>
      rw [made] at missing
      by_cases notFound : problem = .notFound
      · subst notFound
        rw [if_pos (missing.mp rfl)]
        cases files.makeAll parents with
        | mk files result =>
            cases result with
            | error problem => rfl
            | ok _ => exact makeDirectory_last files cut named
      · have other : ¬ files.route path = .error .notFound := by
          rw [← missing]
          simpa using notFound
        rw [if_neg other]
        split
        · next same => cases same
        · next same =>
            cases same
            exact (notFound rfl).elim
        · next same =>
            cases same
            rfl

theorem Fills.directory {before after : Files} {stops : List Route}
    (fills : Fills before stops after) {route : Route}
    (directory : before.entryAt? route = some .directory) :
    after.entryAt? route = some .directory := by
  rw [fills.entry, directory]
  simp

theorem Fills.directory_of_mem {before after : Files} {stops : List Route}
    (fills : Fills before stops after) {stop : Route} (mem : stop ∈ stops)
    (noFile : before.isFileAt stop = false) : after.entryAt? stop = some .directory := by
  rcases before.isFileAt_eq_false_iff.mp noFile with none | directory
  · rw [fills.entry, if_pos ⟨none, mem⟩]
  · exact fills.directory directory

theorem Fills.isFileAt {before after : Files} {stops : List Route}
    (fills : Fills before stops after) (route : Route) :
    after.isFileAt route = before.isFileAt route := by
  rw [Files.isFileAt, fills.entry, Files.isFileAt]
  by_cases made : before.entryAt? route = none ∧ route ∈ stops
  · rw [if_pos made, made.1]
  · rw [if_neg made]

/-- What blocks a way that does not end in the void is no directory. -/
theorem blocked_of_foldlM_follow {route : Route} {names : List String} {problem : FileProblem}
    (home : files.entryAt? route = some .directory)
    (walked : names.foldlM files.follow route = .error problem) (other : problem ≠ .notFound) :
    (files.trail route names).isClear = false ∧
      ∀ stop ∈ (files.trail route names).stops, files.entryAt? stop = some .directory := by
  have entering : files.enter route = .ok () := files.enter_eq_ok_iff.mpr home
  fun_induction files.trail route names with
  | case1 => cases walked
  | case2 route name rest filler ih =>
      have followed : files.follow route name = .ok route := by
        rw [follow_eq_ok_iff, step_filler route filler]
        exact ⟨home, short_of_isFiller filler, rfl⟩
      rw [List.foldlM_cons, followed] at walked
      exact ih home walked entering
  | case3 => exact ⟨rfl, List.forall_mem_nil _⟩
  | case4 route name rest solid open_ further ih =>
      simp only [Bool.or_eq_true, decide_eq_true_eq, not_or, Bool.not_eq_true] at open_
      have followed : files.follow route name = .ok (step route name) :=
        files.follow_eq_ok_iff.mpr ⟨home, Nat.not_lt.mp open_.1, rfl⟩
      rw [List.foldlM_cons, followed] at walked
      have there : files.entryAt? (step route name) = some .directory := by
        rcases files.isFileAt_eq_false_iff.mp open_.2 with none | directory
        · cases rest with
          | nil => cases walked
          | cons next rest =>
              have missing : files.enter (step route name) = .error .notFound := by
                rw [enter, none]
              change (next :: rest).foldlM files.follow (step route name) = .error problem at walked
              rw [List.foldlM_cons, follow_eq, missing] at walked
              cases walked
              exact (other rfl).elim
        · exact directory
      obtain ⟨blocked, directories⟩ := ih there walked (files.enter_eq_ok_iff.mpr there)
      exact ⟨blocked, List.forall_mem_cons.mpr ⟨there, directories⟩⟩

section

variable {files : Files} {path last : String} {names : List String}

/-- Where all directories of a clear trail are there, a path goes through. -/
theorem Fills.passes {between : Files} (cut : segments path = names ++ [last])
    (home : files.entryAt? (files.start path) = some .directory)
    (fills : Fills files (files.trail (files.start path) names).stops between)
    (clear : (files.trail (files.start path) names).isClear = true) :
    ∀ route ∈ between.passage path, between.entryAt? route = some .directory := by
  intro route mem
  rw [passage, fills.start, cut] at mem
  rcases files.mem_stops_of_isClear clear mem with rfl | mem
  · exact fills.directory home
  · exact fills.directory_of_mem mem (files.not_isFileAt_of_mem_stops mem)

/-- Once the directories around a path are there, the last one is made or found. -/
theorem Fills.makeLast {between : Files} (cut : segments path = names ++ [last])
    (usable : IsUsable path) (home : files.entryAt? (files.start path) = some .directory)
    (fills : Fills files (files.trail (files.start path) names).stops between)
    (clear : (files.trail (files.start path) names).isClear = true) :
    Makes files (files.trail (files.start path) (names ++ [last])) (between.makeLast path) := by
  have passes := fills.passes cut home clear
  rw [trail_append, if_pos clear]
  by_cases long : maxNameLength < last.utf8ByteSize
  · have solid : isFiller last = false := by
      rw [← Bool.not_eq_true]
      intro filler
      exact Nat.not_lt.mpr (short_of_isFiller filler) long
    have stopped : files.trail (lead (files.start path) names) [last] = ⟨[], false⟩ := by
      rw [trail, if_neg (by simp [solid]), if_pos (by simp [long])]
    rw [stopped, List.append_nil, Files.makeLast]
    cases walked : between.route path with
    | error problem => exact ⟨fills, by simp⟩
    | ok route =>
        have short := (between.route_eq_ok_iff.mp walked).1.short last (by simp [cut])
        exact absurd long (Nat.not_lt.mpr short)
  · have short : ∀ name ∈ segments path, name.utf8ByteSize ≤ maxNameLength := by
      rw [cut, List.forall_mem_append]
      exact ⟨files.short_of_isClear clear, List.forall_mem_singleton.mpr (Nat.not_lt.mp long)⟩
    have walked : between.route path = .ok (step (lead (files.start path) names) last) := by
      rw [route_eq_ok_iff, destination, fills.start, cut, lead_append]
      exact ⟨⟨usable, passes, short⟩, rfl⟩
    have around : between.entryAt? (lead (files.start path) names) = some .directory := by
      apply passes
      simp [passage, fills.start, cut]
    rw [Files.makeLast, walked]
    cases filler : isFiller last with
    | true =>
        rw [trail_filler _ _ filler, trail_nil, List.append_nil, step_filler _ filler]
        simp only [makeAt, around]
        exact ⟨fills, by simp⟩
    | false =>
        rw [trail_last _ _ filler (Nat.not_lt.mp long), ← fills.isFileAt]
        exact fills.makes (between.makes_makeAt _)

theorem makeAll_root (parents : List String) :
    files.makeAll ("/" :: parents) = (files, .ok ()) := rfl

theorem makeAll_nothing (count : Nat) : files.makeAll (around count "") = (files, .ok ()) := by
  cases count <;> rfl

/-- Without a missing directory around the path, the last one decides. -/
theorem makes_makeLast_of_found (cut : segments path = names ++ [last]) (usable : IsUsable path)
    (home : files.entryAt? (files.start path) = some .directory)
    (found : files.route path ≠ .error .notFound) :
    Makes files (files.trail (files.start path) (names ++ [last])) (files.makeLast path) := by
  cases walked : files.route path with
  | ok route =>
      have reaches := (files.route_eq_ok_iff.mp walked).1
      have directories := reaches.passes
      have short := reaches.short
      rw [passage, cut] at directories
      rw [cut, List.forall_mem_append] at short
      have clear := files.isClear_of_entered directories short.1
      refine Fills.makeLast cut usable home (files.fills_self ?_) clear
      intro stop mem
      exact directories stop (files.mem_entered_of_mem_stops mem last)
  | error problem =>
      rw [makeLast, walked]
      rw [route, followAll_eq files usable, cut] at walked
      have other : problem ≠ .notFound := by
        rintro rfl
        rw [route, followAll_eq files usable, cut] at found
        exact found walked
      obtain ⟨blocked, directories⟩ := files.blocked_of_foldlM_follow home walked other
      exact ⟨files.fills_self directories, by simp [blocked]⟩

theorem makes_makeAll_cons (cut : segments path = names ++ [last]) (named : last ≠ "")
    (usable : IsUsable path) (home : files.entryAt? (files.start path) = some .directory)
    {parents : List String}
    (around : Makes files (files.trail (files.start path) names) (files.makeAll parents)) :
    Makes files (files.trail (files.start path) (names ++ [last]))
      (files.makeAll (path :: parents)) := by
  rw [makeAll_eq files cut named usable.named]
  split
  · cases made : files.makeAll parents with
    | mk between result =>
        rw [made] at around
        cases result with
        | ok _ => exact around.1.makeLast cut usable home (around.2.mp rfl)
        | error problem =>
            have blocked : ¬ (files.trail (files.start path) names).isClear = true :=
              by simpa using around.2
            rw [trail_append, if_neg blocked]
            exact around
  · next found => exact makes_makeLast_of_found cut usable home found

end

theorem start_directory (home : files.entryAt? files.here = some .directory) (path : String) :
    files.entryAt? (files.start path) = some .directory := by
  rw [start]
  split
  · rfl
  · exact home

theorem makes_nothing : Makes files ⟨[], true⟩ (files, .ok ()) :=
  ⟨files.fills_nothing, by simp⟩

theorem isUsable_parent {path last : String} {names : List String}
    (cut : segments path = names ++ [last]) (usable : IsUsable path)
    (some : ofSegments (core names) ≠ "") : IsUsable (ofSegments (core names)) := by
  obtain ⟨rest, same⟩ := exists_ofSegments_append cut
  refine ⟨some, ?_, ?_⟩
  · intro mem
    apply usable.nulFree
    rw [same, String.toList_append]
    exact List.mem_append_left _ mem
  · have short := usable.short
    rw [same, String.utf8ByteSize_append] at short
    omega

/-- Making the directories of a path makes those of its trail. -/
theorem makes_makeAll (home : files.entryAt? files.here = some .directory) (count : Nat)
    {names : List String} (whole : core names = names)
    (free : ∀ name ∈ names, '/' ∉ name.toList) (few : names.length ≤ count + 1)
    (usable : names ≠ [] → IsUsable (ofSegments names)) :
    Makes files (files.trail (files.start (ofSegments names)) names)
      (files.makeAll (around count (ofSegments names))) := by
  rcases List.eq_nil_or_concat' names with rfl | ⟨init, last, rfl⟩
  · show Makes files _ (files.makeAll (around count ""))
    rw [makeAll_nothing]
    exact files.makes_nothing
  by_cases root : init ++ [last] = [""]
  · rw [root, trail_filler _ _ rfl, trail_nil]
    have same : files.makeAll (around count (ofSegments [""])) = (files, .ok ()) := by
      cases count <;> exact files.makeAll_root _
    rw [same]
    exact files.makes_nothing
  have usable := usable (by simp)
  have cut := segments_ofSegments free (by simp) root
  have named : last ≠ "" := by
    rintro rfl
    by_cases single : init = []
    · exact root (by rw [single]; rfl)
    · cases solid_of_core_concat single whole
  cases count with
  | zero =>
      have single : init = [] := by
        rw [← List.length_eq_zero_iff]
        simpa using few
      subst single
      exact makes_makeAll_cons cut named usable (files.start_directory home _) files.makes_nothing
  | succ count =>
      rw [around, parent?_eq cut whole named]
      refine makes_makeAll_cons cut named usable (files.start_directory home _) ?_
      by_cases single : init = []
      · subst single
        show Makes files _ (files.makeAll (around count ""))
        rw [makeAll_nothing]
        exact files.makes_nothing
      · rw [← trail_core, Files.start, ← isAbsolute_ofSegments_core cut single, ← Files.start]
        refine makes_makeAll home count (core_core init) ?_ ?_ ?_
        · intro name mem
          exact free name (List.mem_append_left _ ((core_isPrefix init).subset mem))
        · have shorter := (core_isPrefix init).length_le
          rw [List.length_append, List.length_singleton] at few
          omega
        · intro some
          exact isUsable_parent cut usable (ofSegments_ne_empty (fun name mem =>
            free name (List.mem_append_left _ ((core_isPrefix init).subset mem))) some)

theorem followAll_unusable {path : String} (some : path ≠ "") (unusable : ¬ IsUsable path) :
    ∃ problem, problem ≠ .notFound ∧ ∀ names, files.followAll path names = .error problem := by
  by_cases nul : '\x00' ∈ path.toList
  · refine ⟨.nulCharacter, by decide, fun names => ?_⟩
    rw [followAll, if_pos (by simpa using nul)]
  · have long : maxPathLength < path.utf8ByteSize := by
      rw [← Nat.not_le]
      exact fun short => unusable ⟨some, nul, short⟩
    refine ⟨.nameTooLong, by decide, fun names => ?_⟩
    rw [followAll, if_neg (by simpa using nul), if_neg (by simpa using some), if_pos long]

/-- Nothing is made for a path that the system does not take. -/
theorem makeAll_unusable {path : String} (some : path ≠ "") (unusable : ¬ IsUsable path)
    (parents : List String) :
    ∃ problem, files.makeAll (path :: parents) = (files, .error problem) := by
  obtain ⟨problem, other, blocked⟩ := files.followAll_unusable some unusable
  have made : files.makeDirectory path = .error problem := by
    rw [makeDirectory, parentRoute]
    simp only [blocked]
    rfl
  refine ⟨problem, ?_⟩
  rw [makeAll, if_neg (by simpa using some), made]
  split
  · next same => cases same
  · next same =>
      cases same
      exact (other rfl).elim
  · next same =>
      cases same
      rw [files.isDirectory_eq_false (blocked _)]
      rfl

theorem makeDirectories_unusable {path : String} (some : path ≠ "") (unusable : ¬ IsUsable path) :
    ∃ problem, files.makeDirectories path = (files, .error problem) := by
  rw [makeDirectories, selfAndParents]
  cases path.length with
  | zero => exact files.makeAll_unusable some unusable []
  | succ count => exact files.makeAll_unusable some unusable _

/-- Making the directories around a path makes those of its trail. -/
theorem makes_makeDirectories (home : files.entryAt? files.here = some .directory)
    {path last : String} {names : List String} (cut : segments path = names ++ [last])
    (usable : ofSegments (core names) ≠ "" → IsUsable (ofSegments (core names))) :
    Makes files (files.trail (files.start path) names)
      (files.makeDirectories (ofSegments (core names))) := by
  have free : ∀ name ∈ core names, '/' ∉ name.toList := by
    intro name mem
    apply slashFree_of_mem_segments
    rw [cut]
    exact List.mem_append_left _ ((core_isPrefix names).subset mem)
  have made := files.makes_makeAll home (ofSegments (core names)).length (core_core names) free
    (length_le_ofSegments _) fun some => usable (ofSegments_ne_empty free some)
  by_cases single : names = []
  · subst single
    exact made
  · rw [Files.start, isAbsolute_ofSegments_core cut single, trail_core, ← Files.start] at made
    exact made

end NodeWeave.Files

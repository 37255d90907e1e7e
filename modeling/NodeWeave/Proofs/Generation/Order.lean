import Mathlib.Data.List.Pairwise
import NodeWeave.Project.Run
import NodeWeave.Proofs.Generation.Job

/-!
The order in which classes are generated. Where no job writes what another one reads, and none
writes another text to the same class, all orders lead to the same files and the same count.
-/

namespace NodeWeave

open ClassName Files

namespace ClassJob

variable (job : ClassJob) (place : GenerationPlace) (files : Files)

/-! ### One job after others -/

/-- Writing a file changes nothing that the job looks at. -/
structure IsSpared (file : String × String) : Prop where
  roots : ∀ name, job.name = .ok name → ∀ root ∈ place.sourceRoots,
    files.Spares (pathIn root name) file.1
  template : ∀ path, job.templatePath? place files = some path → files.Spares path file.1

section

variable {job place} {before after : Files} {written : List (String × String)}

theorem isElsewhere_eq (tree : before.IsTree) (adds : before.Adds written after)
    (spared : ∀ file ∈ written, job.IsSpared place before file) {name : String}
    (named : job.name = .ok name) :
    isElsewhere place after name = isElsewhere place before name := by
  rw [Bool.eq_iff_iff, isElsewhere, List.any_eq_true, isElsewhere, List.any_eq_true]
  refine exists_congr fun root => and_congr_right fun mem => ?_
  rw [adds.isFile tree fun file isWritten => (spared file isWritten).roots name named root mem]

theorem template?_eq (tree : before.IsTree) (adds : before.Adds written after)
    (spared : ∀ file ∈ written, job.IsSpared place before file) {name : String}
    (named : job.name = .ok name) (nowhere : ¬ isElsewhere place before name = true) :
    job.template? place after = job.template? place before := by
  rw [template?, template?]
  cases source : job.source with
  | inline text => rfl
  | file path =>
      have reads : job.templatePath? place before = some (Path.join place.templates path) := by
        rw [templatePath?, named, source]
        exact if_neg nowhere
      have same (text : String) : after.read (Path.join place.templates path) = .ok text ↔
          before.read (Path.join place.templates path) = .ok text :=
        adds.read_eq_ok_iff tree fun file isWritten => (spared file isWritten).template _ reads
      dsimp only
      cases early : before.read (Path.join place.templates path) with
      | ok text => rw [(same text).mpr early]
      | error problem =>
          cases late : after.read (Path.join place.templates path) with
          | ok text => cases early.symm.trans ((same text).mp late)
          | error problem => rfl

/-- The plan of a job does not change with files that spare it. -/
theorem plan_eq (tree : before.IsTree) (adds : before.Adds written after)
    (spared : ∀ file ∈ written, job.IsSpared place before file) :
    job.plan place after = job.plan place before := by
  rw [plan, plan]
  cases named : job.name with
  | error fault => rfl
  | ok name =>
      dsimp only
      rw [isElsewhere_eq tree adds spared named]
      split
      · rfl
      · next nowhere => rw [template?_eq tree adds spared named nowhere]

theorem product_eq (tree : before.IsTree) (adds : before.Adds written after)
    (spared : ∀ file ∈ written, job.IsSpared place before file) :
    job.product place after = job.product place before := by
  rw [product, product, plan_eq tree adds spared]

theorem fate_eq (tree : before.IsTree) (adds : before.Adds written after)
    (spared : ∀ file ∈ written, job.IsSpared place before file)
    (compatible : before.Compatible (job.product place before ++ written)) :
    job.fate place after = job.fate place before := by
  rw [fate, fate, plan_eq tree adds spared]
  rw [product] at compatible
  cases plan : job.plan place before with
  | abort => rfl
  | fail => rfl
  | write name text =>
      rw [plan] at compatible
      simp only [adds.isWritable_iff compatible]

/-- A job that runs after others does what it would have done before them. -/
theorem adds_execute_after (tools : Toolbox) (tree : before.IsTree)
    (adds : before.Adds written after)
    (spared : ∀ file ∈ written, job.IsSpared place before file)
    (compatible : before.Compatible (job.product place before ++ written)) :
    before.Adds (job.product place before ++ written)
        ((job.execute place).run tools after).files ∧
      ClassFate.ofResult ((job.execute place).run tools after).value =
        job.fate place before := by
  obtain ⟨one, fate⟩ := job.adds_execute place after tools (adds.home tree.home)
  rw [product_eq tree adds spared] at one
  rw [fate_eq tree adds spared compatible] at fate
  refine ⟨?_, fate⟩
  rw [product] at one compatible ⊢
  cases plan : job.plan place before with
  | write name text =>
      rw [plan] at one compatible
      exact adds.cons compatible one
  | _ =>
      rw [plan] at one
      exact adds.congr one

end

end ClassJob

namespace ClassJob

/-! ### Jobs that do not disturb each other -/

section

variable (place : GenerationPlace) (files : Files)

/-- Two jobs do not write different texts to one class. -/
def Agree (a b : ClassJob) : Prop :=
  ∀ name s t, a.plan place files = .write name s → b.plan place files = .write name t →
    files.IsWritable (pathIn place.output name) → s = t

/-- The first job does not write where the second one looks for its template. -/
def LeavesTemplate (a b : ClassJob) : Prop :=
  ∀ name text path, a.plan place files = .write name text →
    b.templatePath? place files = some path → files.Spares path (pathIn place.output name)

/-- Two jobs write the same class only with the same text, and neither writes what the other one
reads. -/
@[mk_iff]
structure Independent (a b : ClassJob) : Prop where
  same : Agree place files a b
  leaves : LeavesTemplate place files a b
  left : LeavesTemplate place files b a

instance decidableAgree (a b : ClassJob) : Decidable (Agree place files a b) :=
  match first : a.plan place files, second : b.plan place files with
  | .write name s, .write other t =>
      decidable_of_iff (name = other → files.IsWritable (pathIn place.output name) → s = t) <| by
        rw [Agree, first, second]
        constructor
        · rintro same _ _ _ ⟨⟩ ⟨⟩
          exact same rfl
        · rintro all rfl
          exact all name s t rfl rfl
  | .abort, _ => isTrue fun _ _ _ found => nomatch first.symm.trans found
  | .fail, _ => isTrue fun _ _ _ found => nomatch first.symm.trans found
  | .write _ _, .abort => isTrue fun _ _ _ _ found => nomatch second.symm.trans found
  | .write _ _, .fail => isTrue fun _ _ _ _ found => nomatch second.symm.trans found

instance decidableLeavesTemplate (a b : ClassJob) : Decidable (LeavesTemplate place files a b) :=
  match plan : a.plan place files, reads : b.templatePath? place files with
  | .write name text, some path =>
      decidable_of_iff (files.Spares path (pathIn place.output name)) <| by
        rw [LeavesTemplate, plan, reads]
        constructor
        · rintro spares _ _ _ ⟨⟩ ⟨⟩
          exact spares
        · exact fun all => all name text path rfl rfl
  | .write _ _, none => isTrue fun _ _ _ _ found => nomatch reads.symm.trans found
  | .abort, _ => isTrue fun _ _ _ found => nomatch plan.symm.trans found
  | .fail, _ => isTrue fun _ _ _ found => nomatch plan.symm.trans found

instance decidableIndependent (a b : ClassJob) : Decidable (Independent place files a b) :=
  decidable_of_iff' _ (independent_iff place files a b)

end

variable {place : GenerationPlace} {files : Files}

theorem Independent.symm {a b : ClassJob} (independent : Independent place files a b) :
    Independent place files b a where
  same name s t first second writable := (independent.same name t s second first writable).symm
  leaves := independent.left
  left := independent.leaves

instance symmIndependent : Std.Symm (Independent place files) :=
  ⟨fun _ _ independent => independent.symm⟩

theorem mem_product {job : ClassJob} {file : String × String}
    (mem : file ∈ job.product place files) : ∃ name text, job.plan place files = .write name text ∧
      file = (pathIn place.output name, text) := by
  rw [product] at mem
  cases plan : job.plan place files with
  | write name text =>
      rw [plan] at mem
      exact ⟨name, text, rfl, List.mem_singleton.mp mem⟩
  | _ =>
      rw [plan] at mem
      cases mem

theorem compatible_products (home : files.entryAt? files.here = some .directory)
    {jobs : List ClassJob} (independent : jobs.Pairwise (Independent place files)) :
    files.Compatible (jobs.reverse.flatMap (·.product place files) ++ []) := by
  have texts : ∀ a ∈ jobs, ∀ b ∈ jobs, ∀ name s t, a.plan place files = .write name s →
      b.plan place files = .write name t → files.IsWritable (pathIn place.output name) → s = t := by
    intro a memA b memB
    by_cases same : a = b
    · subst same
      intro name s t first second _
      cases first.symm.trans second
      rfl
    · exact (independent.forall memA memB same).same
  have origin : ∀ file ∈ jobs.reverse.flatMap (·.product place files) ++ [], ∃ job ∈ jobs,
      ∃ name text, job.plan place files = .write name text ∧
        file = (pathIn place.output name, text) := by
    intro file mem
    rw [List.append_nil, List.mem_flatMap] at mem
    obtain ⟨job, listed, mem⟩ := mem
    exact ⟨job, List.mem_reverse.mp listed, mem_product mem⟩
  constructor
  · intro a memA writable b memB
    obtain ⟨first, _, name, _, planFirst, rfl⟩ := origin a memA
    obtain ⟨second, _, other, _, planSecond, rfl⟩ := origin b memB
    dsimp only at writable ⊢
    exact destination_not_mem_passage home (isQualified_of_plan planFirst)
      (isQualified_of_plan planSecond) writable
  · intro a memA writable b memB _ place
    obtain ⟨first, listedFirst, name, s, planFirst, rfl⟩ := origin a memA
    obtain ⟨second, listedSecond, other, t, planSecond, rfl⟩ := origin b memB
    dsimp only at place writable ⊢
    have names := eq_of_destination_eq (isQualified_of_plan planFirst)
      (isQualified_of_plan planSecond) place
    exact texts first listedFirst second listedSecond name s t planFirst
      (names ▸ planSecond) writable

theorem Independent.isSpared (roots : ∀ root ∈ place.sourceRoots, files.Apart root place.output)
    {a b : ClassJob} (independent : Independent place files a b) {file : String × String}
    (mem : file ∈ a.product place files) : b.IsSpared place files file := by
  obtain ⟨name, text, plan, rfl⟩ := mem_product mem
  constructor
  · intro other named root listed
    dsimp only
    exact spares_of_apart (roots root listed) (isQualified_of_name named) (isQualified_of_plan plan)
  · intro path reads
    dsimp only
    exact independent.leaves name text path plan reads

end ClassJob

namespace Generation

open ClassJob

/-! ### Running all jobs -/

variable {place : GenerationPlace} {before : Files} (tools : Toolbox)

theorem run_executeAll_cons (job : ClassJob) (rest : List ClassJob) (files : Files) :
    let one := (job.execute place).run tools files
    let others := (executeAll place rest).run tools one.files
    ((executeAll place (job :: rest)).run tools files).files = others.files ∧
      ((executeAll place (job :: rest)).run tools files).value =
        (job, one.value) :: others.value := by
  simp [executeAll, Work.run_bind]

/-- A run over jobs adds their products, and their fates are the ones foreseen. -/
theorem adds_executeAll (tree : before.IsTree) {jobs : List ClassJob} {between : Files}
    {done : List (String × String)} (adds : before.Adds done between)
    (compatible : before.Compatible (jobs.reverse.flatMap (·.product place before) ++ done))
    (spared : ∀ job ∈ jobs, ∀ file ∈ done, job.IsSpared place before file)
    (apart : jobs.Pairwise fun a b =>
      ∀ file ∈ a.product place before, b.IsSpared place before file) :
    before.Adds (jobs.reverse.flatMap (·.product place before) ++ done)
        ((executeAll place jobs).run tools between).files ∧
      ((executeAll place jobs).run tools between).value.map
          (fun found => ClassFate.ofResult found.2) =
        jobs.map (·.fate place before) := by
  induction jobs generalizing between done with
  | nil => exact ⟨adds, rfl⟩
  | cons job rest ih =>
      obtain ⟨first, later⟩ := List.pairwise_cons.mp apart
      have order : (job :: rest).reverse.flatMap (·.product place before) ++ done =
          rest.reverse.flatMap (·.product place before) ++ (job.product place before ++ done) := by
        simp
      rw [order] at compatible ⊢
      have one := adds_execute_after tools tree adds (spared job List.mem_cons_self)
        (compatible.mono (List.subset_append_right _ _))
      have sparedLater : ∀ other ∈ rest, ∀ file ∈ job.product place before ++ done,
          other.IsSpared place before file := by
        intro other mem file isWritten
        rcases List.mem_append.mp isWritten with new | old
        · exact first other mem file new
        · exact spared other (List.mem_cons_of_mem _ mem) file old
      obtain ⟨all, fates⟩ := ih one.1 compatible sparedLater later
      obtain ⟨files, value⟩ := run_executeAll_cons tools job rest between
      rw [files, value, List.map_cons, List.map_cons, one.2, fates]
      exact ⟨all, rfl⟩

theorem length_executeAll (jobs : List ClassJob) (files : Files) :
    ((executeAll place jobs).run tools files).value.length = jobs.length := by
  induction jobs generalizing files with
  | nil => rfl
  | cons job rest ih =>
      rw [(run_executeAll_cons tools job rest files).2, List.length_cons, ih, List.length_cons]

theorem run_runAll (place : GenerationPlace) (tools : Toolbox) (jobs : List ClassJob)
    (files : Files) :
    let all := (executeAll place jobs).run tools files
    ((runAll place jobs).run tools files).files = all.files ∧
      ((runAll place jobs).run tools files).value =
        GenerationCount.ofResults (all.value.map (·.2)) := by
  simp [runAll, Work.run_bind, Work.report, Work.run]

theorem total_runAll (jobs : List ClassJob) (files : Files) :
    ((runAll place jobs).run tools files).value.total = jobs.length := by
  rw [(run_runAll place tools jobs files).2, GenerationCount.total_ofResults, List.length_map,
    length_executeAll]

theorem adds_runAll (tree : before.IsTree)
    (roots : ∀ root ∈ place.sourceRoots, before.Apart root place.output) {jobs : List ClassJob}
    (independent : jobs.Pairwise (Independent place before)) :
    before.Adds (jobs.reverse.flatMap (·.product place before) ++ [])
        ((runAll place jobs).run tools before).files ∧
      ((runAll place jobs).run tools before).value =
        { generated := (jobs.map (·.fate place before)).count .generated
          aborted := (jobs.map (·.fate place before)).count .aborted
          failed := (jobs.map (·.fate place before)).count .failed } := by
  have apart : jobs.Pairwise fun a b =>
      ∀ file ∈ a.product place before, b.IsSpared place before file :=
    independent.imp fun pair _ mem => Independent.isSpared roots pair mem
  obtain ⟨adds, fates⟩ := adds_executeAll tools tree adds_nothing
    (compatible_products tree.home independent) (fun _ _ => List.forall_mem_nil _) apart
  obtain ⟨files, value⟩ := run_runAll place tools jobs before
  rw [files, value, GenerationCount.ofResults_eq, List.map_map, ← fates]
  exact ⟨adds, rfl⟩

/-- Every job is counted once. Independent jobs leave the same files and the same count in every
order. -/
theorem runAll_perm {jobs order : List ClassJob} (perm : order.Perm jobs) :
    let ran := (runAll place jobs).run tools before
    let again := (runAll place order).run tools before
    again.value.total = jobs.length ∧
      (before.IsTree → (∀ root ∈ place.sourceRoots, before.Apart root place.output) →
        jobs.Pairwise (Independent place before) →
          again.value = ran.value ∧
            ∀ route, again.files.entryAt? route = ran.files.entryAt? route) := by
  intro ran again
  refine ⟨(total_runAll tools order before).trans perm.length_eq, ?_⟩
  intro tree roots independent
  have reordered : order.Pairwise (Independent place before) :=
    (perm.pairwise_iff Independent.symm).mpr independent
  obtain ⟨adds, count⟩ := adds_runAll tools tree roots independent
  obtain ⟨addsAgain, countAgain⟩ := adds_runAll tools tree roots reordered
  constructor
  · show again.value = ran.value
    rw [count, countAgain]
    simp only [(perm.map (·.fate place before)).count_eq]
  · intro route
    refine adds.entryAt?_eq addsAgain ?_ route
    intro file
    simp [perm.mem_iff]

/-- Two classes to generate, one of them from a template file, and one that is written by hand. -/
def threeJobs : List ClassJob :=
  [{ description := "visitor a", source := .inline "class A", className := "p.A"
     context := .object [] },
    { description := "visitor b", source := .file "b.tpl", className := "p.B"
      context := .object [] },
    { description := "visitor c", source := .inline "class C", className := "p.q.C"
      context := .object [] }]

def threePlace : GenerationPlace where
  output := "out"
  sourceRoots := ["src"]
  templates := ""

def threeFiles : Files :=
  ((Files.startingAt ["work"]).add "b.tpl" "class B" false).add "src/p/q/C.java" "" false

theorem runAll_perm_reversed :
    threeJobs.reverse.Perm threeJobs ∧ threeFiles.IsTree ∧
      (∀ root ∈ threePlace.sourceRoots, threeFiles.Apart root threePlace.output) ∧
      threeJobs.Pairwise (Independent threePlace threeFiles) ∧
      ((runAll threePlace threeJobs.reverse).run .nothing threeFiles).value.total = 3 ∧
      ((runAll threePlace threeJobs.reverse).run .nothing threeFiles).value =
        { generated := 2, aborted := 1 } ∧
      ((runAll threePlace threeJobs.reverse).run .nothing threeFiles).files.entryAt?
        ["work", "out", "p", "B.java"] = some (.file "class B" false) := by
  have perm := List.reverse_perm threeJobs
  have tree : threeFiles.IsTree := isTree_of_entries _ (by decide +kernel) (by decide +kernel)
  have roots : ∀ root ∈ threePlace.sourceRoots, threeFiles.Apart root threePlace.output := by
    decide +kernel
  have independent : threeJobs.Pairwise (Independent threePlace threeFiles) := by decide +kernel
  obtain ⟨total, same⟩ := runAll_perm Toolbox.nothing perm
  obtain ⟨count, entries⟩ := same tree roots independent
  refine ⟨perm, tree, roots, independent, total, ?_, ?_⟩
  · rw [count]
    decide +kernel
  · rw [entries]
    decide +kernel

end Generation

namespace Project

open Generation

def visitorJobs (p : Project) (view : Json) : List ClassJob :=
  (p.fileJobs view "visitor" (enabledVisitors p.settings.visitors).value).value

theorem run_generateVisitors (p : Project) (view : Json) (tools : Toolbox) (files : Files) :
    ((p.generateVisitors view).run tools files).files =
        ((runAll p.place (p.visitorJobs view)).run tools files).files ∧
      ((p.generateVisitors view).run tools files).value =
        ((runAll p.place (p.visitorJobs view)).run tools files).value := by
  simp [generateVisitors, visitorJobs, Work.run_bind, Work.ofReported, Work.run]

/-- A grammar whose settings have two visitors of the same class. -/
def rivals : Except Fault Project :=
  ofText "G.jjt"
    "PARSER_BEGIN(P)\nclass P \x7b\x7d\nPARSER_END(P)\n\nvoid A() : \x7b\x7d \x7b <X> \x7d\n"
    { visitors :=
        [("a", { template := some "one", className := some "p.X" }),
          ("b", { template := some "two", className := some "p.X" })] }
    {} "out"

/-- What stands in the place of their class when jobs have run in the given order. -/
def rivalClass (p : Project) (order : List ClassJob) : Option FileEntry :=
  ((runAll p.place order).run .nothing (.startingAt ["work"])).files.entryAt?
    ["work", "out", "p", "X.java"]

/-- The last of two visitors of one class wins. -/
theorem runAll_rivals : ∃ p, rivals = .ok p ∧ p.sourceRoots = [] ∧
    (p.visitorJobs p.view.value).reverse.Perm (p.visitorJobs p.view.value) ∧
    rivalClass p (p.visitorJobs p.view.value) = some (.file "two" false) ∧
    rivalClass p (p.visitorJobs p.view.value).reverse = some (.file "one" false) := by
  have settled : (rivals.toOption.any fun p => p.sourceRoots == [] &&
      rivalClass p (p.visitorJobs p.view.value) == some (.file "two" false) &&
      rivalClass p (p.visitorJobs p.view.value).reverse == some (.file "one" false)) = true := by
    decide +kernel
  cases read : rivals with
  | error fault =>
      rw [read] at settled
      cases settled
  | ok p =>
      rw [read] at settled
      simp only [Except.toOption, Option.any_some, Bool.and_eq_true, beq_iff_eq] at settled
      obtain ⟨⟨noRoots, last⟩, first⟩ := settled
      exact ⟨p, rfl, noRoots, List.reverse_perm _, last, first⟩

end Project

end NodeWeave

import NodeWeave.Proofs.Generation.Target

/-!
What becomes of the job of generating one class. The job makes a plan by what it reads; where that
is to write a class, the file system decides.
-/

namespace NodeWeave

open ClassName Files

/-- What a job is up to, as the files stand. -/
inductive ClassPlan where
  | abort
  | fail
  | write (name text : String)
  deriving DecidableEq, Repr

/-- What becomes of a job: it is generated, left to another source root, or fails. -/
inductive ClassFate where
  | generated
  | aborted
  | failed
  deriving DecidableEq, Repr

namespace ClassFate

def ofResult : Except Fault ClassResult → ClassFate
  | .ok result => if result.isGenerated then generated else aborted
  | .error _ => failed

end ClassFate

theorem GenerationCount.ofResults_eq (results : List (Except Fault ClassResult)) :
    ofResults results =
      { generated := (results.map ClassFate.ofResult).count .generated
        aborted := (results.map ClassFate.ofResult).count .aborted
        failed := (results.map ClassFate.ofResult).count .failed } := by
  simp only [ofResults, List.count_eq_countP, List.countP_map, GenerationCount.mk.injEq]
  refine ⟨List.countP_congr ?_, List.countP_congr ?_, List.countP_congr ?_⟩
  all_goals
    intro result _
    cases result with
    | error fault => simp [ClassFate.ofResult]
    | ok result => cases generated : result.isGenerated <;> simp [ClassFate.ofResult, generated]

/-- Work that leaves the files as they are and reports nothing is its value. -/
theorem Work.run_bind_of_quiet {α β : Type} {work : Work α} {f : α → Work β} {tools : Toolbox}
    {files : Files} {value : α} (ran : work.run tools files = ⟨value, files, []⟩) :
    (work.bind f).run tools files = (f value).run tools files := by
  rw [run_bind, ran]
  rfl

namespace ClassJob

variable (job : ClassJob) (place : GenerationPlace) (files : Files)

/-- A class of the name stands in another source root. -/
def isElsewhere (name : String) : Bool :=
  place.sourceRoots.any fun root => files.isFile (pathIn root name)

def template? : Option String :=
  match job.source with
  | .inline text => some text
  | .file path => (files.read (Path.join place.templates path)).toOption

def plan : ClassPlan :=
  match job.name with
  | .error _ => .fail
  | .ok name =>
      if isElsewhere place files name then .abort
      else
        match job.template? place files with
        | none => .fail
        | some template =>
            match job.body template name with
            | .error _ => .fail
            | .ok text => .write name text

/-- The path of the template, where the job comes to read one. -/
def templatePath? : Option String :=
  match job.name, job.source with
  | .ok name, .file path =>
      if isElsewhere place files name then none else some (Path.join place.templates path)
  | _, _ => none

def product : List (String × String) :=
  match job.plan place files with
  | .write name text => [(pathIn place.output name, text)]
  | _ => []

def fate : ClassFate :=
  match job.plan place files with
  | .abort => .aborted
  | .fail => .failed
  | .write name _ => if files.IsWritable (pathIn place.output name) then .generated else .failed

/-! ### Running one job -/

section

variable (tools : Toolbox)

theorem run_isFile (path : String) :
    (Work.isFile path).run tools files = ⟨files.isFile path, files, []⟩ := by
  simp only [Work.isFile, Work.run]
  rw [isFile]
  cases files.find? path with
  | none => rfl
  | some entry => cases entry <;> rfl

theorem run_findFirst? (path : String) (roots : List String) :
    (Work.findFirst? (fun root => Work.isFile (Path.join root path)) roots).run tools files =
      ⟨roots.find? fun root => files.isFile (Path.join root path), files, []⟩ := by
  induction roots with
  | nil => rfl
  | cons root rest ih =>
      rw [Work.findFirst?, Work.bind_eq, Work.run_bind, run_isFile, List.find?_cons]
      cases files.isFile (Path.join root path) with
      | true => rfl
      | false => simp [ih]

theorem run_load : ∃ loaded, (job.source.load place.templates).run tools files =
    ⟨loaded, files, []⟩ ∧ loaded.toOption = job.template? place files := by
  rw [template?]
  cases job.source with
  | inline text => exact ⟨.ok text, rfl, rfl⟩
  | file path =>
      simp only [TemplateSource.load, Work.readFile, Work.run]
      cases files.read (Path.join place.templates path) with
      | error problem => exact ⟨_, rfl, rfl⟩
      | ok text => exact ⟨_, rfl, rfl⟩

inductive CarriesOut (place : GenerationPlace) (files : Files) :
    ClassPlan → Work.Ran (Except Fault ClassResult) → Prop where
  | abort (ran : Work.Ran (Except Fault ClassResult)) (same : ran.files = files)
      (fate : ClassFate.ofResult ran.value = .aborted) : CarriesOut place files .abort ran
  | fail (ran : Work.Ran (Except Fault ClassResult)) (same : ran.files = files)
      (fate : ClassFate.ofResult ran.value = .failed) : CarriesOut place files .fail ran
  | write (ran : Work.Ran (Except Fault ClassResult)) (name text : String)
      (same : ran.files =
        ((Work.writeWithParents (pathIn place.output name) text).run tools files).files)
      (fate : ClassFate.ofResult ran.value = .generated ∧
          ((Work.writeWithParents (pathIn place.output name) text).run tools files).value = .ok () ∨
        ClassFate.ofResult ran.value = .failed ∧
          ((Work.writeWithParents (pathIn place.output name) text).run tools files).value ≠
            .ok ()) :
      CarriesOut place files (.write name text) ran

theorem carriesOut_generate (name : String) :
    CarriesOut tools place files
      (match job.template? place files with
        | none => .fail
        | some template =>
            match job.body template name with
            | .error _ => .fail
            | .ok text => .write name text)
      ((job.generate place name).run tools files) := by
  obtain ⟨loaded, ran, same⟩ := job.run_load place files tools
  rw [← same, generate, Work.bind_eq, Work.run_bind_of_quiet ran]
  cases loaded with
  | error fault => exact .fail _ rfl rfl
  | ok template =>
      simp only [Except.toOption]
      cases body : job.body template name with
      | error fault => exact .fail _ rfl rfl
      | ok text =>
          dsimp only
          rw [Work.bind_eq, Work.run_bind, ← pathIn]
          cases wrote : (Work.writeWithParents (pathIn place.output name) text).run tools files with
          | mk value after reports =>
              cases value with
              | error fault =>
                  refine .write _ name text (by rw [wrote]; rfl) (.inr ⟨rfl, ?_⟩)
                  rw [wrote]
                  nofun
              | ok _ =>
                  refine .write _ name text (by rw [wrote]; rfl) (.inl ⟨rfl, ?_⟩)
                  rw [wrote]

theorem carriesOut_execute :
    CarriesOut tools place files (job.plan place files) ((job.execute place).run tools files) := by
  rw [execute, plan]
  cases job.name with
  | error fault => exact .fail _ rfl rfl
  | ok name =>
      dsimp only
      rw [Work.bind_eq, Work.run_bind_of_quiet (run_findFirst? files tools _ _)]
      cases found : place.sourceRoots.find? fun root =>
          files.isFile (Path.join root (sourcePath name)) with
      | some root =>
          have isFile := List.find?_some found
          have elsewhere : isElsewhere place files name = true :=
            List.any_eq_true.mpr ⟨root, List.mem_of_find?_eq_some found, isFile⟩
          rw [if_pos elsewhere]
          exact .abort _ rfl rfl
      | none =>
          have nowhere : ¬ isElsewhere place files name = true := by
            rw [isElsewhere, List.any_eq_true]
            rintro ⟨root, mem, isFile⟩
            have other := List.find?_eq_none.mp found root mem
            exact other isFile
          rw [if_neg nowhere]
          exact job.carriesOut_generate place files tools name

end

section

variable {job place files}

theorem isQualified_of_name {name : String} (named : job.name = .ok name) :
    isQualified name = true := by
  rw [ClassJob.name] at named
  split at named
  · cases named
  · dsimp only at named
    split at named
    · next qualified =>
        cases named
        exact qualified
    · cases named

theorem name_of_plan {name text : String} (plan : job.plan place files = .write name text) :
    job.name = .ok name := by
  rw [ClassJob.plan] at plan
  split at plan
  · cases plan
  · next found named =>
      split at plan
      · cases plan
      · split at plan
        · cases plan
        · split at plan
          · cases plan
          · cases plan
            exact named

theorem isQualified_of_plan {name text : String} (plan : job.plan place files = .write name text) :
    isQualified name = true :=
  isQualified_of_name (name_of_plan plan)

end

theorem adds_execute (tools : Toolbox) (home : files.entryAt? files.here = some .directory) :
    files.Adds (job.product place files) ((job.execute place).run tools files).files ∧
      ClassFate.ofResult ((job.execute place).run tools files).value = job.fate place files := by
  have carries := job.carriesOut_execute place files tools
  generalize (job.execute place).run tools files = ran at carries ⊢
  rw [product, fate]
  cases plan : job.plan place files with
  | abort =>
      rw [plan] at carries
      cases carries with
      | abort _ same fate =>
          rw [same]
          exact ⟨adds_nothing, fate⟩
  | fail =>
      rw [plan] at carries
      cases carries with
      | fail _ same fate =>
          rw [same]
          exact ⟨adds_nothing, fate⟩
  | write name text =>
      rw [plan] at carries
      have qualified := isQualified_of_plan plan
      obtain ⟨adds, writable⟩ := adds_writeWithParents home
        (segments_pathIn qualified place.output) (solid_fileName name)
        (fileName_ne_of_short (by decide) name) tools text
      cases carries with
      | write _ _ _ same fate =>
          rw [same]
          refine ⟨adds, ?_⟩
          rcases fate with ⟨fate, okay⟩ | ⟨fate, failed⟩
          · rw [fate]
            simp [writable.mp okay]
          · rw [fate]
            simp [mt writable.mpr failed]

end ClassJob

end NodeWeave

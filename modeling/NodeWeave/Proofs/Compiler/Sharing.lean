import NodeWeave.Compiler.Basic
import NodeWeave.Proofs.Files.Below
import NodeWeave.Proofs.Files.Outcomes
import NodeWeave.Proofs.Generation.Job

/-!
Sharing out what a compiler produced, one file after the other. Main statements: a run that succeeds
puts each source file into one of three parts, in the order in which they were produced, and
reports those that stand in another source root.
-/

namespace NodeWeave.Compiler

open Files NodeWeave.Path Route

variable {output : String} {roots : List String} {files between after : Files}
  {produced : List (Route × String)} {reports : List Report}

def relative (file : Route × String) : String :=
  Text.join "/" file.1

def target (output : String) (file : Route × String) : String :=
  below output file.1

def elsewhere? (files : Files) (roots : List String) (file : Route × String) : Option String :=
  roots.find? fun root => files.isFile (below root file.1)

/-- Produced files by what becomes of them. -/
structure Parts where
  copied : List (Route × String) := []
  shadowed : List (Route × String) := []
  kept : List (Route × String) := []

def Parts.shares (parts : Parts) : Shares where
  copied := parts.copied.map relative
  shadowed := parts.shadowed.map relative
  kept := parts.kept.map relative

def shadowReport (root : String) (file : Route × String) : Report :=
  .make .classNotGenerated (relative file ++ " was not copied because it exists in " ++ root)

def keptReport (output : String) (file : Route × String) : Report :=
  .debug (target output file ++ " already exists, not overwritten")

/-! ### One file -/

theorem run_isThere (tools : Toolbox) (files : Files) (path : String) :
    (Work.isThere path).run tools files = ⟨(files.find? path).isSome, files, []⟩ := by
  simp only [Work.isThere, Work.run, Option.isSome_map]

theorem run_shareAll_cons (tools : Toolbox) (files : Files) (file : Route × String)
    (rest : List (Route × String)) :
    (shareAll output roots (file :: rest)).run tools files =
      match elsewhere? files roots file with
      | some root =>
          let ran := (shareAll output roots rest).run tools files
          ⟨ran.value.map fun shares => { shares with shadowed := relative file :: shares.shadowed },
            ran.files, shadowReport root file :: ran.reports⟩
      | none =>
          if (files.find? (target output file)).isSome then
            let ran := (shareAll output roots rest).run tools files
            ⟨ran.value.map fun shares => { shares with kept := relative file :: shares.kept },
              ran.files, keptReport output file :: ran.reports⟩
          else
            let wrote := (Work.writeWithParents (target output file) file.2).run tools files
            match wrote.value with
            | .error fault => ⟨.error fault, wrote.files, wrote.reports⟩
            | .ok () =>
                let ran := (shareAll output roots rest).run tools wrote.files
                ⟨ran.value.map fun shares =>
                    { shares with copied := relative file :: shares.copied },
                  ran.files, wrote.reports ++ ran.reports⟩ := by
  obtain ⟨way, text⟩ := file
  rw [shareAll, Work.bind_eq, Work.run_bind_of_quiet (ClassJob.run_findFirst? files tools _ roots),
    elsewhere?]
  unfold below
  cases roots.find? fun root => files.isFile (Path.join root (Text.join "/" way)) with
  | some root => simp [Work.run_bind, Work.report, Work.run, shadowReport, relative]
  | none =>
      simp only [Work.bind_eq]
      rw [Work.run_bind_of_quiet (run_isThere tools files _)]
      cases there : files.find? (Path.join output (Text.join "/" way)) with
      | some entry =>
          simp [target, below, there, Work.run_bind, Work.report, Work.run, keptReport, relative]
      | none =>
          simp only [target, below, there, Option.isSome_none, Bool.false_eq_true, if_false,
            Work.run_bind]
          cases ((Work.writeWithParents (Path.join output (Text.join "/" way)) text).run tools
            files).value with
          | error fault => simp
          | ok _ => simp [Work.run_bind, relative]

theorem reports_writeWithParents (tools : Toolbox) (files : Files) (path text : String) :
    ((Work.writeWithParents path text).run tools files).reports = [] :=
  List.eq_nil_iff_forall_not_mem.mpr
    ((Work.TellsOnly.writeWithParents path text).of_comes (Work.comes_run _ tools files))

theorem adds_target (output : String) (tools : Toolbox)
    (home : files.entryAt? files.here = some .directory)
    {file : Route × String} (leads : IsWay file.1) :
    files.Adds [(target output file, file.2)]
        ((Work.writeWithParents (target output file) file.2).run tools files).files ∧
      (((Work.writeWithParents (target output file) file.2).run tools files).value = .ok () ↔
        files.IsWritable (target output file)) := by
  have last := leads.down _ (List.getLast_mem leads.some)
  exact adds_writeWithParents home (segments_below_concat leads output) last.1 last.2 tools file.2

/-! ### All files -/

/-- Files are shared out one after the other, which ends with these parts, reports and files. -/
inductive SharesOut (output : String) (roots : List String) :
    Files → List (Route × String) → Parts → List Report → Files → Prop where
  | done {files : Files} : SharesOut output roots files [] {} [] files
  | shadow {files after : Files} {file : Route × String} {rest : List (Route × String)}
      {parts : Parts} {reports : List Report} {root : String}
      (found : elsewhere? files roots file = some root)
      (others : SharesOut output roots files rest parts reports after) :
      SharesOut output roots files (file :: rest)
        { parts with shadowed := file :: parts.shadowed } (shadowReport root file :: reports) after
  | keep {files after : Files} {file : Route × String} {rest : List (Route × String)}
      {parts : Parts} {reports : List Report} (nowhere : elsewhere? files roots file = none)
      (there : (files.find? (target output file)).isSome)
      (others : SharesOut output roots files rest parts reports after) :
      SharesOut output roots files (file :: rest)
        { parts with kept := file :: parts.kept } (keptReport output file :: reports) after
  | copy {files between after : Files} {file : Route × String} {rest : List (Route × String)}
      {parts : Parts} {reports : List Report} (nowhere : elsewhere? files roots file = none)
      (missing : files.find? (target output file) = none)
      (writable : files.IsWritable (target output file))
      (adds : files.Adds [(target output file, file.2)] between)
      (others : SharesOut output roots between rest parts reports after) :
      SharesOut output roots files (file :: rest)
        { parts with copied := file :: parts.copied } reports after

theorem exists_of_map_eq_ok {α β : Type} {f : α → β} {result : Except Fault α} {value : β}
    (mapped : result.map f = .ok value) : ∃ inner, result = .ok inner ∧ f inner = value := by
  cases result with
  | error fault => cases mapped
  | ok inner =>
      cases mapped
      exact ⟨inner, rfl, rfl⟩

theorem sharesOut_of_run {tools : Toolbox} {shares : Shares}
    (home : files.entryAt? files.here = some .directory)
    (ways : ∀ file ∈ produced, IsWay file.1)
    (ok : ((shareAll output roots produced).run tools files).value = .ok shares) :
    ∃ parts, parts.shares = shares ∧
      SharesOut output roots files produced parts
        ((shareAll output roots produced).run tools files).reports
        ((shareAll output roots produced).run tools files).files := by
  induction produced generalizing files shares with
  | nil =>
      cases ok
      exact ⟨{}, rfl, .done⟩
  | cons file rest ih =>
      obtain ⟨leads, waysRest⟩ := List.forall_mem_cons.mp ways
      rw [run_shareAll_cons] at ok ⊢
      split at ok
      · next root found =>
          obtain ⟨_, okRest, rfl⟩ := exists_of_map_eq_ok ok
          obtain ⟨parts, rfl, others⟩ := ih home waysRest okRest
          exact ⟨_, rfl, .shadow found others⟩
      · next nowhere =>
          split at ok
          · next there =>
              obtain ⟨_, okRest, rfl⟩ := exists_of_map_eq_ok ok
              obtain ⟨parts, rfl, others⟩ := ih home waysRest okRest
              rw [if_pos there]
              exact ⟨_, rfl, .keep nowhere there others⟩
          · next missing =>
              obtain ⟨adds, written⟩ := adds_target output tools home leads
              rw [if_neg missing]
              have quiet := reports_writeWithParents tools files (target output file) file.2
              cases wrote : (Work.writeWithParents (target output file) file.2).run tools files with
              | mk value between told =>
                  rw [wrote] at ok adds written quiet
                  cases value with
                  | error fault => cases ok
                  | ok _ =>
                      obtain ⟨_, okRest, rfl⟩ := exists_of_map_eq_ok ok
                      obtain ⟨parts, rfl, others⟩ := ih (adds.home home) waysRest okRest
                      refine ⟨{ parts with copied := file :: parts.copied }, rfl, ?_⟩
                      dsimp only at quiet ⊢
                      rw [quiet]
                      exact .copy nowhere (by simpa using missing) (written.mp rfl) adds others

namespace SharesOut

variable {parts : Parts}

theorem perm (shared : SharesOut output roots files produced parts reports after) :
    (parts.copied ++ parts.shadowed ++ parts.kept).Perm produced := by
  induction shared with
  | done => exact .refl _
  | shadow _ _ ih =>
      refine List.Perm.trans ?_ (ih.cons _)
      simp only [List.append_assoc, List.cons_append]
      exact List.perm_middle
  | keep _ _ _ ih => exact List.perm_middle.trans (ih.cons _)
  | copy _ _ _ _ _ ih => exact ih.cons _

theorem sublists (shared : SharesOut output roots files produced parts reports after) :
    parts.copied.Sublist produced ∧ parts.shadowed.Sublist produced ∧
      parts.kept.Sublist produced := by
  induction shared with
  | done => exact ⟨.refl _, .refl _, .refl _⟩
  | shadow _ _ ih => exact ⟨ih.1.cons _, ih.2.1.cons_cons _, ih.2.2.cons _⟩
  | keep _ _ _ ih => exact ⟨ih.1.cons _, ih.2.1.cons _, ih.2.2.cons_cons _⟩
  | copy _ _ _ _ _ ih => exact ⟨ih.1.cons_cons _, ih.2.1.cons _, ih.2.2.cons _⟩

/-- Each file that stands elsewhere is reported once, with the root where it stands. -/
theorem told (shared : SharesOut output roots files produced parts reports after) :
    List.Forall₂ (fun report file => ∃ root ∈ roots, report = shadowReport root file)
      (reports.filter (·.category == .classNotGenerated)) parts.shadowed := by
  induction shared with
  | done => exact .nil
  | shadow found _ ih => exact .cons ⟨_, List.mem_of_find?_eq_some found, rfl⟩ ih
  | keep _ _ _ ih => exact ih
  | copy _ _ _ _ _ ih => exact ih

end SharesOut

end NodeWeave.Compiler

import Mathlib.Data.List.Nodup
import Mathlib.Tactic.Tauto
import NodeWeave.Proofs.Compiler.Sharing
import NodeWeave.Proofs.Files.Growth

/-!
What the output of a compiler does to all files. Main statement: a run that succeeds puts each
source file into one part and adds the copied ones to the files; if the output does not turn back
from a missing directory, nothing that was there is changed; and a second run with the same files
changes nothing.
-/

namespace NodeWeave

open NodeWeave.Path Route

namespace Files

/-! ### The order of a walk -/

theorem comesBefore_total (a b : Route) : (comesBefore a b || comesBefore b a) = true := by
  induction a generalizing b with
  | nil => rfl
  | cons name rest ih =>
      cases b with
      | nil => rfl
      | cons other others =>
          rw [comesBefore, comesBefore]
          by_cases same : name = other
          · rw [if_pos same, if_pos same.symm]
            exact ih others
          · rw [if_neg same, if_neg (Ne.symm same)]
            simp only [Bool.or_eq_true, decide_eq_true_eq]
            by_contra neither
            rw [not_or, String.not_lt, String.not_lt] at neither
            exact same (String.le_antisymm neither.2 neither.1)

theorem comesBefore_trans (a b c : Route) (first : comesBefore a b = true)
    (later : comesBefore b c = true) : comesBefore a c = true := by
  induction a generalizing b c with
  | nil => rfl
  | cons name rest ih =>
      cases b with
      | nil => cases first
      | cons other others =>
          cases c with
          | nil => cases later
          | cons third thirds =>
              rw [comesBefore] at first later ⊢
              split at first
              · next same =>
                  subst same
                  split
                  · next equal =>
                      rw [if_pos equal] at later
                      exact ih others thirds first later
                  · next differs =>
                      rwa [if_neg differs] at later
              · next differs =>
                  have less : name < other := by simpa using first
                  split at later
                  · next equal =>
                      rw [if_neg (equal ▸ differs)]
                      simpa [← equal] using less
                  · have lessAgain : other < third := by simpa using later
                    have lessThird := String.lt_trans less lessAgain
                    have differs : name ≠ third := fun same =>
                      String.lt_irrefl third (same ▸ lessThird)
                    rw [if_neg differs]
                    simpa using lessThird

theorem pairwise_inWalkOrder {α : Type} (found : List (Route × α)) :
    (inWalkOrder found).Pairwise fun a b => comesBefore a.1 b.1 = true :=
  List.pairwise_mergeSort (fun a b c => comesBefore_trans a.1 b.1 c.1)
    (fun a b => comesBefore_total a.1 b.1) found

/-- Files below a directory: each has a way there that no other one has, and none is in the way of
another one. -/
structure IsFileSet (found : List (Route × String)) : Prop where
  ways : ∀ file ∈ found, IsWay file.1
  distinct : (found.map Prod.fst).Nodup
  leaves : ∀ a ∈ found, ∀ b ∈ found, a.1 <+: b.1 → a.1 = b.1

theorem IsFileSet.of_perm {found others : List (Route × String)} (isSet : IsFileSet found)
    (perm : others.Perm found) : IsFileSet others where
  ways file mem := isSet.ways file (perm.mem_iff.mp mem)
  distinct := (perm.map _).nodup_iff.mpr isSet.distinct
  leaves a memA b memB := isSet.leaves a (perm.mem_iff.mp memA) b (perm.mem_iff.mp memB)

theorem IsFileSet.filter {found : List (Route × String)} (isSet : IsFileSet found)
    (condition : Route × String → Bool) : IsFileSet (found.filter condition) where
  ways file mem := isSet.ways file (List.mem_of_mem_filter mem)
  distinct := isSet.distinct.sublist (List.filter_sublist.map _)
  leaves a memA b memB :=
    isSet.leaves a (List.mem_of_mem_filter memA) b (List.mem_of_mem_filter memB)

end Files

namespace Compiler

open Files

variable {output : String} {roots : List String} {before between after : Files}
  {produced : List (Route × String)} {parts : Parts} {reports : List Report}

def placed (output : String) (file : Route × String) : String × String :=
  (target output file, file.2)

/-- Produced files do not get in the way of each other, and no two go to one place. -/
theorem compatible_placed (home : before.entryAt? before.here = some .directory)
    (isSet : IsFileSet produced) (output : String) :
    before.Compatible (produced.map (placed output)) := by
  constructor
  · intro a memA writable b memB
    obtain ⟨first, listed, rfl⟩ := List.mem_map.mp memA
    obtain ⟨second, listedSecond, rfl⟩ := List.mem_map.mp memB
    have leads := isSet.ways second listedSecond
    refine destination_below_not_mem_passage (isSet.ways first listed) leads home writable ?_
    intro inner
    have same := isSet.leaves first listed second listedSecond
      (inner.trans (List.dropLast_prefix second.1))
    have short := inner.length_le
    have := List.length_pos_iff.mpr leads.some
    rw [same, List.length_dropLast] at short
    omega
  · intro a memA _ b memB _ same
    obtain ⟨first, listed, rfl⟩ := List.mem_map.mp memA
    obtain ⟨second, listedSecond, rfl⟩ := List.mem_map.mp memB
    have ways := before.eq_of_destination_below_eq (isSet.ways first listed)
      (isSet.ways second listedSecond) same
    rw [List.inj_on_of_nodup_map isSet.distinct listed listedSecond ways]

namespace SharesOut

theorem grows (shared : SharesOut output roots before produced parts reports after) :
    before.Grows after := by
  induction shared with
  | done => exact .refl _
  | shadow _ _ ih => exact ih
  | keep _ _ _ ih => exact ih
  | copy _ _ _ adds _ ih => exact adds.grows.trans ih

theorem adds {done : List (String × String)}
    (shared : SharesOut output roots between produced parts reports after)
    (early : before.Adds done between)
    (compatible : before.Compatible (produced.map (placed output) ++ done)) :
    before.Adds (parts.copied.map (placed output) ++ done) after ∧
      ∀ file ∈ parts.copied, before.IsWritable (target output file) := by
  induction shared generalizing done with
  | done => exact ⟨early, List.forall_mem_nil _⟩
  | shadow _ _ ih => exact ih early (compatible.mono (List.subset_cons_self _ _))
  | keep _ _ _ ih => exact ih early (compatible.mono (List.subset_cons_self _ _))
  | @copy _ _ _ file rest _ _ nowhere missing writable one others ih =>
      have own : before.Compatible (placed output file :: done) :=
        compatible.mono (by simp)
      have next : before.Adds (placed output file :: done) _ := early.cons own one
      have later : before.Compatible (rest.map (placed output) ++ placed output file :: done) :=
        compatible.mono (by simp)
      obtain ⟨all, writables⟩ := ih next later
      refine ⟨all.of_mem_iff fun other => ?_, List.forall_mem_cons.mpr ⟨?_, writables⟩⟩
      · simp only [List.map_cons, List.cons_append, List.mem_cons, List.mem_append]
        tauto
      · exact (early.isWritable_iff own).mp writable

/-- On a straight way, nothing stands where files are copied to. -/
theorem free (tree : before.IsTree) (straight : before.Straight output)
    (ways : ∀ file ∈ produced, IsWay file.1) (grows : before.Grows between)
    (shared : SharesOut output roots between produced parts reports after) :
    ∀ file ∈ parts.copied, before.entryAt? (before.destination (target output file)) = none := by
  induction shared with
  | done => exact List.forall_mem_nil _
  | shadow _ _ ih => exact ih (List.forall_mem_cons.mp ways).2 grows
  | keep _ _ _ ih => exact ih (List.forall_mem_cons.mp ways).2 grows
  | copy _ missing writable adds _ ih =>
      obtain ⟨leads, waysRest⟩ := List.forall_mem_cons.mp ways
      exact List.forall_mem_cons.mpr
        ⟨straight.entryAt?_eq_none tree grows leads missing writable,
          ih waysRest (grows.trans adds.grows)⟩

/-- Afterwards, each produced file stands in another source root or in the output. -/
theorem settled (home : between.entryAt? between.here = some .directory)
    (ways : ∀ file ∈ produced, IsWay file.1)
    (shared : SharesOut output roots between produced parts reports after) :
    ∀ file ∈ produced, (elsewhere? after roots file).isSome ∨
      (after.find? (target output file)).isSome := by
  induction shared with
  | done => exact List.forall_mem_nil _
  | @shadow files _ file _ _ _ root found others ih =>
      refine List.forall_mem_cons.mpr ⟨.inl ?_, ih home (List.forall_mem_cons.mp ways).2⟩
      have isFile : files.isFile (Path.below root file.1) = true := by
        simpa using List.find?_some found
      rw [elsewhere?, List.find?_isSome]
      exact ⟨root, List.mem_of_find?_eq_some found, others.grows.isFile isFile⟩
  | keep _ there others ih =>
      exact List.forall_mem_cons.mpr
        ⟨.inr (others.grows.isSome_find? there), ih home (List.forall_mem_cons.mp ways).2⟩
  | @copy _ _ _ file _ _ _ _ _ writable adds others ih =>
      obtain ⟨leads, waysRest⟩ := List.forall_mem_cons.mp ways
      refine List.forall_mem_cons.mpr
        ⟨.inr (others.grows.isSome_find? ?_), ih (adds.home home) waysRest⟩
      have cut : segments (target output file) = _ := segments_below_concat leads output
      rw [adds.find?_of_writable home cut (List.mem_singleton_self _) writable]
      rfl

end SharesOut

/-- Where each file stands already, nothing is copied and nothing changes. -/
theorem run_shareAll_of_settled {files : Files} (tools : Toolbox)
    (settled : ∀ file ∈ produced, (elsewhere? files roots file).isSome ∨
      (files.find? (target output file)).isSome) :
    ∃ shares, ((shareAll output roots produced).run tools files).value = .ok shares ∧
      shares.copied = [] ∧ ((shareAll output roots produced).run tools files).files = files := by
  induction produced with
  | nil => exact ⟨{}, rfl, rfl, rfl⟩
  | cons file rest ih =>
      obtain ⟨first, later⟩ := List.forall_mem_cons.mp settled
      obtain ⟨shares, ok, none, same⟩ := ih later
      rw [run_shareAll_cons]
      cases found : elsewhere? files roots file with
      | some root =>
          refine ⟨{ shares with shadowed := relative file :: shares.shadowed }, ?_, none, same⟩
          dsimp only
          rw [ok]
          rfl
      | none =>
          have there := first.resolve_left (by simp [found])
          rw [if_pos there]
          refine ⟨{ shares with kept := relative file :: shares.kept }, ?_, none, same⟩
          dsimp only
          rw [ok]
          rfl

/-! ### The whole run -/

/-- The source files among those that were found, in the order of a walk. -/
def sources (found : List (Route × String)) : List (Route × String) :=
  (inWalkOrder found).filter fun file => isSource file.1

theorem isFileSet_sources {found : List (Route × String)} (isSet : IsFileSet found) :
    IsFileSet (sources found) :=
  (isSet.of_perm (List.mergeSort_perm _ _)).filter _

/-- What a run does with source files: each is in one part, and no part changes their order. Those
that stand in another source root are reported, each once. The copied ones are added to the files,
and nothing else but directories for them; if the output is straight, nothing that was there is
changed. -/
structure Distributes (output : String) (roots : List String) (before : Files)
    (sources : List (Route × String)) (parts : Parts) (reports : List Report)
    (after : Files) : Prop where
  perm : (parts.copied ++ parts.shadowed ++ parts.kept).Perm sources
  nodup : ((parts.copied ++ parts.shadowed ++ parts.kept).map relative).Nodup
  walk : sources.Pairwise fun a b => comesBefore a.1 b.1 = true
  copied : parts.copied.Sublist sources
  shadowed : parts.shadowed.Sublist sources
  kept : parts.kept.Sublist sources
  told : List.Forall₂ (fun report file => ∃ root ∈ roots, report = shadowReport root file)
    (reports.filter (·.category == .classNotGenerated)) parts.shadowed
  writable : ∀ file ∈ parts.copied, before.IsWritable (target output file)
  adds : before.Adds (parts.copied.map (placed output)) after
  free : before.Straight output →
    ∀ file ∈ parts.copied, before.entryAt? (before.destination (target output file)) = none
  unchanged : before.Straight output → ∀ route entry,
    before.entryAt? route = some entry → after.entryAt? route = some entry

theorem SharesOut.distributes {found : List (Route × String)} (tree : before.IsTree)
    (isSet : IsFileSet found)
    (shared : SharesOut output roots before (sources found) parts reports after) :
    Distributes output roots before (sources found) parts reports after := by
  have isSources := isFileSet_sources isSet
  have compatible : before.Compatible ((sources found).map (placed output) ++ []) := by
    rw [List.append_nil]
    exact compatible_placed tree.home isSources output
  obtain ⟨adds, writable⟩ := shared.adds adds_nothing compatible
  rw [List.append_nil] at adds
  have free : before.Straight output →
      ∀ file ∈ parts.copied, before.entryAt? (before.destination (target output file)) = none :=
    fun straight => shared.free tree straight isSources.ways (.refl before)
  obtain ⟨copied, shadowed, kept⟩ := shared.sublists
  refine ⟨shared.perm, ?_, (pairwise_inWalkOrder found).filter _, copied, shadowed, kept,
    shared.told, writable, adds, free, ?_⟩
  · refine (shared.perm.map relative).nodup_iff.mpr ?_
    refine List.Nodup.map_on ?_ (List.Nodup.of_map _ isSources.distinct)
    intro a memA b memB same
    exact List.inj_on_of_nodup_map isSources.distinct memA memB
      ((isSources.ways a memA).join_injective (isSources.ways b memB) same)
  · intro straight route entry there
    rcases adds.entry_cases route with ⟨_, mem, _, rfl, _⟩ | ⟨none, _⟩ | same
    · obtain ⟨file, copied, rfl⟩ := List.mem_map.mp mem
      cases (free straight file copied).symm.trans there
    · cases none.symm.trans there
    · rw [same, there]

section

variable (compiler : Compiler) (tools : Toolbox) (grammar output : String) (roots : List String)

theorem run_run {files : Files} {found : List (Route × String)}
    (compiled : ((compiler.compile grammar).run tools files).value = .ok (inWalkOrder found)) :
    let left := (compiler.compile grammar).run tools files
    let shared := (shareAll output roots (sources found)).run tools left.files
    let ran := (compiler.run grammar output roots).run tools files
    ran.value = shared.value ∧ ran.files = shared.files ∧
      ∀ shares, shared.value = .ok shares → ran.reports = left.reports ++ (shared.reports ++
        [.normal (compiler.name ++ " produced " ++ toString shares.copied.length ++
          " files in " ++ output)]) := by
  intro left shared ran
  unfold ran run
  simp only [Work.bind_eq, Work.run_bind, compiled]
  unfold shared left sources
  cases ((shareAll output roots ((inWalkOrder found).filter fun file => isSource file.1)).run
    tools ((compiler.compile grammar).run tools files).files).value with
  | error fault => simp
  | ok shares => simp [Work.report, Work.run_bind, Work.run]

/-- A run that succeeds distributes the source files that the compiler left behind. When a compiler
leaves the same files once more, nothing is copied and nothing changes. -/
theorem run_distributes {files : Files} {found : List (Route × String)} {shares : Shares}
    (isSet : IsFileSet found)
    (compiled : ((compiler.compile grammar).run tools files).value = .ok (inWalkOrder found))
    (tree : ((compiler.compile grammar).run tools files).files.IsTree)
    (ok : ((compiler.run grammar output roots).run tools files).value = .ok shares) :
    let left := (compiler.compile grammar).run tools files
    let ran := (compiler.run grammar output roots).run tools files
    (∃ parts told, parts.shares = shares ∧
      ran.reports = left.reports ++ (told ++
        [.normal (compiler.name ++ " produced " ++ toString shares.copied.length ++
          " files in " ++ output)]) ∧
      Distributes output roots left.files (sources found) parts told ran.files) ∧
    ∀ (again : Compiler) (tools : Toolbox) (grammar : String) (reports : List Report),
      (again.compile grammar).run tools ran.files =
        ⟨.ok (inWalkOrder found), ran.files, reports⟩ →
        ∃ shares, ((again.run grammar output roots).run tools ran.files).value = .ok shares ∧
          shares.copied = [] ∧
          ((again.run grammar output roots).run tools ran.files).files = ran.files := by
  intro left ran
  have ways := (isFileSet_sources isSet).ways
  obtain ⟨value, same, reports⟩ := compiler.run_run tools grammar output roots compiled
  rw [value] at ok
  obtain ⟨parts, named, shared⟩ := sharesOut_of_run tree.home ways ok
  rw [← same] at shared
  refine ⟨⟨parts, _, named, reports _ ok, shared.distributes tree isSet⟩, ?_⟩
  intro again tools grammar reports produced
  have compiledAgain : ((again.compile grammar).run tools ran.files).value =
      .ok (inWalkOrder found) := by rw [produced]
  obtain ⟨value, filesAgain, _⟩ := again.run_run tools grammar output roots compiledAgain
  obtain ⟨shares, okAgain, none, unchanged⟩ :=
    run_shareAll_of_settled tools (shared.settled tree.home ways)
  rw [value, filesAgain, produced]
  exact ⟨shares, okAgain, none, unchanged⟩

end

/-- A compiler that leaves these files, whatever it is given. -/
def leaving (found : List (Route × String)) : Compiler where
  name := "fake"
  compile _ := .done (.ok (inWalkOrder found))

/-- A file for each part, and one that is no source file. -/
def fourFiles : List (Route × String) :=
  [(["notes.txt"], "x"), (["p", "Node.java"], "class Node"), (["p", "Parser.java"], "class Parser"),
    (["p", "Token.java"], "class Token")]

def threeWays : Files :=
  ((Files.startingAt ["work"]).add "src/p/Token.java" "mine" false).add "out/p/Node.java" "edited"
    false

/-- One of three source files is copied, and a second run copies none. -/
theorem run_distributes_threeWays :
    let ran := ((leaving fourFiles).run "" "out" ["src"]).run .nothing threeWays
    let again := ((leaving fourFiles).run "" "out" ["src"]).run .nothing ran.files
    threeWays.Straight "out" ∧
      (∃ parts told, parts.shares =
          ⟨["p/Parser.java"], ["p/Token.java"], ["p/Node.java"]⟩ ∧
        Distributes "out" ["src"] threeWays (sources fourFiles) parts told ran.files) ∧
      ∃ shares, again.value = .ok shares ∧ shares.copied = [] ∧ again.files = ran.files := by
  have isSet : IsFileSet fourFiles := ⟨by decide +kernel, by decide +kernel, by decide +kernel⟩
  have tree : threeWays.IsTree := isTree_of_entries _ (by decide +kernel) (by decide +kernel)
  have sorted : inWalkOrder fourFiles = fourFiles := by
    apply List.mergeSort_of_pairwise
    decide +kernel
  have ok : (((leaving fourFiles).run "" "out" ["src"]).run .nothing threeWays).value =
      .ok ⟨["p/Parser.java"], ["p/Token.java"], ["p/Node.java"]⟩ := by
    rw [(run_run (leaving fourFiles) .nothing "" "out" ["src"] rfl).1]
    unfold sources
    rw [sorted]
    decide +kernel
  obtain ⟨⟨parts, told, named, _, distributes⟩, second⟩ :=
    run_distributes (leaving fourFiles) .nothing "" "out" ["src"] isSet rfl tree ok
  exact ⟨by decide +kernel, ⟨parts, told, named, distributes⟩,
    second (leaving fourFiles) .nothing "" [] rfl⟩

/-- A file in the place where an output leads that turns back from a missing directory. -/
def behindMissing : Files :=
  (Files.startingAt ["work"]).add "gen/A.java" "mine" false

/-- Such an output is not found before its directories are made, and then the file that is there is
written over. -/
theorem not_kept_behindMissing :
    let ran := ((leaving [(["A.java"], "new")]).run "" "out/../gen" []).run .nothing behindMissing
    behindMissing.IsTree ∧ ran.value = .ok { copied := ["A.java"] } ∧
      behindMissing.entryAt? ["work", "gen", "A.java"] = some (.file "mine" false) ∧
      ran.files.entryAt? ["work", "gen", "A.java"] = some (.file "new" false) := by
  have sorted : inWalkOrder [(["A.java"], "new")] = [(["A.java"], "new")] :=
    List.mergeSort_singleton _
  obtain ⟨value, files, _⟩ := @run_run (leaving [(["A.java"], "new")]) .nothing "" "out/../gen"
    [] behindMissing _ rfl
  have tree : behindMissing.IsTree := isTree_of_entries _ (by decide +kernel) (by decide +kernel)
  dsimp only
  rw [value, files]
  unfold sources
  rw [sorted]
  exact ⟨tree, by decide +kernel, by decide +kernel, by decide +kernel⟩

end Compiler

end NodeWeave

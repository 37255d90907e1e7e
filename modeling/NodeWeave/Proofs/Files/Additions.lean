import NodeWeave.Proofs.Files.Writing

/-!
Writing several files together with their directories. What they add does not depend on their order,
as long as no file stands on the way to another one and no two texts go to one file; and reading a
path that they spare gives what it gave before.
-/

namespace NodeWeave.Files

open NodeWeave.Path Route

variable (files : Files)

/-! ### Writing several files -/

/-- No file goes where a directory of another one is needed, and no two texts go to one place. -/
structure Compatible (written : List (String × String)) : Prop where
  apart : ∀ a ∈ written, files.IsWritable a.1 → ∀ b ∈ written,
    files.destination a.1 ∉ files.passage b.1
  same : ∀ a ∈ written, files.IsWritable a.1 → ∀ b ∈ written, files.IsWritable b.1 →
    files.destination a.1 = files.destination b.1 → a.2 = b.2

theorem IsMade.mem_passage {files : Files} {path : String} {route : Route}
    (made : files.IsMade path route) : route ∈ files.passage path := by
  have mem := files.mem_entered_of_mem_stops made.stop
    ((segments path).getLast (segments_ne_nil path))
  rwa [List.dropLast_append_getLast] at mem

section

variable {before between after : Files} {written : List (String × String)} {path text : String}

theorem adds_nothing : before.Adds [] before :=
  ⟨rfl, nofun, fun _ _ ⟨_, mem, _⟩ => (List.not_mem_nil mem).elim, fun _ _ _ => rfl⟩

theorem Adds.start (adds : before.Adds written after) (path : String) :
    after.start path = before.start path := by
  rw [Files.start, Files.start, adds.here]

theorem Adds.destination (adds : before.Adds written after) (path : String) :
    after.destination path = before.destination path := by
  rw [Files.destination, Files.destination, adds.start]

theorem Adds.passage (adds : before.Adds written after) (path : String) :
    after.passage path = before.passage path := by
  rw [Files.passage, Files.passage, adds.start]

/-- What stands at a route afterwards: a written file, a new directory, or what stood there. -/
theorem Adds.entry_cases (adds : before.Adds written after) (route : Route) :
    (∃ file ∈ written, before.IsWritable file.1 ∧ route = before.destination file.1 ∧
      after.entryAt? route = some (.file file.2 (before.isExecutableAt route))) ∨
    (before.entryAt? route = none ∧ (∃ file ∈ written, before.IsMade file.1 route) ∧
      after.entryAt? route = some .directory) ∨
    after.entryAt? route = before.entryAt? route := by
  by_cases isText : ∃ file ∈ written, before.IsWritable file.1 ∧ route = before.destination file.1
  · obtain ⟨file, mem, writable, same⟩ := isText
    refine .inl ⟨file, mem, writable, same, ?_⟩
    rw [same]
    exact adds.text file mem writable
  · have other : ∀ file ∈ written, before.IsWritable file.1 →
        route ≠ before.destination file.1 :=
      fun file mem writable same => isText ⟨file, mem, writable, same⟩
    by_cases isDirectory :
        before.entryAt? route = none ∧ ∃ file ∈ written, before.IsMade file.1 route
    · obtain ⟨none, made⟩ := isDirectory
      exact .inr (.inl ⟨none, made, adds.directory route none made⟩)
    · refine .inr (.inr (adds.rest route other ?_))
      by_cases none : before.entryAt? route = none
      · exact .inr fun file mem made => isDirectory ⟨none, file, mem, made⟩
      · exact .inl none

theorem Adds.isExecutableAt (adds : before.Adds written after) (route : Route) :
    after.isExecutableAt route = before.isExecutableAt route := by
  rcases adds.entry_cases route with ⟨file, _, _, _, entry⟩ | ⟨none, _, entry⟩ | entry
  · rw [Files.isExecutableAt, entry]
  · rw [Files.isExecutableAt, entry, Files.isExecutableAt, none]
  · rw [Files.isExecutableAt, entry, Files.isExecutableAt]

theorem Compatible.mono {others : List (String × String)} (compatible : before.Compatible written)
    (sub : others ⊆ written) : before.Compatible others where
  apart a mem writable b other := compatible.apart a (sub mem) writable b (sub other)
  same a mem writable b other := compatible.same a (sub mem) writable b (sub other)

theorem Adds.home (adds : before.Adds written after)
    (home : before.entryAt? before.here = some .directory) :
    after.entryAt? after.here = some .directory := by
  rw [adds.here]
  rcases adds.entry_cases before.here with ⟨file, _, writable, same, _⟩ | ⟨none, _⟩ | entry
  · exact absurd (same ▸ home) writable.free
  · cases none.symm.trans home
  · rw [entry, home]

theorem Adds.congr (adds : before.Adds written between) (nothing : between.Adds [] after) :
    before.Adds written after := by
  have entry (route : Route) : after.entryAt? route = between.entryAt? route :=
    nothing.rest route nofun (.inr nofun)
  refine ⟨nothing.here.trans adds.here, ?_, ?_, ?_⟩
  all_goals
    simp only [entry]
  · exact adds.text
  · exact adds.directory
  · exact adds.rest

theorem Adds.isFileAt (compatible : before.Compatible ((path, text) :: written))
    (adds : before.Adds written after) {route : Route} (mem : route ∈ before.passage path) :
    after.isFileAt route = before.isFileAt route := by
  rcases adds.entry_cases route with ⟨file, written, writable, rfl, _⟩ | ⟨none, _, entry⟩ | entry
  · have apart := compatible.apart file (List.mem_cons_of_mem _ written) writable (path, text)
      List.mem_cons_self
    exact absurd mem apart
  · rw [Files.isFileAt, entry, Files.isFileAt, none]
  · rw [Files.isFileAt, entry, Files.isFileAt]

theorem Adds.trail (compatible : before.Compatible ((path, text) :: written))
    (adds : before.Adds written after) :
    after.trail (after.start path) (segments path).dropLast =
      before.trail (before.start path) (segments path).dropLast := by
  rw [adds.start]
  refine trail_congr ((segments path).getLast (segments_ne_nil path)) fun route mem => ?_
  rw [List.dropLast_append_getLast] at mem
  exact adds.isFileAt compatible mem

theorem Adds.isMade_iff (compatible : before.Compatible ((path, text) :: written))
    (adds : before.Adds written after) {route : Route} :
    after.IsMade path route ↔ before.IsMade path route := by
  constructor
  · rintro ⟨usable, stop⟩
    exact ⟨usable, adds.trail compatible ▸ stop⟩
  · rintro ⟨usable, stop⟩
    exact ⟨usable, (adds.trail compatible).symm ▸ stop⟩

theorem Adds.isWritable_iff (compatible : before.Compatible ((path, text) :: written))
    (adds : before.Adds written after) : after.IsWritable path ↔ before.IsWritable path := by
  have trail := adds.trail compatible
  have place := adds.destination path
  constructor
  · intro writable
    refine ⟨writable.usable, trail ▸ writable.clear, writable.short, fun directory => ?_, ?_⟩
    · rcases adds.entry_cases (before.destination path) with
        ⟨file, _, other, same, _⟩ | ⟨none, _⟩ | entry
      · exact other.free (same ▸ directory)
      · cases none.symm.trans directory
      · exact writable.free (place ▸ entry.trans directory)
    · rw [← trail, ← place]
      exact writable.apart
  · intro writable
    refine ⟨writable.usable, trail ▸ writable.clear, writable.short, fun directory => ?_, ?_⟩
    · rw [place] at directory
      rcases adds.entry_cases (before.destination path) with
        ⟨_, _, _, _, entry⟩ | ⟨_, ⟨file, mem, made⟩, _⟩ | entry
      · cases entry.symm.trans directory
      · exact compatible.apart _ List.mem_cons_self writable file (List.mem_cons_of_mem _ mem)
          made.mem_passage
      · exact writable.free (entry.symm.trans directory)
    · rw [trail, place]
      exact writable.apart

/-- Writing one file leaves all else alone. -/
theorem Adds.entryAt?_of_other (one : before.Adds [(path, text)] after) {route : Route}
    (other : before.IsWritable path → route ≠ before.destination path)
    (unmade : before.entryAt? route ≠ none ∨ ¬ before.IsMade path route) :
    after.entryAt? route = before.entryAt? route := by
  refine one.rest route ?_ (unmade.imp_right ?_)
  · intro file mem
    rw [List.mem_singleton.mp mem]
    exact other
  · intro unmade file mem
    rw [List.mem_singleton.mp mem]
    exact unmade

section

variable (compatible : before.Compatible ((path, text) :: written))
  (adds : before.Adds written between) (one : between.Adds [(path, text)] after)

include compatible adds one

theorem Adds.entryAt?_cons_of_ne {route : Route}
    (other : before.IsWritable path → route ≠ before.destination path)
    (unmade : between.entryAt? route ≠ none ∨ ¬ before.IsMade path route) :
    after.entryAt? route = between.entryAt? route := by
  rw [← adds.isWritable_iff compatible, ← adds.destination path] at other
  rw [← adds.isMade_iff compatible] at unmade
  exact one.entryAt?_of_other other unmade

theorem Adds.text_cons {file : String × String} (mem : file ∈ (path, text) :: written)
    (writable : before.IsWritable file.1) : after.entryAt? (before.destination file.1) =
      some (.file file.2 (before.isExecutableAt (before.destination file.1))) := by
  by_cases again : before.IsWritable path ∧ before.destination file.1 = before.destination path
  · have texts : file.2 = text :=
      compatible.same file mem writable (path, text) List.mem_cons_self again.1 again.2
    have entry := one.text (path, text) (List.mem_singleton_self _)
      ((adds.isWritable_iff compatible).mpr again.1)
    rw [adds.destination, adds.isExecutableAt] at entry
    rw [again.2, texts]
    exact entry
  · have early : file ∈ written := by
      cases mem with
      | head => exact (again ⟨writable, rfl⟩).elim
      | tail _ mem => exact mem
    have entry := adds.text file early writable
    rw [adds.entryAt?_cons_of_ne compatible one ?_ (.inl (by rw [entry]; nofun)), entry]
    exact fun isWritable same => again ⟨isWritable, same⟩

theorem Adds.directory_cons {route : Route} (none : before.entryAt? route = none)
    {file : String × String} (mem : file ∈ (path, text) :: written)
    (made : before.IsMade file.1 route) : after.entryAt? route = some .directory := by
  have noFile : ∀ other ∈ (path, text) :: written, before.IsWritable other.1 →
      route ≠ before.destination other.1 := by
    rintro other otherMem writable rfl
    exact compatible.apart other otherMem writable file mem made.mem_passage
  by_cases early : ∃ file ∈ written, before.IsMade file.1 route
  · have entry := adds.directory route none early
    rw [adds.entryAt?_cons_of_ne compatible one (noFile _ List.mem_cons_self)
      (.inl (by rw [entry]; nofun)), entry]
  · have last : before.IsMade path route := by
      cases mem with
      | head => exact made
      | tail _ mem => exact (early ⟨file, mem, made⟩).elim
    refine one.directory route ?_
      ⟨_, List.mem_singleton_self _, (adds.isMade_iff compatible).mpr last⟩
    rw [adds.rest route (fun other mem => noFile other (List.mem_cons_of_mem _ mem))
      (.inr fun file mem made => early ⟨file, mem, made⟩), none]

/-- One more file is written after the others. -/
theorem Adds.cons : before.Adds ((path, text) :: written) after where
  here := one.here.trans adds.here
  text _ mem writable := adds.text_cons compatible one mem writable
  directory route none := fun ⟨_, mem, made⟩ => adds.directory_cons compatible one none mem made
  rest route noFile unmade := by
    have old : between.entryAt? route = before.entryAt? route :=
      adds.rest route (fun other mem => noFile other (List.mem_cons_of_mem _ mem))
        (unmade.imp_right fun unmade other mem => unmade other (List.mem_cons_of_mem _ mem))
    rw [adds.entryAt?_cons_of_ne compatible one (noFile _ List.mem_cons_self) ?_, old]
    rw [old]
    exact unmade.imp_right fun unmade => unmade _ List.mem_cons_self

end

theorem Adds.entryAt?_eq {others : List (String × String)} {result : Files}
    (adds : before.Adds written after) (again : before.Adds others result)
    (same : ∀ file, file ∈ others ↔ file ∈ written) (route : Route) :
    result.entryAt? route = after.entryAt? route := by
  rcases adds.entry_cases route with
    ⟨file, mem, writable, rfl, entry⟩ | ⟨none, ⟨file, mem, made⟩, entry⟩ | entry
  · rw [entry, again.text file ((same file).mpr mem) writable]
  · rw [entry, again.directory route none ⟨file, (same file).mpr mem, made⟩]
  · rcases again.entry_cases route with
      ⟨file, mem, writable, rfl, other⟩ | ⟨none, ⟨file, mem, made⟩, other⟩ | other
    · rw [other, adds.text file ((same file).mp mem) writable]
    · rw [other, adds.directory route none ⟨file, (same file).mp mem, made⟩]
    · rw [other, entry]

end

/-! ### Reading what is spared -/

/-- The entries are those of a tree, and relative paths start from a directory. -/
structure IsTree : Prop where
  home : files.entryAt? files.here = some .directory
  around : ∀ route entry, files.entryAt? route = some entry →
    ∀ outer, outer <+: route → outer ≠ route → files.entryAt? outer = some .directory

theorem isTree_of_entries (home : files.entryAt? files.here = some .directory)
    (around : ∀ found ∈ files.entries, ∀ n < found.1.length,
      files.entryAt? (found.1.take n) = some .directory) : files.IsTree := by
  refine ⟨home, ?_⟩
  intro route entry there outer inner other
  cases route with
  | nil => exact absurd (List.prefix_nil.mp inner) other
  | cons name rest =>
      obtain ⟨front, back, split, _⟩ := List.lookup_eq_some_iff.mp there
      have mem : (name :: rest, entry) ∈ files.entries := by simp [split]
      have shorter : outer.length < (name :: rest).length := by
        refine Nat.lt_of_le_of_ne inner.length_le fun same => ?_
        exact other (inner.eq_of_length same)
      rw [List.prefix_iff_eq_take.mp inner]
      exact around _ mem _ shorter

/-- Writing at the target changes neither what stands at the path nor the way there: only
directories on the straight way may come to be. -/
@[mk_iff]
structure Spares (path target : String) : Prop where
  other : files.IsWritable target → files.destination path ≠ files.destination target
  firm : ∀ route ∈ files.passage path, files.IsMade target route →
    route <+: files.destination path ∨ (files.entryAt? route).isSome = true

instance decidableSpares (path target : String) : Decidable (files.Spares path target) :=
  decidable_of_iff' _ (spares_iff files path target)

section

variable {before after : Files} {written : List (String × String)} {path : String}

/-- Files are read as before where the files that were written spare them. -/
theorem Adds.find?_file_iff (tree : before.IsTree) (adds : before.Adds written after)
    (spares : ∀ file ∈ written, before.Spares path file.1) {text : String} {executable : Bool} :
    after.find? path = some (.file text executable) ↔
      before.find? path = some (.file text executable) := by
  rw [find?_eq_some_iff, find?_eq_some_iff, adds.destination]
  constructor
  · rintro ⟨reaches, entry⟩
    have old : before.entryAt? (before.destination path) = some (.file text executable) := by
      rcases adds.entry_cases (before.destination path) with
        ⟨file, mem, writable, same, _⟩ | ⟨_, _, directory⟩ | same
      · exact absurd same ((spares file mem).other writable)
      · cases directory.symm.trans entry
      · rw [← same, entry]
    refine ⟨⟨reaches.usable, ?_, reaches.short⟩, old⟩
    intro route mem
    have directory := reaches.passes route (adds.passage path ▸ mem)
    rcases adds.entry_cases route with ⟨_, _, _, _, file⟩ | ⟨none, ⟨file, written, made⟩, _⟩ | same
    · cases file.symm.trans directory
    · rcases (spares file written).firm route mem made with inner | found
      · refine tree.around _ _ old route inner ?_
        rintro rfl
        cases none.symm.trans old
      · rw [none] at found
        cases found
    · rw [← same, directory]
  · rintro ⟨reaches, old⟩
    have entry : after.entryAt? (before.destination path) = some (.file text executable) := by
      rcases adds.entry_cases (before.destination path) with
        ⟨file, mem, writable, same, _⟩ | ⟨none, _⟩ | same
      · exact absurd same ((spares file mem).other writable)
      · cases none.symm.trans old
      · rw [same, old]
    refine ⟨⟨reaches.usable, ?_, reaches.short⟩, entry⟩
    intro route mem
    rw [adds.passage] at mem
    have directory := reaches.passes route mem
    rcases adds.entry_cases route with ⟨file, _, writable, same, _⟩ | ⟨none, _⟩ | same
    · exact absurd (same ▸ directory) writable.free
    · cases none.symm.trans directory
    · rw [same, directory]

theorem Adds.isFile (tree : before.IsTree) (adds : before.Adds written after)
    (spares : ∀ file ∈ written, before.Spares path file.1) :
    after.isFile path = before.isFile path := by
  rw [Bool.eq_iff_iff, isFile_iff, isFile_iff]
  simp only [adds.find?_file_iff tree spares]

theorem Adds.read_eq_ok_iff (tree : before.IsTree) (adds : before.Adds written after)
    (spares : ∀ file ∈ written, before.Spares path file.1) {text : String} :
    after.read path = .ok text ↔ before.read path = .ok text := by
  rw [Files.read_eq_ok_iff, Files.read_eq_ok_iff]
  simp only [adds.find?_file_iff tree spares]

end

end NodeWeave.Files

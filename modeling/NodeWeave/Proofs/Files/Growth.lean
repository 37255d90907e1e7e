import NodeWeave.Proofs.Files.Below

/-!
Files that only grow: directories stay, and where a file stands a file stands later on. What is
reached stays in reach. On a straight way, what cannot be found is not there.
-/

namespace NodeWeave.Files

open NodeWeave.Path Route

variable {before between after : Files} {written : List (String × String)} {path : String}

structure Grows (before after : Files) : Prop where
  here : after.here = before.here
  directory : ∀ {route : Route}, before.entryAt? route = some .directory →
    after.entryAt? route = some .directory
  file : ∀ {route : Route}, before.isFileAt route = true → after.isFileAt route = true

namespace Grows

theorem refl (files : Files) : files.Grows files :=
  ⟨rfl, id, id⟩

theorem trans (first : before.Grows between) (second : between.Grows after) : before.Grows after :=
  ⟨second.here.trans first.here, second.directory ∘ first.directory, second.file ∘ first.file⟩

theorem isSome (grows : before.Grows after) {route : Route}
    (there : (before.entryAt? route).isSome) : (after.entryAt? route).isSome := by
  cases entry : before.entryAt? route with
  | none => simp [entry] at there
  | some found =>
      cases found with
      | directory => simp [grows.directory entry]
      | file text executable =>
          have stays : after.isFileAt route = true := grows.file (by simp [isFileAt, entry])
          rw [isFileAt] at stays
          split at stays
          · next there => simp [there]
          · cases stays

theorem start (grows : before.Grows after) (path : String) :
    after.start path = before.start path := by
  rw [Files.start, Files.start, grows.here]

theorem reaches (grows : before.Grows after) (reaches : before.Reaches path) :
    after.Reaches path := by
  refine ⟨reaches.usable, fun route mem => grows.directory (reaches.passes route ?_), reaches.short⟩
  rwa [passage, grows.start] at mem

theorem isSome_find? (grows : before.Grows after) (there : (before.find? path).isSome) :
    (after.find? path).isSome := by
  obtain ⟨entry, found⟩ := Option.isSome_iff_exists.mp there
  obtain ⟨reaches, entry_eq⟩ := before.find?_eq_some_iff.mp found
  have stays : (after.entryAt? (before.destination path)).isSome :=
    grows.isSome (by simp [entry_eq])
  obtain ⟨later, later_eq⟩ := Option.isSome_iff_exists.mp stays
  refine Option.isSome_iff_exists.mpr
    ⟨later, after.find?_eq_some_iff.mpr ⟨grows.reaches reaches, ?_⟩⟩
  rwa [destination, grows.start, ← destination]

theorem isFile_iff_isFileAt {files : Files} : files.isFile path = true ↔
    files.Reaches path ∧ files.isFileAt (files.destination path) = true := by
  simp only [isFile_iff, find?_eq_some_iff, isFileAt]
  constructor
  · rintro ⟨text, executable, reaches, entry⟩
    simp [reaches, entry]
  · rintro ⟨reaches, there⟩
    split at there
    · next text executable entry => exact ⟨text, executable, reaches, entry⟩
    · cases there

theorem isFile (grows : before.Grows after) (there : before.isFile path = true) :
    after.isFile path = true := by
  rw [isFile_iff_isFileAt] at there ⊢
  rw [destination, grows.start, ← destination]
  exact ⟨grows.reaches there.1, grows.file there.2⟩

end Grows

theorem Adds.grows (adds : before.Adds written after) : before.Grows after where
  here := adds.here
  directory {route} directory := by
    rcases adds.entry_cases route with ⟨_, _, writable, rfl, _⟩ | ⟨none, _⟩ | same
    · exact absurd directory writable.free
    · cases none.symm.trans directory
    · rw [same, directory]
  file {route} file := by
    rcases adds.entry_cases route with ⟨_, _, _, _, entry⟩ | ⟨none, _⟩ | same
    · simp [Files.isFileAt, entry]
    · simp [Files.isFileAt, none] at file
    · rwa [Files.isFileAt, same, ← Files.isFileAt]

theorem Adds.of_mem_iff {others : List (String × String)} (adds : before.Adds written after)
    (same : ∀ file, file ∈ others ↔ file ∈ written) : before.Adds others after := by
  obtain ⟨here, text, directory, rest⟩ := adds
  simp only [← same] at text directory rest
  exact ⟨here, text, directory, rest⟩

theorem Adds.find?_of_writable {last text : String} {names : List String}
    (home : before.entryAt? before.here = some .directory) (cut : segments path = names ++ [last])
    (adds : before.Adds written after) (mem : (path, text) ∈ written)
    (writable : before.IsWritable path) :
    after.find? path = some (.file text (before.isExecutableAt (before.destination path))) := by
  have dirs : (segments path).dropLast = names := by rw [cut, List.dropLast_concat]
  rw [find?_eq_some_iff, adds.destination]
  refine ⟨⟨writable.usable, fun route passed => ?_, writable.short⟩,
    adds.text (path, text) mem writable⟩
  have clear := writable.clear
  rw [adds.passage, Files.passage, cut] at passed
  rw [dirs] at clear
  rcases before.mem_stops_of_isClear clear passed with rfl | stop
  · exact adds.grows.directory (before.start_directory home path)
  · rcases before.isFileAt_eq_false_iff.mp (before.not_isFileAt_of_mem_stops stop) with none | there
    · refine adds.directory route none ⟨_, mem, fun some => ?_, dirs ▸ stop⟩
      rw [dirs] at some ⊢
      exact isUsable_parent cut writable.usable some
    · exact adds.grows.directory there

/-! ### Straight ways -/

/-- The way of a path does not turn back from a directory that is missing. -/
@[mk_iff]
structure Straight (files : Files) (path : String) : Prop where
  firm : ∀ route ∈ files.passage path,
    route <+: files.destination path ∨ (files.entryAt? route).isSome = true

instance decidableStraight (files : Files) (path : String) : Decidable (files.Straight path) :=
  decidable_of_iff' _ (straight_iff files path)

/-- Below a straight way, nothing stands where a file can be written and nothing is found. -/
theorem Straight.entryAt?_eq_none {base : String} {way : Route} (straight : before.Straight base)
    (tree : before.IsTree) (grows : before.Grows between) (leads : IsWay way)
    (missing : between.find? (below base way) = none)
    (writable : between.IsWritable (below base way)) :
    before.entryAt? (before.destination (below base way)) = none := by
  by_contra there
  obtain ⟨entry, found⟩ := Option.ne_none_iff_exists'.mp there
  have cut := segments_below_concat leads base
  have around : ∀ {outer : Route}, outer <+: before.destination (below base way) →
      outer ≠ before.destination (below base way) → between.entryAt? outer = some .directory :=
    fun inner other => grows.directory (tree.around _ entry found _ inner other)
  have passes : ∀ route ∈ between.passage (below base way),
      between.entryAt? route = some .directory := by
    intro route mem
    have clear := writable.clear
    rw [cut, List.dropLast_concat] at clear
    have old : route ∈ before.passage (below base way) := by
      rwa [passage, grows.start] at mem
    rw [before.destination_below leads] at around
    have shorter : ∀ {outer : Route}, outer <+: before.destination base →
        outer ≠ before.destination base ++ way := by
      rintro _ inner rfl
      have short := inner.length_le
      have := List.length_pos_iff.mpr leads.some
      rw [List.length_append] at short
      omega
    rcases before.mem_passage_below leads base old with outer | ⟨front, inner, rfl⟩
    · rcases straight.firm route (before.mem_passage_of_within outer) with ahead | there
      · exact around (ahead.trans (List.prefix_append _ _)) (shorter ahead)
      · -- What is there can only be a directory, as a file could not be written behind it.
        have stays := grows.isSome there
        rw [passage, cut] at mem
        rcases between.mem_stops_of_isClear clear mem with rfl | stop
        · rw [grows.start]
          exact grows.directory (before.start_directory tree.home _)
        · rcases between.isFileAt_eq_false_iff.mp (between.not_isFileAt_of_mem_stops stop) with
            none | directory
          · simp [none] at stays
          · exact directory
    · refine around ((List.prefix_append_right_inj _).mpr
        (inner.trans (List.dropLast_prefix way))) ?_
      intro same
      rw [List.append_cancel_left_eq] at same
      have short := inner.length_le
      have := List.length_pos_iff.mpr leads.some
      rw [same, List.length_dropLast] at short
      omega
  have stays : (between.entryAt? (before.destination (below base way))).isSome :=
    grows.isSome (by simp [found])
  obtain ⟨later, later_eq⟩ := Option.isSome_iff_exists.mp stays
  have reached : between.find? (below base way) = some later := by
    refine between.find?_eq_some_iff.mpr ⟨⟨writable.usable, passes, writable.short⟩, ?_⟩
    rwa [destination, grows.start, ← destination]
  rw [missing] at reached
  cases reached

end NodeWeave.Files

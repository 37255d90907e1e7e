import NodeWeave.Proofs.Files.Directories

/-!
Writing a file together with its directories: what is added to the files, and whether the file can
be written.
-/

namespace NodeWeave.Files

open NodeWeave.Path Route

variable (files : Files)

def isExecutableAt (route : Route) : Bool :=
  match files.entryAt? route with
  | some (.file _ executable) => executable
  | _ => false

/-! ### Writing one file -/

/-- A directory comes to be at the route, if nothing is there, where a file is written at the
path. -/
@[mk_iff]
structure IsMade (path : String) (route : Route) : Prop where
  usable : ofSegments (core (segments path).dropLast) ≠ "" →
    IsUsable (ofSegments (core (segments path).dropLast))
  stop : route ∈ (files.trail (files.start path) (segments path).dropLast).stops

/-- A file can be written at the path, once the directories are made for it. -/
@[mk_iff]
structure IsWritable (path : String) : Prop where
  usable : IsUsable path
  clear : (files.trail (files.start path) (segments path).dropLast).isClear = true
  short : ∀ name ∈ segments path, name.utf8ByteSize ≤ maxNameLength
  free : files.entryAt? (files.destination path) ≠ some .directory
  apart : files.destination path ∉ (files.trail (files.start path) (segments path).dropLast).stops

instance decidableIsMade (path : String) (route : Route) : Decidable (files.IsMade path route) :=
  decidable_of_iff' _ (isMade_iff files path route)

instance decidableIsWritable (path : String) : Decidable (files.IsWritable path) :=
  decidable_of_iff' _ (isWritable_iff files path)

/-- The later files are the earlier ones with files written, each a path and a text. -/
structure Adds (before : Files) (written : List (String × String)) (after : Files) : Prop where
  here : after.here = before.here
  text : ∀ file ∈ written, before.IsWritable file.1 →
    after.entryAt? (before.destination file.1) =
      some (.file file.2 (before.isExecutableAt (before.destination file.1)))
  directory : ∀ route, before.entryAt? route = none →
    (∃ file ∈ written, before.IsMade file.1 route) → after.entryAt? route = some .directory
  rest : ∀ route,
    (∀ file ∈ written, before.IsWritable file.1 → route ≠ before.destination file.1) →
    (before.entryAt? route ≠ none ∨ ∀ file ∈ written, ¬ before.IsMade file.1 route) →
    after.entryAt? route = before.entryAt? route

section

variable {files : Files} {path last : String} {names : List String}

theorem write_eq (cut : segments path = names ++ [last]) (named : last ≠ "") (text : String) :
    files.write path text = (files.route path).bind fun route =>
      match files.entryAt? route with
      | some .directory => .error .isADirectory
      | some (.file _ executable) => .ok (files.put route (.file text executable))
      | none => .ok (files.put route (.file text false)) := by
  have noEnd := getLast?_ne_slash cut named
  rw [← files.parentRoute_follow cut named, write]
  cases files.parentRoute path with
  | error problem => rfl
  | ok found =>
      obtain ⟨parent, name⟩ := found
      simp only [noEnd]
      rfl

theorem write_eq_ok_iff (cut : segments path = names ++ [last]) (named : last ≠ "") {text : String}
    {after : Files} : files.write path text = .ok after ↔
      files.Reaches path ∧ files.entryAt? (files.destination path) ≠ some .directory ∧
        after = files.put (files.destination path)
          (.file text (files.isExecutableAt (files.destination path))) := by
  rw [write_eq cut named]
  constructor
  · intro ran
    obtain ⟨route, walked, ran⟩ := exists_of_bind_eq_ok ran
    obtain ⟨reaches, rfl⟩ := files.route_eq_ok_iff.mp walked
    refine ⟨reaches, ?_⟩
    rw [isExecutableAt]
    split at ran
    · cases ran
    · next entry =>
        cases ran
        simp [entry]
    · next entry =>
        cases ran
        simp [entry]
  · rintro ⟨reaches, other, rfl⟩
    rw [files.route_eq_ok_iff.mpr ⟨reaches, rfl⟩, isExecutableAt]
    simp only [Except.bind]
    split
    · next entry => exact absurd entry other
    · next entry => simp [entry]
    · next entry => simp [entry]

theorem run_writeWithParents (tools : Toolbox) (text : String) {parent : String}
    (around : parent? path = some parent) :
    (Work.writeWithParents path text).run tools files =
      match files.makeDirectories parent with
      | (between, .error problem) => ⟨.error (.io parent problem.message), between, []⟩
      | (between, .ok ()) =>
          match between.write path text with
          | .error problem => ⟨.error (.io path problem.message), between, []⟩
          | .ok after => ⟨.ok (), after, []⟩ := by
  rw [Work.writeWithParents, Work.bind_eq, Work.run_bind, Work.makeParents, around]
  simp only [Work.run]
  cases files.makeDirectories parent with
  | mk between result =>
      cases result with
      | error problem => rfl
      | ok _ =>
          simp only [Work.run, Work.writeFile]
          cases between.write path text <;> rfl

/-- With the directories made, what remains to be seen is whether a directory is in the place. -/
theorem Fills.isWritable_iff {between : Files} (cut : segments path = names ++ [last])
    (named : last ≠ "") (home : files.entryAt? (files.start path) = some .directory)
    (fills : Fills files (files.trail (files.start path) names).stops between)
    (clear : (files.trail (files.start path) names).isClear = true) (text : String) :
    files.IsWritable path ↔ ∃ after, between.write path text = .ok after := by
  have dirs : (segments path).dropLast = names := by rw [cut, List.dropLast_concat]
  have start : between.destination path = files.destination path := by
    rw [destination, fills.start, destination]
  simp only [write_eq_ok_iff cut named, start]
  constructor
  · intro writable
    refine ⟨_, ⟨writable.usable, fills.passes cut home clear, writable.short⟩, ?_, rfl⟩
    have apart := writable.apart
    rw [dirs] at apart
    rw [fills.entry, if_neg (fun made => apart made.2)]
    exact writable.free
  · rintro ⟨after, reaches, free, _⟩
    refine ⟨reaches.usable, by rwa [dirs], reaches.short, ?_, ?_⟩
    · exact fun directory => free (fills.directory directory)
    · rw [dirs]
      exact fun mem => free (fills.directory_of_mem mem (files.not_isFileAt_of_mem_stops mem))

/-- Where no file is written, directories are all that is added. -/
theorem Fills.adds {after : Files}
    (fills : Fills files (files.trail (files.start path) (segments path).dropLast).stops after)
    (usable : ofSegments (core (segments path).dropLast) ≠ "" →
      IsUsable (ofSegments (core (segments path).dropLast)))
    (unwritable : ¬ files.IsWritable path) (text : String) : files.Adds [(path, text)] after := by
  refine ⟨fills.here, ?_, ?_, ?_⟩
  · intro file mem writable
    rw [List.mem_singleton.mp mem] at writable
    exact absurd writable unwritable
  · rintro route none ⟨file, mem, made⟩
    rw [List.mem_singleton.mp mem] at made
    rw [fills.entry, if_pos ⟨none, made.stop⟩]
  · intro route _ unmade
    rw [fills.entry, if_neg]
    rintro ⟨none, mem⟩
    cases unmade with
    | inl found => exact found none
    | inr unmade => exact unmade _ (List.mem_singleton_self _) ⟨usable, mem⟩

theorem destination_ne_nil (cut : segments path = names ++ [last]) (solid : isFiller last = false)
    (down : last ≠ "..") : files.destination path ≠ [] := by
  rw [destination, cut, lead_append, lead_cons, lead_nil, step_eq_append _ solid down]
  simp

/-- A file that is written stands where no directory is made. -/
theorem Fills.adds_put {between : Files} (cut : segments path = names ++ [last])
    (solid : isFiller last = false) (down : last ≠ "..")
    (fills : Fills files (files.trail (files.start path) (segments path).dropLast).stops between)
    (writable : files.IsWritable path) (text : String) :
    files.Adds [(path, text)] (between.put (files.destination path)
      (.file text (between.isExecutableAt (files.destination path)))) := by
  have inner : files.destination path ≠ [] := destination_ne_nil cut solid down
  refine ⟨fills.here, ?_, ?_, ?_⟩
  · intro file mem _
    rw [List.mem_singleton.mp mem, between.entryAt?_put_self inner, isExecutableAt, fills.entry,
      if_neg (fun made => writable.apart made.2), isExecutableAt]
  · rintro route none ⟨file, mem, made⟩
    rw [List.mem_singleton.mp mem] at made
    have other : route ≠ files.destination path := by
      rintro rfl
      exact writable.apart made.stop
    rw [between.entryAt?_put_of_ne other, fills.entry, if_pos ⟨none, made.stop⟩]
  · intro route other unmade
    rw [between.entryAt?_put_of_ne (other _ (List.mem_singleton_self _) writable), fills.entry,
      if_neg]
    rintro ⟨none, mem⟩
    cases unmade with
    | inl found => exact found none
    | inr unmade =>
        refine unmade _ (List.mem_singleton_self _) ⟨fun some => ?_, mem⟩
        rw [cut, List.dropLast_concat] at some ⊢
        exact isUsable_parent cut writable.usable some

/-- Writing a file with its directories adds what can be added. -/
theorem adds_writeWithParents (home : files.entryAt? files.here = some .directory)
    (cut : segments path = names ++ [last]) (solid : isFiller last = false) (down : last ≠ "..")
    (tools : Toolbox) (text : String) :
    files.Adds [(path, text)] ((Work.writeWithParents path text).run tools files).files ∧
      (((Work.writeWithParents path text).run tools files).value = .ok () ↔
        files.IsWritable path) := by
  have named : last ≠ "" := by
    rintro rfl
    cases solid
  have dirs : (segments path).dropLast = names := by rw [cut, List.dropLast_concat]
  have start := files.start_directory home path
  rw [run_writeWithParents tools text (parent?_eq cut (core_concat names solid) named)]
  by_cases usable : ofSegments (core names) ≠ "" → IsUsable (ofSegments (core names))
  · have makes := files.makes_makeDirectories home cut usable
    cases made : files.makeDirectories (ofSegments (core names)) with
    | mk between result =>
        rw [made] at makes
        obtain ⟨fills, okay⟩ := makes
        cases result with
        | error problem =>
            have unwritable : ¬ files.IsWritable path := by
              intro writable
              have clear := writable.clear
              rw [dirs, ← okay] at clear
              cases clear
            refine ⟨Fills.adds ?_ ?_ unwritable text, ?_⟩
            · rwa [dirs]
            · rwa [dirs]
            · simpa using unwritable
        | ok _ =>
            have writable := fills.isWritable_iff cut named start (okay.mp rfl) text
            dsimp only at fills writable ⊢
            cases wrote : between.write path text with
            | error problem =>
                have unwritable : ¬ files.IsWritable path := by
                  rw [writable, wrote]
                  nofun
                refine ⟨Fills.adds ?_ ?_ unwritable text, ?_⟩
                · rwa [dirs]
                · rwa [dirs]
                · simpa using unwritable
            | ok after =>
                have writable := writable.mpr ⟨after, wrote⟩
                refine ⟨?_, by simpa using writable⟩
                obtain ⟨_, _, same⟩ := (write_eq_ok_iff cut named).mp wrote
                dsimp only
                rw [same, destination, fills.start, ← destination]
                refine Fills.adds_put cut solid down ?_ writable text
                rwa [dirs]
  · obtain ⟨some, unusable⟩ := Classical.not_imp.mp usable
    obtain ⟨problem, made⟩ := files.makeDirectories_unusable some unusable
    have unwritable : ¬ files.IsWritable path :=
      fun writable => unusable (isUsable_parent cut writable.usable some)
    rw [made]
    refine ⟨⟨rfl, ?_, ?_, ?_⟩, by simpa using unwritable⟩
    · intro file mem writable
      rw [List.mem_singleton.mp mem] at writable
      exact absurd writable unwritable
    · rintro route _ ⟨file, mem, made⟩
      rw [List.mem_singleton.mp mem] at made
      exact absurd (dirs ▸ made.usable (dirs ▸ some)) unusable
    · intro route _ _
      rfl

end

end NodeWeave.Files

import NodeWeave.Proofs.Files.Additions

/-!
Ways that lead down from a base. What stands at the end of a way below a base is below what the base
leads to, and one file is in the way of another one only if its way is part of the way there.
-/

namespace NodeWeave

open NodeWeave.Path Files

namespace Route

/-- Names that are neither fillers nor lead up. -/
def GoDown (names : List String) : Prop :=
  ∀ name ∈ names, isFiller name = false ∧ name ≠ ".."

theorem lead_of_goDown (route : Route) {names : List String} (down : GoDown names) :
    lead route names = route ++ names := by
  induction names generalizing route with
  | nil => simp
  | cons name rest ih =>
      obtain ⟨⟨solid, notUp⟩, rest⟩ := List.forall_mem_cons.mp down
      rw [lead_cons, step_eq_append route solid notUp, ih _ rest]
      simp

theorem exists_of_mem_entered {route passed : Route} {names : List String} (down : GoDown names)
    {last : String} (mem : passed ∈ entered route (names ++ [last])) :
    ∃ front, front <+: names ∧ passed = route ++ front := by
  induction names generalizing route with
  | nil => exact ⟨[], List.nil_prefix, by simpa using mem⟩
  | cons name rest ih =>
      obtain ⟨⟨solid, notUp⟩, rest⟩ := List.forall_mem_cons.mp down
      rw [List.cons_append, entered_cons, step_eq_append route solid notUp] at mem
      cases mem with
      | head => exact ⟨[], List.nil_prefix, by simp⟩
      | tail _ mem =>
          obtain ⟨front, inner, rfl⟩ := ih rest mem
          exact ⟨name :: front, List.cons_prefix_cons.mpr ⟨rfl, inner⟩, by simp⟩

instance decidableGoDown (names : List String) : Decidable (GoDown names) :=
  inferInstanceAs (Decidable (∀ name ∈ names, isFiller name = false ∧ name ≠ ".."))

/-- A way down to something that is named. -/
@[mk_iff]
structure IsWay (way : Route) : Prop where
  some : way ≠ []
  down : GoDown way
  slashFree : ∀ name ∈ way, '/' ∉ name.toList

instance decidableIsWay (way : Route) : Decidable (IsWay way) :=
  decidable_of_iff' _ (isWay_iff way)

theorem IsWay.dropLast_append {way : Route} (leads : IsWay way) :
    way.dropLast ++ [way.getLast leads.some] = way :=
  List.dropLast_append_getLast leads.some

theorem IsWay.isAbsolute {way : Route} (leads : IsWay way) :
    isAbsolute (Text.join "/" way) = false := by
  obtain ⟨some, down, slashFree⟩ := leads
  obtain ⟨first, rest, rfl⟩ := List.exists_cons_of_ne_nil some
  cases rest with
  | nil => exact isAbsolute_eq_false (slashFree first List.mem_cons_self)
  | cons next rest =>
      have named : first ≠ "" := by
        rintro rfl
        cases (down "" List.mem_cons_self).1
      rw [isAbsolute_join (slashFree first List.mem_cons_self) (by simp), beq_false_of_ne named]

theorem IsWay.join_injective {way other : Route} (leads : IsWay way) (leadsOther : IsWay other)
    (same : Text.join "/" way = Text.join "/" other) : way = other := by
  rw [← segments_join leads.slashFree leads.some, same,
    segments_join leadsOther.slashFree leadsOther.some]

end Route

open Route

namespace Path

def below (base : String) (way : Route) : String :=
  join base (Text.join "/" way)

theorem segments_below {way : Route} (leads : IsWay way) (base : String) :
    segments (below base way) = within base ++ way := by
  rw [below, segments_pathJoin leads.isAbsolute, segments_join leads.slashFree leads.some]

theorem segments_below_concat {way : Route} (leads : IsWay way) (base : String) :
    segments (below base way) = (within base ++ way.dropLast) ++ [way.getLast leads.some] := by
  rw [segments_below leads, List.append_assoc, leads.dropLast_append]

end Path

namespace Files

variable (files : Files)

theorem lead_within (base : String) : lead (files.start base) (within base) =
    files.destination base := by
  rw [destination]
  rcases segments_eq_within base with same | same
  · rw [same]
  · rw [same, lead_append, lead_cons, step_filler _ rfl, lead_nil]

theorem mem_passage_of_within {base : String} {route : Route}
    (mem : route ∈ entered (files.start base) (within base)) : route ∈ files.passage base := by
  rw [passage]
  rcases segments_eq_within base with same | same
  · rwa [same]
  · rw [same, entered_append]
    exact List.mem_append_left _ mem

section

variable {way other : Route} (leads : IsWay way) (leadsOther : IsWay other) (base : String)

include leads

theorem start_below : files.start (below base way) = files.start base := by
  rw [start, start, below, isAbsolute_pathJoin leads.isAbsolute]

theorem destination_below : files.destination (below base way) =
    files.destination base ++ way := by
  rw [destination, files.start_below leads, segments_below leads, lead_append, lead_within,
    lead_of_goDown _ leads.down]

/-- The way to what is below a base: the way to the base, and the directories from there on. -/
theorem mem_passage_below {route : Route} (mem : route ∈ files.passage (below base way)) :
    route ∈ entered (files.start base) (within base) ∨
      ∃ front, front <+: way.dropLast ∧ route = files.destination base ++ front := by
  rw [passage, files.start_below leads, segments_below leads, entered_append, lead_within,
    List.mem_append] at mem
  refine mem.imp_right fun mem => ?_
  rw [← leads.dropLast_append] at mem
  exact exists_of_mem_entered (fun name mem => leads.down name (List.dropLast_subset _ mem)) mem

include leadsOther

/-- A file is in the way of another one only if its way is part of the way there. -/
theorem destination_below_not_mem_passage {files : Files} {base : String}
    (home : files.entryAt? files.here = some .directory)
    (writable : files.IsWritable (below base way)) (apart : ¬ way <+: other.dropLast) :
    files.destination (below base way) ∉ files.passage (below base other) := by
  intro mem
  rcases files.mem_passage_below leadsOther base mem with outer | ⟨front, inner, same⟩
  · have cut := segments_below_concat leads base
    have own : files.destination (below base way) ∈
        entered (files.start (below base way))
          ((within base ++ way.dropLast) ++ [way.getLast leads.some]) := by
      rw [files.start_below leads, List.append_assoc, entered_append]
      exact List.mem_append_left _ outer
    have clear := writable.clear
    have apart := writable.apart
    rw [cut, List.dropLast_concat] at clear apart
    rcases files.mem_stops_of_isClear clear own with start | stop
    · exact writable.free (start ▸ files.start_directory home _)
    · exact apart stop
  · rw [files.destination_below leads, List.append_cancel_left_eq] at same
    exact apart (same ▸ inner)

theorem eq_of_destination_below_eq {base : String}
    (same : files.destination (below base way) = files.destination (below base other)) :
    way = other := by
  rw [files.destination_below leads, files.destination_below leadsOther,
    List.append_cancel_left_eq] at same
  exact same

end

end Files

end NodeWeave

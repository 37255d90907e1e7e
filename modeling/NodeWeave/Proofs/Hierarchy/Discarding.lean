import NodeWeave.Proofs.Hierarchy.Ancestry
import NodeWeave.Proofs.Hierarchy.Changes

/-!
What giving up nodes in favour of a kept one does to the shape of a tree. Main statement: a node is
lost only if it is given up itself, or if one above it is that does not stand above the kept one.
-/

namespace NodeWeave.Hierarchy

namespace Shape

/-- One node gives way to the kept one. The kept one takes the place of a node above it, and a node
that is not above it goes with all below. -/
inductive Discards (kept id : Nat) : Shape → Shape → Prop where
  | replace {inner outer : List Frame} {before after own : List Shape} {shape changed : Shape}
      (apart : plug outer [.node id (before ++ plug inner [.node kept own] ++ after)] = [shape])
      (put : plug outer [.node kept (own ++ (before ++ plug inner [] ++ after))] = [changed]) :
      Discards kept id shape changed
  | drop {frame : Frame} {outer : List Frame} {below : List Shape} {shape changed : Shape}
      (away : kept ∉ (node id below).ids)
      (apart : plug (frame :: outer) [.node id below] = [shape])
      (put : plug (frame :: outer) [] = [changed]) :
      Discards kept id shape changed

variable {kept id : Nat} {shape changed : Shape}

namespace Discards

theorem mem_iff (discards : Discards kept id shape changed) (nodup : shape.ids.Nodup)
    {number : Nat} : number ∈ changed.ids ↔
      number ∈ shape.ids ∧ number ≠ id ∧ (Above id number shape → Above id kept shape) := by
  cases discards with
  | @replace inner outer front back own _ _ apart put =>
      have above : Above id kept shape := (above_iff_mem nodup apart).mpr (by simp [idsAll_plug])
      have ids := idsAll_plug outer [.node kept (own ++ (front ++ plug inner [] ++ back))]
      have old := idsAll_plug outer [.node id (front ++ plug inner [.node kept own] ++ back)]
      have distinct := nodup_of_plug nodup apart
      rw [put] at ids
      rw [apart] at old
      simp only [idsAll_cons, idsAll_nil, ids_node, List.append_nil, idsAll_append,
        idsAll_plug] at ids old distinct
      rw [ids, old]
      grind
  | @drop frame outer below _ _ away apart put =>
      have ids := idsAll_plug (frame :: outer) []
      have old := idsAll_plug (frame :: outer) [.node id below]
      have distinct := nodup_of_plug nodup apart
      rw [put] at ids
      rw [apart] at old
      simp only [idsAll_cons, idsAll_nil, ids_node, List.append_nil] at ids old distinct
      rw [ids_node, List.mem_cons, not_or] at away
      rw [above_iff_mem nodup apart, above_iff_mem nodup apart, ids, old]
      grind

/-- No number but the kept one comes to stand above another one. -/
theorem above (discards : Discards kept id shape changed) {upper lower : Nat}
    (stands : Above upper lower changed) : upper = kept ∨ Above upper lower shape := by
  cases discards with
  | @replace inner outer front back own _ _ apart put =>
      have filled (stands : AboveAll upper lower (plug inner []) ∨ AboveAll upper lower own) :
          AboveAll upper lower (plug inner [.node kept own]) := by
        rw [aboveAll_plug, aboveAll_singleton, above_node]
        tauto
      rw [← aboveAll_singleton, ← put, aboveAll_plug] at stands
      rw [← aboveAll_singleton, ← apart, aboveAll_plug]
      simp only [aboveAll_singleton, above_node, aboveAll_append, idsAll_append, idsAll_cons,
        ids_node, idsAll_nil, idsAll_plug, List.append_nil, List.mem_append,
        List.mem_cons] at stands ⊢
      grind
  | @drop frame outer below _ _ away apart put =>
      right
      rw [← aboveAll_singleton, ← apart, aboveAll_plug, put]
      exact .inl (aboveAll_singleton.mpr stands)

/-- What stands above a number stays above it, unless it stands between the two nodes. -/
theorem above_of_above (discards : Discards kept id shape changed) (nodup : shape.ids.Nodup)
    {upper lower : Nat} (ne : upper ≠ id) (notBelow : ¬ Above id upper shape)
    (left : lower ∈ changed.ids) (stands : Above upper lower shape) :
    Above upper lower changed := by
  have within := (discards.mem_iff nodup).mp left
  cases discards with
  | @replace inner outer front back own _ _ apart put =>
      have distinct := nodup_of_plug nodup apart
      rw [above_iff_mem nodup apart] at notBelow
      have ids := idsAll_plug outer [.node kept (own ++ (front ++ plug inner [] ++ back))]
      rw [put] at ids
      rw [← aboveAll_singleton, ← apart, aboveAll_plug] at stands
      rw [← aboveAll_singleton, ← put, aboveAll_plug]
      rcases stands with outside | ⟨frame, inside⟩ | under
      · exact .inl outside
      · refine .inr (.inl ⟨frame, ?_⟩)
        simp only [idsAll_cons, ids_node, idsAll_nil, List.append_nil,
          idsAll_append, idsAll_plug] at inside distinct ids ⊢
        grind
      · have := (aboveAll_singleton.mp under).mem_ids.1
        rw [ids_node, List.mem_cons] at this
        tauto
  | @drop frame outer below _ _ away apart put =>
      have distinct := nodup_of_plug nodup apart
      have ids := idsAll_plug (frame :: outer) []
      rw [put] at ids
      rw [← aboveAll_singleton, ← apart, aboveAll_plug, put] at stands
      rcases stands with outside | ⟨_, inside⟩ | under
      · exact aboveAll_singleton.mp outside
      · simp only [idsAll_cons, idsAll_nil, List.append_nil] at inside distinct ids
        grind
      · have := under.mem_ids.2
        simp only [idsAll_cons, idsAll_nil, List.append_nil] at this distinct ids
        grind

/-- A new link leads to the kept number from above the discarded one, or from the kept number to
what was right below the discarded one. -/
theorem linked (discards : Discards kept id shape changed) {upper lower : Nat}
    (links : Linked upper lower changed) : Linked upper lower shape ∨
      (lower = kept ∧ Linked upper id shape) ∨ (upper = kept ∧ Linked id lower shape) := by
  cases discards with
  | @replace inner outer front back own _ _ apart put =>
      have tops := @map_top_plug_nil_subset inner [.node kept own] lower
      have filled (links : LinkedAll upper lower (plug inner []) ∨
            Linked upper lower (.node kept own)) :
          LinkedAll upper lower (plug inner [.node kept own]) := by
        rw [linkedAll_plug, linkedAll_singleton]
        tauto
      rw [linked_node] at filled
      have ownLink (mem : lower ∈ own.map top) :
          LinkedAll kept lower (plug inner [.node kept own]) := by
        rw [linkedAll_plug, linkedAll_singleton, linked_node]
        exact .inr (.inr (.inl ⟨rfl, mem⟩))
      have old (above below : Nat) : Linked above below shape ↔
          LinkedAll above below (plug outer []) ∨ (Shape.above outer = some above ∧ below = id) ∨
            (above = id ∧ below ∈ (front ++ plug inner [.node kept own] ++ back).map top) ∨
              LinkedAll above below (front ++ plug inner [.node kept own] ++ back) := by
        rw [← linkedAll_singleton, ← apart, linkedAll_plug, linkedAll_singleton, linked_node,
          List.map_singleton, List.mem_singleton, top_node]
      rw [← linkedAll_singleton, ← put, linkedAll_plug, linkedAll_singleton, linked_node,
        List.map_singleton, List.mem_singleton, top_node] at links
      simp only [linkedAll_append, List.map_append, List.mem_append] at links old
      simp only [old]
      grind
  | @drop frame outer below _ _ away apart put =>
      left
      rw [← linkedAll_singleton, ← apart, linkedAll_plug, put]
      exact .inl (linkedAll_singleton.mpr links)

theorem top_eq (discards : Discards kept id shape changed) (ne : id ≠ shape.top) :
    changed.top = shape.top := by
  cases discards with
  | @replace inner outer front back own _ _ apart put =>
      cases outer with
      | nil =>
          cases apart
          exact absurd rfl ne
      | cons frame outer => exact (top_eq_of_plug apart put).symm
  | drop away apart put => exact (top_eq_of_plug apart put).symm

theorem nodup (discards : Discards kept id shape changed) (nodup : shape.ids.Nodup) :
    changed.ids.Nodup := by
  cases discards with
  | @replace inner outer front back own _ _ apart put =>
      have distinct := nodup_of_plug nodup apart
      have ids := idsAll_plug outer [.node kept (own ++ (front ++ plug inner [] ++ back))]
      rw [put] at ids
      simp only [idsAll_cons, idsAll_nil, List.append_nil] at ids
      have perm : (id :: changed.ids).Perm (leading outer ++
          idsAll [.node id (front ++ plug inner [.node kept own] ++ back)] ++
            trailing outer) := by
        refine List.perm_iff_count.mpr fun number => ?_
        simp [ids, idsAll_plug, List.count_cons]
        omega
      exact (List.nodup_cons.mp (perm.nodup_iff.mpr distinct)).2
  | @drop frame outer below _ _ away apart put =>
      have distinct := nodup_of_plug nodup apart
      have ids := idsAll_plug (frame :: outer) []
      rw [put] at ids
      simp only [idsAll_cons, idsAll_nil, List.append_nil] at ids
      rw [ids]
      exact distinct.sublist ((List.sublist_append_left _ _).append (.refl _))

end Discards

/-! ### Several nodes -/

/-- Nodes give way to the kept one, one after the other. -/
inductive DiscardsAll (kept : Nat) : List Nat → Shape → Shape → Prop where
  | nil {shape : Shape} : DiscardsAll kept [] shape shape
  | cons {id : Nat} {rest : List Nat} {shape next changed : Shape}
      (first : Discards kept id shape next) (others : DiscardsAll kept rest next changed) :
      DiscardsAll kept (id :: rest) shape changed

/-- Nodes of a shape beside the kept one, none of which stands above a later one. -/
structure AreDiscardable (kept : Nat) (discarded : List Nat) (shape : Shape) : Prop where
  kept_mem : kept ∈ shape.ids
  mem : ∀ id ∈ discarded, id ∈ shape.ids ∧ id ≠ kept
  innerFirst : discarded.Pairwise fun inner outer => inner ≠ outer ∧ ¬ Above inner outer shape

variable {rest discarded : List Nat} {next : Shape}

namespace AreDiscardable

theorem head (ready : AreDiscardable kept (id :: rest) shape) : id ∈ shape.ids ∧ id ≠ kept :=
  ready.mem id List.mem_cons_self

theorem tail (ready : AreDiscardable kept (id :: rest) shape) (nodup : shape.ids.Nodup)
    (first : Discards kept id shape next) : AreDiscardable kept rest next := by
  have inner := List.pairwise_cons.mp ready.innerFirst
  refine ⟨?_, ?_, ?_⟩
  · exact (first.mem_iff nodup).mpr ⟨ready.kept_mem, ready.head.2.symm, fun above => above⟩
  · intro other listed
    obtain ⟨found, ne⟩ := ready.mem other (List.mem_cons_of_mem _ listed)
    obtain ⟨differs, notAbove⟩ := inner.1 other listed
    exact ⟨(first.mem_iff nodup).mpr ⟨found, differs.symm, fun above => absurd above notAbove⟩, ne⟩
  · refine inner.2.imp_of_mem ?_
    intro lower upper listed _ apart
    refine ⟨apart.1, fun above => ?_⟩
    have ne := (ready.mem lower (List.mem_cons_of_mem _ listed)).2
    exact apart.2 ((first.above above).resolve_left ne)

end AreDiscardable

namespace DiscardsAll

theorem nodup (all : DiscardsAll kept discarded shape changed) (nodup : shape.ids.Nodup) :
    changed.ids.Nodup := by
  induction all with
  | nil => exact nodup
  | cons first _ ih => exact ih (first.nodup nodup)

theorem top_eq (all : DiscardsAll kept discarded shape changed) (noTop : shape.top ∉ discarded) :
    changed.top = shape.top := by
  induction all with
  | nil => rfl
  | cons first _ ih =>
      rw [List.mem_cons, not_or] at noTop
      have same := first.top_eq (Ne.symm noTop.1)
      rw [← same] at noTop ⊢
      exact ih noTop.2

theorem above (all : DiscardsAll kept discarded shape changed) {upper lower : Nat}
    (stands : Above upper lower changed) : upper = kept ∨ Above upper lower shape := by
  induction all with
  | nil => exact .inr stands
  | cons first _ ih => exact (ih stands).elim .inl first.above

/-- Where the numbers given up have the name of the kept one, the names of no link are new. -/
theorem linked {name : Nat → String} (all : DiscardsAll kept discarded shape changed)
    (same : ∀ id ∈ discarded, name id = name kept) {upper lower : Nat}
    (links : Linked upper lower changed) :
    ∃ above below, Linked above below shape ∧ name above = name upper ∧
      name below = name lower := by
  induction all with
  | nil => exact ⟨upper, lower, links, rfl, rfl⟩
  | cons first _ ih =>
      obtain ⟨above, below, inner, rfl_above, rfl_below⟩ :=
        ih (fun id listed => same id (List.mem_cons_of_mem _ listed)) links
      rw [← rfl_above, ← rfl_below]
      rcases first.linked inner with old | ⟨rfl, moved⟩ | ⟨rfl, inherited⟩
      · exact ⟨above, below, old, rfl, rfl⟩
      · exact ⟨above, _, moved, rfl, same _ List.mem_cons_self⟩
      · exact ⟨_, below, inherited, same _ List.mem_cons_self, rfl⟩

/-- A number is left if it is not given up and nothing above it is that does not stand above the
kept one. -/
theorem mem_iff (all : DiscardsAll kept discarded shape changed)
    (ready : AreDiscardable kept discarded shape) (nodup : shape.ids.Nodup) {number : Nat} :
    number ∈ changed.ids ↔ number ∈ shape.ids ∧ number ∉ discarded ∧
      ∀ id ∈ discarded, Above id number shape → Above id kept shape := by
  induction all with
  | nil => simp
  | @cons id rest shape next changed first others ih =>
      have readyNext := ready.tail nodup first
      have inner := List.pairwise_cons.mp ready.innerFirst
      have same {other lower : Nat} (listed : other ∈ rest) (left : lower ∈ next.ids) :
          Above other lower next ↔ Above other lower shape := by
        obtain ⟨differs, notAbove⟩ := inner.1 other listed
        have ne := (ready.mem other (List.mem_cons_of_mem _ listed)).2
        exact ⟨fun above => (first.above above).resolve_left ne,
          first.above_of_above nodup differs.symm notAbove left⟩
      rw [ih readyNext (first.nodup nodup)]
      constructor
      · intro ⟨left, unlisted, spared⟩
        obtain ⟨mem, ne, sparedFirst⟩ := (first.mem_iff nodup).mp left
        refine ⟨mem, by simp [ne, unlisted], ?_⟩
        intro other listed above
        rcases List.mem_cons.mp listed with rfl | later
        · exact sparedFirst above
        · exact (same later readyNext.kept_mem).mp
            (spared other later ((same later left).mpr above))
      · intro ⟨mem, unlisted, spared⟩
        rw [List.mem_cons, not_or] at unlisted
        have left := (first.mem_iff nodup).mpr
          ⟨mem, unlisted.1, spared id List.mem_cons_self⟩
        refine ⟨left, unlisted.2, ?_⟩
        intro other listed above
        exact (same listed readyNext.kept_mem).mpr
          (spared other (List.mem_cons_of_mem _ listed) ((same listed left).mp above))

end DiscardsAll

/-! ### The order of numbers -/

mutual
theorem pairwise_not_above : ∀ {shape : Shape}, shape.ids.Nodup →
    shape.ids.Pairwise fun first second => ¬ Above second first shape
  | node id children, nodup => by
      rw [ids_node, List.nodup_cons] at nodup
      have inner := pairwise_not_aboveAll nodup.2
      refine List.pairwise_cons.mpr ⟨?_, inner.imp_of_mem ?_⟩
      · intro second mem above
        rcases above_node.mp above with ⟨rfl, _⟩ | inside
        · exact nodup.1 mem
        · exact nodup.1 inside.mem_ids.2
      · intro first second _ mem apart above
        rcases above_node.mp above with ⟨rfl, _⟩ | inside
        · exact nodup.1 mem
        · exact apart inside

theorem pairwise_not_aboveAll : ∀ {shapes : List Shape}, (idsAll shapes).Nodup →
    (idsAll shapes).Pairwise fun first second => ¬ AboveAll second first shapes
  | [], _ => List.Pairwise.nil
  | shape :: rest, nodup => by
      obtain ⟨here, later, apart⟩ := List.nodup_append.mp nodup
      refine List.pairwise_append.mpr
        ⟨(pairwise_not_above here).imp_of_mem ?_, (pairwise_not_aboveAll later).imp_of_mem ?_, ?_⟩
      · intro first second mem _ inner above
        rw [AboveAll] at above
        exact above.elim inner fun below => apart first mem first below.mem_ids.2 rfl
      · intro first second mem _ inner above
        rw [AboveAll] at above
        exact above.elim (fun below => apart first below.mem_ids.2 first mem rfl) inner
      · intro first mem second memRest above
        rw [AboveAll] at above
        rcases above with below | below
        · exact apart second below.mem_ids.1 second memRest rfl
        · exact apart first mem first below.mem_ids.2 rfl
end

end Shape

open Shape

namespace TypeTree

variable {tree : TypeTree} {shape : Shape} {kept id : Nat}

theorem HasShape.discards (has : tree.HasShape shape) (mem : kept ∈ shape.ids)
    (found : id ∈ shape.ids) (ne : id ≠ kept) :
    ∃ changed, (discard kept tree id).HasShape changed ∧ Discards kept id shape changed := by
  rw [discard]
  split
  · next above =>
      obtain ⟨frames, sub, rfl, apart⟩ := exists_plug_of_mem shape mem
      rw [has.ancestors_eq apart, List.contains_iff_mem] at above
      obtain ⟨frame, listed, rfl⟩ := List.mem_map.mp above
      obtain ⟨inner, outer, rfl⟩ := List.append_of_mem listed
      cases sub with
      | node kept own =>
          obtain ⟨changed, put, hasChanged⟩ := has.takePlaceOf apart
          rw [plug_append] at apart
          exact ⟨changed, hasChanged, .replace apart put⟩
  · next notAbove =>
      rw [List.contains_iff_mem, has.mem_ancestors_iff mem] at notAbove
      obtain ⟨frames, sub, rfl, apart⟩ := exists_plug_of_mem shape found
      cases sub with
      | node id below =>
          rw [top_node, above_iff_mem has.nodup apart] at notAbove
          have away : kept ∉ (node id below).ids := by
            rw [ids_node, List.mem_cons, not_or]
            exact ⟨ne.symm, notAbove⟩
          cases frames with
          | nil =>
              cases apart
              exact absurd mem away
          | cons frame outer =>
              obtain ⟨changed, put, hasChanged, _⟩ := has.detach apart
              exact ⟨changed, hasChanged, .drop away apart put⟩

theorem HasShape.discardsAll {discarded : List Nat} (has : tree.HasShape shape)
    (ready : AreDiscardable kept discarded shape) :
    ∃ changed, (discarded.foldl (discard kept) tree).HasShape changed ∧
      DiscardsAll kept discarded shape changed := by
  induction discarded generalizing tree shape with
  | nil => exact ⟨shape, has, .nil⟩
  | cons id rest ih =>
      obtain ⟨next, hasNext, first⟩ := has.discards ready.kept_mem ready.head.1 ready.head.2
      obtain ⟨changed, hasChanged, others⟩ := ih hasNext (ready.tail has.nodup first)
      exact ⟨changed, hasChanged, .cons first others⟩

end TypeTree

end NodeWeave.Hierarchy

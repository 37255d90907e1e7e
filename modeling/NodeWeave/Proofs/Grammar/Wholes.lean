import NodeWeave.Proofs.Woven.Grouping

/-!
Expansions whose sequences and choices need no brackets of their own: a choice is the whole of a
production or of what stands in brackets, a sequence is such a whole or an alternative, and what is
annotated is a single unit. Main statement: the lines of such an expansion are grouped in one way
only, which is that of the expansion.
-/

namespace NodeWeave.Grammar

/-! ### Roles -/

/-- Where an expansion stands: as the whole of a production or of what stands in brackets, or as a
part of another expansion. -/
inductive Role where
  | production
  | group
  | optional
  | guarded
  | unit
  | alternative
  | annotated
  deriving DecidableEq, Repr

namespace Role

def isWhole : Role → Bool
  | production | group | optional | guarded => true
  | unit | alternative | annotated => false

/-- A choice of two or more alternatives is a whole, a sequence of any number of units but one is a
whole or an alternative, and what is annotated is not annotated once more. -/
def admits (role : Role) : Expansion → Bool
  | .choice alternatives => role.isWhole && 2 ≤ alternatives.length
  | .sequence units => (role.isWhole || role == alternative) && units.length != 1
  | .annotated _ _ => role != annotated
  | _ => true

end Role

namespace Expansion

mutual
/-- The expansions inside an expansion with their roles, outer before inner, left before right. -/
def rolesInside : Expansion → List (Role × Expansion)
  | sequence units => rolesOfAll .unit units
  | choice alternatives => rolesOfAll .alternative alternatives
  | group inner _ => (.group, inner) :: rolesInside inner
  | optional inner => (.optional, inner) :: rolesInside inner
  | annotated inner _ => (.annotated, inner) :: rolesInside inner
  | guarded inner _ _ => (.guarded, inner) :: rolesInside inner
  | lookahead _ | action _ | reference _ _ _ | terminal _ _ => []

def rolesOfAll (role : Role) : List Expansion → List (Role × Expansion)
  | [] => []
  | e :: rest => (role, e) :: rolesInside e ++ rolesOfAll role rest
end

/-- The expansion of a production and all expansions inside it, with their roles. -/
def roles (e : Expansion) : List (Role × Expansion) :=
  (.production, e) :: e.rolesInside

mutual
theorem map_snd_rolesInside (role : Role) : ∀ e : Expansion,
    ((role, e) :: e.rolesInside).map Prod.snd = e.preorder
  | sequence units => by
      rw [List.map_cons, rolesInside, map_snd_rolesOfAll .unit units, preorder]
  | choice alternatives => by
      rw [List.map_cons, rolesInside, map_snd_rolesOfAll .alternative alternatives, preorder]
  | group inner _ => by
      rw [List.map_cons, rolesInside, map_snd_rolesInside .group inner, preorder]
  | optional inner => by
      rw [List.map_cons, rolesInside, map_snd_rolesInside .optional inner, preorder]
  | annotated inner _ => by
      rw [List.map_cons, rolesInside, map_snd_rolesInside .annotated inner, preorder]
  | guarded inner _ _ => by
      rw [List.map_cons, rolesInside, map_snd_rolesInside .guarded inner, preorder]
  | lookahead _ | action _ | reference _ _ _ | terminal _ _ => rfl

theorem map_snd_rolesOfAll (role : Role) : ∀ es : List Expansion,
    (rolesOfAll role es).map Prod.snd = preorderAll es
  | [] => rfl
  | e :: rest => by
      rw [rolesOfAll, List.map_append, map_snd_rolesInside role e, map_snd_rolesOfAll role rest,
        preorderAll]
end

theorem map_snd_roles (e : Expansion) : e.roles.map Prod.snd = e.preorder :=
  e.map_snd_rolesInside .production

theorem forall_mem_rolesOfAll {role : Role} {es : List Expansion} {P : Role × Expansion → Prop} :
    (∀ x ∈ rolesOfAll role es, P x) ↔ ∀ e ∈ es, ∀ x ∈ (role, e) :: e.rolesInside, P x := by
  induction es with
  | nil => simp [rolesOfAll]
  | cons e rest ih =>
      rw [rolesOfAll, List.forall_mem_append, ih]
      exact (List.forall_mem_cons (p := fun e => ∀ x ∈ (role, e) :: e.rolesInside, P x)).symm

/-! ### Units, alternatives and wholes -/

mutual
/-- A unit without a descriptor. Its line reads like no bracket and no bar, or it has brackets. -/
inductive IsBare : Expansion → Prop
  | lookahead {text : String} (plain : LineKind.of text = .unit) : IsBare (.lookahead text)
  | action (code : String) : IsBare (.action code)
  | reference {target : Option String} {name arguments : String}
      (plain : LineKind.of (assigned target (name ++ "(" ++ arguments ++ ")")) = .unit) :
      IsBare (.reference target name arguments)
  | terminal {target : Option String} {text : String}
      (plain : LineKind.of (assigned target text) = .unit) : IsBare (.terminal target text)
  | group {inner : Expansion} (whole : IsWhole inner) (occurrence : Option Occurrence) :
      IsBare (.group inner occurrence)
  | optional {inner : Expansion} (whole : IsWhole inner) : IsBare (.optional inner)
  | guarded {inner : Expansion} (whole : IsWhole inner) (catches : List CatchClause)
      (finallyCode : Option String) : IsBare (.guarded inner catches finallyCode)

inductive IsUnit : Expansion → Prop
  | bare {e : Expansion} (bare : IsBare e) : IsUnit e
  | annotated {inner : Expansion} (bare : IsBare inner) (node : Descriptor) :
      IsUnit (.annotated inner node)

inductive IsAlternative : Expansion → Prop
  | unit {e : Expansion} (unit : IsUnit e) : IsAlternative e
  | sequence {units : List Expansion} (several : units.length ≠ 1)
      (each : ∀ e ∈ units, IsUnit e) : IsAlternative (.sequence units)

inductive IsWhole : Expansion → Prop
  | alternative {e : Expansion} (alternative : IsAlternative e) : IsWhole e
  | choice {alternatives : List Expansion} (several : 2 ≤ alternatives.length)
      (each : ∀ e ∈ alternatives, IsAlternative e) : IsWhole (.choice alternatives)
end

/-- The expansion is admitted in its role, and so are all expansions inside it. -/
def Fits (role : Role) (e : Expansion) : Prop :=
  ∀ x ∈ (role, e) :: e.rolesInside, x.1.admits x.2 = true

theorem Fits.intro {role : Role} {e : Expansion} (own : role.admits e = true)
    (inside : ∀ x ∈ e.rolesInside, x.1.admits x.2 = true) : e.Fits role :=
  List.forall_mem_cons.mpr ⟨own, inside⟩

mutual
theorem IsBare.fits {e : Expansion} (role : Role) : e.IsBare → e.Fits role
  | .lookahead _ | .action _ | .reference _ | .terminal _ => .intro rfl nofun
  | .group whole _ => .intro rfl (whole.fits rfl)
  | .optional whole => .intro rfl (whole.fits rfl)
  | .guarded whole _ _ => .intro rfl (whole.fits rfl)

theorem IsUnit.fits {e : Expansion} {role : Role} (apart : role ≠ .annotated) :
    e.IsUnit → e.Fits role
  | .bare bare => bare.fits role
  | .annotated bare _ => .intro (by simpa [Role.admits] using apart) (bare.fits .annotated)

theorem IsAlternative.fits {e : Expansion} {role : Role}
    (known : role.isWhole = true ∨ role = .alternative) : e.IsAlternative → e.Fits role
  | .unit unit => unit.fits (by rintro rfl; simp [Role.isWhole] at known)
  | .sequence several each => .intro (by simpa [Role.admits, several] using known)
      (forall_mem_rolesOfAll.mpr fun e mem => (each e mem).fits nofun)

theorem IsWhole.fits {e : Expansion} {role : Role} (known : role.isWhole = true) :
    e.IsWhole → e.Fits role
  | .alternative alternative => alternative.fits (.inl known)
  | .choice several each => .intro (by simp [Role.admits, known, several])
      (forall_mem_rolesOfAll.mpr fun e mem => (each e mem).fits (.inr rfl))
end

/-! ### Lines read back -/

theorem groupings_eq_map (style : ScopeStyle) (scope : Option Scope) (es : List Expansion) :
    groupings style scope es = es.map (grouping style scope) := by
  induction es with
  | nil => rfl
  | cons e rest ih => rw [groupings, ih, List.map_cons]

variable (style : ScopeStyle)

mutual
theorem IsBare.standsAsUnit {e : Expansion} (scope : Option Scope) :
    e.IsBare → (e.grouping style scope).StandsAsUnit
  | .lookahead plain | .reference plain | .terminal plain => by
      rw [grouping]
      exact Grouping.standsAsUnit_line plain
  | .action code => by
      rw [grouping]
      exact Grouping.standsAsUnit_line (LineKind.of_braced _)
  | .group whole occurrence => by
      rw [grouping]
      exact (whole.standsAsWhole scope).enclosed rfl (LineKind.of_closingGroup occurrence)
  | .optional whole => by
      rw [grouping]
      exact (whole.standsAsWhole scope).enclosed rfl rfl
  | .guarded whole catches finallyCode => by
      rw [grouping]
      exact (whole.standsAsWhole scope).enclosed rfl (LineKind.of_clausesText _ _)

theorem IsUnit.standsAsUnit {e : Expansion} (scope : Option Scope) :
    e.IsUnit → (e.grouping style scope).StandsAsUnit
  | .bare bare => bare.standsAsUnit scope
  | .annotated bare node => by
      rw [grouping]
      cases style.open? (.unit node) (Scope.depthInside scope) with
      | none => exact bare.standsAsUnit scope
      | some opened => exact bare.standsAsUnit (some opened)

theorem IsAlternative.standsAsAlternative {e : Expansion} (scope : Option Scope) :
    e.IsAlternative → (e.grouping style scope).StandsAsAlternative
  | .unit unit => (unit.standsAsUnit scope).alternative
  | .sequence several each => by
      rw [grouping, groupings_eq_map]
      refine Grouping.standsAsAlternative_sequence (by rwa [List.length_map]) ?_
      rw [List.forall_mem_map]
      exact fun e mem => (each e mem).standsAsUnit scope

theorem IsWhole.standsAsWhole {e : Expansion} (scope : Option Scope) :
    e.IsWhole → (e.grouping style scope).StandsAsWhole
  | .alternative alternative => (alternative.standsAsAlternative scope).whole
  | .choice several each => by
      rw [grouping, groupings_eq_map]
      refine Grouping.standsAsWhole_choice (by rwa [List.length_map]) ?_
      rw [List.forall_mem_map]
      exact fun e mem => (each e mem).standsAsAlternative scope
end

end Expansion

end NodeWeave.Grammar

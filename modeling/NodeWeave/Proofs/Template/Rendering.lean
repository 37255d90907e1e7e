import NodeWeave.Template.Render

/-!
Rendering of parts. Main statement: it gives a text wherever the paths of values have values and the
paths of repetitions have lists.
-/

namespace NodeWeave.Template

/-! ### Values at paths -/

section

variable {scopes : List Json} {value inner : Json} {path name : String}

theorem step?_of_field? (found : value.field? name = some inner) :
    step? value name = some inner := by
  cases value with
  | object fields => exact found
  | _ => cases found

theorem value?_of_cut {first : String} {rest : List String}
    (cut : Text.splitChar '.' path = first :: rest) (named : first ≠ "this")
    (found : scopes.findSome? (Json.field? first) = some value) :
    value? scopes path = rest.foldlM step? value := by
  simp only [value?, cut, start?, if_neg named, found, Option.bind_some]

end

/-! ### Texts of parts -/

mutual
def Part.IsFilled (scopes : List Json) : Part → Prop
  | .text _ => True
  | .value path => ∃ value, value? scopes path = some value
  | .block kind path body => ∃ value, value? scopes path = some value ∧
      match kind with
      | .each => ∃ items, value = .list items ∧ ∀ item ∈ items, AreFilled (item :: scopes) body
      | .whenTrue => isTrue value = true → AreFilled scopes body
      | .whenFalse => isTrue value = false → AreFilled scopes body

def AreFilled (scopes : List Json) : List Part → Prop
  | [] => True
  | part :: rest => part.IsFilled scopes ∧ AreFilled scopes rest
end

mutual
def Part.textIn (scopes : List Json) : Part → String
  | .text text => text
  | .value path => ((value? scopes path).map shown).getD ""
  | .block .each path body =>
      match value? scopes path with
      | some (.list items) => String.join (items.map fun item => textOf (item :: scopes) body)
      | _ => ""
  | .block .whenTrue path body =>
      if ((value? scopes path).map isTrue).getD false then textOf scopes body else ""
  | .block .whenFalse path body =>
      if ((value? scopes path).map isTrue).getD true then "" else textOf scopes body

def textOf (scopes : List Json) : List Part → String
  | [] => ""
  | part :: rest => part.textIn scopes ++ textOf scopes rest
end

theorem mapM_eq_ok_map {ε α β : Type} {f : α → Except ε β} {g : α → β} {items : List α}
    (each : ∀ item ∈ items, f item = .ok (g item)) : items.mapM f = .ok (items.map g) := by
  induction items with
  | nil => rfl
  | cons item rest ih =>
      obtain ⟨here, later⟩ := List.forall_mem_cons.mp each
      rw [List.mapM_cons, here, ih later]
      rfl

mutual
theorem render_of_isFilled {scopes : List Json} {part : Part} (filled : part.IsFilled scopes) :
    part.render scopes = .ok (part.textIn scopes) := by
  cases part with
  | text text => rw [Part.render, Part.textIn]
  | value path =>
      rw [Part.IsFilled] at filled
      obtain ⟨value, found⟩ := filled
      rw [Part.render, Part.textIn, find, found]
      rfl
  | block kind path body =>
      rw [Part.IsFilled] at filled
      obtain ⟨value, found, inner⟩ := filled
      have same : find scopes path = .ok value := by rw [find, found]
      rw [Part.render, same]
      cases kind with
      | each =>
          obtain ⟨items, rfl, each⟩ := inner
          have texts := mapM_eq_ok_map fun item mem => renderParts_of_areFilled (each item mem)
          rw [Part.textIn, found]
          simp only [bind, Except.bind] at texts ⊢
          rw [texts]
          rfl
      | whenTrue =>
          rw [Part.textIn, found]
          cases counts : isTrue value with
          | true => simpa [bind, Except.bind, counts] using renderParts_of_areFilled (inner counts)
          | false => simp [bind, Except.bind, counts, pure, Except.pure]
      | whenFalse =>
          rw [Part.textIn, found]
          cases counts : isTrue value with
          | true => simp [bind, Except.bind, counts, pure, Except.pure]
          | false => simpa [bind, Except.bind, counts] using renderParts_of_areFilled (inner counts)

/-- Parts whose paths have values that serve are rendered. -/
theorem renderParts_of_areFilled {scopes : List Json} {parts : List Part}
    (filled : AreFilled scopes parts) : renderParts scopes parts = .ok (textOf scopes parts) := by
  cases parts with
  | nil => rw [renderParts, textOf]
  | cons part rest =>
      rw [AreFilled] at filled
      rw [renderParts, textOf, render_of_isFilled filled.1, renderParts_of_areFilled filled.2]
      rfl
end

theorem render_of_read {template : String} {context : Json} {parts : List Part}
    (done : read template = .ok parts) (filled : AreFilled [context] parts) :
    render template context = .ok (textOf [context] parts) := by
  rw [render, done]
  exact renderParts_of_areFilled filled

end NodeWeave.Template

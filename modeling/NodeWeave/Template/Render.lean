import NodeWeave.Fault
import NodeWeave.Json.Basic
import NodeWeave.Template.Reader

/-!
Rendering. Names are looked up from the innermost scope outwards, where the items of a list are
scopes of their own. A value that is missing is a problem and not an empty text.
-/

namespace NodeWeave.Template

/-- The index that a segment of a path is, without a sign or with a plus sign. -/
def index? (segment : String) : Option Nat :=
  let digits :=
    match segment.toList with
    | '+' :: rest => rest
    | text => text
  if digits.isEmpty || !digits.all Char.isDigit then none
  else some (digits.foldl (fun n c => n * 10 + (c.toNat - '0'.toNat)) 0)

def step? (value : Json) (segment : String) : Option Json :=
  match value with
  | .list items => (index? segment).bind fun i => items[i]?
  | value => value.field? segment

def start? (scopes : List Json) (name : String) : Option Json :=
  if name = "this" then scopes.head? else scopes.findSome? (Json.field? name)

def value? (scopes : List Json) (path : String) : Option Json :=
  match Text.splitChar '.' path with
  | [] => none
  | first :: rest => (start? scopes first).bind fun value => rest.foldlM step? value

def find (scopes : List Json) (path : String) : Except Problem Json :=
  match value? scopes path with
  | some value => .ok value
  | none => .error (.unknownValue path)

/-- Values that count as true: all but null, false and what is empty. -/
def isTrue : Json → Bool
  | .null => false
  | .bool b => b
  | .text s => !s.isEmpty
  | .list items => !items.isEmpty
  | .object fields => !fields.isEmpty
  | .int _ | .float _ => true

def shown : Json → String
  | .null => ""
  | .text s => s
  | value => value.compact

mutual
def Part.render (scopes : List Json) : Part → Except Problem String
  | .text text => .ok text
  | .value path => do return shown (← find scopes path)
  | .block kind path body => do
      let value ← find scopes path
      match kind with
      | .each =>
          match value with
          | .list items =>
              let texts ← items.mapM fun item => renderParts (item :: scopes) body
              return String.join texts
          | _ => throw (.notAList path)
      | .whenTrue => if isTrue value then renderParts scopes body else return ""
      | .whenFalse => if isTrue value then return "" else renderParts scopes body

def renderParts (scopes : List Json) : List Part → Except Problem String
  | [] => .ok ""
  | part :: rest => do return (← part.render scopes) ++ (← renderParts scopes rest)
end

def render (template : String) (context : Json) : Except Problem String := do
  renderParts [context] (← read template)

def fault (name : String) (problem : Problem) : Fault :=
  { cause := .template name problem.message, phase := "template" }

@[simp] theorem render_empty (context : Json) : render "" context = .ok "" := by
  simp [render, renderParts, bind, Except.bind]

end NodeWeave.Template

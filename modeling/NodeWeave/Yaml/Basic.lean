import NodeWeave.Decimal.Binary

/-! Values of YAML, and maps whose order is that of their entries. -/

namespace NodeWeave

inductive Yaml where
  | null
  | bool (value : Bool)
  | int (value : Int)
  | float (value : Binary64)
  | text (value : String)
  | list (items : List Yaml)
  | map (entries : List (Yaml × Yaml))
  | tagged (tag : String) (value : Yaml)
  deriving Repr, Inhabited

namespace Yaml

abbrev Entries := List (Yaml × Yaml)

/-- Both are no number, or both are the same number; zeros of both signs are the same. -/
def sameFloat (a b : Binary64) : Bool :=
  if a.isNaN || b.isNaN then a.isNaN && b.isNaN else a == b || (a.isZero && b.isZero)

mutual
/-- Equality of values. The order of the entries of a map does not matter. -/
def same : Yaml → Yaml → Bool
  | null, null => true
  | bool a, bool b => a == b
  | int a, int b => a == b
  | float a, float b => sameFloat a b
  | text a, text b => a == b
  | list a, list b => sameItems a b
  | map a, map b => a.length == b.length && includedIn a b
  | tagged s a, tagged t b => s == t && same a b
  | _, _ => false

def sameItems : List Yaml → List Yaml → Bool
  | [], [] => true
  | a :: rest, b :: others => same a b && sameItems rest others
  | _, _ => false

def includedIn : Entries → Entries → Bool
  | [], _ => true
  | (key, value) :: rest, entries =>
      entries.any (fun (k, v) => same key k && same value v) && includedIn rest entries
end

def find? (key : Yaml) : Entries → Option Yaml
  | [] => none
  | (k, value) :: rest => if same key k then some value else find? key rest

/-- Puts a value at a key: instead of the one there, or at the end. -/
def insert (key value : Yaml) : Entries → Entries
  | [] => [(key, value)]
  | (k, old) :: rest =>
      if same key k then (k, value) :: rest else (k, old) :: insert key value rest

/-- Takes a key out. The last entry moves into the gap. -/
def remove (key : Yaml) : Entries → Entries
  | [] => []
  | (k, value) :: rest =>
      if same key k then
        match rest.getLast? with
        | none => []
        | some last => last :: rest.dropLast
      else (k, value) :: remove key rest

mutual
/-- The first map completed by the second one. Where both have a map at a key, these are merged;
any other value of the first map wins. The entries of the first map come last. -/
def merge : (child parent : Entries) → Entries
  | [], merged => merged
  | (key, value) :: rest, merged =>
      let combined := mergeValue value (find? key merged)
      merge rest (insert key combined (remove key merged))

def mergeValue : Yaml → Option Yaml → Yaml
  | map child, some (map parent) => map (merge child parent)
  | value, _ => value
end

def merge? : (child parent : Option Entries) → Option Entries
  | some child, some parent => some (merge child parent)
  | some child, none => some child
  | none, parent => parent

@[simp] theorem merge?_none_left (parent : Option Entries) : merge? none parent = parent := by
  cases parent <;> rfl

@[simp] theorem merge?_none_right (child : Option Entries) : merge? child none = child := by
  cases child <;> rfl

end Yaml

end NodeWeave

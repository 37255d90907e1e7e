import NodeWeave.Text.Basic

/-! Qualified names: a package and a simple name, joined by a dot. -/

namespace NodeWeave.JavaName

/-- The name in a package. The empty package adds nothing. -/
def qualify (package simple : String) : String :=
  if package.isEmpty then simple else package ++ "." ++ simple

/-- What stands before the last dot, and what stands after it. Without a dot nothing stands
before. -/
def splitChars (name : List Char) : List Char × List Char :=
  let simple := (name.reverse.takeWhile (· != '.')).reverse
  (name.take (name.length - simple.length - 1), simple)

def split (name : String) : String × String :=
  let (package, simple) := splitChars name.toList
  (String.ofList package, String.ofList simple)

def package (name : String) : String :=
  (split name).1

def simple (name : String) : String :=
  (split name).2

@[simp] theorem qualify_empty (name : String) : qualify "" name = name := by
  simp [qualify]

theorem takeWhile_of_forall {p : Char → Bool} {text : List Char} (all : ∀ c ∈ text, p c = true) :
    text.takeWhile p = text := by
  induction text with
  | nil => rfl
  | cons c rest ih =>
      rw [List.takeWhile_cons, if_pos (all c (by simp)), ih fun d mem => all d (by simp [mem])]

theorem splitChars_simple {name : List Char} (plain : '.' ∉ name) :
    splitChars name = ([], name) := by
  have all : name.reverse.takeWhile (· != '.') = name.reverse :=
    takeWhile_of_forall fun c mem => by
      simp only [bne_iff_ne]
      exact fun same => plain (same ▸ List.mem_reverse.1 mem)
  simp [splitChars, all]

end NodeWeave.JavaName

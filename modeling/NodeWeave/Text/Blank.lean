/-! White space and what trimming does with it. -/

namespace NodeWeave.Text

def isBlank (c : Char) : Bool :=
  let code := c.toNat
  (9 ≤ code && code ≤ 13) || code == 32 || code == 0x85 || code == 0xA0 || code == 0x1680 ||
    (0x2000 ≤ code && code ≤ 0x200A) || code == 0x2028 || code == 0x2029 || code == 0x202F ||
    code == 0x205F || code == 0x3000

def dropBlanks (text : List Char) : List Char :=
  text.dropWhile isBlank

def dropBlanksEnd (text : List Char) : List Char :=
  (text.reverse.dropWhile isBlank).reverse

def trimEnd (text : String) : String :=
  String.ofList (dropBlanksEnd text.toList)

def trim (text : String) : String :=
  String.ofList (dropBlanksEnd (dropBlanks text.toList))

@[simp] theorem dropBlanksEnd_nil : dropBlanksEnd [] = [] := rfl

theorem dropBlanksEnd_append_blank (text : List Char) {c : Char} (blank : isBlank c = true) :
    dropBlanksEnd (text ++ [c]) = dropBlanksEnd text := by
  simp [dropBlanksEnd, blank]

theorem dropBlanksEnd_append_solid (text : List Char) {c : Char} (solid : isBlank c = false) :
    dropBlanksEnd (text ++ [c]) = text ++ [c] := by
  simp [dropBlanksEnd, solid]

end NodeWeave.Text

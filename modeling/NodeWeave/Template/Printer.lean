import NodeWeave.Template.Basic

/-! The text of a template, given its parts. -/

namespace NodeWeave.Template

def tagText (content : String) : String :=
  String.ofList opening ++ content ++ String.ofList closing

mutual
def Part.write : Part → String
  | .text text => text
  | .value path => tagText path
  | .block kind path body =>
      tagText ("#" ++ kind.name ++ " " ++ path) ++ writeParts body ++
        tagText ("/" ++ kind.name)

def writeParts : List Part → String
  | [] => ""
  | part :: rest => part.write ++ writeParts rest
end

@[simp] theorem writeParts_nil : writeParts [] = "" := by simp [writeParts]

@[simp] theorem writeParts_cons (part : Part) (rest : List Part) :
    writeParts (part :: rest) = part.write ++ writeParts rest := by simp [writeParts]

@[simp] theorem writeParts_append (a b : List Part) :
    writeParts (a ++ b) = writeParts a ++ writeParts b := by
  induction a with
  | nil => simp
  | cons part rest ih => simp [ih, String.append_assoc]

end NodeWeave.Template

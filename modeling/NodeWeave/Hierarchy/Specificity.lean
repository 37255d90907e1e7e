/-! How precisely an entry of a hierarchy says which node it means. -/

namespace NodeWeave.Hierarchy

inductive Specificity where
  /-- Added because nothing was written for the node. -/
  | unknown
  /-- Found by a pattern. -/
  | regex
  /-- The name of a node of the grammar. -/
  | resolved
  /-- A class in the package of the nodes. -/
  | quoted
  /-- A qualified name. -/
  | qname
  | root
  deriving DecidableEq, Repr

namespace Specificity

def rank : Specificity → Nat
  | unknown => 0
  | regex => 1
  | resolved => 2
  | quoted => 3
  | qname => 4
  | root => 5

instance : LE Specificity := ⟨fun a b => a.rank ≤ b.rank⟩

instance : LT Specificity := ⟨fun a b => a.rank < b.rank⟩

instance (a b : Specificity) : Decidable (a ≤ b) := inferInstanceAs (Decidable (a.rank ≤ b.rank))

instance (a b : Specificity) : Decidable (a < b) := inferInstanceAs (Decidable (a.rank < b.rank))

def name : Specificity → String
  | unknown => "unknown"
  | regex => "regex"
  | resolved => "resolved"
  | quoted => "quoted"
  | qname => "qname"
  | root => "root"

def isGrammarDerived : Specificity → Bool
  | unknown | regex | resolved => true
  | quoted | qname | root => false

theorem rank_injective {a b : Specificity} (same : a.rank = b.rank) : a = b := by
  cases a <;> cases b <;> simp_all [rank]

theorem le_root (s : Specificity) : s ≤ root := by
  cases s <;> decide

end Specificity

end NodeWeave.Hierarchy

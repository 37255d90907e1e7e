/-! Switches between two ways of weaving a scope. -/

namespace NodeWeave

structure Switches where
  /-- The node of a unit is closed after its last action, not before it. -/
  closesAfterLastAction : Bool := false
  /-- The condition of a node may refer to the node. -/
  resolvesInCondition : Bool := true
  /-- The first and the last token are set before the hooks run. -/
  tokensBeforeHooks : Bool := true
  /-- Variables are named for their nodes, not numbered. -/
  descriptiveNames : Bool := false
  /-- The parser implements the interface of the node constants instead of importing it. -/
  implementsConstants : Bool := false
  deriving DecidableEq, Repr

namespace Switches

/-- The settings under which the woven code is closest to that of JJTree. -/
def full : Switches :=
  { resolvesInCondition := false, tokensBeforeHooks := false, implementsConstants := true }

end Switches

end NodeWeave

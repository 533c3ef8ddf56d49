/-!
# Handles

A handle (`Node`, around the `NodeId` of the store) names one node of a forest: the slot that holds
it, counted from 0, and the stamp that the slot had when the node was made. Slots are used again,
stamps are not, so the handle of a removed node names no other node later.
-/

namespace Markup

/-- The name of a node. -/
structure Handle where
  slot : Nat
  /-- How many nodes that slot had held before. -/
  stamp : Nat
deriving DecidableEq, Repr

namespace Handle

/-- A handle as it shows in messages, with slots counted from 1. -/
def text (h : Handle) : String :=
  "Node(NodeId \x7b index1: " ++ toString (h.slot + 1) ++ ", stamp: NodeStamp(" ++
    toString h.stamp ++ ") \x7d)"

end Handle

end Markup

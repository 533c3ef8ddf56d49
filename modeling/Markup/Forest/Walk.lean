import Markup.Forest.Links

/-!
# Walks

A walk passes every node below its root twice: at its start edge (`NodeEdge`), before the nodes
below it, and at its stop edge, after them. It follows the links one at a time and ends at the stop
edge of its root. A walk whose root was removed meets that edge only if the slot has no children
now; else it goes on through the rest of the tree that it came into.

* `Forest.descendants` lists start edges, parents before children; `Forest.postorder` lists stop
  edges, children before parents.
* `Forest.traverse` leaves out hidden nodes and what is below them.
-/

namespace Markup

/-- One of the two times a walk is at a node (`NodeEdge`). -/
inductive Edge where
  | start (h : Handle)
  | stop (h : Handle)
deriving DecidableEq, Repr

namespace Edge

/-- The node of a start edge. -/
def started? : Edge → Option Handle
  | .start h => some h
  | .stop _ => none

/-- The node of a stop edge. -/
def stopped? : Edge → Option Handle
  | .start _ => none
  | .stop h => some h

end Edge

namespace Forest

/-- The edge behind a given one, in the walk from `root`. -/
def nextEdge? (f : Forest) (root : Handle) : Edge → Option Edge
  | .start h =>
    match f.firstChild? h with
    | some c => some (.start c)
    | none => some (.stop h)
  | .stop h =>
    if h = root then none
    else
      match f.nextSibling? h with
      | some s => some (.start s)
      | none => (f.parent? h).map .stop

/-- At most `n` edges of the walk from `root`, from edge `e` on. -/
def walkFrom (f : Forest) (root : Handle) : Nat → Edge → List Edge
  | 0, _ => []
  | n + 1, e =>
    e ::
      match f.nextEdge? root e with
      | some e' => f.walkFrom root n e'
      | none => []

/-- The walk from `root`. No node is passed more than twice, and a removed root counts by
itself. -/
def walk (f : Forest) (root : Handle) : List Edge :=
  f.walkFrom root (2 * f.size + 2) (.start root)

/-- A node and the nodes below it, parents before children. -/
def descendants (f : Forest) (h : Handle) : List Handle := (f.walk h).filterMap Edge.started?

/-- A node and the nodes below it, children before parents. -/
def postorder (f : Forest) (h : Handle) : List Handle := (f.walk h).filterMap Edge.stopped?

/-- The edges outside hidden nodes, where `skipping` is the hidden node that the walk is in. -/
def visibleEdges (f : Forest) : Option Handle → List Edge → Except Fault (List Edge)
  | _, [] => .ok []
  | some h, .stop k :: edges => f.visibleEdges (if k = h then none else some h) edges
  | some h, .start _ :: edges => f.visibleEdges (some h) edges
  | none, .stop h :: edges => do return .stop h :: (← f.visibleEdges none edges)
  | none, .start h :: edges => do
    let c ← f.held h
    if c.hidden then f.visibleEdges (some h) edges
    else return .start h :: (← f.visibleEdges none edges)

/-- The walk through what is visible at and below a node; nothing for a removed node. -/
def traverse (f : Forest) (h : Handle) : Except Fault (List Edge) :=
  if f.isRemoved h then .ok [] else f.visibleEdges none (f.walk h)

end Forest

end Markup

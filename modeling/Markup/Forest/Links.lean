import Markup.Forest.Basic

/-!
# Links between nodes

The neighbours of a node: `parent`, `first_child`, `last_child`, `next_sibling`, `previous_sibling`,
and `up` and `children` along these. They belong to the slot: the handle of a removed node has no
neighbours while its slot is empty, and those of the new node once the slot is used again.
Lists of nodes are read by going along one kind of link.

* `chase_cons`: a list that is read starts with the node that the reading starts at.
-/

namespace Markup

/-- At most `n` nodes, each one the `step` from the node before. -/
def chase (step : Handle → Option Handle) : Nat → Option Handle → List Handle
  | 0, _ => []
  | _ + 1, none => []
  | n + 1, some h => h :: chase step n (step h)

@[simp] theorem chase_none (step : Handle → Option Handle) (n : Nat) : chase step n none = [] := by
  cases n <;> rfl

theorem chase_cons (step : Handle → Option Handle) (n : Nat) (h : Handle) :
    chase step (n + 1) (some h) = h :: chase step n (step h) := rfl

namespace Forest

/-- The links of the node in the slot of a handle. -/
def links (f : Forest) (h : Handle) : Links := ((f.occupant? h).map (·.links)).getD {}

/-- The node above. -/
def parent? (f : Forest) (h : Handle) : Option Handle := (f.links h).parent

/-- The first node below. -/
def firstChild? (f : Forest) (h : Handle) : Option Handle := (f.links h).first

/-- The last node below. -/
def lastChild? (f : Forest) (h : Handle) : Option Handle := (f.links h).last

/-- The next child of the parent. -/
def nextSibling? (f : Forest) (h : Handle) : Option Handle := (f.links h).next

/-- The previous child of the parent. -/
def previousSibling? (f : Forest) (h : Handle) : Option Handle := (f.links h).previous

/-- The nodes below, in order. -/
def children (f : Forest) (h : Handle) : List Handle :=
  chase f.nextSibling? f.size (f.firstChild? h)

/-- The nodes below, in reverse order. -/
def childrenBackwards (f : Forest) (h : Handle) : List Handle :=
  chase f.previousSibling? f.size (f.lastChild? h)

/-- The nodes above, the nearest first. There are fewer of them than slots. -/
def ancestors (f : Forest) (h : Handle) : List Handle := chase f.parent? f.size (f.parent? h)

/-- The node `count` levels above; no levels count as one. -/
def up? (f : Forest) (h : Handle) (count : Nat) : Option Handle := (f.ancestors h)[count - 1]?

end Forest

end Markup

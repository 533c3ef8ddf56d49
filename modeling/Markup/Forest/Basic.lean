import Markup.Content
import Markup.Fault

/-!
# Forests

A forest (`Html`) holds the nodes of any number of trees in numbered slots. A node (`NodeData`) has
links to its parent, to the siblings beside it and to its first and last child; the children in
order are read off these links. Slots are reused: the slots of removed nodes wait in a queue, a new
node takes the first of them, and only when none waits a new slot is made.

Every removal raises the stamp of the slot, so the handle of a removed node fits no later one.
`Forest.cell?` reads a node through its handle (`live_data`), `Forest.occupant?` reads whatever node
is in the slot now (`data`).

* `Forest.cell?_update`: an update shows under its own handle only.
* `Forest.occupant?_eq_of_cell?`: as long as a node lives, both readings agree.
-/

namespace Markup

/-- The links of a node to the nodes around it. -/
@[ext]
structure Links where
  parent : Option Handle := none
  previous : Option Handle := none
  next : Option Handle := none
  first : Option Handle := none
  last : Option Handle := none
deriving DecidableEq, Repr

/-- A node in its slot (`NodeData`). -/
structure Cell where
  content : Content
  /-- A hidden node is not rendered, nor is anything below it. -/
  hidden : Bool := false
  links : Links := {}
deriving DecidableEq

/-- A place for a node. -/
structure Slot where
  /-- The number of nodes that were removed from this slot. -/
  stamp : Nat := 0
  cell : Option Cell := none
deriving DecidableEq

/-- Nodes in slots (`Html`). -/
structure Forest where
  slots : Array Slot := #[]
  /-- The empty slots, in the order in which they are used again. -/
  free : List Nat := []
deriving DecidableEq

namespace Forest

/-- No node and no slot. -/
def empty : Forest := {}

/-- The number of slots, empty ones included. -/
def size (f : Forest) : Nat := f.slots.size

/-- Whether no slot was made yet. -/
def isEmpty (f : Forest) : Bool := f.slots.isEmpty

/-! ## Reading a node -/

/-- The node of a handle, unless it was removed. -/
def cell? (f : Forest) (h : Handle) : Option Cell :=
  f.slots[h.slot]?.bind fun s => if s.stamp = h.stamp then s.cell else none

/-- The node that is now in the slot of a handle, be it another one. -/
def occupant? (f : Forest) (h : Handle) : Option Cell := f.slots[h.slot]?.bind (·.cell)

/-- The stamp of a slot. -/
def stampAt (f : Forest) (i : Nat) : Nat := (f.slots[i]?.map (·.stamp)).getD 0

/-- The handle of the node that is now in the slot of `h`. -/
def occupant (f : Forest) (h : Handle) : Handle := ⟨h.slot, f.stampAt h.slot⟩

/-- Whether the node was removed. -/
def isRemoved (f : Forest) (h : Handle) : Bool := (f.cell? h).isNone

/-- The node of a handle; a fault if it was removed (`check_live`). -/
def live (f : Forest) (h : Handle) : Except Fault Cell :=
  match f.cell? h with
  | some c => .ok c
  | none => .error (.removed h)

/-- The node in the slot of a handle; a fault if the slot is empty. -/
def held (f : Forest) (h : Handle) : Except Fault Cell :=
  match f.occupant? h with
  | some c => .ok c
  | none => .error (.vacant h)

/-! ## Changing a slot -/

/-- Changes the node of a handle, if it was not removed. -/
def update (f : Forest) (h : Handle) (change : Cell → Cell) : Forest :=
  { f with
    slots := f.slots.modify h.slot fun s =>
      if s.stamp = h.stamp then { s with cell := s.cell.map change } else s }

/-- Changes the links of a node, if there is one. -/
def relink (f : Forest) (h : Option Handle) (change : Links → Links) : Forest :=
  match h with
  | none => f
  | some h => f.update h fun c => { c with links := change c.links }

/-- Puts a new node in the first waiting slot, or else in a new one. -/
def place (f : Forest) (c : Cell) : Handle × Forest :=
  match f.free with
  | [] => (⟨f.slots.size, 0⟩, { f with slots := f.slots.push { cell := some c } })
  | i :: free =>
    (⟨i, f.stampAt i⟩, ⟨f.slots.modify i fun s => { s with cell := some c }, free⟩)

/-- Empties the slot of a handle and lets it wait behind the others. -/
def release (f : Forest) (h : Handle) : Forest :=
  ⟨f.slots.modify h.slot fun s => { stamp := s.stamp + 1 }, f.free ++ [h.slot]⟩

/-! ## What an update shows -/

/-- An update shows under its own handle only. -/
theorem cell?_update (f : Forest) (h k : Handle) (change : Cell → Cell) :
    (f.update h change).cell? k = if k = h then (f.cell? h).map change else f.cell? k := by
  obtain ⟨i, s⟩ := h
  obtain ⟨j, t⟩ := k
  simp only [cell?, update, Array.getElem?_modify, Handle.mk.injEq]
  by_cases hij : i = j
  · subst hij
    cases f.slots[i]? with
    | none => simp
    | some slot =>
      by_cases hs : slot.stamp = s <;> by_cases ht : s = t <;> simp_all [eq_comm]
  · rw [if_neg hij, if_neg fun e => hij e.1.symm]

/-- As long as a node lives, it is the one in its slot. -/
theorem occupant?_eq_of_cell? {f : Forest} {h : Handle} {c : Cell} (hc : f.cell? h = some c) :
    f.occupant? h = some c ∧ f.occupant h = h := by
  unfold cell? at hc
  unfold occupant? occupant stampAt
  cases hs : f.slots[h.slot]? with
  | none => simp [hs] at hc
  | some s =>
    simp only [hs, Option.bind_some] at hc ⊢
    split at hc
    · next e => exact ⟨hc, by simp [e]⟩
    · cases hc

end Forest

end Markup

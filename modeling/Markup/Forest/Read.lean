import Markup.Forest.Links

/-!
# Reading nodes

Three ways to ask about a node that was removed: most questions have no answer then (`is_hidden`,
`element`, `text_str`, `id`, `attr`, `option_children`), a few are answered with the fault `removed`
(`has_attr`, `attribute`, `text`, `selected_option`), and those about the content as such read the
slot, with the fault `vacant` while it is empty (`value`, `value_type`).

* `Forest.selectedOption` finds the option that a selection shows as chosen.
-/

namespace Markup

namespace Forest

/-! ## Without a fault -/

/-- Whether a node is hidden itself. -/
def isHidden (f : Forest) (h : Handle) : Bool := ((f.cell? h).map (·.hidden)).getD false

/-- The element of a document or element node. -/
def element? (f : Forest) (h : Handle) : Option Element := (f.cell? h).bind (·.content.element?)

/-- The text of a leaf of either kind. -/
def leafText? (f : Forest) (h : Handle) : Option String := (f.cell? h).bind (·.content.leafText?)

/-- The value of a known attribute. -/
def attribute? (f : Forest) (h : Handle) (a : AttributeName) : Option String :=
  (f.element? h).bind (·.attribute? a)

/-- The value of the attribute `id`. -/
def id? (f : Forest) (h : Handle) : Option String := (f.element? h).bind (·.id?)

/-- Whether two nodes have the same element, or both none. -/
def sameElement (f : Forest) (h k : Handle) : Bool :=
  match f.element? h, f.element? k with
  | some a, some b => a.sameAs b
  | none, none => true
  | _, _ => false

/-- Whether a node is an option of a selection. -/
def isOption (f : Forest) (h : Handle) : Bool :=
  ((f.element? h).map fun e => decide (e.name = .option)).getD false

/-- The options below a node, in order. -/
def optionChildren (f : Forest) (h : Handle) : List Handle := (f.children h).filter f.isOption

/-! ## With a fault for a removed node -/

/-- The element of a node (`element_or_err`). -/
def element (f : Forest) (h : Handle) : Except Fault Element := do
  let c ← f.live h
  match c.content.element? with
  | some e => return e
  | none => throw (.notElement h)

/-- Whether a node has a known attribute. -/
def hasAttribute (f : Forest) (h : Handle) (a : AttributeName) : Except Fault Bool := do
  return (← f.element h).hasAttribute a

/-- The value of a custom attribute. -/
def customAttribute (f : Forest) (h : Handle) (key : String) : Except Fault (Option String) := do
  return (← f.element h).custom? key

/-- The leaf of a text node. -/
def text (f : Forest) (h : Handle) : Except Fault Text := do
  let c ← f.live h
  match c.content.text? with
  | some t => return t
  | none => throw (.notText h)

/-- The first option below a node that has the attribute `selected`. -/
def selectedOption (f : Forest) (h : Handle) : Except Fault Handle := do
  let _ ← f.element h
  match (f.optionChildren h).find? fun o => (f.attribute? o .selected).isSome with
  | some o => return o
  | none => throw .notFound

/-! ## What a slot holds -/

/-- What the node in the slot is. -/
def kind (f : Forest) (h : Handle) : Except Fault Kind := do
  return (← f.held h).content.kind

/-- Whether the node in the slot can have children. -/
def acceptsChildren (f : Forest) (h : Handle) : Except Fault Bool := do
  return (← f.held h).content.acceptsChildren

/-- The template in the slot, if it holds one. -/
def template? (f : Forest) (h : Handle) : Except Fault (Option Template) := do
  return (← f.held h).content.template?

end Forest

end Markup

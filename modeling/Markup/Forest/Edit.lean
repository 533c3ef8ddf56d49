import Markup.Forest.Walk

/-!
# Growing and changing a forest

The methods of `Html` that make, move and change nodes. Each of them either gives the changed forest
or a fault. A fault comes before the first change, so a forest is never left half changed.

* `Forest.append` moves a node to the end of another one's children, `Forest.detach` makes it the
  root of its own tree, `Forest.remove` takes it out together with everything below.
* `Forest.copy` makes a second node with the same content, on its own.
-/

namespace Markup

/-- The content of a new node: what the methods `new_element`, `new_document`, `new_fragment`,
`new_comment`, `new_text`, `new_text_unsafe`, `new_var_text` and `new_var_text_unsafe` make. -/
inductive Seed where
  | element (name : ElementName)
  | document
  | fragment
  | comment
  | text (plain : String)
  | rawText (markup : String)
  | template (source : String)
  | rawTemplate (source : String)
deriving DecidableEq, Repr

namespace Seed

/-- What the new node holds. -/
def content : Seed → Content
  | .element name => .element (.ofName name)
  | .document => .newDocument
  | .fragment => .fragment
  | .comment => .comment
  | .text plain => .text (.new plain)
  | .rawText markup => .text (.newRaw markup)
  | .template source => .template (.new source)
  | .rawTemplate source => .template (.newRaw source)

end Seed

namespace Forest

/-! ## Trees -/

/-- Takes a node out of the row of its siblings (`detach` of the store), and leaves it without a
parent. The siblings beside it are joined, and where there is none, the parent's row starts or ends
elsewhere. -/
def unlink (f : Forest) (h : Handle) : Forest :=
  match f.cell? h with
  | none => f
  | some c =>
    let l := c.links
    let f := f.relink l.previous fun k => { k with next := l.next }
    let f := f.relink l.next fun k => { k with previous := l.previous }
    let f := f.relink l.parent fun k =>
      { k with
        first := if l.previous.isSome then k.first else l.next
        last := if l.next.isSome then k.last else l.previous }
    f.relink (some h) fun k => { k with parent := none, previous := none, next := none }

/-- Puts a node without a parent behind the children of `parent` (`checked_append` of the store). -/
def link (f : Forest) (parent h : Handle) : Forest :=
  let last := (f.cell? parent).bind (·.links.last)
  let f := f.relink last fun k => { k with next := some h }
  let f := f.relink (some parent) fun k =>
    { k with first := if last.isSome then k.first else some h, last := some h }
  f.relink (some h) fun k => { k with parent := some parent, previous := last, next := none }

/-- The node of a handle; a fault if it was removed or takes no children
(`check_accepts_children`). -/
def liveParent (f : Forest) (h : Handle) : Except Fault Cell := do
  let c ← f.live h
  if c.content.acceptsChildren then return c else throw (.childless h)

/-- Makes a node of its own (`new_node`). -/
def create (f : Forest) (seed : Seed) : Handle × Forest := f.place { content := seed.content }

/-- Moves a node behind the children of `parent`. -/
def append (f : Forest) (parent child : Handle) : Except Fault Forest := do
  let _ ← f.live child
  let _ ← f.liveParent parent
  if child ∈ parent :: f.ancestors parent then throw (.cycle child)
  return (f.unlink child).link parent child

/-- Makes a node behind the children of `parent` (`append_new`). -/
def appendNew (f : Forest) (parent : Handle) (seed : Seed) : Except Fault (Handle × Forest) := do
  let _ ← f.liveParent parent
  let (h, f) := f.create seed
  return (h, f.link parent h)

/-- Makes a node the root of its own tree. -/
def detach (f : Forest) (h : Handle) : Except Fault Forest := do
  let _ ← f.live h
  return f.unlink h

/-- Makes every child of a node the root of its own tree. -/
def removeChildren (f : Forest) (h : Handle) : Except Fault Forest := do
  let _ ← f.live h
  return (f.children h).foldl unlink f

/-- Takes a node and everything below it out of the forest. The slots are released children
first (`remove_subtree` of the store), and the nodes are counted. -/
def remove (f : Forest) (h : Handle) : Except Fault (Nat × Forest) := do
  let _ ← f.live h
  let count := (f.descendants h).length
  let f := f.unlink h
  return (count, (f.postorder h).foldl release f)

/-! ## Single nodes -/

/-- Hides a node, or shows it again. -/
def setHidden (f : Forest) (h : Handle) (hidden : Bool) : Except Fault Forest := do
  let _ ← f.live h
  return f.update h fun c => { c with hidden }

/-- Gives a node other content. -/
def setContent (f : Forest) (h : Handle) (content : Content) : Forest :=
  f.update h fun c => { c with content }

/-- Edits the attributes of a node with an element. -/
def editAttributes (f : Forest) (h : Handle) (edit : AttributeEdit) : Except Fault Forest := do
  let c ← f.live h
  match c.content.editAttributes? edit with
  | some content => return f.setContent h content
  | none => throw (.notElement h)

/-- Edits a leaf of text. -/
def editText (f : Forest) (h : Handle) (edit : TextEdit) : Except Fault Forest := do
  let c ← f.live h
  match c.content.edit? edit with
  | some content => return f.setContent h content
  | none => throw (.notText h)

/-- Remembers the open tag of a node with an element. -/
def rememberTag (f : Forest) (h : Handle) : Forest :=
  f.update h fun c => { c with content := c.content.rememberTag }

/-- Makes a node with the content of another one: visible, without parent and children. The open
tag of an element is rendered first, and both remember it. -/
def copy (f : Forest) (h : Handle) : Except Fault (Handle × Forest) := do
  let c ← f.live h
  return (f.rememberTag h).place { content := c.content.rememberTag }

end Forest

end Markup

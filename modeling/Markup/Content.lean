import Markup.Element.Edit
import Markup.Element.Tag
import Markup.Template.Basic
import Markup.Text

/-!
# What a node is

A node is a fragment (a group that renders as its children), a document (the `html` element with
a doctype in front), an element, a comment, a text leaf or a template leaf: `Value`, with its
`value_type` and `accepts_children`. Leaves and void elements take no children.

* `Content.kind_edit?`: an edit of text never changes what a node is.
-/

namespace Markup

/-- What a node is, without what it holds (`ValueType`). -/
inductive Kind
  | fragment | document | element | comment | text | template
deriving DecidableEq, Repr

/-- What a node is and holds (`Value`). -/
inductive Content where
  | fragment
  | document (root : Element)
  | element (e : Element)
  | comment
  | text (t : Text)
  | template (t : Template)
deriving DecidableEq

/-- An edit of a text or template leaf: `push_text`, `push_text_unsafe`, `set_text`,
`push_var_text`, `set_var_text` and `set_unsafe`, in this order. -/
inductive TextEdit where
  | push (text : String)
  | pushRaw (markup : String)
  /-- Meant for leaves of both kinds: replaces the markup of a text leaf, or the text of a
  template. -/
  | replace (text : String)
  | pushTemplate (text : String)
  | replaceTemplate (text : String)
  | setRaw (raw : Bool)
deriving DecidableEq, Repr

namespace Content

/-- What the node is. -/
def kind : Content → Kind
  | .fragment => .fragment
  | .document _ => .document
  | .element _ => .element
  | .comment => .comment
  | .text _ => .text
  | .template _ => .template

/-- A new document. -/
def newDocument : Content := .document (.ofName .html)

/-- The element of a document or element node. -/
def element? : Content → Option Element
  | .document e => some e
  | .element e => some e
  | _ => none

/-- The same node with another element in it; other nodes hold none and stay as they are. -/
def withElement (c : Content) (e : Element) : Content :=
  match c with
  | .document _ => .document e
  | .element _ => .element e
  | c => c

/-- The markup of a text leaf. -/
def text? : Content → Option Text
  | .text t => some t
  | _ => none

/-- The template of a template leaf. -/
def template? : Content → Option Template
  | .template t => some t
  | _ => none

/-- The text of a leaf: markup of a text leaf, the text of a template as it was written. -/
def leafText? : Content → Option String
  | .text t => some t.markup
  | .template t => some t.text
  | _ => none

/-- Whether the node can have children. -/
def acceptsChildren : Content → Bool
  | .fragment | .document _ | .comment => true
  | .element e => !e.isVoid
  | .text _ | .template _ => false

/-- Edits the attributes of a document or element node. -/
def editAttributes? (c : Content) (edit : AttributeEdit) : Option Content :=
  c.element?.map fun e => c.withElement (e.edit edit)

/-- Edits a leaf, if the edit is meant for a leaf of its kind. -/
def edit? : Content → TextEdit → Option Content
  | .text t, .push s => some (.text (t.push s))
  | .text t, .pushRaw s => some (.text (t.pushRaw s))
  | .text t, .replace s => some (.text (t.replace s))
  | .template t, .replace s => some (.template (t.replace s))
  | .template t, .pushTemplate s => some (.template (t.push s))
  | .template t, .replaceTemplate s => some (.template (t.replace s))
  | .template t, .setRaw raw => some (.template (t.setRaw raw))
  | _, _ => none

/-- The node with the open tag of its element remembered. -/
def rememberTag (c : Content) : Content :=
  match c.element? with
  | some e => c.withElement e.rememberTag
  | none => c

@[simp] theorem kind_withElement (c : Content) (e : Element) : (c.withElement e).kind = c.kind := by
  cases c <;> rfl

/-- An edit of text keeps the kind of a node. -/
theorem kind_edit? {c c' : Content} {edit : TextEdit} (h : c.edit? edit = some c') :
    c'.kind = c.kind := by
  unfold edit? at h
  split at h <;> cases h <;> rfl

end Content

end Markup

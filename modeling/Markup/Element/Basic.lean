import Markup.Name.Element
import Markup.Name.Attribute
import Markup.Words

/-!
# Elements

An element (`Element`) has a name and two groups of attributes: known ones, keyed by name, and
custom ones, keyed by any text. The groups are apart: a custom attribute spelled like a known one is
another attribute. Neither group has an order of its own; here they are maps with sorted keys, so
that equal groups are equal. An element also remembers its open tag once it was rendered, until an
edit.

* `Element.sameAs_iff`: elements are compared by name and attributes; the remembered tag does
  not count.
-/

namespace Markup

/-- An element with its attributes. -/
structure Element where
  name : ElementName
  known : Std.ExtTreeMap AttributeName String := ∅
  custom : Std.ExtTreeMap String String := ∅
  /-- The open tag, if it was rendered since the last edit. -/
  cachedTag : Option String := none
deriving DecidableEq

namespace Element

/-- An element without attributes. -/
def ofName (name : ElementName) : Element := { name }

/-- Whether the element never has content. -/
def isVoid (e : Element) : Bool := e.name.isVoid

/-- The value of a known attribute. -/
def attribute? (e : Element) (a : AttributeName) : Option String := e.known[a]?

/-- Whether a known attribute is present, be it with an empty value. -/
def hasAttribute (e : Element) (a : AttributeName) : Bool := (e.attribute? a).isSome

/-- The value of a custom attribute. -/
def custom? (e : Element) (key : String) : Option String := e.custom[key]?

/-- The value of the attribute `id`. -/
def id? (e : Element) : Option String := e.attribute? .id

/-- The words of the attribute `class`. -/
def classes (e : Element) : List String := ((e.attribute? .className).map words).getD []

/-- Whether two elements have the same name and attributes. -/
def sameAs (a b : Element) : Bool := a.name = b.name && a.known = b.known && a.custom = b.custom

/-- The element without its remembered tag. -/
def forgetTag (e : Element) : Element := { e with cachedTag := none }

/-- The remembered tag does not count in the comparison. -/
theorem sameAs_iff (a b : Element) : a.sameAs b = true ↔ a.forgetTag = b.forgetTag := by
  cases a
  cases b
  simp [sameAs, forgetTag, and_assoc]

end Element

end Markup

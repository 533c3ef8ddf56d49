import Markup.Element.Basic

/-!
# Edits of attributes

An empty value means three things. Setting a known attribute to it removes the attribute; a flag
that is on is a known attribute with an empty value; a custom attribute keeps it.

Every edit forgets the remembered open tag (`mark_dirty`), whether it changes an attribute or not.
The one exception is `add_classes` when there is nothing to add.

* `Element.name_edit`: no edit changes the name of an element.
* `Element.cachedTag_edit`: which edits forget the tag.
-/

namespace Markup

/-- An edit of the attributes of one element: `set_attr`, `set_flag`, `remove_attr`,
`set_attribute`, `set_attributes`, `remove_attribute`, `remove_attributes`, `add_classes` and
`set_classes`, in this order. What takes several goes through them from left to right. -/
inductive AttributeEdit where
  /-- Sets a known attribute; an empty value removes it. -/
  | set (a : AttributeName) (value : String)
  | setFlag (a : AttributeName) (on : Bool)
  | remove (a : AttributeName)
  | setCustom (key value : String)
  | setCustoms (pairs : List (String × String))
  | removeCustom (key : String)
  | removeCustoms (keys : List String)
  | addClasses (classes : List String)
  | setClasses (classes : List String)
deriving DecidableEq, Repr

namespace AttributeEdit

/-- Sets the attribute `id`; an empty value removes it. -/
def setId (value : String) : AttributeEdit := .set .id value

/-- Sets the attribute `title`; an empty value removes it. -/
def setTitle (value : String) : AttributeEdit := .set .title value

end AttributeEdit

/-- Classes side by side (`join_classes`). There is no separator before the first text that is not
empty. -/
def joinClasses (classes : List String) : String :=
  classes.foldl (fun joined c => if joined.isEmpty then c else joined ++ " " ++ c) ""

namespace Element

/-- Other known attributes, and no remembered tag. -/
def withKnown (e : Element) (known : Std.ExtTreeMap AttributeName String) : Element :=
  { e with known, cachedTag := none }

/-- Other custom attributes, and no remembered tag. -/
def withCustom (e : Element) (custom : Std.ExtTreeMap String String) : Element :=
  { e with custom, cachedTag := none }

/-- Sets a known attribute; an empty value removes it. -/
def setAttribute (e : Element) (a : AttributeName) (value : String) : Element :=
  e.withKnown (if value.isEmpty then e.known.erase a else e.known.insert a value)

/-- The attribute `class` after more classes were added to it. -/
def extendedClass (e : Element) (added : String) : String :=
  match e.attribute? .className with
  | some present => if present.isEmpty then added else present ++ " " ++ added
  | none => added

/-- Carries out an edit. -/
def edit (e : Element) : AttributeEdit → Element
  | .set a value => e.setAttribute a value
  | .setFlag a true => e.withKnown (e.known.insert a "")
  | .setFlag a false => e.withKnown (e.known.erase a)
  | .remove a => e.withKnown (e.known.erase a)
  | .setCustom key value => e.withCustom (e.custom.insert key value)
  | .setCustoms pairs =>
    e.withCustom (pairs.foldl (fun custom pair => custom.insert pair.1 pair.2) e.custom)
  | .removeCustom key => e.withCustom (e.custom.erase key)
  | .removeCustoms keys => e.withCustom (keys.foldl (fun custom key => custom.erase key) e.custom)
  | .addClasses classes =>
    let added := joinClasses classes
    if added.isEmpty then e
    else e.withKnown (e.known.insert .className (e.extendedClass added))
  | .setClasses classes => e.setAttribute .className (joinClasses classes)

/-- No edit changes the name of an element. -/
@[simp] theorem name_edit (e : Element) (c : AttributeEdit) : (e.edit c).name = e.name := by
  cases c with
  | setFlag a on => cases on <;> rfl
  | addClasses classes =>
    simp only [edit]
    split <;> rfl
  | _ => rfl

/-- An edit forgets the remembered tag, unless it adds no classes. -/
theorem cachedTag_edit (e : Element) (c : AttributeEdit) :
    (e.edit c).cachedTag = none ∨ e.edit c = e := by
  cases c with
  | setFlag a on => cases on <;> exact Or.inl rfl
  | addClasses classes =>
    simp only [edit]
    split
    · exact Or.inr rfl
    · exact Or.inl rfl
  | _ => exact Or.inl rfl

end Element

end Markup

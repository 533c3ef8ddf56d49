import Markup.Element.Basic
import Markup.Escape

/-!
# Tags

An open tag lists the attributes of an element as ` key="value"`, with the value escaped
(`render_open_tag`). The compact tag (`open_tag`) has the known attributes and then the custom ones,
each group in the order of a hash map, which is left open. Here it has them by ordinal and by key, a
choice that makes the tag a function of the attributes. `Element.Listing` has the tags in all the
other orders, for what is to hold whichever comes.

The sorted tag (`sorted_open_tag`) lists the attributes by ordinal while there is no custom one.
With one, all attributes are ordered by name and a custom one hides a known one of that name.

* `Element.compactTag_congr`, `Element.sortedTag_congr`: the tags depend on the name and the
  attributes, not on the remembered tag.
-/

namespace Markup

namespace Element

/-- The known attributes by ordinal, with their spellings. -/
def knownPairs (e : Element) : List (String × String) :=
  e.known.toList.map fun pair => (pair.1.spelling, pair.2)

/-- The attributes of the compact tag: the known ones, then the custom ones. In which order those of
each group come is left open, and by ordinal and by key is chosen here. -/
def compactPairs (e : Element) : List (String × String) := e.knownPairs ++ e.custom.toList

/-- The attributes under their names, where a custom one hides a known one. -/
def byName (e : Element) : Std.ExtTreeMap String String :=
  e.compactPairs.foldl (fun merged pair => merged.insert pair.1 pair.2) ∅

/-- The attributes of the sorted tag. -/
def sortedPairs (e : Element) : List (String × String) :=
  if e.custom.isEmpty then e.knownPairs else e.byName.toList

/-- One attribute as it stands in a tag. -/
def attributeText (pair : String × String) : String :=
  " " ++ pair.1 ++ "=\"" ++ escape pair.2 ++ "\""

/-- The open tag with the given attributes. -/
def tagWith (e : Element) (pairs : List (String × String)) : String :=
  "<" ++ e.name.spelling ++ String.join (pairs.map attributeText) ++
    if e.isVoid then " />" else ">"

/-- The open tag of compact output, with the attributes in the order chosen here. -/
def compactTag (e : Element) : String := e.tagWith e.compactPairs

/-- The open tag of pretty output. -/
def sortedTag (e : Element) : String := e.tagWith e.sortedPairs

/-- The open tag that compact output writes (`open_tag`): the remembered one, if there is one. -/
def currentTag (e : Element) : String := e.cachedTag.getD e.compactTag

/-- The element with its open tag remembered. -/
def rememberTag (e : Element) : Element := { e with cachedTag := some e.currentTag }

theorem compactTag_congr {a b : Element} (h : a.forgetTag = b.forgetTag) :
    a.compactTag = b.compactTag := by
  show a.forgetTag.compactTag = b.forgetTag.compactTag
  rw [h]

theorem sortedTag_congr {a b : Element} (h : a.forgetTag = b.forgetTag) :
    a.sortedTag = b.sortedTag := by
  show a.forgetTag.sortedTag = b.forgetTag.sortedTag
  rw [h]

end Element

end Markup

import Markup.Render.Basic

/-!
# Attributes in any order

An element holds its attributes in no particular order. Its compact tag (`open_tag`) lists the known
ones and then the custom ones, and each group comes in an order that is left open: it may be another
one for every element, and another one every time. `Element.compactTag` is the tag in one order of
many, by ordinal and by key. Here is compact output in all of them.

* `Element.Listing`: an order for the attributes of an element.
* `Forest.compactIn`: compact output where every element has its own.
* `Element.Listing.tag_canonical`: the order of `Element.compactTag` is one of them.
-/

namespace Markup

/-- The attributes of an element, each group in some order. -/
structure Element.Listing (e : Element) where
  known : List (AttributeName × String)
  custom : List (String × String)
  known_perm : known.Perm e.known.toList
  custom_perm : custom.Perm e.custom.toList

namespace Element.Listing

variable {e : Element}

/-- The attributes as they stand in the tag. -/
def pairs (l : e.Listing) : List (String × String) :=
  (l.known.map fun pair => (pair.1.spelling, pair.2)) ++ l.custom

/-- The open tag in this order. -/
def tag (l : e.Listing) : String := e.tagWith l.pairs

/-- By ordinal and by key. -/
def canonical (e : Element) : e.Listing := ⟨e.known.toList, e.custom.toList, .refl _, .refl _⟩

/-- The other way round. -/
def reversed (e : Element) : e.Listing where
  known := e.known.toList.reverse
  custom := e.custom.toList.reverse
  known_perm := List.reverse_perm _
  custom_perm := List.reverse_perm _

@[simp] theorem tag_canonical (e : Element) : (canonical e).tag = e.compactTag := rfl

end Element.Listing

/-- An order for every element, wherever it stands. A tag that is remembered was rendered in one of
the orders of its element as well. -/
abbrev Listings : Type := (h : Handle) → (e : Element) → e.Listing

/-- All elements in their canonical order. -/
def Listings.canonical : Listings := fun _ e => .canonical e

/-- All elements the other way round. -/
def Listings.reversed : Listings := fun _ e => .reversed e

/-- What a piece shows when open tags are in the given orders. -/
def Piece.shownIn (ls : Listings) : Piece → String
  | .tag h e => (ls h e).tag
  | p => p.shown

/-- The compact output of a node as text, with open tags in the given orders. -/
def Forest.compactIn (f : Forest) (h : Handle) (env : Option Environment) (ls : Listings) :
    Except Fault String := do
  return String.join ((← f.pieces h .compact env).map (Piece.shownIn ls))

end Markup

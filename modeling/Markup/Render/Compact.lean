import Markup.Render.Delivery
import Markup.Render.Token

/-!
# Compact layout

Tokens are written one behind the other with nothing between them, and open tags are the
remembered ones (`CompactSerializer`).
-/

namespace Markup

/-- Stands in front of the `html` element of a document. -/
def doctype : String := "<!DOCTYPE html>"

/-- The tag at the end of an element; a void element has none. -/
def closeTag (e : Element) : List Piece :=
  if e.isVoid then [] else [.text "</", .text e.name.spelling, .text ">"]

namespace Compact

/-- The pieces of one token (`serialize_output`). -/
def tokenPieces : Token → List Piece
  | .openDocument h root => [.text doctype, .tag h root]
  | .openElement h e => [.tag h e]
  | .closeDocument e | .closeElement e => closeTag e
  | .openComment => [.text "<!-- "]
  | .closeComment => [.text " -->"]
  | .openFragment | .closeFragment => []
  | .leaf portions => portions.map .text

/-- The pieces of compact output. -/
def pieces (tokens : List Token) : List Piece := tokens.flatMap tokenPieces

end Compact

end Markup

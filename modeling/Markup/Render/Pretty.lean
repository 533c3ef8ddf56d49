import Markup.Render.Compact

/-!
# Pretty layout

Every node starts on a line of its own, indented one unit deeper than its parent, and attributes are
sorted (`PrettySerializer`). The nodes that are open while their children are written are kept as
frames, the innermost first.

Fragments have no place of their own: their children stand where the fragment would. A fragment
in which nothing has been written yet is pending. When the first node starts in it, it counts for
the frames around it as a child, and so does every pending fragment around it; so an empty
fragment leaves no line behind.

* `Pretty.length_announce`: the start of a node opens and closes no frame around it.
-/

namespace Markup

namespace Pretty

/-- A node that is open while its children are written (`Frame`). -/
structure Frame where
  indentation : Nat
  /-- Children of a fragment take its own indentation, and the first one no new line. -/
  isFragment : Bool
  hasChildren : Bool := false
deriving DecidableEq, Repr

namespace Frame

/-- A fragment in which nothing was written yet. -/
def isPending (fr : Frame) : Bool := fr.isFragment && !fr.hasChildren

/-- The frame with one more child. -/
def withChild (fr : Frame) : Frame := { fr with hasChildren := true }

/-- What is written in front of the next child: a new line, except in front of the first child of
a fragment. -/
def separator (fr : Frame) : List Piece := if fr.isPending then [] else [.text "\n"]

end Frame

/-- Counts a new child in the innermost frame, and first in the frames around it as far as they are
pending. Gives the frames and what is written in front of the child (`start_node`, with `separate`
for each of the frames). -/
def announce : List Frame → List Frame × List Piece
  | [] => ([], [])
  | fr :: rest =>
    let (rest, outer) := if fr.isPending then announce rest else (rest, [])
    (fr.withChild :: rest, outer ++ fr.separator)

/-- The indentation of a child of the innermost frame. -/
def childIndentation (unit : Nat) : List Frame → Nat
  | [] => 0
  | fr :: _ => if fr.isFragment then fr.indentation else fr.indentation + unit

/-- The innermost frame, and those around it. Every token that ends a node comes after the one
that started it, so there is a frame whenever one is asked for. -/
def pop : List Frame → Frame × List Frame
  | [] => ({ indentation := 0, isFragment := true }, [])
  | fr :: rest => (fr, rest)

/-- A node that has others inside starts: its frame and its pieces, given the pieces behind the
indentation. -/
def openNode (unit : Nat) (stack : List Frame) (inner : Nat → List Piece) :
    List Frame × List Piece :=
  let (stack, separator) := announce stack
  let indentation := childIndentation unit stack
  ({ indentation, isFragment := false } :: stack,
    separator ++ .spaces indentation :: inner indentation)

/-- The pieces of one token, and the frames behind it (`serialize_output`). -/
def step (unit : Nat) (stack : List Frame) : Token → List Frame × List Piece
  | .openDocument _ root =>
    openNode unit stack fun indentation =>
      [.text doctype, .text "\n", .spaces indentation, .text root.sortedTag]
  | .openElement _ e => openNode unit stack fun _ => [.text e.sortedTag]
  | .openComment => openNode unit stack fun _ => [.text "<!--"]
  | .openFragment =>
    ({ indentation := childIndentation unit stack, isFragment := true } :: stack, [])
  | .leaf portions =>
    let (stack, separator) := announce stack
    (stack, separator ++ .spaces (childIndentation unit stack) :: portions.map .text)
  | .closeDocument e | .closeElement e =>
    let (fr, stack) := pop stack
    let line := if fr.hasChildren && !e.isVoid then [.text "\n", .spaces fr.indentation] else []
    (stack, line ++ closeTag e)
  | .closeComment =>
    let (fr, stack) := pop stack
    (stack,
      if fr.hasChildren then [.text "\n", .spaces fr.indentation, .text "-->"]
      else [.text " -->"])
  | .closeFragment => ((pop stack).2, [])

/-- The pieces of tokens that follow while the given frames are open. -/
def piecesFrom (unit : Nat) : List Frame → List Token → List Piece
  | _, [] => []
  | stack, token :: tokens =>
    (step unit stack token).2 ++ piecesFrom unit (step unit stack token).1 tokens

/-- The pieces of pretty output. -/
def pieces (unit : Nat) (tokens : List Token) : List Piece := piecesFrom unit [] tokens

/-- The indentation unit if none is asked for. -/
def defaultUnit : Nat := 2

/-- No frame is opened or closed by the start of a node in it. -/
theorem length_announce (stack : List Frame) : (announce stack).1.length = stack.length := by
  induction stack with
  | nil => rfl
  | cons fr rest ih =>
    simp only [announce, List.length_cons, Nat.add_right_cancel_iff]
    split
    · exact ih
    · rfl

end Pretty

end Markup

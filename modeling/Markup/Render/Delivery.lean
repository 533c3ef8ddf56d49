import Markup.Event
import Markup.Forest.Edit
import Markup.Sink
import Markup.Slice

/-!
# Delivery

The tokens of a rendering become pieces of output, and the pieces go into a sink one after the other
until it fails (`write_str` and `write_indent` of `CountingWriter`). An open tag that is not
remembered is rendered when its turn comes: a tag that is behind the failure is never rendered.

* `deliver` says what the sink took, and which tags were rendered on the way.
-/

namespace Markup

/-- A piece of output. -/
inductive Piece where
  | text (s : String)
  | spaces (count : Nat)
  | tag (h : Handle) (e : Element)
deriving DecidableEq

/-- What became of a list of pieces. -/
structure Delivery where
  transfer : Transfer := {}
  /-- The elements whose open tags were rendered, in order. -/
  rendered : List (Handle × ElementName) := []
deriving DecidableEq

namespace Piece

/-- The text of a piece. -/
def shown : Piece → String
  | .text s => s
  | .spaces count => String.ofList (List.replicate count ' ')
  | .tag _ e => e.currentTag

end Piece

namespace Delivery

/-- Whether the sink has failed. -/
def hasFailed (d : Delivery) : Bool := d.transfer.failure.isSome

/-- Delivers one more piece. -/
def accept (s : Sink) (d : Delivery) : Piece → Delivery
  | .text text => { d with transfer := s.write d.transfer (utf8 text) }
  | .spaces count => { d with transfer := s.writeSpaces d.transfer count }
  | .tag h e =>
    { transfer := s.write d.transfer (utf8 e.currentTag)
      rendered :=
        if d.hasFailed || e.cachedTag.isSome then d.rendered else d.rendered ++ [(h, e.name)] }

/-- The reports of a delivery: the rendered tags, and last the failure. -/
def log (d : Delivery) : List Event :=
  d.rendered.map (fun r => .openTag r.2) ++
    (d.transfer.failure.map (Event.aborted d.transfer.taken.size)).toList

end Delivery

/-- Delivers pieces in order. -/
def deliver (s : Sink) (pieces : List Piece) : Delivery := pieces.foldl (Delivery.accept s) {}

end Markup

import Markup.Render.Pretty

/-!
# Rendering

A node is rendered into a sink, in one of two layouts (`write` and `write_pretty_with`), with the
names of an environment; `to_string` and `to_pretty_string` give the output as text. The forest
stays as it was, except that elements remember the open tags that compact output rendered. A failure
of the sink ends the rendering; the bytes that it took are a prefix of the output.
-/

namespace Markup

/-- How tokens are laid out. -/
inductive Layout where
  | compact
  /-- A line for every node, indented by units of so many spaces. -/
  | pretty (unit : Nat)
deriving DecidableEq, Repr

/-- The pieces of a token sequence. -/
def Layout.pieces : Layout → List Token → List Piece
  | .compact, tokens => Compact.pieces tokens
  | .pretty unit, tokens => Pretty.pieces unit tokens

/-- The outcome of a rendering: the forest afterwards, what the sink took, why the rendering ended
early, if it did, and the reports. -/
structure Rendering where
  forest : Forest
  taken : Array UInt8 := #[]
  failure : Option Fault := none
  log : List Event := []
deriving DecidableEq

namespace Forest

/-- The output of a node, piece by piece. -/
def pieces (f : Forest) (h : Handle) (layout : Layout) (env : Option Environment) :
    Except Fault (List Piece) := do
  let _ ← f.live h
  return layout.pieces (← f.tokens h env)

/-- The output of a node as text. -/
def output (f : Forest) (h : Handle) (layout : Layout) (env : Option Environment) :
    Except Fault String := do
  return String.join ((← f.pieces h layout env).map Piece.shown)

/-- Renders a node into a sink. -/
def render (f : Forest) (h : Handle) (layout : Layout) (env : Option Environment) (sink : Sink) :
    Rendering :=
  match f.pieces h layout env with
  | .error fault => { forest := f, failure := some fault }
  | .ok pieces =>
    let d := deliver sink pieces
    { forest := d.rendered.foldl (fun f r => f.rememberTag r.1) f
      taken := d.transfer.taken
      failure := d.transfer.failure.map (.unwritten d.transfer.taken.size)
      log := d.log }

end Forest

end Markup

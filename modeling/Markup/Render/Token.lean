import Markup.Forest.Walk

/-!
# Tokens

A rendering is a sequence of tokens (`gen_outputs`): every visible node gives one where it starts,
and a node that can have others inside gives one where it ends. A leaf comes with the portions of
its text, which for a template are its expansion in the environment at hand.

* `Forest.tokens` reads the tokens off the walk through the visible nodes.
-/

namespace Markup

/-- A part of what is rendered (`Output`). -/
inductive Token where
  | openDocument (h : Handle) (root : Element)
  | closeDocument (root : Element)
  | openElement (h : Handle) (e : Element)
  | closeElement (e : Element)
  | openComment
  | closeComment
  | openFragment
  | closeFragment
  | leaf (portions : List String)
deriving DecidableEq

namespace Content

/-- The token where a node starts (`start_output`). -/
def startToken (env : Option Environment) (h : Handle) : Content → Except Fault Token
  | .fragment => .ok .openFragment
  | .document root => .ok (.openDocument h root)
  | .element e => .ok (.openElement h e)
  | .comment => .ok .openComment
  | .text t => .ok (.leaf [t.markup])
  | .template t =>
    match t.portions? env with
    | some portions => .ok (.leaf portions)
    | none => .error .brokenSpan

/-- The token where a node ends (`end_output`); leaves have none. -/
def stopToken? : Content → Option Token
  | .fragment => some .closeFragment
  | .document root => some (.closeDocument root)
  | .element e => some (.closeElement e)
  | .comment => some .closeComment
  | .text _ | .template _ => none

end Content

namespace Forest

/-- The tokens of one edge of a walk. -/
def edgeTokens (f : Forest) (env : Option Environment) : Edge → Except Fault (List Token)
  | .start h => do return [← (← f.held h).content.startToken env h]
  | .stop h => do return (← f.held h).content.stopToken?.toList

/-- The tokens of the visible part of a node. -/
def tokens (f : Forest) (h : Handle) (env : Option Environment) : Except Fault (List Token) := do
  return (← (← f.traverse h).mapM (f.edgeTokens env)).flatten

end Forest

end Markup

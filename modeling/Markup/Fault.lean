import Markup.Handle

/-!
# Faults

A fault (`Error`) says why an operation had no result. Its message is fixed text, with the handle of
the node that it is about.

Two faults are not about what was asked for but about the state of things. `vacant` is the answer
to a question about the content of a slot, through the handle of a removed node, while the slot is
empty. `brokenSpan` is for a template whose stored references do not fit its text; the operations
on templates never make one.
-/

namespace Markup

/-- Why an operation had no result. -/
inductive Fault where
  | notFound
  | notElement (h : Handle)
  | notText (h : Handle)
  | childless (h : Handle)
  | cycle (h : Handle)
  | removed (h : Handle)
  | unwritten (written : Nat) (cause : String)
  | vacant (h : Handle)
  | brokenSpan
deriving DecidableEq, Repr

namespace Fault

/-- The text of a fault. -/
def message : Fault → String
  | .notFound => "not found"
  | .notElement h => "not an element: " ++ h.text
  | .notText h => "not a text node: " ++ h.text
  | .childless h => "node cannot have children: " ++ h.text
  | .cycle h => "cannot append a node to itself or its descendants: " ++ h.text
  | .removed h => "node was removed: " ++ h.text
  | .unwritten written cause => "write failed after " ++ toString written ++ " bytes: " ++ cause
  | .vacant h => "slot holds no node: " ++ h.text
  | .brokenSpan => "reference outside its text"

end Fault

end Markup

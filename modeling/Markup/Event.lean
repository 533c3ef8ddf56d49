import Markup.Name.Element

/-!
# Events

What operations report besides their result: the events `rendering open tag`, `render aborted` and
`removed subtree`.
-/

namespace Markup

/-- A report of an operation. -/
inductive Event where
  | openTag (name : ElementName)
  | aborted (written : Nat) (cause : String)
  | removed (count : Nat)
deriving DecidableEq, Repr

end Markup

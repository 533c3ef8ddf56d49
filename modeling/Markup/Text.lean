import Markup.Escape

/-!
# Text leaves

A text leaf (`Text`) holds markup, ready to be written: plain text is escaped when it is added
(`push_str`), and raw text is taken as it is (`push_str_unsafe`).

* `Text.push_new`: adding plain text in portions is the same as adding it at once.
-/

namespace Markup

/-- A text leaf. -/
structure Text where
  markup : String
deriving DecidableEq, Repr

namespace Text

/-- A leaf that shows plain text. -/
def new (text : String) : Text := ⟨escape text⟩

/-- A leaf that holds markup. -/
def newRaw (markup : String) : Text := ⟨markup⟩

/-- Adds plain text at the end. -/
def push (t : Text) (text : String) : Text := ⟨t.markup ++ escape text⟩

/-- Adds markup at the end. -/
def pushRaw (t : Text) (markup : String) : Text := ⟨t.markup ++ markup⟩

/-- Puts markup in place of what was there. -/
def replace (_ : Text) (markup : String) : Text := ⟨markup⟩

/-- Adding plain text in portions is the same as adding it at once. -/
theorem push_new (a b : String) : (new a).push b = new (a ++ b) := by
  simp [new, push, escape_append]

end Text

end Markup

import Markup.Environment
import Markup.Escape
import Markup.Template.Span

/-!
# Templates

A template (`VarText`) is text with references to the names of an environment. It is kept as it was
written, with the places of its references, and expanded only when it is rendered: the text between
the references and the texts put in their place are escaped then, unless the template is raw.

* `Template.spans_new`, `Template.spans_push`, `Template.spans_replace`: the references are those
  of the present text. Appended text is not read on its own, because it may complete a name.
-/

namespace Markup

/-- Text with references. -/
structure Template where
  text : String
  spans : List Span
  raw : Bool
deriving DecidableEq, Repr

namespace Template

/-- A template that escapes what it shows. -/
def new (text : String) : Template := ⟨text, Markup.spans text, false⟩

/-- A template that shows everything as it is. -/
def newRaw (text : String) : Template := ⟨text, Markup.spans text, true⟩

/-- Puts another text in place of the present one. -/
def replace (t : Template) (text : String) : Template :=
  { t with text := text, spans := Markup.spans text }

/-- Adds text at the end, and reads the whole text again. -/
def push (t : Template) (text : String) : Template := t.replace (t.text ++ text)

/-- Makes the template raw or not. -/
def setRaw (t : Template) (raw : Bool) : Template := { t with raw := raw }

/-- A portion of the result, escaped unless the template is raw. -/
def shown (t : Template) (portion : String) : String :=
  if t.raw then portion else escape portion

/-- What stands for a name: a dollar sign for `$`, which needs no escape, and else the text the
environment gives it. -/
def substitute (t : Template) (env : Option Environment) (name : String) : String :=
  if name = String.singleton sigil then name else t.shown (Environment.lookup env name)

/-- The portions of the result from byte `offset` on, where the given references remain. -/
def portionsFrom (t : Template) (env : Option Environment) : Nat → List Span → Option (List String)
  | offset, [] => do
    let literal ← slice? t.text offset t.text.utf8ByteSize
    return [t.shown literal]
  | offset, s :: rest => do
    let literal ← slice? t.text offset s.start
    let name ← s.name? t.text
    let portions ← t.portionsFrom env s.stop rest
    return t.shown literal :: t.substitute env name :: portions

/-- The portions of the result (`chunks`): literal text and substituted text by turns. There is no
result when a stored reference does not cut the text. -/
def portions? (t : Template) (env : Option Environment) : Option (List String) :=
  t.portionsFrom env 0 t.spans

/-- The text shown for the template (`expand`). -/
def expand? (t : Template) (env : Option Environment) : Option String :=
  (t.portions? env).map String.join

theorem spans_new (text : String) : (new text).spans = Markup.spans (new text).text := rfl

theorem spans_replace (t : Template) (text : String) :
    (t.replace text).spans = Markup.spans (t.replace text).text := rfl

theorem spans_push (t : Template) (text : String) :
    (t.push text).spans = Markup.spans (t.push text).text := rfl

end Template

end Markup

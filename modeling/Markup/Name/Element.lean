import Markup.Name.Identifier

/-!
# Element names

The elements that a tree can hold (`ElementId`). An element name has a spelling (what a tag shows),
an identifier (what structured data shows) and an ordinal, its place in the declaration. `as_str`
and `from_name` are the spelling and the way back from it.

* `ElementName.ofSpelling?_spelling`, `ElementName.ofIdentifier?_identifier`: both texts lead
  back to the name.
* `ElementName.all_getElem?_ordinal`: `all` lists the names by ordinal.
-/

namespace Markup

/-- A known element. -/
inductive ElementName
  | a | abbr | address | b | blockquote | body | br | button | canvas | caption | cite | code
  | datalist | dfn | div | dd | dl | dt | em | footer | form | h1 | h2 | h3 | h4 | h5 | h6
  | head | hr | html | i | img | input | kbd | label | li | link | metadata | noscript | ol
  | option | p | pre | samp | script | select | small | span | strong | style | table | tbody
  | td | textarea | tfoot | th | thead | title | tr | u | ul | var
deriving DecidableEq, Repr

namespace ElementName

/-- The name as it appears in markup. -/
def spelling : ElementName → String
  | .a => "a"
  | .abbr => "abbr"
  | .address => "address"
  | .b => "b"
  | .blockquote => "blockquote"
  | .body => "body"
  | .br => "br"
  | .button => "button"
  | .canvas => "canvas"
  | .caption => "caption"
  | .cite => "cite"
  | .code => "code"
  | .datalist => "datalist"
  | .dfn => "dfn"
  | .div => "div"
  | .dd => "dd"
  | .dl => "dl"
  | .dt => "dt"
  | .em => "em"
  | .footer => "footer"
  | .form => "form"
  | .h1 => "h1"
  | .h2 => "h2"
  | .h3 => "h3"
  | .h4 => "h4"
  | .h5 => "h5"
  | .h6 => "h6"
  | .head => "head"
  | .hr => "hr"
  | .html => "html"
  | .i => "i"
  | .img => "img"
  | .input => "input"
  | .kbd => "kbd"
  | .label => "label"
  | .li => "li"
  | .link => "link"
  | .metadata => "meta"
  | .noscript => "noscript"
  | .ol => "ol"
  | .option => "option"
  | .p => "p"
  | .pre => "pre"
  | .samp => "samp"
  | .script => "script"
  | .select => "select"
  | .small => "small"
  | .span => "span"
  | .strong => "strong"
  | .style => "style"
  | .table => "table"
  | .tbody => "tbody"
  | .td => "td"
  | .textarea => "textarea"
  | .tfoot => "tfoot"
  | .th => "th"
  | .thead => "thead"
  | .title => "title"
  | .tr => "tr"
  | .u => "u"
  | .ul => "ul"
  | .var => "var"

/-- Elements without content, whose tag closes itself: `<br />`. -/
def isVoid : ElementName → Bool
  | .br | .hr | .img | .input | .link | .metadata => true
  | _ => false

/-- The identifier that structured data uses. `NoScript` alone has a capital inside a word. -/
def identifier : ElementName → String
  | .noscript => "NoScript"
  | n => Markup.identifier n.spelling

/-- The place in the declaration, from 0. -/
def ordinal (n : ElementName) : Nat := n.ctorIdx

/-- Every element name, by ordinal. -/
def all : List ElementName :=
  [.a, .abbr, .address, .b, .blockquote, .body, .br, .button, .canvas, .caption, .cite, .code,
   .datalist, .dfn, .div, .dd, .dl, .dt, .em, .footer, .form, .h1, .h2, .h3, .h4, .h5, .h6,
   .head, .hr, .html, .i, .img, .input, .kbd, .label, .li, .link, .metadata, .noscript, .ol,
   .option, .p, .pre, .samp, .script, .select, .small, .span, .strong, .style, .table, .tbody,
   .td, .textarea, .tfoot, .th, .thead, .title, .tr, .u, .ul, .var]

/-- The element with this spelling. -/
def ofSpelling? (text : String) : Option ElementName := all.find? (·.spelling = text)

/-- The element with this identifier. -/
def ofIdentifier? (text : String) : Option ElementName := all.find? (·.identifier = text)

/-- `all` lists the names by ordinal. -/
theorem all_getElem?_ordinal (n : ElementName) : all[n.ordinal]? = some n := by
  cases n <;> rfl

theorem mem_all (n : ElementName) : n ∈ all :=
  List.mem_of_getElem? (all_getElem?_ordinal n)

/-- A spelling names one element. -/
theorem ofSpelling?_spelling (n : ElementName) : ofSpelling? n.spelling = some n := by
  cases n <;> decide

/-- An identifier names one element. -/
theorem ofIdentifier?_identifier (n : ElementName) : ofIdentifier? n.identifier = some n := by
  cases n <;> decide

end ElementName

end Markup

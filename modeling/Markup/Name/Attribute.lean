import Std.Data.ExtTreeMap
import Markup.Name.Identifier

/-!
# Attribute names

The attributes that are known by name (`AttrId`); any other attribute is custom, and keyed by its
text. Known attributes are ordered by their place in the declaration, which is nearly alphabetical:
`onload` stands right after `onfocus`, and `rowspan` before `readonly`.

* `AttributeName.ofSpelling?_spelling`, `AttributeName.ofIdentifier?_identifier`: both texts
  lead back to the name.
* `AttributeName.ordinal_inj`: the order is total, so it can key a sorted map.
-/

namespace Markup

/-- A known attribute. -/
inductive AttributeName
  | acceptCharset | action | alt | autocomplete | autofocus | border | charset | checked
  | className | cols | colspan | content | disabled | enctype | htmlFor | form | headers
  | height | href | hreflang | httpEquiv | id | ismap | label | list | max | maxlength | media
  | method | min | multiple | name | onblur | onchange | onclick | ondblclick | onfocus
  | onload | onkeydown | onkeypress | onkeyup | onmousedown | onmousemove | onmouseout
  | onmouseover | onmouseup | onselect | onsubmit | pattern | placeholder | rowspan | readonly
  | rel | required | rows | scope | selected | size | src | step | target | title | type
  | usemap | value | width | wrap
deriving DecidableEq, Repr

namespace AttributeName

/-- The name as it appears in markup. -/
def spelling : AttributeName → String
  | .acceptCharset => "accept-charset"
  | .action => "action"
  | .alt => "alt"
  | .autocomplete => "autocomplete"
  | .autofocus => "autofocus"
  | .border => "border"
  | .charset => "charset"
  | .checked => "checked"
  | .className => "class"
  | .cols => "cols"
  | .colspan => "colspan"
  | .content => "content"
  | .disabled => "disabled"
  | .enctype => "enctype"
  | .htmlFor => "for"
  | .form => "form"
  | .headers => "headers"
  | .height => "height"
  | .href => "href"
  | .hreflang => "hreflang"
  | .httpEquiv => "http-equiv"
  | .id => "id"
  | .ismap => "ismap"
  | .label => "label"
  | .list => "list"
  | .max => "max"
  | .maxlength => "maxlength"
  | .media => "media"
  | .method => "method"
  | .min => "min"
  | .multiple => "multiple"
  | .name => "name"
  | .onblur => "onblur"
  | .onchange => "onchange"
  | .onclick => "onclick"
  | .ondblclick => "ondblclick"
  | .onfocus => "onfocus"
  | .onload => "onload"
  | .onkeydown => "onkeydown"
  | .onkeypress => "onkeypress"
  | .onkeyup => "onkeyup"
  | .onmousedown => "onmousedown"
  | .onmousemove => "onmousemove"
  | .onmouseout => "onmouseout"
  | .onmouseover => "onmouseover"
  | .onmouseup => "onmouseup"
  | .onselect => "onselect"
  | .onsubmit => "onsubmit"
  | .pattern => "pattern"
  | .placeholder => "placeholder"
  | .rowspan => "rowspan"
  | .readonly => "readonly"
  | .rel => "rel"
  | .required => "required"
  | .rows => "rows"
  | .scope => "scope"
  | .selected => "selected"
  | .size => "size"
  | .src => "src"
  | .step => "step"
  | .target => "target"
  | .title => "title"
  | .type => "type"
  | .usemap => "usemap"
  | .value => "value"
  | .width => "width"
  | .wrap => "wrap"

/-- The identifier that structured data uses. -/
def identifier (n : AttributeName) : String := Markup.identifier n.spelling

/-- The place in the declaration, from 0. -/
def ordinal (n : AttributeName) : Nat := n.ctorIdx

/-- Every attribute name, by ordinal. -/
def all : List AttributeName :=
  [.acceptCharset, .action, .alt, .autocomplete, .autofocus, .border, .charset, .checked,
   .className, .cols, .colspan, .content, .disabled, .enctype, .htmlFor, .form, .headers,
   .height, .href, .hreflang, .httpEquiv, .id, .ismap, .label, .list, .max, .maxlength, .media,
   .method, .min, .multiple, .name, .onblur, .onchange, .onclick, .ondblclick, .onfocus,
   .onload, .onkeydown, .onkeypress, .onkeyup, .onmousedown, .onmousemove, .onmouseout,
   .onmouseover, .onmouseup, .onselect, .onsubmit, .pattern, .placeholder, .rowspan, .readonly,
   .rel, .required, .rows, .scope, .selected, .size, .src, .step, .target, .title, .type,
   .usemap, .value, .width, .wrap]

/-- The attribute with this spelling. -/
def ofSpelling? (text : String) : Option AttributeName := all.find? (·.spelling = text)

/-- The attribute with this identifier. -/
def ofIdentifier? (text : String) : Option AttributeName := all.find? (·.identifier = text)

/-- `all` lists the names by ordinal. -/
theorem all_getElem?_ordinal (n : AttributeName) : all[n.ordinal]? = some n := by
  cases n <;> rfl

theorem mem_all (n : AttributeName) : n ∈ all :=
  List.mem_of_getElem? (all_getElem?_ordinal n)

/-- A spelling names one attribute. -/
theorem ofSpelling?_spelling (n : AttributeName) : ofSpelling? n.spelling = some n := by
  cases n <;> decide

/-- An identifier names one attribute. -/
theorem ofIdentifier?_identifier (n : AttributeName) : ofIdentifier? n.identifier = some n := by
  cases n <;> decide

/-- Different attributes have different ordinals. -/
theorem ordinal_inj {m n : AttributeName} (h : m.ordinal = n.ordinal) : m = n := by
  have hm := all_getElem?_ordinal m
  rw [h, all_getElem?_ordinal n] at hm
  exact (Option.some.inj hm).symm

/-! ## The order of known attributes -/

instance : Ord AttributeName := ⟨compareOn ordinal⟩

instance : Std.TransOrd AttributeName :=
  inferInstanceAs (Std.TransCmp (compareOn ordinal))

instance : Std.LawfulEqOrd AttributeName where
  eq_of_compare h := ordinal_inj (Std.LawfulEqOrd.eq_of_compare h)

/-- Sorted by ordinal; equal names stay side by side. -/
def sort (names : List AttributeName) : List AttributeName :=
  names.mergeSort fun m n => decide (m.ordinal ≤ n.ordinal)

end AttributeName

end Markup

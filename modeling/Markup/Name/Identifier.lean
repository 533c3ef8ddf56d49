/-!
# Identifiers made from spellings

Elements and attributes are spelled in lower case, with dashes between words. Structured data
names them by an identifier instead, in which every word starts with a capital letter and the
dashes are gone: `accept-charset` is `AcceptCharset`.
-/

namespace Markup

/-- The spelling without its dashes; `atStart` tells that the next letter starts a word. -/
def capitalizeWords : Bool → List Char → List Char
  | _, [] => []
  | atStart, c :: cs =>
    if c = '-' then capitalizeWords true cs
    else (if atStart then c.toUpper else c) :: capitalizeWords false cs

/-- The identifier of a spelling. -/
def identifier (spelling : String) : String :=
  String.ofList (capitalizeWords true spelling.toList)

example : identifier "http-equiv" = "HttpEquiv" := by decide

end Markup

/-!
# Escaping

Five characters have a meaning of their own in markup: `&`, `<`, `>` and the two quotes. `escape`
writes each of them as a character reference, so that text shows as itself between tags and
inside a quoted attribute value.

* `escape_append`: escaping works character by character, so text can be escaped in portions.
* `not_mem_escape`: the written form holds no `<`, `>`, `"` or `'`.
-/

namespace Markup

/-- The written form of one character. -/
def escapeChar : Char → List Char
  | '&' => ['&', 'a', 'm', 'p', ';']
  | '\'' => ['&', '#', '3', '9', ';']
  | '<' => ['&', 'l', 't', ';']
  | '>' => ['&', 'g', 't', ';']
  | '"' => ['&', '#', '3', '4', ';']
  | c => [c]

/-- Text in which no character is taken for markup. -/
def escape (text : String) : String := String.ofList (text.toList.flatMap escapeChar)

/-- The characters that delimit tags and quoted values. -/
def isDelimiter (c : Char) : Bool := c = '<' || c = '>' || c = '"' || c = '\''

theorem toList_escape (text : String) : (escape text).toList = text.toList.flatMap escapeChar := by
  simp [escape]

@[simp] theorem escape_empty : escape "" = "" := by simp [escape]

/-- Text can be escaped in portions. -/
theorem escape_append (a b : String) : escape (a ++ b) = escape a ++ escape b := by
  apply String.toList_inj.mp
  simp [toList_escape]

theorem isDelimiter_of_mem_escapeChar {c d : Char} (h : d ∈ escapeChar c) :
    isDelimiter d = false := by
  have all : ∀ d ∈ escapeChar c, isDelimiter d = false := by
    unfold escapeChar
    split <;> simp_all [isDelimiter]
  exact all d h

/-- The written form holds no delimiter. -/
theorem not_mem_escape {text : String} {d : Char} (hd : isDelimiter d = true) :
    d ∉ (escape text).toList := by
  rw [toList_escape, List.mem_flatMap]
  rintro ⟨c, -, h⟩
  rw [isDelimiter_of_mem_escapeChar h] at hd
  cases hd

end Markup

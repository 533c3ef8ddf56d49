/-!
# Words of a text

Class lists are read as words between blanks (`split_ascii_whitespace`): space, tab, line feed, form
feed and carriage return, and no other character.

* `words_append_blank`: a blank between two texts keeps their words apart.
-/

namespace Markup

/-- The characters that separate words. -/
def isBlank (c : Char) : Bool := c = ' ' || c = '\t' || c = '\n' || c = '\x0c' || c = '\r'

/-- The portions between blanks, empty ones included; there is always one. -/
def portions : List Char → List (List Char)
  | [] => [[]]
  | c :: cs =>
    if isBlank c then [] :: portions cs
    else
      match portions cs with
      | [] => [[c]]
      | w :: ws => (c :: w) :: ws

/-- The words, in order: the portions between blanks that are not empty. -/
def words (text : String) : List String :=
  ((portions text.toList).filter (!·.isEmpty)).map String.ofList

theorem portions_ne_nil (cs : List Char) : portions cs ≠ [] := by
  cases cs with
  | nil => simp [portions]
  | cons c cs =>
    simp only [portions]
    split
    · simp
    · split <;> simp

theorem portions_append_blank (a : List Char) {c : Char} (hc : isBlank c = true) (b : List Char) :
    portions (a ++ c :: b) = portions a ++ portions b := by
  induction a with
  | nil => simp [portions, hc]
  | cons d ds ih =>
    simp only [List.cons_append, portions, ih]
    split
    · simp
    · cases hp : portions ds with
      | nil => exact absurd hp (portions_ne_nil ds)
      | cons w ws => simp

/-- A blank between two texts keeps their words apart. -/
theorem words_append_blank (a b : String) : words (a ++ " " ++ b) = words a ++ words b := by
  have h := portions_append_blank a.toList (c := ' ') (by decide) b.toList
  simp only [words, String.toList_append, ← List.map_append, ← List.filter_append, ← h]
  simp

end Markup

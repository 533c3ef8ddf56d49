/-!
# Positions in text

Positions and lengths (those of a `VarSpan`, say) count the bytes of the UTF-8 form of a text. A
position inside a character, or past the end, belongs to no cut of the text.

* `cutAt_utf8Len`: after the bytes of a first part, the text is cut into that part and the rest.
* `slice?_append`: the slice between two positions is what stands between them.
* `utf8_append`: bytes join as the texts do.
-/

namespace Markup

/-- The length of the UTF-8 form. -/
def utf8Len : List Char → Nat
  | [] => 0
  | c :: cs => c.utf8Size + utf8Len cs

/-- Cuts text after `n` bytes, if a character ends there. -/
def cutAt : Nat → List Char → Option (List Char × List Char)
  | 0, cs => some ([], cs)
  | _ + 1, [] => none
  | n + 1, c :: cs =>
    if c.utf8Size ≤ n + 1 then
      (cutAt (n + 1 - c.utf8Size) cs).map fun cut => (c :: cut.1, cut.2)
    else none

/-- The text from byte `start` up to byte `stop`, if both are cuts and in that order. -/
def slice? (text : String) (start stop : Nat) : Option String :=
  if start ≤ stop then do
    let (_, rest) ← cutAt start text.toList
    let (middle, _) ← cutAt (stop - start) rest
    some (String.ofList middle)
  else none

/-- The bytes of the UTF-8 form. -/
def utf8 (text : String) : List UInt8 := text.toUTF8.data.toList

@[simp] theorem utf8Len_nil : utf8Len [] = 0 := rfl

@[simp] theorem utf8Len_cons (c : Char) (cs : List Char) :
    utf8Len (c :: cs) = c.utf8Size + utf8Len cs := rfl

@[simp] theorem utf8Len_append (a b : List Char) : utf8Len (a ++ b) = utf8Len a + utf8Len b := by
  induction a with
  | nil => simp
  | cons c cs ih => simp [ih, Nat.add_assoc]

theorem utf8Len_eq_zero_iff {cs : List Char} : utf8Len cs = 0 ↔ cs = [] := by
  cases cs with
  | nil => exact iff_of_true rfl rfl
  | cons c cs =>
    have hpos := c.utf8Size_pos
    rw [utf8Len_cons]
    exact iff_of_false (by omega) (List.cons_ne_nil c cs)

/-- After the bytes of a first part, the text is cut into that part and the rest. -/
theorem cutAt_utf8Len (a b : List Char) : cutAt (utf8Len a) (a ++ b) = some (a, b) := by
  induction a with
  | nil => simp [cutAt]
  | cons c cs ih =>
    have hc := c.utf8Size_pos
    obtain ⟨n, hn⟩ : ∃ n, utf8Len (c :: cs) = n + 1 := ⟨utf8Len (c :: cs) - 1, by simp; omega⟩
    have hs : n + 1 - c.utf8Size = utf8Len cs := by rw [← hn]; simp
    have hle : c.utf8Size ≤ n + 1 := by rw [← hn]; simp
    rw [hn, List.cons_append, cutAt, if_pos hle, hs, ih]
    rfl

theorem utf8ByteSize_ofList (cs : List Char) : (String.ofList cs).utf8ByteSize = utf8Len cs := by
  induction cs with
  | nil => simp [String.ofList_nil]
  | cons c cs ih =>
    rw [← List.singleton_append, String.ofList_append, String.utf8ByteSize_append, ih,
      ← String.singleton_eq_ofList, String.utf8ByteSize_singleton, List.singleton_append,
      utf8Len_cons]

theorem utf8ByteSize_eq_utf8Len (text : String) : text.utf8ByteSize = utf8Len text.toList := by
  rw [← utf8ByteSize_ofList, String.ofList_toList]

/-- The slice between two positions is what stands between them. -/
theorem slice?_append (a b c : String) :
    slice? (a ++ b ++ c) a.utf8ByteSize (a.utf8ByteSize + b.utf8ByteSize) = some b := by
  simp only [slice?, utf8ByteSize_eq_utf8Len, String.toList_append, List.append_assoc,
    if_pos (Nat.le_add_right _ _), Nat.add_sub_cancel_left]
  simp [cutAt_utf8Len]

/-! ## Bytes -/

theorem utf8_append (a b : String) : utf8 (a ++ b) = utf8 a ++ utf8 b := by
  simp [utf8, String.toUTF8]

end Markup

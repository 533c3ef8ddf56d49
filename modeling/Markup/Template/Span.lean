import Markup.Slice

/-!
# References in template text

A reference (`VarSpan`) is a `$` with the name that follows it. The name is a second `$` (which
stands for the dollar sign itself), or else the longest identifier at that place, or else empty.
Text is read from left to right and no character belongs to two references.

* `utf8Len_append_sigil`: where a name ends.
* `scan_eq_nil_of_not_mem`: text without a `$` has no reference.
* `scan_nameAfter`: reading goes on behind the name.
-/

namespace Markup

/-- A reference: the place of its `$` and its length with the `$`, in bytes. -/
structure Span where
  start : Nat
  /-- The number of bytes of the `$` and its name. -/
  length : Nat
deriving DecidableEq, Repr

namespace Span

/-- The position behind the name. -/
def stop (s : Span) : Nat := s.start + s.length

/-- The name in `text`, if the span cuts that text. -/
def name? (s : Span) (text : String) : Option String := slice? text (s.start + 1) s.stop

end Span

/-- The mark in front of a name. -/
def sigil : Char := '$'

/-- The characters an identifier starts with: ASCII letters and the underscore. -/
def isNameStart (c : Char) : Bool := c.isAlpha || c = '_'

/-- The characters of an identifier: those it starts with, and ASCII digits. -/
def isNameChar (c : Char) : Bool := c.isAlphanum || c = '_'

/-- The name at the front of the text behind a `$` (`name_len`). -/
def nameAfter : List Char → List Char
  | [] => []
  | c :: cs =>
    if c = sigil then [sigil]
    else if isNameStart c then c :: cs.takeWhile isNameChar
    else []

/-- The references in text that starts at byte `offset`, whose first `skip` characters belong to
the name of an earlier one. -/
def scan : Nat → Nat → List Char → List Span
  | _, _, [] => []
  | offset, skip + 1, c :: cs => scan (offset + c.utf8Size) skip cs
  | offset, 0, c :: cs =>
    if c = sigil then
      ⟨offset, 1 + utf8Len (nameAfter cs)⟩ :: scan (offset + 1) (nameAfter cs).length cs
    else scan (offset + c.utf8Size) 0 cs

/-- The references in a text, from left to right (`parse_vars`). -/
def spans (text : String) : List Span := scan 0 0 text.toList

@[simp] theorem utf8Size_sigil : sigil.utf8Size = 1 := rfl

/-- The bytes up to the end of a name, behind its `$`. -/
theorem utf8Len_append_sigil (before name : List Char) :
    utf8Len (before ++ sigil :: name) = utf8Len before + (1 + utf8Len name) := by
  rw [utf8Len_append, utf8Len_cons, utf8Size_sigil]

/-- Text without a `$` has no reference. -/
theorem scan_eq_nil_of_not_mem {cs : List Char} (h : sigil ∉ cs) (offset : Nat) :
    scan offset 0 cs = [] := by
  induction cs generalizing offset with
  | nil => rfl
  | cons c cs ih =>
    obtain ⟨hc, hcs⟩ := not_or.mp (mt List.mem_cons.mpr h)
    rw [scan, if_neg fun e => hc e.symm, ih hcs]

/-- Skipped characters count with their bytes and hold no reference. -/
theorem scan_append (offset : Nat) (a b : List Char) :
    scan offset a.length (a ++ b) = scan (offset + utf8Len a) 0 b := by
  induction a generalizing offset with
  | nil => rfl
  | cons c cs ih =>
    rw [List.cons_append, List.length_cons, scan, ih, utf8Len_cons, Nat.add_assoc]

theorem nameAfter_prefix (cs : List Char) : nameAfter cs <+: cs := by
  cases cs with
  | nil => exact List.prefix_rfl
  | cons c cs =>
    simp only [nameAfter]
    split
    · next h => exact h ▸ List.prefix_iff_eq_append.mpr rfl
    · split
      · exact List.cons_prefix_cons.mpr ⟨rfl, List.takeWhile_prefix _⟩
      · exact List.nil_prefix

/-- Reading goes on behind the name. -/
theorem scan_nameAfter (offset : Nat) (cs : List Char) :
    scan offset (nameAfter cs).length cs =
      scan (offset + utf8Len (nameAfter cs)) 0 (cs.drop (nameAfter cs).length) := by
  obtain ⟨rest, h⟩ := nameAfter_prefix cs
  generalize nameAfter cs = name at h
  subst h
  rw [scan_append, List.drop_left]

end Markup

import Markup.Slice
import Mathlib.Algebra.Group.Nat.Defs
import Mathlib.Tactic.SplitIfs

/-!
# The order of bytes

Texts are compared character by character, and their UTF-8 forms byte by byte. The two orders are
one. The first byte of a character grows with the number of bytes behind it, and the bits of the
code are spread over the bytes from the highest to the lowest; so the first byte in which two
characters differ decides as their codes do, whatever follows them.

* `utf8EncodeChar_eq`: a character is a first byte and others with six bits of its code in each.
* `utf8EncodeChar_append_lt`: the bytes of a lesser character come first, with anything behind.
* `utf8_lt_iff`: texts are in the order of their bytes.
-/

namespace Markup

/-- The number of bytes behind the first one, for the character with this code. -/
def followers (code : Nat) : Nat :=
  if code ≤ 0x7f then 0 else if code ≤ 0x7ff then 1 else if code ≤ 0xffff then 2 else 3

/-- What the first byte tells of the number of bytes behind it. -/
def mark : Nat → Nat
  | 0 => 0
  | 1 => 0xc0
  | 2 => 0xe0
  | _ => 0xf0

/-- The first byte of a character, with the highest bits of its code. -/
def leadByte (code : Nat) : Nat := mark (followers code) + code / 64 ^ followers code

/-- The last `count` bytes of a character, with six bits of its code in each. -/
def lastBytes (code : Nat) : Nat → List UInt8
  | 0 => []
  | count + 1 => UInt8.ofNat (code / 64 ^ count % 64 + 0x80) :: lastBytes code count

theorem code_lt (c : Char) : c.val.toNat < 0x110000 := by
  have hvalid := c.valid
  simp only [UInt32.isValidChar, Nat.isValidChar] at hvalid
  omega

/-- A character is a first byte and others with six bits of its code in each. -/
theorem utf8EncodeChar_eq (c : Char) :
    String.utf8EncodeChar c =
      UInt8.ofNat (leadByte c.val.toNat) :: lastBytes c.val.toNat (followers c.val.toNat) := by
  have hcode := code_lt c
  simp only [String.utf8EncodeChar, leadByte, followers]
  -- the code is small enough for the bits that are left to the first byte
  split_ifs
  · simp only [mark, lastBytes, Nat.zero_add, Nat.pow_zero, Nat.div_one]
  · have hlead : c.val.toNat / 64 % 32 + 192 = mark 1 + c.val.toNat / 64 ^ 1 := by
      simp only [mark]
      omega
    rw [hlead]
    simp only [lastBytes, Nat.pow_zero, Nat.div_one]
  · have hlead : c.val.toNat / 4096 % 16 + 224 = mark 2 + c.val.toNat / 64 ^ 2 := by
      simp only [mark]
      omega
    rw [hlead]
    simp only [lastBytes, Nat.pow_zero, Nat.pow_one, Nat.div_one]
  · have hlead : c.val.toNat / 262144 % 8 + 240 = mark 3 + c.val.toNat / 64 ^ 3 := by
      simp only [mark]
      omega
    rw [hlead]
    simp only [lastBytes, Nat.pow_zero, Nat.pow_one, Nat.div_one]
    rfl

/-! ## First bytes -/

theorem leadByte_lt {code : Nat} (hcode : code < 0x110000) : leadByte code < 256 := by
  simp only [leadByte, followers]
  split_ifs <;> simp only [mark] <;> omega

theorem followers_mono {v w : Nat} (h : v ≤ w) : followers v ≤ followers w := by
  simp only [followers]
  split_ifs <;> omega

/-- The first byte grows with the number of bytes behind it. -/
theorem leadByte_lt_leadByte {v w : Nat} (h : followers v < followers w) :
    leadByte v < leadByte w := by
  simp only [followers] at h
  simp only [leadByte, followers]
  split_ifs at h ⊢ <;> simp only [mark] <;> omega

/-! ## Characters and texts -/

/-- Of two codes with the same bits in front, the lesser one has the lesser bytes. -/
theorem lastBytes_append_lt {v w count : Nat} (hlt : v < w)
    (hfront : v / 64 ^ count = w / 64 ^ count) (x y : List UInt8) :
    lastBytes v count ++ x < lastBytes w count ++ y := by
  induction count with
  | zero =>
    rw [Nat.pow_zero, Nat.div_one, Nat.div_one] at hfront
    exact absurd hfront (Nat.ne_of_lt hlt)
  | succ count ih =>
    have hle : v / 64 ^ count ≤ w / 64 ^ count := Nat.div_le_div_right (Nat.le_of_lt hlt)
    rw [Nat.pow_succ, ← Nat.div_div_eq_div_mul, ← Nat.div_div_eq_div_mul] at hfront
    rw [lastBytes, lastBytes, List.cons_append, List.cons_append, List.cons_lt_cons_iff]
    rcases Nat.lt_or_eq_of_le hle with hbits | hbits
    · left
      rw [UInt8.lt_iff_toNat_lt, UInt8.toNat_ofNat', UInt8.toNat_ofNat']
      omega
    · exact .inr ⟨by rw [hbits], ih hbits⟩

/-- The bytes of a lesser character come first, whatever is behind the two. -/
theorem utf8EncodeChar_append_lt {c d : Char} (h : c < d) (x y : List UInt8) :
    String.utf8EncodeChar c ++ x < String.utf8EncodeChar d ++ y := by
  have hlt : c.val.toNat < d.val.toNat := h
  have hc := leadByte_lt (code_lt c)
  have hd := leadByte_lt (code_lt d)
  rw [utf8EncodeChar_eq, utf8EncodeChar_eq, List.cons_append, List.cons_append,
    List.cons_lt_cons_iff, UInt8.lt_iff_toNat_lt, UInt8.toNat_ofNat_of_lt' hc,
    UInt8.toNat_ofNat_of_lt' hd]
  rcases Nat.lt_or_eq_of_le (followers_mono (Nat.le_of_lt hlt)) with hfewer | hsame
  · exact .inl (leadByte_lt_leadByte hfewer)
  · have hle := Nat.div_le_div_right (c := 64 ^ followers d.val.toNat) (Nat.le_of_lt hlt)
    rw [leadByte, leadByte, hsame]
    rcases Nat.lt_or_eq_of_le hle with hbits | hbits
    · exact .inl (Nat.add_lt_add_left hbits _)
    · exact .inr ⟨by rw [hbits], lastBytes_append_lt hlt hbits x y⟩

theorem utf8_ofList (cs : List Char) :
    utf8 (String.ofList cs) = cs.flatMap String.utf8EncodeChar := by
  simp [utf8, String.toUTF8, List.utf8Encode]

theorem flatMap_utf8EncodeChar_lt {cs ds : List Char} (h : cs < ds) :
    cs.flatMap String.utf8EncodeChar < ds.flatMap String.utf8EncodeChar := by
  induction h with
  | nil =>
    rw [List.flatMap_nil, List.flatMap_cons, utf8EncodeChar_eq]
    exact List.nil_lt_cons ..
  | rel h => exact utf8EncodeChar_append_lt h _ _
  | cons _ ih =>
    rw [List.flatMap_cons, List.flatMap_cons]
    exact List.append_left_lt ih

theorem utf8_lt_of_lt {s t : String} (h : s < t) : utf8 s < utf8 t := by
  have hbytes := flatMap_utf8EncodeChar_lt (String.lt_iff.mp h)
  rwa [← utf8_ofList, ← utf8_ofList, String.ofList_toList, String.ofList_toList] at hbytes

/-- Texts are in the order of their bytes. -/
theorem utf8_lt_iff {s t : String} : utf8 s < utf8 t ↔ s < t := by
  refine ⟨fun h => ?_, utf8_lt_of_lt⟩
  by_cases hlt : s < t
  · exact hlt
  · by_cases heq : s = t
    · exact absurd (heq ▸ h) (List.lt_irrefl _)
    · have hgt : t < s := Std.lt_of_le_of_ne (String.not_lt.mp hlt) (Ne.symm heq)
      exact absurd (utf8_lt_of_lt hgt) (List.lt_asymm h)

end Markup

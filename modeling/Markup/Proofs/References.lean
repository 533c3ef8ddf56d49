import Markup.Proofs.Expansion
import Mathlib.Data.List.TakeWhile

/-!
# The grammar of references

Which spans are the references of a text, said without a direction in which the text is read. A
reference is a `$` with a whole name behind it: another `$`, an identifier that does not go on, or
nothing, if neither of the two could follow. The references of a text are such spans, in order,
and every `$` of the text is in one of them. That leaves no choice, and the spans that are read
from left to right are the ones.

* `NameBefore`: the whole names, by what is behind them.
* `References`: the spans of a text that the grammar allows.
* `References.nil_iff`, `References.literal_iff`, `References.name_iff`: what the grammar says about
  the front of a text.
* `spans_exact`: the grammar allows the spans that are read, and no others.
-/

namespace Markup

/-- `a` to `z`, `A` to `Z` and the underscore. -/
def IsLetter (c : Char) : Prop := ('a' ≤ c ∧ c ≤ 'z') ∨ ('A' ≤ c ∧ c ≤ 'Z') ∨ c = '_'

/-- The same, and `0` to `9`. -/
def IsLetterOrDigit (c : Char) : Prop := IsLetter c ∨ ('0' ≤ c ∧ c ≤ '9')

/-- A letter, and letters and digits behind it. -/
def IsIdentifier (name : List Char) : Prop :=
  ∃ c cs, name = c :: cs ∧ IsLetter c ∧ ∀ d ∈ cs, IsLetterOrDigit d

theorem isIdentifier_cons_iff {c : Char} {cs : List Char} :
    IsIdentifier (c :: cs) ↔ IsLetter c ∧ ∀ d ∈ cs, IsLetterOrDigit d := by
  constructor
  · rintro ⟨_, _, h, hletter, hrest⟩
    cases h
    exact ⟨hletter, hrest⟩
  · rintro ⟨hletter, hrest⟩
    exact ⟨c, cs, rfl, hletter, hrest⟩

/-- The whole names of references, by what is behind them. -/
inductive NameBefore : List Char → List Char → Prop where
  | dollar (behind : List Char) : NameBefore [sigil] behind
  | identifier {name behind : List Char} (hname : IsIdentifier name)
      (hbehind : ∀ d, behind.head? = some d → ¬ IsLetterOrDigit d) : NameBefore name behind
  | empty {behind : List Char} (hbehind : ∀ d, behind.head? = some d → d ≠ sigil ∧ ¬ IsLetter d) :
      NameBefore [] behind

/-- The span is that of a `$` with its whole name, in a text that starts at byte `offset`. -/
def Span.Cuts (s : Span) (offset : Nat) (cs : List Char) : Prop :=
  ∃ before name behind, cs = before ++ sigil :: (name ++ behind) ∧ NameBefore name behind ∧
    s = ⟨offset + utf8Len before, 1 + utf8Len name⟩

/-- The byte at `position` is in one of the spans. -/
def Covered (position : Nat) (l : List Span) : Prop :=
  ∃ s ∈ l, s.start ≤ position ∧ position < s.stop

/-- The spans are the references of a text that starts at byte `offset`: apart and in order, each a
`$` with its whole name, and every `$` in one of them. -/
structure References (offset : Nat) (cs : List Char) (l : List Span) : Prop where
  ordered : l.Pairwise fun s t => s.stop ≤ t.start
  cut : ∀ s ∈ l, s.Cuts offset cs
  cover : ∀ before behind, cs = before ++ sigil :: behind → Covered (offset + utf8Len before) l

/-! ## Names -/

theorem isNameStart_iff (c : Char) : isNameStart c = true ↔ IsLetter c := by
  have hupper : c.isUpper = true ↔ 'A' ≤ c ∧ c ≤ 'Z' := decide_eq_true_iff
  have hlower : c.isLower = true ↔ 'a' ≤ c ∧ c ≤ 'z' := by
    rw [← decide_eq_true_iff (p := _ ∧ _), Bool.decide_and]
    rfl
  have halpha : c.isAlpha = true ↔ c.isUpper = true ∨ c.isLower = true := Bool.or_eq_true_iff
  rw [isNameStart, IsLetter, Bool.or_eq_true, halpha, hupper, hlower, decide_eq_true_eq]
  constructor
  · rintro ((h | h) | h)
    · exact .inr (.inl h)
    · exact .inl h
    · exact .inr (.inr h)
  · rintro (h | h | h)
    · exact .inl (.inr h)
    · exact .inl (.inl h)
    · exact .inr h

theorem isNameChar_iff (c : Char) : isNameChar c = true ↔ IsLetterOrDigit c := by
  have hdigit : c.isDigit = true ↔ '0' ≤ c ∧ c ≤ '9' := by
    simp [Char.isDigit, Char.le_def]
  rw [IsLetterOrDigit, ← isNameStart_iff, ← hdigit]
  simp only [isNameChar, isNameStart, Char.isAlphanum, Bool.or_eq_true]
  exact or_right_comm

instance (c : Char) : Decidable (IsLetter c) := decidable_of_iff _ (isNameStart_iff c)

instance (c : Char) : Decidable (IsLetterOrDigit c) := decidable_of_iff _ (isNameChar_iff c)

instance : (name : List Char) → Decidable (IsIdentifier name)
  | [] => isFalse fun ⟨_, _, h, _⟩ => nomatch h
  | c :: cs => decidable_of_iff ((isNameStart c && cs.all isNameChar) = true) (by
      simp [isIdentifier_cons_iff, isNameStart_iff, isNameChar_iff])

/-- An identifier is read as far as it goes. -/
theorem nameAfter_identifier {c : Char} {cs behind : List Char} (hc : IsLetter c)
    (hcs : ∀ d ∈ cs, IsLetterOrDigit d)
    (hbehind : ∀ d, behind.head? = some d → ¬ IsLetterOrDigit d) :
    nameAfter (c :: (cs ++ behind)) = c :: cs := by
  have hstart := (isNameStart_iff c).mpr hc
  have hsigil : c ≠ sigil := by
    rintro rfl
    exact absurd hstart (by decide)
  have hrest : behind.takeWhile isNameChar = [] := by
    cases behind with
    | nil => rfl
    | cons d ds =>
      exact List.takeWhile_cons_of_neg (mt (isNameChar_iff d).mp (hbehind d rfl))
  rw [nameAfter, if_neg hsigil, if_pos hstart,
    List.takeWhile_append_of_pos fun d hd => (isNameChar_iff d).mpr (hcs d hd), hrest,
    List.append_nil]

/-- The whole name is the one that is read. -/
theorem NameBefore.nameAfter_eq {name behind : List Char} (h : NameBefore name behind) :
    nameAfter (name ++ behind) = name := by
  cases h with
  | dollar => simp [nameAfter]
  | identifier hname hbehind =>
    obtain ⟨c, cs, rfl, hc, hcs⟩ := hname
    exact nameAfter_identifier hc hcs hbehind
  | empty hbehind =>
    cases behind with
    | nil => rfl
    | cons d ds =>
      obtain ⟨hsigil, hletter⟩ := hbehind d rfl
      exact (if_neg hsigil).trans (if_neg (mt (isNameStart_iff d).mp hletter))

/-- What is read is a whole name. -/
theorem nameBefore_nameAfter (cs : List Char) :
    ∃ behind, cs = nameAfter cs ++ behind ∧ NameBefore (nameAfter cs) behind := by
  cases cs with
  | nil => exact ⟨[], rfl, .empty nofun⟩
  | cons c cs =>
    by_cases hsigil : c = sigil
    · rw [nameAfter, if_pos hsigil, hsigil]
      exact ⟨cs, rfl, .dollar cs⟩
    · by_cases hstart : isNameStart c = true
      · rw [nameAfter, if_neg hsigil, if_pos hstart]
        refine ⟨cs.dropWhile isNameChar, ?_, .identifier ⟨c, _, rfl, ?_, ?_⟩ ?_⟩
        · rw [List.cons_append, List.takeWhile_append_dropWhile]
        · exact (isNameStart_iff c).mp hstart
        · exact fun d hd => (isNameChar_iff d).mp (List.mem_takeWhile_imp hd)
        · intro d hd hletter
          have hnot := List.head?_dropWhile_not isNameChar cs
          simp only [hd, (isNameChar_iff d).mpr hletter] at hnot
          cases hnot
      · rw [nameAfter, if_neg hsigil, if_neg hstart]
        refine ⟨c :: cs, rfl, .empty fun d hd => ?_⟩
        cases hd
        exact ⟨hsigil, mt (isNameStart_iff c).mpr hstart⟩

/-! ## The front of a text -/

/-- A part that is as long as another one, or longer, begins with it. -/
theorem exists_append_of_utf8Len_le {a b c d : List Char} (h : a ++ b = c ++ d)
    (hlen : utf8Len a ≤ utf8Len c) : ∃ e, c = a ++ e ∧ b = e ++ d := by
  rcases List.append_eq_append_iff.mp h with ⟨e, hc, hb⟩ | ⟨e, ha, hd⟩
  · exact ⟨e, hc, hb⟩
  · have he : utf8Len e = 0 := by
      rw [ha, utf8Len_append] at hlen
      omega
    obtain rfl := utf8Len_eq_zero_iff.mp he
    exact ⟨[], by rw [ha, List.append_nil, List.append_nil], hd.symm⟩

namespace Span.Cuts

variable {s : Span} {offset : Nat} {a cs : List Char}

theorem start_le (h : s.Cuts offset cs) : offset ≤ s.start ∧ 1 ≤ s.length := by
  obtain ⟨before, name, behind, -, -, rfl⟩ := h
  exact ⟨Nat.le_add_right _ _, Nat.le_add_right _ _⟩

/-- A reference in the rest of a text is one in the whole text. -/
theorem append_left (h : s.Cuts (offset + utf8Len a) cs) : s.Cuts offset (a ++ cs) := by
  obtain ⟨before, name, behind, rfl, hname, rfl⟩ := h
  refine ⟨a ++ before, name, behind, by rw [List.append_assoc], hname, ?_⟩
  rw [utf8Len_append, Nat.add_assoc]

/-- And a reference in the whole text is one in the rest, if it starts there. -/
theorem of_append_left (h : s.Cuts offset (a ++ cs)) (hstart : offset + utf8Len a ≤ s.start) :
    s.Cuts (offset + utf8Len a) cs := by
  obtain ⟨before, name, behind, hcs, hname, rfl⟩ := h
  obtain ⟨e, rfl, he⟩ := exists_append_of_utf8Len_le hcs (Nat.le_of_add_le_add_left hstart)
  exact ⟨e, name, behind, he, hname, by rw [utf8Len_append, Nat.add_assoc]⟩

end Span.Cuts

namespace References

variable {offset : Nat} {cs : List Char} {l : List Span}

/-- Text without a character has no reference. -/
theorem nil_iff : References offset [] l ↔ l = [] := by
  constructor
  · intro h
    refine List.eq_nil_iff_forall_not_mem.mpr fun s hs => ?_
    obtain ⟨before, name, behind, hcs, -⟩ := h.cut s hs
    cases before <;> cases hcs
  · rintro rfl
    refine ⟨.nil, fun s hs => absurd hs List.not_mem_nil, fun before behind hcs => ?_⟩
    cases before <;> cases hcs

/-- A character that is no `$` is in front of all references. -/
theorem literal_iff {c : Char} (hc : c ≠ sigil) :
    References offset (c :: cs) l ↔ References (offset + c.utf8Size) cs l := by
  have hsize : utf8Len [c] = c.utf8Size := rfl
  constructor
  · intro h
    refine ⟨h.ordered, fun s hs => ?_, fun before behind hcs => ?_⟩
    · have hcut := h.cut s hs
      have hstart : offset + utf8Len [c] ≤ s.start := by
        obtain ⟨before, name, behind, hcs, -, rfl⟩ := hcut
        cases before with
        | nil => exact absurd (List.cons.inj hcs).1 hc
        | cons d before =>
          rw [(List.cons.inj hcs).1]
          exact Nat.add_le_add_left (Nat.le_add_right _ _) offset
      exact hcut.of_append_left (a := [c]) hstart
    · have hcover := h.cover (c :: before) behind (congrArg (c :: ·) hcs)
      rwa [utf8Len_cons, ← Nat.add_assoc] at hcover
  · intro h
    refine ⟨h.ordered, fun s hs => (h.cut s hs).append_left (a := [c]), fun before behind hcs => ?_⟩
    cases before with
    | nil => exact absurd (List.cons.inj hcs).1 hc
    | cons d before =>
      obtain ⟨rfl, rfl⟩ := List.cons.inj hcs
      have hcover := h.cover before behind rfl
      rwa [utf8Len_cons, ← Nat.add_assoc]

variable {name behind : List Char}

/-- The span that covers a `$` at the front starts there, so its name is the whole one. -/
theorem mem_of_name (hname : NameBefore name behind)
    (h : References offset (sigil :: (name ++ behind)) l) : ⟨offset, 1 + utf8Len name⟩ ∈ l := by
  obtain ⟨s, hs, hle, -⟩ := h.cover [] (name ++ behind) rfl
  obtain ⟨before, name', behind', hcs, hname', rfl⟩ := h.cut s hs
  cases before with
  | nil =>
    have hread := hname'.nameAfter_eq
    rw [← (List.cons.inj hcs).2, hname.nameAfter_eq] at hread
    exact hread ▸ hs
  | cons c before =>
    have hpos := c.utf8Size_pos
    simp only [utf8Len_cons, utf8Len_nil] at hle
    omega

/-- No span comes before one that starts with the text. -/
theorem exists_cons_of_mem {length : Nat} (h : References offset cs l)
    (hmem : ⟨offset, length⟩ ∈ l) : ∃ rest, l = ⟨offset, length⟩ :: rest := by
  cases l with
  | nil => exact absurd hmem List.not_mem_nil
  | cons first rest =>
    rcases List.mem_cons.mp hmem with rfl | hrest
    · exact ⟨rest, rfl⟩
    · have hstop := (List.pairwise_cons.mp h.ordered).1 _ hrest
      obtain ⟨hoffset, hlen⟩ := (h.cut first List.mem_cons_self).start_le
      simp only [Span.stop] at hstop
      omega

/-- The references behind the one at the front are those of the text behind its name. -/
theorem of_cons (h : References offset (sigil :: (name ++ behind))
      (⟨offset, 1 + utf8Len name⟩ :: l)) :
    References (offset + (1 + utf8Len name)) behind l := by
  obtain ⟨hfirst, hrest⟩ := List.pairwise_cons.mp h.ordered
  refine ⟨hrest, fun t ht => ?_, fun before behind' hcs => ?_⟩
  · exact (h.cut t (List.mem_cons_of_mem _ ht)).of_append_left (a := sigil :: name) (hfirst t ht)
  · obtain ⟨t, ht, hle, hlt⟩ := h.cover (sigil :: name ++ before) behind' (by simp [hcs])
    rw [utf8Len_append, ← Nat.add_assoc] at hle hlt
    rcases List.mem_cons.mp ht with rfl | ht
    · exact absurd hlt (Nat.not_lt.mpr (Nat.le_add_right _ _))
    · exact ⟨t, ht, hle, hlt⟩

/-- The reference at the front comes before those behind its name. -/
theorem cons (hname : NameBefore name behind)
    (h : References (offset + (1 + utf8Len name)) behind l) :
    References offset (sigil :: (name ++ behind)) (⟨offset, 1 + utf8Len name⟩ :: l) := by
  refine ⟨List.pairwise_cons.mpr ⟨fun t ht => (h.cut t ht).start_le.1, h.ordered⟩,
    fun s hs => ?_, fun before behind' hcs => ?_⟩
  · rcases List.mem_cons.mp hs with rfl | hs
    · exact ⟨[], name, behind, rfl, hname, rfl⟩
    · exact (h.cut s hs).append_left (a := sigil :: name)
  · by_cases hlen : utf8Len (sigil :: name) ≤ utf8Len before
    · obtain ⟨e, rfl, he⟩ := exists_append_of_utf8Len_le (a := sigil :: name) hcs hlen
      obtain ⟨t, ht, hcover⟩ := h.cover e behind' he
      rw [utf8Len_append, ← Nat.add_assoc]
      exact ⟨t, List.mem_cons_of_mem _ ht, hcover⟩
    · refine ⟨_, List.mem_cons_self, Nat.le_add_right _ _, ?_⟩
      exact Nat.add_lt_add_left (Nat.lt_of_not_le hlen) offset

/-- A `$` at the front starts the first reference, and the others are those of the text behind its
name. -/
theorem name_iff (hname : NameBefore name behind) :
    References offset (sigil :: (name ++ behind)) l ↔
      ∃ rest, l = ⟨offset, 1 + utf8Len name⟩ :: rest ∧
        References (offset + (1 + utf8Len name)) behind rest := by
  constructor
  · intro h
    obtain ⟨rest, rfl⟩ := h.exists_cons_of_mem (h.mem_of_name hname)
    exact ⟨rest, rfl, h.of_cons⟩
  · rintro ⟨rest, rfl, h⟩
    exact h.cons hname

end References

/-- A `$` with its whole name is read at once. -/
theorem scan_of_name {name behind : List Char} (hname : NameBefore name behind) (offset : Nat) :
    scan offset 0 (sigil :: (name ++ behind)) =
      ⟨offset, 1 + utf8Len name⟩ :: scan (offset + (1 + utf8Len name)) 0 behind := by
  rw [scan, if_pos rfl, scan_nameAfter, hname.nameAfter_eq, List.drop_left, Nat.add_assoc]

/-- What the grammar allows is what is read. -/
theorem references_iff {offset : Nat} {cs : List Char} {l : List Span} :
    References offset cs l ↔ l = scan offset 0 cs := by
  -- a reference takes its whole name at once, so the induction is on what remains
  induction hn : cs.length using Nat.strong_induction_on generalizing offset cs l with
  | _ n ih =>
    cases cs with
    | nil => exact References.nil_iff
    | cons c cs =>
      by_cases hc : c = sigil
      · obtain ⟨behind, hcs, hname⟩ := nameBefore_nameAfter cs
        generalize nameAfter cs = name at hcs hname
        subst hc hcs
        have hlen : behind.length < n := by
          rw [← hn, List.length_cons, List.length_append]
          omega
        rw [References.name_iff hname, scan_of_name hname]
        simp only [ih _ hlen rfl, exists_eq_right]
      · have hlen : cs.length < n := by rw [← hn]; exact Nat.lt_succ_self _
        rw [References.literal_iff hc, ih _ hlen rfl, scan, if_neg hc]

/-- The name of a reference is read where it stands. -/
theorem Span.name?_of_toList {text : String} {before name behind : List Char}
    (htext : text.toList = before ++ sigil :: (name ++ behind)) :
    Span.name? ⟨utf8Len before, 1 + utf8Len name⟩ text = some (String.ofList name) := by
  have hslice := slice?_of_toList (a := before ++ [sigil]) (b := name) (c := behind) (by
    rw [htext, List.append_assoc, List.append_assoc]
    rfl)
  rw [utf8Len_append _ name, utf8Len_append_sigil] at hslice
  rw [Span.name?, Span.stop, ← Nat.add_assoc]
  exact hslice

/-- And in front of its name there is the `$`. -/
theorem slice?_sigil_of_toList {text : String} {before behind : List Char}
    (htext : text.toList = before ++ sigil :: behind) :
    slice? text (utf8Len before) (utf8Len before + 1) = some (String.singleton sigil) := by
  have hsplit : text.toList = before ++ [sigil] ++ behind := by
    rw [htext, List.append_assoc, List.singleton_append]
  have hslice := slice?_of_toList hsplit
  rwa [utf8Len_append_sigil] at hslice

/-- In the text that a reference was found in, its name can be read. -/
theorem Span.Cuts.exists_name {s : Span} {text : String} (h : s.Cuts 0 text.toList) :
    ∃ before name behind, text.toList = before ++ sigil :: (name ++ behind) ∧
      NameBefore name behind ∧ s.start = utf8Len before ∧
      s.name? text = some (String.ofList name) := by
  obtain ⟨before, name, behind, htext, hname, rfl⟩ := h
  rw [Nat.zero_add]
  exact ⟨before, name, behind, htext, hname, rfl, Span.name?_of_toList htext⟩

/-- **The references of a text are the spans that the grammar allows**, and no other list of spans
is. None is empty, and the name of each can be read in the text: it is the whole name there. -/
theorem spans_exact (text : String) :
    (∀ l, References 0 text.toList l ↔ l = spans text) ∧
      ∀ s ∈ spans text, 1 ≤ s.length ∧
        ∃ before name behind, text.toList = before ++ sigil :: (name ++ behind) ∧
          NameBefore name behind ∧ s.start = utf8Len before ∧
          s.name? text = some (String.ofList name) := by
  refine ⟨fun l => references_iff, fun s hs => ?_⟩
  have hreferences : References 0 text.toList (spans text) := references_iff.mpr rfl
  have hcut := hreferences.cut s hs
  exact ⟨hcut.start_le.2, hcut.exists_name⟩

/-- Of three dollar signs behind a letter of two bytes, the first two are one reference, and the
third starts the next one. -/
theorem spans_exact_of_dollars :
    let text := "é$$$x"
    spans text = [⟨2, 2⟩, ⟨4, 2⟩] ∧ (∀ l, References 0 text.toList l ↔ l = spans text) ∧
      ∃ before name behind, text.toList = before ++ sigil :: (name ++ behind) ∧
        NameBefore name behind ∧ 4 = utf8Len before ∧
        Span.name? ⟨4, 2⟩ text = some (String.ofList name) := by
  intro text
  have hspans : spans text = [⟨2, 2⟩, ⟨4, 2⟩] := by decide
  have hmem : (⟨4, 2⟩ : Span) ∈ spans text := by rw [hspans]; decide
  exact ⟨hspans, (spans_exact text).1, ((spans_exact text).2 _ hmem).2⟩

end Markup

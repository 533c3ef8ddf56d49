import Markup.Proofs.SafeExpansion

/-!
# Appended text

A template is read again as a whole when text is appended to it. Most of the time that makes no
difference: the references are those of the text before and those of the appended text, and what is
shown is what the two show on their own, one behind the other. It makes a difference exactly when
the border splits a name, that is, when a reference reaches the end of the first text and goes on in
the second one: a lone `$` in front of its name, or an identifier in front of more letters or
digits. Two dollar signs never go on, whatever follows.

* `GoesOn`: a name at the end of a text goes on in the next one.
* `SplitsName`: the border between two texts splits a name.
* `NameBefore.append_iff`, `Span.Cuts.append_iff`, `References.append_iff`: names, references and
  lists of references when more text follows.
* `spans_append_iff`: the references of two texts are those of the whole, unless a name is split.
* `Template.join_portionsOf_append`: where references are, portions are.
* `Template.push_composes`: what appending to a template does.
-/

namespace Markup

/-- The same reference when there are `count` more bytes in front of the text. -/
def Span.shift (s : Span) (count : Nat) : Span := ⟨s.start + count, s.length⟩

/-- A name at the end of a text goes on in the text behind: an empty one with a `$` or a letter, an
identifier with a letter or a digit. -/
def GoesOn (name behind : List Char) : Prop :=
  ∃ c, behind.head? = some c ∧
    (name = [] ∧ (c = sigil ∨ IsLetter c) ∨ IsIdentifier name ∧ IsLetterOrDigit c)

/-- The border between two texts splits a name: the last reference of the first text reaches its
end, and the name goes on in the second one. -/
def SplitsName (a b : String) : Prop :=
  ∃ s name, (spans a).getLast? = some s ∧ s.stop = a.utf8ByteSize ∧ s.name? a = some name ∧
    GoesOn name.toList b.toList

/-! ## When more text follows -/

theorem not_isIdentifier_nil : ¬ IsIdentifier [] := by decide

theorem not_isIdentifier_sigil : ¬ IsIdentifier [sigil] := by decide

/-- A name is whole in a longer text, unless it stands at the end and goes on. -/
theorem NameBefore.append_iff {name behind : List Char} (h : NameBefore name behind)
    (more : List Char) :
    NameBefore name (behind ++ more) ↔ ¬ (behind = [] ∧ GoesOn name more) := by
  cases behind with
  | cons d behind =>
    -- what follows the name is the same character
    refine iff_of_true ?_ fun hend => List.cons_ne_nil d behind hend.1
    cases h with
    | dollar => exact .dollar _
    | identifier hname hbehind => exact .identifier hname hbehind
    | empty hbehind => exact .empty hbehind
  | nil =>
    rw [List.nil_append, and_iff_right rfl]
    constructor
    · rintro hwhole ⟨c, hc, ⟨rfl, hfirst⟩ | ⟨hname, hnext⟩⟩
      · cases hwhole with
        | identifier hname => exact not_isIdentifier_nil hname
        | empty hbehind => exact hfirst.elim (hbehind c hc).1 (hbehind c hc).2
      · cases hwhole with
        | dollar => exact not_isIdentifier_sigil hname
        | identifier _ hbehind => exact hbehind c hc hnext
        | empty => exact not_isIdentifier_nil hname
    · intro hends
      cases h with
      | dollar => exact .dollar more
      | identifier hname =>
        exact .identifier hname fun c hc hnext => hends ⟨c, hc, .inr ⟨hname, hnext⟩⟩
      | empty =>
        refine .empty fun c hc => ⟨fun hsigil => ?_, fun hletter => ?_⟩
        · exact hends ⟨c, hc, .inl ⟨rfl, .inl hsigil⟩⟩
        · exact hends ⟨c, hc, .inl ⟨rfl, .inr hletter⟩⟩

/-- Parts of one length in front of one text are the same. -/
theorem append_inj_of_utf8Len_eq {a b c d : List Char} (h : a ++ b = c ++ d)
    (hlen : utf8Len a = utf8Len c) : a = c ∧ b = d := by
  obtain ⟨e, rfl, rfl⟩ := exists_append_of_utf8Len_le h (Nat.le_of_eq hlen)
  have he : utf8Len e = 0 := by
    rw [utf8Len_append] at hlen
    omega
  rw [utf8Len_eq_zero_iff.mp he, List.append_nil]
  exact ⟨rfl, rfl⟩

namespace Span.Cuts

variable {s : Span} {offset : Nat} {cs : List Char}

theorem stop_le (h : s.Cuts offset cs) : s.stop ≤ offset + utf8Len cs := by
  obtain ⟨before, name, behind, rfl, -, rfl⟩ := h
  simp only [Span.stop, utf8Len_append, utf8Len_cons, utf8Size_sigil]
  omega

/-- Where a reference stands, its name is the whole name there. -/
theorem iff_nameBefore (offset : Nat) (before name behind : List Char) :
    Span.Cuts ⟨offset + utf8Len before, 1 + utf8Len name⟩ offset
        (before ++ sigil :: (name ++ behind)) ↔ NameBefore name behind := by
  constructor
  · rintro ⟨before', name', behind', htext, hname, hspan⟩
    obtain ⟨hstart, hlength⟩ := Span.mk.inj hspan
    obtain ⟨-, hrest⟩ := append_inj_of_utf8Len_eq htext (Nat.add_left_cancel hstart)
    obtain ⟨rfl, rfl⟩ :=
      append_inj_of_utf8Len_eq (List.cons.inj hrest).2 (Nat.add_left_cancel hlength)
    exact hname
  · exact fun hname => ⟨before, name, behind, rfl, hname, rfl⟩

/-- A reference is one in a longer text, unless it reaches the end and its name goes on. -/
theorem append_iff {text : String} (h : s.Cuts 0 text.toList) (more : List Char) :
    s.Cuts 0 (text.toList ++ more) ↔
      ¬ ∃ name, s.stop = text.utf8ByteSize ∧ s.name? text = some name ∧
        GoesOn name.toList more := by
  obtain ⟨before, name, behind, htext, hname, rfl⟩ := h
  have hread := Span.name?_of_toList htext
  have hstop : Span.stop ⟨utf8Len before, 1 + utf8Len name⟩ = text.utf8ByteSize ↔ behind = [] := by
    rw [← utf8Len_eq_zero_iff, utf8ByteSize_eq_utf8Len, htext, Span.stop]
    simp only [utf8Len_append, utf8Len_cons, utf8Size_sigil]
    omega
  rw [htext, List.append_assoc, List.cons_append, List.append_assoc, iff_nameBefore,
    hname.append_iff, Nat.zero_add, hstop, hread]
  simp

end Span.Cuts

namespace References

variable {offset : Nat} {a b : List Char} {l m : List Span}

/-- A reference that reaches the end of the text is the last one. -/
theorem getLast?_eq (h : References offset a l) {s : Span} (hs : s ∈ l)
    (hstop : s.stop = offset + utf8Len a) : l.getLast? = some s := by
  obtain ⟨before, after, rfl⟩ := List.append_of_mem hs
  cases after with
  | nil => exact List.getLast?_concat
  | cons t after =>
    -- the next reference would start at the end of the text, and is not empty
    have ht : t ∈ before ++ s :: t :: after := by simp
    have hstart := (List.pairwise_cons.mp (List.pairwise_append.mp h.ordered).2.1).1 t
      List.mem_cons_self
    have hlength := (h.cut t ht).start_le.2
    have hend := (h.cut t ht).stop_le
    rw [Span.stop] at hend
    omega

/-- The references of two texts are those of the whole, as soon as those of the first text are
references there. -/
theorem append_iff (ha : References offset a l) (hb : References (offset + utf8Len a) b m) :
    References offset (a ++ b) (l ++ m) ↔ ∀ s ∈ l, s.Cuts offset (a ++ b) := by
  constructor
  · exact fun h s hs => h.cut s (List.mem_append_left m hs)
  · intro hcut
    refine ⟨List.pairwise_append.mpr ⟨ha.ordered, hb.ordered, fun s hs t ht => ?_⟩,
      fun s hs => ?_, fun before behind hsigil => ?_⟩
    · exact (ha.cut s hs).stop_le.trans (hb.cut t ht).start_le.1
    · rcases List.mem_append.mp hs with hs | hs
      · exact hcut s hs
      · exact (hb.cut s hs).append_left
    · by_cases hlen : utf8Len a ≤ utf8Len before
      · obtain ⟨e, rfl, he⟩ := exists_append_of_utf8Len_le hsigil hlen
        obtain ⟨t, ht, hcover⟩ := hb.cover e behind he
        rw [utf8Len_append, ← Nat.add_assoc]
        exact ⟨t, List.mem_append_right l ht, hcover⟩
      · obtain ⟨e, rfl, he⟩ := exists_append_of_utf8Len_le hsigil.symm (Nat.le_of_not_le hlen)
        cases e with
        | nil => exact absurd (by rw [List.append_nil]) hlen
        | cons c e =>
          obtain ⟨rfl, rfl⟩ := List.cons.inj he
          obtain ⟨t, ht, hcover⟩ := ha.cover before e rfl
          exact ⟨t, List.mem_append_left m ht, hcover⟩

end References

/-! ## Two texts -/

/-- The references of a text move with it. -/
theorem scan_shift (offset count skip : Nat) (cs : List Char) :
    scan (offset + count) skip cs = (scan offset skip cs).map (·.shift count) := by
  induction cs generalizing offset skip with
  | nil => rfl
  | cons c cs ih =>
    have hmove (size : Nat) : offset + count + size = offset + size + count := Nat.add_right_comm ..
    cases skip with
    | succ skip => rw [scan, scan, hmove, ih]
    | zero =>
      rw [scan, scan]
      split
      · rw [hmove, ih, List.map_cons, Span.shift]
      · rw [hmove, ih]

/-- The references of the first text are references in front of the second one, unless the border
splits a name. -/
theorem forall_cuts_append_iff (a b : String) :
    (∀ s ∈ spans a, s.Cuts 0 (a.toList ++ b.toList)) ↔ ¬ SplitsName a b := by
  have ha : References 0 a.toList (spans a) := references_iff.mpr rfl
  constructor
  · rintro hcuts ⟨s, name, hlast, hend⟩
    have hs : s ∈ spans a := List.mem_of_getLast? hlast
    exact ((ha.cut s hs).append_iff b.toList).mp (hcuts s hs) ⟨name, hend⟩
  · intro hwhole s hs
    refine ((ha.cut s hs).append_iff b.toList).mpr fun ⟨name, hstop, hname⟩ => hwhole ?_
    have hend : s.stop = 0 + utf8Len a.toList := by
      rw [hstop, utf8ByteSize_eq_utf8Len, Nat.zero_add]
    exact ⟨s, name, ha.getLast?_eq hs hend, hstop, hname⟩

/-- The references of two texts are those of the whole, unless the border splits a name. -/
theorem spans_append_iff (a b : String) :
    spans (a ++ b) = spans a ++ (spans b).map (·.shift a.utf8ByteSize) ↔ ¬ SplitsName a b := by
  have ha : References 0 a.toList (spans a) := references_iff.mpr rfl
  have hb :
      References (0 + utf8Len a.toList) b.toList ((spans b).map (·.shift a.utf8ByteSize)) := by
    rw [references_iff, scan_shift, utf8ByteSize_eq_utf8Len]
    rfl
  rw [← forall_cuts_append_iff, ← ha.append_iff hb, references_iff, spans, String.toList_append,
    eq_comm]

/-- Reading the whole tells whether the border splits a name. -/
instance (a b : String) : Decidable (SplitsName a b) :=
  decidable_of_iff (spans (a ++ b) ≠ spans a ++ (spans b).map (·.shift a.utf8ByteSize))
    (by rw [Ne, spans_append_iff, not_not])

/-- A border can fall between two dollar signs and inside an identifier. -/
example : SplitsName "é$" "$x" ∧ SplitsName "$x" "1" ∧ ¬ SplitsName "$" "1" := by decide

/-! ## Portions -/

namespace Template

variable (t : Template) (env : Option Environment)

theorem shown_empty : t.shown "" = "" := by
  unfold shown
  split
  · rfl
  · exact escape_empty

theorem shown_append (a b : String) : t.shown (a ++ b) = t.shown a ++ t.shown b := by
  unfold shown
  split
  · rfl
  · exact escape_append a b

/-- The literal at hand is shown in front of what is still to be read. -/
theorem join_portionsOf (literal cs : List Char) :
    String.join (t.portionsOf env literal 0 cs) =
      t.shown (String.ofList literal) ++ String.join (t.portionsOf env [] 0 cs) := by
  induction cs generalizing literal with
  | nil =>
    rw [portionsOf, portionsOf, String.ofList_nil, shown_empty, String.join_cons, String.join_cons,
      String.join_nil, String.append_empty, String.append_empty, String.append_empty]
  | cons c cs ih =>
    rw [portionsOf, portionsOf]
    split
    · simp only [String.join_cons, String.ofList_nil, shown_empty, String.empty_append]
    · rw [ih, ih ([] ++ [c]), List.nil_append, String.ofList_append, shown_append,
        String.append_assoc]

/-- Where the references of the first text are references of the whole, two texts are shown one
behind the other. -/
theorem join_portionsOf_append {offset : Nat} {a b : List Char}
    (hcuts : ∀ s ∈ scan offset 0 a, s.Cuts offset (a ++ b)) :
    String.join (t.portionsOf env [] 0 (a ++ b)) =
      String.join (t.portionsOf env [] 0 a) ++ String.join (t.portionsOf env [] 0 b) := by
  -- a reference takes its whole name at once, so the induction is on what remains of the first text
  induction hn : a.length using Nat.strong_induction_on generalizing offset a with
  | _ n ih =>
    cases a with
    | nil =>
      rw [List.nil_append, portionsOf, String.ofList_nil, shown_empty, String.join_cons,
        String.join_nil, String.append_empty, String.empty_append]
    | cons c cs =>
      by_cases hc : c = sigil
      · obtain ⟨behind, hcs, hname⟩ := nameBefore_nameAfter cs
        generalize nameAfter cs = name at hcs hname
        subst hc hcs
        have hlen : behind.length < n := by
          rw [← hn, List.length_cons, List.length_append]
          omega
        rw [scan_of_name hname] at hcuts
        rw [List.cons_append, List.append_assoc] at hcuts ⊢
        have hwhole : NameBefore name (behind ++ b) :=
          (Span.Cuts.iff_nameBefore offset [] name (behind ++ b)).mp (hcuts _ List.mem_cons_self)
        have hrest : ∀ s ∈ scan (offset + (1 + utf8Len name)) 0 behind,
            s.Cuts (offset + (1 + utf8Len name)) (behind ++ b) := fun s hs =>
          (hcuts s (List.mem_cons_of_mem _ hs)).of_append_left (a := sigil :: name)
            ((references_iff.mpr rfl : References _ behind _).cut s hs).start_le.1
        rw [portionsOf_reference _ hname, portionsOf_reference _ hwhole]
        simp only [String.join_cons, String.append_assoc, ih _ hlen hrest rfl]
      · have hlen : cs.length < n := by rw [← hn]; exact Nat.lt_succ_self _
        have hrest : ∀ s ∈ scan (offset + c.utf8Size) 0 cs,
            s.Cuts (offset + c.utf8Size) (cs ++ b) := by
          rw [scan, if_neg hc] at hcuts
          exact fun s hs => (hcuts s hs).of_append_left (a := [c])
            ((references_iff.mpr rfl : References _ cs _).cut s hs).start_le.1
        rw [List.cons_append, portionsOf, if_neg hc, portionsOf, if_neg hc, join_portionsOf,
          ih _ hlen hrest rfl, ← String.append_assoc, ← join_portionsOf]

/-- Only whether the template is raw makes a difference to the portions of a text. -/
theorem portionsOf_congr {t u : Template} (hraw : t.raw = u.raw) (literal : List Char) (skip : Nat)
    (cs : List Char) : t.portionsOf env literal skip cs = u.portionsOf env literal skip cs := by
  have hshown (portion : String) : t.shown portion = u.shown portion := by
    rw [shown, shown, hraw]
  induction cs generalizing literal skip with
  | nil => rw [portionsOf, portionsOf, hshown]
  | cons c cs ih =>
    cases skip with
    | succ skip => exact ih literal skip
    | zero =>
      rw [portionsOf, portionsOf]
      split
      · rw [ih, hshown, substitute, substitute, hshown]
      · exact ih _ 0

end Template

/-- **Appending composes unless it splits a name.** The references of two texts are those of the
whole if and only if the border splits no name. Text that is appended is read again with the text
before it, and where no name is split, what is shown is what the two show, one behind the other. -/
theorem Template.push_composes (a b : String) :
    (Markup.spans (a ++ b) =
        Markup.spans a ++ (Markup.spans b).map (·.shift a.utf8ByteSize) ↔ ¬ SplitsName a b) ∧
      (∀ raw, ((Template.new a).setRaw raw).push b = (Template.new (a ++ b)).setRaw raw) ∧
      (¬ SplitsName a b → ∀ raw env, ∃ x y,
        ((Template.new a).setRaw raw).expand? env = some x ∧
          ((Template.new b).setRaw raw).expand? env = some y ∧
          ((Template.new (a ++ b)).setRaw raw).expand? env = some (x ++ y)) := by
  refine ⟨spans_append_iff a b, fun raw => rfl, fun hwhole raw env => ?_⟩
  have hcuts := (forall_cuts_append_iff a b).mpr hwhole
  -- one template stands for the three, since they are raw or not together
  have hexpand (text : String) : ((Template.new text).setRaw raw).expand? env =
      some (String.join (((Template.new "").setRaw raw).portionsOf env [] 0 text.toList)) := by
    have hcongr := Template.portionsOf_congr env (t := (Template.new text).setRaw raw)
      (u := (Template.new "").setRaw raw) rfl [] 0 text.toList
    rw [Template.expand?, Template.portions?_eq rfl, Option.map_some, ← hcongr]
    rfl
  refine ⟨_, _, hexpand a, hexpand b, ?_⟩
  rw [hexpand, String.toList_append, Template.join_portionsOf_append _ _ hcuts]

/-- A dollar sign that is doubled at the end goes with no name. -/
theorem Template.push_composes_of_dollars :
    ¬ SplitsName "é$$" "x$x" ∧ Markup.spans ("é$$" ++ "x$x") = [⟨2, 2⟩, ⟨5, 2⟩] ∧
      ∀ raw env, ∃ x y, ((Template.new "é$$").setRaw raw).expand? env = some x ∧
        ((Template.new "x$x").setRaw raw).expand? env = some y ∧
        ((Template.new ("é$$" ++ "x$x")).setRaw raw).expand? env = some (x ++ y) := by
  have hcomposes := Template.push_composes "é$$" "x$x"
  have hwhole : ¬ SplitsName "é$$" "x$x" := hcomposes.1.mp (by decide)
  exact ⟨hwhole, by decide, hcomposes.2.2 hwhole⟩

end Markup

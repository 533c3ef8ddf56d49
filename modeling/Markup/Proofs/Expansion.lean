import Markup.Proofs.Contents

/-!
# Expansion without positions

A template keeps the byte positions of its references, and is expanded by slicing its text at
them. Reading the text from left to right gives the same portions without a position; so slicing
never fails when the positions are those of the text, which they are in every reachable forest.

* `Template.portionsOf`: the portions, read from left to right.
* `Template.portions?_eq`: slicing at the references of the text gives these portions.
* `Reachable.spans_eq`: a template in a reachable forest has the references of its text.
* `Reachable.expand?_eq`: so its expansion never fails.
-/

namespace Markup

/-- The slice between the ends of two parts of a text. -/
theorem slice?_of_toList {text : String} {a b c : List Char} (h : text.toList = a ++ b ++ c) :
    slice? text (utf8Len a) (utf8Len (a ++ b)) = some (String.ofList b) := by
  have htext : text = String.ofList a ++ String.ofList b ++ String.ofList c := by
    rw [← String.ofList_append, ← String.ofList_append, ← h, String.ofList_toList]
  have hslice := slice?_append (String.ofList a) (String.ofList b) (String.ofList c)
  rwa [← htext, utf8ByteSize_ofList, utf8ByteSize_ofList, ← utf8Len_append] at hslice

namespace Template

/-- The portions of what remains to be read, where `literal` was read since the last reference and
the first `skip` characters belong to its name. -/
def portionsOf (t : Template) (env : Option Environment) : List Char → Nat → List Char → List String
  | literal, _, [] => [t.shown (String.ofList literal)]
  | literal, skip + 1, _ :: cs => t.portionsOf env literal skip cs
  | literal, 0, c :: cs =>
    if c = sigil then
      t.shown (String.ofList literal) :: t.substitute env (String.ofList (nameAfter cs)) ::
        t.portionsOf env [] (nameAfter cs).length cs
    else t.portionsOf env (literal ++ [c]) 0 cs

variable (t : Template) (env : Option Environment)

theorem portionsOf_skip (literal a b : List Char) :
    t.portionsOf env literal a.length (a ++ b) = t.portionsOf env literal 0 b := by
  induction a with
  | nil => rfl
  | cons c a ih => rw [List.cons_append, List.length_cons, portionsOf, ih]

/-- Reading goes on behind the name. -/
theorem portionsOf_nameAfter (literal cs : List Char) :
    t.portionsOf env literal (nameAfter cs).length cs =
      t.portionsOf env literal 0 (cs.drop (nameAfter cs).length) := by
  obtain ⟨rest, h⟩ := nameAfter_prefix cs
  generalize nameAfter cs = name at h
  subst h
  rw [portionsOf_skip, List.drop_left]

/-- Behind a reference slicing goes on behind its name. -/
theorem portionsFrom_reference {before literal name rest : List Char}
    (htext : t.text.toList = before ++ literal ++ sigil :: (name ++ rest)) (spans : List Span) :
    t.portionsFrom env (utf8Len before)
        (⟨utf8Len (before ++ literal), 1 + utf8Len name⟩ :: spans) =
      (t.portionsFrom env (utf8Len (before ++ literal ++ sigil :: name)) spans).map fun portions =>
        t.shown (String.ofList literal) :: t.substitute env (String.ofList name) :: portions := by
  have hname : t.text.toList = before ++ literal ++ [sigil] ++ name ++ rest := by
    rw [htext]
    simp
  have hstart : utf8Len (before ++ literal) + 1 = utf8Len (before ++ literal ++ [sigil]) :=
    (utf8Len_append_sigil _ []).symm
  have hstop : utf8Len (before ++ literal) + (1 + utf8Len name) =
      utf8Len (before ++ literal ++ [sigil] ++ name) := by
    rw [utf8Len_append _ name, ← hstart, Nat.add_assoc]
  have happend : before ++ literal ++ [sigil] ++ name = before ++ literal ++ sigil :: name := by
    simp
  rw [portionsFrom, slice?_of_toList htext, Span.name?, Span.stop, hstop, hstart,
    slice?_of_toList hname, happend]
  cases t.portionsFrom env (utf8Len (before ++ literal ++ sigil :: name)) spans <;> rfl

/-- Slicing goes on where reading is: behind `before`, which ends with the last reference. -/
theorem portionsFrom_scan {before literal cs : List Char}
    (htext : t.text.toList = before ++ literal ++ cs) :
    t.portionsFrom env (utf8Len before) (scan (utf8Len (before ++ literal)) 0 cs) =
      some (t.portionsOf env literal 0 cs) := by
  -- a reference takes its whole name at once, so the induction is on what remains
  induction hn : cs.length using Nat.strong_induction_on generalizing before literal cs with
  | _ n ih =>
    cases cs with
    | nil =>
      have hsize : t.text.utf8ByteSize = utf8Len (before ++ literal) := by
        rw [utf8ByteSize_eq_utf8Len, htext, List.append_nil]
      rw [scan, portionsFrom, hsize, slice?_of_toList htext, portionsOf]
      rfl
    | cons c cs =>
      by_cases hc : c = sigil
      · subst hc
        rw [scan, if_pos rfl, portionsOf, if_pos rfl, scan_nameAfter, portionsOf_nameAfter]
        obtain ⟨rest, hcs⟩ := nameAfter_prefix cs
        generalize nameAfter cs = name at hcs
        subst hcs
        have hbehind : t.text.toList = (before ++ literal ++ sigil :: name) ++ [] ++ rest := by
          rw [htext]
          simp
        have hlen : rest.length < n := by
          rw [← hn]
          simp only [List.length_cons, List.length_append]
          omega
        have hoffset : utf8Len (before ++ literal) + 1 + utf8Len name =
            utf8Len (before ++ literal ++ sigil :: name ++ []) := by
          rw [List.append_nil, utf8Len_append_sigil, Nat.add_assoc]
        rw [t.portionsFrom_reference env htext, List.drop_left, hoffset, ih _ hlen hbehind rfl]
        rfl
      · have hnext : t.text.toList = before ++ (literal ++ [c]) ++ cs := by
          rw [htext]
          simp
        have hlen : cs.length < n := by rw [← hn]; exact Nat.lt_succ_self _
        have hoffset : utf8Len (before ++ literal) + c.utf8Size =
            utf8Len (before ++ (literal ++ [c])) := by
          simp only [utf8Len_append, utf8Len_cons, utf8Len_nil]
          omega
        rw [scan, if_neg hc, portionsOf, if_neg hc, hoffset, ih _ hlen hnext rfl]

/-- Slicing at the references of the text gives the portions that are read. -/
theorem portions?_eq {t : Template} (ht : t.spans = Markup.spans t.text)
    (env : Option Environment) : t.portions? env = some (t.portionsOf env [] 0 t.text.toList) := by
  have htext : t.text.toList = [] ++ [] ++ t.text.toList := rfl
  rw [portions?, ht, Markup.spans]
  exact t.portionsFrom_scan env htext

/-- The text shown for the template; nothing if a stored reference does not cut the text. -/
def expand (t : Template) (env : Option Environment) : String := (t.expand? env).getD ""

theorem expand_eq (t : Template) (env : Option Environment) :
    t.expand env = String.join ((t.portions? env).getD []) := by
  rw [expand, expand?]
  cases t.portions? env <;> rfl

end Template

/-- A template in a reachable forest has the references of its text. -/
theorem Reachable.spans_eq {f : Forest} (hf : Reachable f) {h : Handle} {c : Cell} {t : Template}
    (hc : f.cell? h = some c) (ht : c.content = .template t) : t.spans = Markup.spans t.text := by
  have all : ∀ t, c.content = .template t → t.spans = Markup.spans t.text := by
    refine hf.content (P := fun c => ∀ t, c = .template t → t.spans = Markup.spans t.text)
      ?_ ?_ hc
    · intro seed t ht
      cases seed <;> cases ht <;> rfl
    · intro c c' hP hedited t ht
      cases hedited with
      | attributes edit h =>
        obtain ⟨e, he, rfl⟩ := Option.map_eq_some_iff.mp h
        cases c <;> cases he <;> cases ht
      | text edit h =>
        unfold Content.edit? at h
        split at h <;> cases h <;> cases ht <;>
          first | rfl | (have hspans := hP _ rfl; exact hspans)
      | remembered =>
        unfold Content.rememberTag at ht
        split at ht
        · next e he => cases c <;> cases he <;> cases ht
        · exact hP t ht
  exact all t ht

/-- So it is always expanded. -/
theorem Reachable.expand?_eq {f : Forest} (hf : Reachable f) {h : Handle} {t : Template}
    (ht : (f.cell? h).bind (·.content.template?) = some t) (env : Option Environment) :
    t.expand? env = some (t.expand env) := by
  obtain ⟨c, hc, ht⟩ := Option.bind_eq_some_iff.mp ht
  have hcontent : c.content = .template t := by
    cases hkind : c.content <;> rw [hkind] at ht <;> cases ht
    rfl
  rw [Template.expand, Template.expand?, Template.portions?_eq (hf.spans_eq hc hcontent)]
  rfl

end Markup

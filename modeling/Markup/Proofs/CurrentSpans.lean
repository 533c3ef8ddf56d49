import Markup.Proofs.GuardedText

/-!
# The stored references

A template keeps the references of its text next to the text, and whatever changes the text has to
read it again. Every template a program can come by has the references of its present text, one on
its own as well as one in a node, so the references tell nothing about how the text came about: what
was appended to a name, or cut out of one, leaves no trace.

* `Template.Made`: the templates that a program can come by.
* `Template.Made.spans_eq`: they have the references of their texts.
* `Template.slicesFrom?_eq`: the references cut the text into parts that make it up again.
* `Template.made_exact`: both, with what follows for equality and expansion.
-/

namespace Markup

namespace Template

/-- The templates that a program can come by: those it makes and edits on their own, and those in
the nodes of the forests it can reach. -/
inductive Made : Template → Prop where
  | new (text : String) : Made (new text)
  | newRaw (text : String) : Made (newRaw text)
  | push {t : Template} (ht : Made t) (text : String) : Made (t.push text)
  | replace {t : Template} (ht : Made t) (text : String) : Made (t.replace text)
  | setRaw {t : Template} (ht : Made t) (raw : Bool) : Made (t.setRaw raw)
  | held {f : Forest} (hf : Reachable f) {h : Handle} {c : Cell} (hc : f.cell? h = some c)
      {t : Template} (ht : c.content = .template t) : Made t

/-- A template has the references of its present text. -/
theorem Made.spans_eq {t : Template} (ht : t.Made) : t.spans = Markup.spans t.text := by
  induction ht with
  | new text => rfl
  | newRaw text => rfl
  | push _ text _ => exact spans_push _ text
  | replace _ text _ => exact spans_replace _ text
  | setRaw _ raw ih => exact ih
  | held hf hc ht => exact hf.spans_eq hc ht

/-- With the references of their texts, templates are equal if their texts and flags are. -/
theorem eq_iff_of_spans {t u : Template} (ht : t.spans = Markup.spans t.text)
    (hu : u.spans = Markup.spans u.text) : t = u ↔ t.text = u.text ∧ t.raw = u.raw := by
  constructor
  · rintro rfl
    exact ⟨rfl, rfl⟩
  · rintro ⟨htext, hraw⟩
    have hspans : t.spans = u.spans := by rw [ht, hu, htext]
    cases t
    cases u
    simp_all

/-! ## Cutting at the references -/

/-- The parts of the text from byte `offset` on, cut at the given references: the text in front of
each one, its `$` and its name, and the text behind the last one. -/
def slicesFrom? (text : String) : Nat → List Span → Option (List String)
  | offset, [] => do return [← slice? text offset text.utf8ByteSize]
  | offset, s :: rest => do
    let literal ← slice? text offset s.start
    let dollar ← slice? text s.start (s.start + 1)
    let name ← s.name? text
    return literal :: dollar :: name :: (← slicesFrom? text s.stop rest)

/-- At a reference the text is cut into what is in front of it, its `$` and its name. -/
theorem slicesFrom?_reference {text : String} {before front name rest : List Char}
    (htext : text.toList = before ++ front ++ sigil :: (name ++ rest)) (l : List Span) :
    slicesFrom? text (utf8Len before) (⟨utf8Len (before ++ front), 1 + utf8Len name⟩ :: l) =
      (slicesFrom? text (utf8Len (before ++ front ++ sigil :: name)) l).map fun slices =>
        String.ofList front :: String.singleton sigil :: String.ofList name :: slices := by
  rw [slicesFrom?, slice?_of_toList htext, slice?_sigil_of_toList htext,
    Span.name?_of_toList htext, Span.stop, ← utf8Len_append_sigil]
  cases slicesFrom? text (utf8Len (before ++ front ++ sigil :: name)) l <;> rfl

/-- From a cut on, the references that are read there cut the text into parts that make it up. -/
theorem slicesFrom?_eq {text : String} {before cs : List Char}
    (htext : text.toList = before ++ cs) :
    ∃ slices, slicesFrom? text (utf8Len before) (scan (utf8Len before) 0 cs) = some slices ∧
      String.join slices = String.ofList cs := by
  -- a reference takes its whole name at once, so the induction is on what remains
  induction hn : cs.length using Nat.strong_induction_on generalizing before cs with
  | _ n ih =>
    rcases Guarded.scan_cases before cs with
      ⟨-, hscan⟩ | ⟨front, name, rest, -, rfl, -, hscan⟩
    · have hend : text.toList = before ++ cs ++ [] := by rw [htext, List.append_nil]
      have hsize : text.utf8ByteSize = utf8Len (before ++ cs) := by
        rw [utf8ByteSize_eq_utf8Len, htext]
      refine ⟨[String.ofList cs], ?_, by simp⟩
      rw [hscan, slicesFrom?, hsize, slice?_of_toList hend]
      rfl
    · rw [← List.append_assoc] at htext
      have hrest : text.toList = (before ++ front ++ sigil :: name) ++ rest := by
        rw [htext]
        simp
      have hlen : rest.length < n := by
        rw [← hn]
        simp only [List.length_append, List.length_cons]
        omega
      obtain ⟨slices, hslices, hjoin⟩ := ih _ hlen hrest rfl
      refine ⟨_, by rw [hscan, slicesFrom?_reference htext, hslices, Option.map_some], ?_⟩
      rw [String.join_cons, String.join_cons, String.join_cons, hjoin, String.singleton_eq_ofList]
      simp only [← String.ofList_append, List.cons_append, List.nil_append]

/-- **The stored references are always those of the present text.** So the texts and the flags of
two templates decide whether they are equal, however they came about, the references cut the text at
characters into parts that make it up again, and expansion never cuts it anywhere else. -/
theorem made_exact {t : Template} (ht : t.Made) :
    t.spans = Markup.spans t.text ∧
    (∀ u : Template, u.Made → (t = u ↔ t.text = u.text ∧ t.raw = u.raw)) ∧
    (∃ slices, slicesFrom? t.text 0 t.spans = some slices ∧ String.join slices = t.text) ∧
    ∀ env, ∃ portions, t.portions? env = some portions ∧ Guarded.portions t env = .ok portions ∧
      t.expand? env = some (String.join portions) := by
  have hspans := ht.spans_eq
  refine ⟨hspans, fun u hu => eq_iff_of_spans hspans hu.spans_eq, ?_, fun env => ?_⟩
  · obtain ⟨slices, hslices, hjoin⟩ := slicesFrom?_eq (List.nil_append t.text.toList).symm
    refine ⟨slices, ?_, by rw [hjoin, String.ofList_toList]⟩
    rw [hspans]
    exact hslices
  · obtain ⟨portions, hportions, hguarded⟩ := Guarded.portions_eq hspans env
    exact ⟨portions, hportions, hguarded, by rw [expand?, hportions, Option.map_some]⟩

/-- A template that was made on its own is equal to one that was edited in a node and copied from
there, behind a character of two bytes and with a name that came in two pieces. -/
theorem made_exact_of_histories :
    let commands : List Command := [.create (.template "$a"), .editText ⟨0, 0⟩ (.replace "é$"),
      .editText ⟨0, 0⟩ (.pushTemplate "x$$"), .editText ⟨0, 0⟩ (.setRaw true), .copy ⟨0, 0⟩]
    let t := ((Template.new "é$").push "x$$").setRaw true
    t.spans = [⟨2, 2⟩, ⟨4, 2⟩] ∧
      (((Forest.empty.run commands).cell? ⟨1, 0⟩).bind (·.content.template?)) = some t ∧
      ∃ portions, Guarded.portions t none = .ok portions := by
  intro commands t
  have ht : t.Made := ((Made.new "é$").push "x$$").setRaw true
  have hcell : ∃ c u, (Forest.empty.run commands).cell? ⟨1, 0⟩ = some c ∧
      c.content = .template u ∧ t.text = u.text ∧ t.raw = u.raw := by
    refine ⟨_, _, rfl, rfl, ?_, ?_⟩ <;> decide
  obtain ⟨c, u, hc, hcontent, htext, hraw⟩ := hcell
  have hu : u.Made := .held (Reachable.empty.run commands) hc hcontent
  obtain ⟨hspans, hequal, -, hexpand⟩ := made_exact ht
  obtain ⟨portions, -, hportions, -⟩ := hexpand none
  refine ⟨hspans.trans (by decide), ?_, portions, hportions⟩
  rw [(hequal u hu).mpr ⟨htext, hraw⟩, hc, Option.bind_some, hcontent]
  rfl

end Template

end Markup

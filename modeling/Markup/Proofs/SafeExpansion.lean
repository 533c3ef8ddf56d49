import Markup.Proofs.Items

/-!
# Expansion with and without escapes

A raw template shows its portions as they are. A template that is not raw escapes the literal text
between its references and what is put in their places, one portion at a time, and leaves the dollar
sign of a `$$` alone. It shows what the raw template of the same text shows, escaped once and as a
whole: it makes no difference where the portions end, and a dollar sign is its own written form.

* `escape_join`: text can be escaped portion by portion.
* `escape_injective`: two texts with the same written form are the same.
* `Template.portionsOf_escape`: the portions of the two templates differ by an escape each.
* `Template.expand_escaped`: so do the texts that they show.
-/

namespace Markup

/-- Text can be escaped portion by portion. -/
theorem escape_join (portions : List String) :
    escape (String.join portions) = String.join (portions.map escape) := by
  induction portions with
  | nil => exact escape_empty
  | cons p portions ih =>
    rw [String.join_cons, escape_append, ih, List.map_cons, String.join_cons]

/-- No written form of a character is the front of another one. -/
theorem escapeChar_append_inj {c d : Char} {a b : List Char}
    (h : escapeChar c ++ a = escapeChar d ++ b) : c = d ∧ a = b := by
  unfold escapeChar at h
  split at h <;> split at h <;> simp_all
  -- one of the five in front of a character that is written as it is, which is then no `&`
  all_goals exact absurd h.1.symm ‹¬d = _›

theorem escapeChar_ne_nil (c : Char) : escapeChar c ≠ [] := by
  unfold escapeChar
  split <;> exact List.cons_ne_nil _ _

theorem flatMap_escapeChar_inj {cs ds : List Char}
    (h : cs.flatMap escapeChar = ds.flatMap escapeChar) : cs = ds := by
  induction cs generalizing ds with
  | nil =>
    cases ds with
    | nil => rfl
    | cons d ds =>
      rw [List.flatMap_cons] at h
      exact absurd (List.append_eq_nil_iff.mp h.symm).1 (escapeChar_ne_nil d)
  | cons c cs ih =>
    cases ds with
    | nil =>
      rw [List.flatMap_cons] at h
      exact absurd (List.append_eq_nil_iff.mp h).1 (escapeChar_ne_nil c)
    | cons d ds =>
      rw [List.flatMap_cons, List.flatMap_cons] at h
      obtain ⟨rfl, hrest⟩ := escapeChar_append_inj h
      rw [ih hrest]

/-- Two texts with the same written form are the same. -/
theorem escape_injective : Function.Injective escape := by
  intro s t h
  have hchars := congrArg String.toList h
  rw [toList_escape, toList_escape] at hchars
  exact String.toList_inj.mp (flatMap_escapeChar_inj hchars)

/-- A dollar sign is its own written form. -/
theorem escape_sigil : escape (String.singleton sigil) = String.singleton sigil := by decide

namespace Template

variable {t u : Template} {env : Option Environment}

theorem shown_of_safe (hu : u.raw = false) (portion : String) : u.shown portion = escape portion :=
  if_neg (by rw [hu]; exact Bool.false_ne_true)

/-- What is put in the place of a reference is escaped once, be it a value, the text for an unbound
name or a dollar sign. -/
theorem substitute_escape (ht : t.raw = true) (hu : u.raw = false) (name : String) :
    u.substitute env name = escape (t.substitute env name) := by
  unfold substitute
  split
  · next h => rw [h, escape_sigil]
  · rw [shown_of_safe hu, shown_of_raw ht]

/-- The portions of the two templates differ by an escape each. -/
theorem portionsOf_escape (ht : t.raw = true) (hu : u.raw = false) (literal : List Char)
    (skip : Nat) (cs : List Char) :
    u.portionsOf env literal skip cs = (t.portionsOf env literal skip cs).map escape := by
  induction cs generalizing literal skip with
  | nil => simp [portionsOf, shown_of_safe hu, shown_of_raw ht]
  | cons c cs ih =>
    cases skip with
    | succ skip => exact ih literal skip
    | zero =>
      rw [portionsOf, portionsOf]
      split
      · rw [ih, shown_of_safe hu, substitute_escape ht hu, List.map_cons, List.map_cons,
          shown_of_raw ht]
      · exact ih _ 0

/-- **A safe template shows what the raw one shows, escaped once**: portion by portion, and so as a
whole. Both are always expanded. -/
theorem expand_escaped (text : String) (env : Option Environment) :
    ∃ portions, (newRaw text).portions? env = some portions ∧
      (new text).portions? env = some (portions.map escape) ∧
      (newRaw text).expand? env = some (String.join portions) ∧
      (new text).expand? env = some (escape (String.join portions)) := by
  have hraw : (newRaw text).portions? env = some ((newRaw text).portionsOf env [] 0 text.toList) :=
    portions?_eq rfl env
  have hsafe : (new text).portions? env =
      some (((newRaw text).portionsOf env [] 0 text.toList).map escape) := by
    rw [← portionsOf_escape (u := new text) rfl rfl]
    exact portions?_eq rfl env
  refine ⟨_, hraw, hsafe, ?_, ?_⟩
  · rw [expand?, hraw, Option.map_some]
  · rw [expand?, hsafe, Option.map_some, escape_join]

/-- Markup in the text and in a value, next to a dollar sign and an unbound name. -/
example :
    let env := some (Environment.empty.insert "x" "&amp;")
    (newRaw "<$x$$$y>").expand? env = some "<&amp;$undefined>" ∧
      (new "<$x$$$y>").expand? env = some "&lt;&amp;amp;$undefined&gt;" := by decide

end Template

end Markup

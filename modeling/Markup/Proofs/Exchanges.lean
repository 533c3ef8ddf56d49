import Markup.Proofs.Kinds
import Markup.Proofs.Tags
import Markup.Woodland

/-!
# Elements that change places

An element takes its name along when it changes places with one of another forest. The node is of
the kind that it was and stands where it stood, and so a void element can come into a node that has
children. What names decide holds of the forests in which no node was given an element of another
name.

* `Woodland.act_cases`: what an act does to one of the forests.
* `Woodland.name_ne_iff`: the acts that change a name.
* `Woodland.formed_run`: what is left of the invariant, whatever is exchanged.
* `Woodland.keptNames_run`: the whole invariant of a forest that keeps its names.
* `Woodland.kinds_fixed`: kinds stay in any run, and names but for exchanges.
* `Woodland.name_of_exchange`: a node with a text below gets a void element.
-/

namespace Markup

namespace Content

variable {c : Content} {d : Element}

/-- An element that comes into a node may be void where the other one was not. Apart from that it
makes no node barren. -/
theorem Barren.of_withElement (h : (c.withElement d).Barren (· ≠ .element)) :
    c.Barren (· ≠ .element) := by
  cases c with
  | element e => exact absurd rfl h.2
  | document e => cases h.1
  | _ => exact h

theorem sort_withElement_of_name (h : ∀ e, c.element? = some e → d.name = e.name) :
    (c.withElement d).sort = c.sort := by
  cases c with
  | document e => exact sort_withElement rfl (h e rfl)
  | element e => exact sort_withElement rfl (h e rfl)
  | _ => rfl

end Content

namespace Forest

variable {f f' : Forest} {k : Kinship} {h x : Handle} {c : Cell} {d : Element}

/-- No node is below, and none has the node above it. -/
def Childless (f : Forest) (h : Handle) : Prop :=
  f.children h = [] ∧ ∀ x, f.Lives x → f.parent? x ≠ some h

theorem acceptsChildren_eq (hc : f.cell? h = some c) :
    f.acceptsChildren h = .ok c.content.acceptsChildren := by
  rw [acceptsChildren, held, (occupant?_eq_of_cell? hc).1]
  rfl

theorem FormedFor.childless_of_barren {kinds : Kind → Prop} (hw : f.FormedFor kinds k)
    (hc : f.cell? h = some c) (hb : c.content.Barren kinds) : f.Childless h := by
  have hchildren := hw.barren hc hb
  refine ⟨by rw [hw.shows.children_eq ⟨c, hc⟩, hchildren], fun x hx hparent => ?_⟩
  rw [hw.shows.parent?_eq hx, ← hw.shows.lawful.mem_children, hchildren] at hparent
  cases hparent

/-- The element of every document is `html`. -/
def RootsAreHtml (f : Forest) : Prop := ∀ h c, f.cell? h = some c → c.content.RootIsHtml

theorem RootsAreHtml.of_change (hf : f.RootsAreHtml) (hchange : f.Change f') : f'.RootsAreHtml :=
  hchange.all_content Content.rootIsHtml_seed (fun _ _ hP hedit => hP.of_sort_eq hedit.sort_eq) hf

/-! ## Another element in a node -/

theorem element?_setElement (f : Forest) (h x : Handle) (d : Element) :
    (f.setElement h d).element? x =
      if x = h then (f.element? x).map fun _ => d else f.element? x := by
  rw [element?, element?, setElement, cell?_update]
  split
  · next e =>
    subst e
    cases f.cell? x with
    | none => rfl
    | some c => cases hc : c.content <;> simp [hc, Content.withElement, Content.element?]
  · rfl

/-- Whatever element is put in a node, a forest is well formed for the other kinds. -/
theorem FormedFor.setElement (hw : f.FormedFor (· ≠ .element) k) (h : Handle) (d : Element) :
    (f.setElement h d).FormedFor (· ≠ .element) k :=
  hw.updateContent h (fun _ => rfl) fun _ _ hb => hb.of_withElement

section SameName

variable (hname : ∀ e, f.element? h = some e → d.name = e.name)

include hname

theorem sort_of_setElement (hc : f.cell? h = some c) :
    (c.content.withElement d).sort = c.content.sort := by
  refine Content.sort_withElement_of_name fun e he => hname e ?_
  rw [element?, hc]
  exact he

/-- An element of the same name leaves a forest well formed. -/
theorem WellFormed.setElement (hw : f.WellFormed k) : (f.setElement h d).WellFormed k :=
  hw.update h (fun _ => rfl) fun _ hc => sort_of_setElement hname hc

theorem RootsAreHtml.setElement (hf : f.RootsAreHtml) : (f.setElement h d).RootsAreHtml := by
  intro x c' hc'
  obtain ⟨c, hc, rfl | ⟨rfl, rfl⟩⟩ := exists_cell?_of_update hc'
  · exact hf x _ hc
  · exact (hf x c hc).of_sort_eq (sort_of_setElement hname hc)

end SameName

end Forest

namespace Woodland

open Forest

variable {w : Woodland} {a : Act} {acts : List Act} {i : Nat} {h : Handle}

/-! ## One act -/

/-- An act leaves a forest to a command, or puts an element in one of its nodes. -/
theorem act_cases (w : Woodland) (a : Act) (i : Nat) :
    (w.given? a i = none ∧ (w i).Change (w.act a i)) ∨
      ∃ h d, w.given? a i = some (h, d) ∧ w.act a i = (w i).setElement h d := by
  cases hgiven : w.given? a i with
  | some hd => exact .inr ⟨hd.1, hd.2, rfl, by simp [act, hgiven]⟩
  | none =>
    refine .inl ⟨rfl, ?_⟩
    cases a with
    | exchange p q x y =>
      simp only [act, hgiven]
      exact .stay
    | command j c =>
      simp only [act, hgiven]
      split
      · exact (w i).exec_change c
      · exact .stay

theorem not_renames (hgiven : w.given? a i = none) : ¬ w.Renames a i h := by
  rintro ⟨e, d, -, hsome, -⟩
  rw [hgiven] at hsome
  cases hsome

theorem later_act (w : Woodland) (a : Act) (i : Nat) : (w i).Later (w.act a i) := by
  rcases act_cases w a i with ⟨-, hchange⟩ | ⟨h, d, -, hact⟩
  · exact hchange.later
  · exact hact ▸ .update (w i) h _

/-- A node that lives on keeps its kind. -/
theorem kind_act (hq : (w i).QueueSound) (hh : (w i).Lives h) (hh' : (w.act a i).Lives h) :
    (w.act a i).kind h = (w i).kind h := by
  obtain ⟨c, hc⟩ := hh
  obtain ⟨c', hc'⟩ := hh'
  rw [kind_eq hc, kind_eq hc']
  rcases act_cases w a i with ⟨-, hchange⟩ | ⟨x, d, -, hact⟩
  · have hsort := Content.sort_eq_of_edits (hchange.edited hq hc hc')
    exact congrArg (fun sort => Except.ok sort.1) hsort
  · rw [hact] at hc'
    obtain ⟨b, hb, rfl | ⟨-, rfl⟩⟩ := exists_cell?_of_update hc'
    · cases hc.symm.trans hb
      rfl
    · cases hc.symm.trans hb
      rw [Content.kind_withElement]

/-- **A name changes by an exchange alone**, and by any exchange for an element of another name. -/
theorem name_ne_iff (hq : (w i).QueueSound) (hh : (w i).Lives h) (hh' : (w.act a i).Lives h) :
    ((w.act a i).element? h).map (·.name) ≠ ((w i).element? h).map (·.name) ↔
      w.Renames a i h := by
  rcases act_cases w a i with ⟨hgiven, hchange⟩ | ⟨x, d, hgiven, hact⟩
  · obtain ⟨c, hc⟩ := hh
    obtain ⟨c', hc'⟩ := hh'
    refine iff_of_false (not_not_intro ?_) (not_renames hgiven)
    rw [name_eq hc, name_eq hc', Content.sort_eq_of_edits (hchange.edited hq hc hc')]
  · rw [hact, element?_setElement, Renames, hgiven]
    by_cases hx : h = x
    · subst hx
      cases (w i).element? h <;> simp
    · simp [hx, Ne.symm hx]

theorem formed_act (hw : ∃ k, (w i).FormedFor (· ≠ .element) k) (a : Act) :
    ∃ k, (w.act a i).FormedFor (· ≠ .element) k := by
  obtain ⟨k, hw⟩ := hw
  rcases act_cases w a i with ⟨-, hchange⟩ | ⟨h, d, -, hact⟩
  · exact hw.of_change hchange
  · exact ⟨k, hact ▸ hw.setElement h d⟩

/-- What a forest has as long as no element of another name came into one of its nodes. -/
structure KeptNames (f : Forest) : Prop where
  wellFormed : ∃ k, f.WellFormed k
  roots : f.RootsAreHtml

theorem keptNames_empty : KeptNames .empty where
  wellFormed := ⟨_, formedFor_empty _⟩
  roots h c hc := by simp [cell?, Forest.empty] at hc

namespace KeptNames

variable {f : Forest} {c : Cell} {e : Element}

theorem childless (hf : KeptNames f) (hc : f.cell? h = some c)
    (haccepts : f.acceptsChildren h = .ok false) : f.Childless h := by
  obtain ⟨k, hw⟩ := hf.wellFormed
  rw [acceptsChildren_eq hc] at haccepts
  exact hw.childless_of_barren hc ⟨Except.ok.inj haccepts, trivial⟩

theorem name_of_document (hf : KeptNames f) (hc : f.cell? h = some c)
    (hkind : f.kind h = .ok .document) (he : f.element? h = some e) : e.name = .html := by
  rw [kind_eq hc] at hkind
  have hname := hf.roots h c hc (Except.ok.inj hkind)
  rw [← name_eq hc, he] at hname
  exact Option.some.inj hname

end KeptNames

theorem keptNames_act (hw : KeptNames (w i)) (hkeeps : ∀ h, ¬ w.Renames a i h) :
    KeptNames (w.act a i) := by
  obtain ⟨⟨k, hformed⟩, hroots⟩ := hw
  rcases act_cases w a i with ⟨-, hchange⟩ | ⟨h, d, hgiven, hact⟩
  · exact ⟨hformed.of_change hchange, hroots.of_change hchange⟩
  · have hname : ∀ e, (w i).element? h = some e → d.name = e.name := fun e he =>
      of_not_not fun hne => hkeeps h ⟨e, d, he, hgiven, hne⟩
    exact hact ▸ ⟨⟨k, hformed.setElement hname⟩, hroots.setElement hname⟩

/-! ## A run -/

theorem later_run (w : Woodland) (acts : List Act) (i : Nat) : (w i).Later (w.run acts i) := by
  induction acts generalizing w with
  | nil => exact .refl _
  | cons a acts ih => exact (w.later_act a i).trans (ih _)

/-- A node that lives at the end of a run lived after its first act. -/
theorem lives_act_of_lives_run (hh : (w i).Lives h) (hend : ((w.act a).run acts i).Lives h) :
    (w.act a i).Lives h :=
  ((w.later_act a i).known hh).resolve_right fun hspent =>
    ((later_run _ acts i).spent hspent).not_lives hend

theorem formed_run (hw : ∃ k, (w i).FormedFor (· ≠ .element) k) (acts : List Act) :
    ∃ k, (w.run acts i).FormedFor (· ≠ .element) k := by
  induction acts generalizing w with
  | nil => exact hw
  | cons a acts ih => exact ih (formed_act hw a)

theorem keptNames_run (hw : KeptNames (w i)) (hkeeps : ∀ h, w.KeepsName i h acts) :
    KeptNames (w.run acts i) := by
  induction acts generalizing w with
  | nil => exact hw
  | cons a acts ih => exact ih (keptNames_act hw fun h => (hkeeps h).1) fun h => (hkeeps h).2

/-- A node that lives on keeps its kind, and its name as long as no element of another name comes
into it. -/
theorem kind_run (hw : ∃ k, (w i).FormedFor (· ≠ .element) k) (hh : (w i).Lives h)
    (hend : (w.run acts i).Lives h) :
    (w.run acts i).kind h = (w i).kind h ∧ (w.KeepsName i h acts →
      ((w.run acts i).element? h).map (·.name) = ((w i).element? h).map (·.name)) := by
  induction acts generalizing w with
  | nil => exact ⟨rfl, fun _ => rfl⟩
  | cons a acts ih =>
    obtain ⟨k, hformed⟩ := id hw
    have hnext := lives_act_of_lives_run hh hend
    obtain ⟨hkind, hname⟩ := ih (formed_act hw a) hnext hend
    refine ⟨hkind.trans (kind_act hformed.queue hh hnext), fun ⟨hkeeps, hlater⟩ => ?_⟩
    refine (hname hlater).trans (of_not_not fun hne => hkeeps ?_)
    exact (name_ne_iff hformed.queue hh hnext).mp hne

/-- **What a node is never changes but by an exchange.** As long as a node lives, whatever is done
with the forests, it keeps its kind, and a node that takes no children has none unless it holds an
element. Its name changes exactly when an element of another name comes into it. A forest in which
that never happened has no children below void elements, and the element of its documents is
`html`. -/
theorem kinds_fixed (acts : List Act) :
    let w := empty.run acts
    (∀ i h, (w i).Lives h → ∀ later, (w.run later i).Lives h →
      (w.run later i).kind h = (w i).kind h ∧
      (w.KeepsName i h later →
        ((w.run later i).element? h).map (·.name) = ((w i).element? h).map (·.name) ∧
        ((w.run later i).element? h).map (·.isVoid) = ((w i).element? h).map (·.isVoid))) ∧
    (∀ i h a, (w i).Lives h → (w.act a i).Lives h →
      (((w.act a i).element? h).map (·.name) ≠ ((w i).element? h).map (·.name) ↔
        w.Renames a i h)) ∧
    (∀ i h, (w i).Lives h → (w i).acceptsChildren h = .ok false →
      (w i).kind h ≠ .ok .element → (w i).Childless h) ∧
    ∀ i, (∀ h, empty.KeepsName i h acts) →
      (∀ h, (w i).Lives h → (w i).acceptsChildren h = .ok false → (w i).Childless h) ∧
      ∀ h e, (w i).Lives h → (w i).kind h = .ok .document → (w i).element? h = some e →
        e.name = .html := by
  intro w
  have hformed : ∀ i, ∃ k, (w i).FormedFor (· ≠ .element) k := fun i =>
    formed_run ⟨_, formedFor_empty _⟩ acts
  refine ⟨fun i h hh later hend => ?_, fun i h a hh hh' => ?_,
    fun i h ⟨c, hc⟩ haccepts hkind => ?_, fun i hkeeps => ?_⟩
  · obtain ⟨hkind, hname⟩ := kind_run (hformed i) hh hend
    refine ⟨hkind, fun hkeeps => ⟨hname hkeeps, ?_⟩⟩
    have hvoid := congrArg (Option.map (·.isVoid)) (hname hkeeps)
    rwa [Option.map_map, Option.map_map] at hvoid
  · obtain ⟨k, hw⟩ := hformed i
    exact name_ne_iff hw.queue hh hh'
  · obtain ⟨k, hw⟩ := hformed i
    rw [acceptsChildren_eq hc] at haccepts
    rw [kind_eq hc] at hkind
    exact hw.childless_of_barren hc ⟨Except.ok.inj haccepts, fun he => hkind (congrArg _ he)⟩
  · have hkept : KeptNames (w i) := keptNames_run (w := empty) keptNames_empty hkeeps
    exact ⟨fun h ⟨c, hc⟩ haccepts => hkept.childless hc haccepts,
      fun h e ⟨c, hc⟩ hkind he => hkept.name_of_document hc hkind he⟩

/-- Two blocks change places, and with them their attributes. The void element below the first one
still has no children. -/
theorem kinds_fixed_of_blocks :
    let acts : List Act := [.command 0 (.create (.element .div)),
      .command 0 (.appendNew ⟨0, 0⟩ (.element .br)), .command 1 (.create (.element .div)),
      .command 1 (.editElement ⟨0, 0⟩ (.set .id "b")), .exchange 0 1 ⟨0, 0⟩ ⟨0, 0⟩]
    let w := empty.run acts
    ((w 0).element? ⟨0, 0⟩).bind (·.id?) = some "b" ∧ (w 0).children ⟨0, 0⟩ = [⟨1, 0⟩] ∧
      (w 0).Childless ⟨1, 0⟩ := by
  intro acts w
  let blocks := empty.run acts.dropLast
  have hsame : ∀ h, ¬ blocks.Renames (.exchange 0 1 ⟨0, 0⟩ ⟨0, 0⟩) 0 h := by
    rintro h ⟨e, d, he, hgiven, hne⟩
    have hlent : ((blocks 1).element? ⟨0, 0⟩).map (fun d => (⟨0, 0⟩, d)) = some (h, d) := hgiven
    obtain ⟨_, hd, hpair⟩ := Option.map_eq_some_iff.mp hlent
    cases hpair
    have hnames : ((blocks 1).element? ⟨0, 0⟩).map (·.name) =
        ((blocks 0).element? ⟨0, 0⟩).map (·.name) := by decide
    rw [hd, he] at hnames
    exact hne (Option.some.inj hnames)
  obtain ⟨-, -, -, hkept⟩ := kinds_fixed acts
  refine ⟨by decide, by decide, (hkept 0 fun h => ?_).1 ⟨1, 0⟩ ⟨_, rfl⟩ (by decide)⟩
  exact ⟨not_renames rfl, not_renames rfl, not_renames rfl, not_renames rfl, hsame h, trivial⟩

/-- A block with a text changes places with a void element of another forest. It was a block that
takes children before, and then it is a void element that takes none and has one. -/
theorem name_of_exchange :
    let w := empty.run [.command 0 (.create (.element .div)),
      .command 0 (.appendNew ⟨0, 0⟩ (.text "a")), .command 1 (.create (.element .br))]
    let w' := w.act (.exchange 0 1 ⟨0, 0⟩ ⟨0, 0⟩)
    (w 0).Lives ⟨0, 0⟩ ∧ (w' 0).Lives ⟨0, 0⟩ ∧
      ((w 0).element? ⟨0, 0⟩).map (·.name) = some .div ∧
      ((w' 0).element? ⟨0, 0⟩).map (·.name) = some .br ∧
      ((w 0).element? ⟨0, 0⟩).map (·.isVoid) = some false ∧
      ((w' 0).element? ⟨0, 0⟩).map (·.isVoid) = some true ∧
      (w' 0).acceptsChildren ⟨0, 0⟩ = .ok false ∧ (w' 0).children ⟨0, 0⟩ = [⟨1, 0⟩] := by
  intro w w'
  exact ⟨⟨_, rfl⟩, ⟨_, rfl⟩, by decide, by decide, by decide, by decide, by decide, by decide⟩

end Woodland

end Markup

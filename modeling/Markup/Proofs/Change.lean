import Markup.Proofs.Walk

/-!
# What a command changes

Every command leaves the forest as it is or makes one of a few changes, under the conditions that
it checks first. `Forest.Change` lists these changes with their conditions; a fact that every
change keeps holds of every reachable forest.

* `Forest.exec_change`: what one command does to the forest is one of the changes.
* `Reachable.of_change`: a fact that holds of the empty forest and is kept by every change holds
  of every reachable forest.
-/

namespace Markup

theorem bind_eq_ok_iff {α β : Type} {x : Except Fault α} {g : α → Except Fault β} {b : β} :
    (x >>= g) = .ok b ↔ ∃ a, x = .ok a ∧ g a = .ok b := by
  cases x <;> simp [bind, Except.bind]

namespace Forest

/-- The changes that commands make. -/
inductive Change (f : Forest) : Forest → Prop where
  | stay : Change f f
  | create (seed : Seed) : Change f (f.create seed).2
  | grow (seed : Seed) {p : Handle} {c : Cell} (hp : f.cell? p = some c)
      (haccepts : c.content.acceptsChildren = true) :
      Change f ((f.create seed).2.link p (f.create seed).1)
  | copy {h : Handle} {c : Cell} (hc : f.cell? h = some c) :
      Change f ((f.rememberTag h).place { content := c.content.rememberTag }).2
  | move {p child : Handle} {c : Cell} (hchild : f.Lives child) (hp : f.cell? p = some c)
      (haccepts : c.content.acceptsChildren = true) (hcycle : child ∉ p :: f.ancestors p) :
      Change f ((f.unlink child).link p child)
  | detach {h : Handle} (hh : f.Lives h) : Change f (f.unlink h)
  | scatter {h : Handle} (hh : f.Lives h) : Change f ((f.children h).foldl unlink f)
  | remove {h : Handle} (hh : f.Lives h) :
      Change f (((f.unlink h).postorder h).foldl release (f.unlink h))
  | setHidden (h : Handle) (hidden : Bool) : Change f (f.update h fun c => { c with hidden })
  | editAttributes {h : Handle} {c : Cell} {content : Content} (edit : AttributeEdit)
      (hc : f.cell? h = some c) (hedit : c.content.editAttributes? edit = some content) :
      Change f (f.setContent h content)
  | editText {h : Handle} {c : Cell} {content : Content} (edit : TextEdit)
      (hc : f.cell? h = some c) (hedit : c.content.edit? edit = some content) :
      Change f (f.setContent h content)
  | remember (hs : List Handle) : Change f (hs.foldl rememberTag f)

variable {f f' : Forest}

theorem live_eq_ok_iff {h : Handle} {c : Cell} : f.live h = .ok c ↔ f.cell? h = some c := by
  unfold live
  split <;> simp_all

theorem live_of_removed {h : Handle} (hr : f.isRemoved h = true) :
    f.live h = .error (.removed h) := by
  rw [live, Option.isNone_iff_eq_none.mp hr]

theorem liveParent_eq_ok_iff {h : Handle} {c : Cell} :
    f.liveParent h = .ok c ↔ f.cell? h = some c ∧ c.content.acceptsChildren = true := by
  simp only [liveParent, bind_eq_ok_iff, live_eq_ok_iff]
  constructor
  · rintro ⟨d, hd, h⟩
    split at h
    · next ha =>
      cases h
      exact ⟨hd, ha⟩
    · cases h
  · rintro ⟨hc, ha⟩
    exact ⟨c, hc, by rw [if_pos ha]; rfl⟩

/-! ## When an operation succeeds, and with what -/

/-- A node takes children if it lives and is not of a kind that takes none. -/
def TakesChildren (f : Forest) (p : Handle) : Prop :=
  ∃ c, f.cell? p = some c ∧ c.content.acceptsChildren = true

theorem append_eq_ok_iff {p child : Handle} :
    f.append p child = .ok f' ↔
      f.Lives child ∧ f.TakesChildren p ∧ child ∉ p :: f.ancestors p ∧
        f' = (f.unlink child).link p child := by
  simp only [append, bind_eq_ok_iff, live_eq_ok_iff, liveParent_eq_ok_iff]
  constructor
  · rintro ⟨d, hd, c, hc, h⟩
    split at h
    · cases h
    · next hcycle =>
      cases h
      exact ⟨⟨d, hd⟩, ⟨c, hc⟩, hcycle, rfl⟩
  · rintro ⟨⟨d, hd⟩, ⟨c, hc⟩, hcycle, rfl⟩
    exact ⟨d, hd, c, hc, by rw [if_neg hcycle]; rfl⟩

theorem appendNew_eq_ok_iff {p : Handle} {seed : Seed} {made : Handle × Forest} :
    f.appendNew p seed = .ok made ↔
      f.TakesChildren p ∧
        made = ((f.create seed).1, (f.create seed).2.link p (f.create seed).1) := by
  simp only [appendNew, bind_eq_ok_iff, liveParent_eq_ok_iff]
  constructor
  · rintro ⟨c, hc, h⟩
    exact ⟨⟨c, hc⟩, (Except.ok.inj h).symm⟩
  · rintro ⟨⟨c, hc⟩, rfl⟩
    exact ⟨c, hc, rfl⟩

theorem copy_eq_ok_iff {h : Handle} {made : Handle × Forest} :
    f.copy h = .ok made ↔
      ∃ c, f.cell? h = some c ∧
        made = (f.rememberTag h).place { content := c.content.rememberTag } := by
  simp only [Forest.copy, bind_eq_ok_iff, live_eq_ok_iff]
  refine exists_congr fun c => and_congr_right fun _ => ?_
  exact ⟨fun h => (Except.ok.inj h).symm, fun h => h ▸ rfl⟩

theorem detach_eq_ok_iff {h : Handle} : f.detach h = .ok f' ↔ f.Lives h ∧ f' = f.unlink h := by
  simp only [Forest.detach, bind_eq_ok_iff, live_eq_ok_iff]
  constructor
  · rintro ⟨c, hc, h⟩
    exact ⟨⟨c, hc⟩, (Except.ok.inj h).symm⟩
  · rintro ⟨⟨c, hc⟩, rfl⟩
    exact ⟨c, hc, rfl⟩

theorem removeChildren_eq_ok_iff {h : Handle} :
    f.removeChildren h = .ok f' ↔ f.Lives h ∧ f' = (f.children h).foldl unlink f := by
  simp only [removeChildren, bind_eq_ok_iff, live_eq_ok_iff]
  constructor
  · rintro ⟨c, hc, h⟩
    exact ⟨⟨c, hc⟩, (Except.ok.inj h).symm⟩
  · rintro ⟨⟨c, hc⟩, rfl⟩
    exact ⟨c, hc, rfl⟩

theorem remove_eq_ok_iff {h : Handle} {result : Nat × Forest} :
    f.remove h = .ok result ↔
      f.Lives h ∧ result =
        ((f.descendants h).length, ((f.unlink h).postorder h).foldl release (f.unlink h)) := by
  simp only [Forest.remove, bind_eq_ok_iff, live_eq_ok_iff]
  constructor
  · rintro ⟨c, hc, h⟩
    exact ⟨⟨c, hc⟩, (Except.ok.inj h).symm⟩
  · rintro ⟨⟨c, hc⟩, rfl⟩
    exact ⟨c, hc, rfl⟩

theorem setHidden_eq_ok_iff {h : Handle} {hidden : Bool} :
    f.setHidden h hidden = .ok f' ↔
      f.Lives h ∧ f' = f.update h fun c => { c with hidden } := by
  simp only [Forest.setHidden, bind_eq_ok_iff, live_eq_ok_iff]
  constructor
  · rintro ⟨c, hc, h⟩
    exact ⟨⟨c, hc⟩, (Except.ok.inj h).symm⟩
  · rintro ⟨⟨c, hc⟩, rfl⟩
    exact ⟨c, hc, rfl⟩

theorem editAttributes_eq_ok_iff {h : Handle} {edit : AttributeEdit} :
    f.editAttributes h edit = .ok f' ↔
      ∃ c content, f.cell? h = some c ∧ c.content.editAttributes? edit = some content ∧
        f' = f.setContent h content := by
  simp only [Forest.editAttributes, bind_eq_ok_iff, live_eq_ok_iff]
  refine exists_congr fun c => ?_
  cases c.content.editAttributes? edit with
  | none => simp [throw, throwThe, MonadExceptOf.throw]
  | some content => simp [pure, Except.pure, eq_comm]

theorem editText_eq_ok_iff {h : Handle} {edit : TextEdit} :
    f.editText h edit = .ok f' ↔
      ∃ c content, f.cell? h = some c ∧ c.content.edit? edit = some content ∧
        f' = f.setContent h content := by
  simp only [Forest.editText, bind_eq_ok_iff, live_eq_ok_iff]
  refine exists_congr fun c => ?_
  cases c.content.edit? edit with
  | none => simp [throw, throwThe, MonadExceptOf.throw]
  | some content => simp [pure, Except.pure, eq_comm]

/-! ## Every operation by its change -/

theorem change_of_append {p child : Handle} (h : f.append p child = .ok f') : f.Change f' := by
  obtain ⟨hchild, ⟨c, hc, ha⟩, hcycle, rfl⟩ := append_eq_ok_iff.mp h
  exact .move hchild hc ha hcycle

theorem change_of_appendNew {p h' : Handle} {seed : Seed}
    (h : f.appendNew p seed = .ok (h', f')) : f.Change f' := by
  obtain ⟨⟨c, hc, ha⟩, hmade⟩ := appendNew_eq_ok_iff.mp h
  cases hmade
  exact .grow seed hc ha

theorem change_of_copy {h h' : Handle} (hcopy : f.copy h = .ok (h', f')) : f.Change f' := by
  obtain ⟨c, hc, hmade⟩ := copy_eq_ok_iff.mp hcopy
  have e : f' = ((f.rememberTag h).place { content := c.content.rememberTag }).2 :=
    congrArg Prod.snd hmade
  exact e ▸ .copy hc

theorem change_of_detach {h : Handle} (hd : f.detach h = .ok f') : f.Change f' := by
  obtain ⟨hh, rfl⟩ := detach_eq_ok_iff.mp hd
  exact .detach hh

theorem change_of_removeChildren {h : Handle} (hr : f.removeChildren h = .ok f') :
    f.Change f' := by
  obtain ⟨hh, rfl⟩ := removeChildren_eq_ok_iff.mp hr
  exact .scatter hh

theorem change_of_remove {h : Handle} {count : Nat} (hr : f.remove h = .ok (count, f')) :
    f.Change f' := by
  obtain ⟨hh, hresult⟩ := remove_eq_ok_iff.mp hr
  cases hresult
  exact .remove hh

theorem change_of_setHidden {h : Handle} {hidden : Bool} (hs : f.setHidden h hidden = .ok f') :
    f.Change f' := by
  obtain ⟨-, rfl⟩ := setHidden_eq_ok_iff.mp hs
  exact .setHidden h hidden

theorem change_of_editAttributes {h : Handle} {edit : AttributeEdit}
    (he : f.editAttributes h edit = .ok f') : f.Change f' := by
  obtain ⟨c, content, hc, hedit, rfl⟩ := editAttributes_eq_ok_iff.mp he
  exact .editAttributes edit hc hedit

theorem change_of_editText {h : Handle} {edit : TextEdit} (he : f.editText h edit = .ok f') :
    f.Change f' := by
  obtain ⟨c, content, hc, hedit, rfl⟩ := editText_eq_ok_iff.mp he
  exact .editText edit hc hedit

/-- A rendering remembers some open tags. -/
theorem exists_forest_render (f : Forest) (h : Handle) (layout : Layout)
    (env : Option Environment) (sink : Sink) :
    ∃ hs : List Handle, (f.render h layout env sink).forest = hs.foldl rememberTag f := by
  unfold render
  split
  · exact ⟨[], rfl⟩
  · next pieces _ => exact ⟨(deliver sink pieces).rendered.map Prod.fst, List.foldl_map.symm⟩

theorem change_of_render (f : Forest) (h : Handle) (layout : Layout) (env : Option Environment)
    (sink : Sink) : f.Change (f.render h layout env sink).forest := by
  obtain ⟨hs, heq⟩ := f.exists_forest_render h layout env sink
  exact heq ▸ .remember hs

theorem change_ofChange {r : Except Fault Forest} (h : ∀ f', r = .ok f' → f.Change f') :
    f.Change (Outcome.ofChange f r).forest := by
  cases r with
  | error fault => exact .stay
  | ok f' => exact h f' rfl

theorem change_ofCreation {r : Except Fault (Handle × Forest)}
    (h : ∀ h' f', r = .ok (h', f') → f.Change f') : f.Change (Outcome.ofCreation f r).forest := by
  cases r with
  | error fault => exact .stay
  | ok made => exact h made.1 made.2 rfl

/-- What one command does to the forest is one of the changes. -/
theorem exec_change (f : Forest) (command : Command) : f.Change (f.exec command).forest := by
  cases command with
  | create seed => exact .create seed
  | appendNew p seed => exact change_ofCreation fun _ _ => change_of_appendNew
  | copy h => exact change_ofCreation fun _ _ => change_of_copy
  | append p child => exact change_ofChange fun _ => change_of_append
  | detach h => exact change_ofChange fun _ => change_of_detach
  | removeChildren h => exact change_ofChange fun _ => change_of_removeChildren
  | remove h =>
    simp only [exec]
    split
    · next hr => exact change_of_remove hr
    · exact .stay
  | setHidden h hidden => exact change_ofChange fun _ => change_of_setHidden
  | editAttributes h edit => exact change_ofChange fun _ => change_of_editAttributes
  | editElement h edit =>
    simp only [exec]
    split
    · exact change_ofChange fun _ => change_of_editAttributes
    · exact .stay
  | editText h edit => exact change_ofChange fun _ => change_of_editText
  | render h layout env sink => exact change_of_render f h layout env sink

end Forest

/-- What the empty forest has and every change keeps, every reachable forest has. -/
theorem Reachable.of_change {P : Forest → Prop} (hempty : P .empty)
    (hchange : ∀ f f', P f → f.Change f' → P f') {f : Forest} (hf : Reachable f) : P f := by
  induction hf with
  | empty => exact hempty
  | exec _ c ih => exact hchange _ _ ih (Forest.exec_change _ c)

theorem Reachable.of_exec {f f' : Forest} (hf : Reachable f) (command : Command)
    (h : (f.exec command).forest = f') : Reachable f' :=
  h ▸ hf.exec command

end Markup

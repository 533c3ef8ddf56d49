import Markup.Proofs.GuardedEdit
import Markup.Proofs.GuardedRender

/-!
# Nothing is trapped

With a guard at every slot that is read or written, at every cut of a text, at every number that is
counted and at every loop, what can be asked of a forest and done to it is never stopped by one, in
any state that commands bring about and through any handle that was ever given out. The one
exception is the content of a slot as such: it can be read exactly while there is a node, be it
another one than the handle was given out for.

* `Guarded.exec`: every command with its guards.
* `Forest.Untrapped`: what holds of all questions about one handle.
* `Guarded.exec_ends`: a command is not trapped if its handles were given out and the sink of a
  rendering takes less than `2 ^ 63` bytes.
* `Forest.Handed`: the handles that are given out in a run.
* `Forest.runs_untrapped`: both, for every run.
-/

namespace Markup

/-- All nodes that a command is given. -/
def Command.named : Command → List Handle
  | .create _ => []
  | .append parent child => [parent, child]
  | .appendNew h _ | .copy h | .detach h | .removeChildren h | .remove h | .setHidden h _
  | .editAttributes h _ | .editElement h _ | .editText h _ | .render h _ _ _ => [h]

/-- The spaces that a rendering adds at every level. -/
def Command.unit : Command → Nat
  | .render _ (.pretty unit) _ _ => unit
  | _ => 0

namespace Guarded

variable {f : Forest} {k : Kinship} {h : Handle}

/-! ## Commands -/

/-- The report of a copy: an open tag, if the source has an element that does not remember it. -/
def copyLog (f : Forest) (h : Handle) : Guarded (List Event) := do
  match ← element? f h with
  | some e => return if e.cachedTag.isSome then [] else [.openTag e.name]
  | none => return []

/-- Carries out a command. -/
def exec (f : Forest) : Command → Guarded Outcome
  | .create seed => do return .ofCreation f (.ok (← create f seed))
  | .appendNew parent seed => do return .ofCreation f (← (appendNew f parent seed).run)
  | .copy h => do
    let log ← copyLog f h
    return { Outcome.ofCreation f (← (copy f h).run) with log }
  | .append parent child => do return .ofChange f (← (append f parent child).run)
  | .detach h => do return .ofChange f (← (detach f h).run)
  | .removeChildren h => do return .ofChange f (← (removeChildren f h).run)
  | .remove h => do
    match ← (remove f h).run with
    | .ok (count, f') => return ⟨f', .ok .done, #[], [.removed count]⟩
    | .error fault => return ⟨f, .error fault, #[], []⟩
  | .setHidden h hidden => do return .ofChange f (← (setHidden f h hidden).run)
  | .editAttributes h edit => do return .ofChange f (← (editAttributes f h edit).run)
  | .editElement h edit => do
    match ← element? f h with
    | some _ => return .ofChange f (← (editAttributes f h edit).run)
    | none => return ⟨f, .ok .noElement, #[], []⟩
  | .editText h edit => do return .ofChange f (← (editText f h edit).run)
  | .render h layout env sink => do return .ofRendering (← render f h layout env sink)

theorem copyLog_eq (hk : f.Known h) : copyLog f h = .ok (f.copyLog h) := by
  rw [copyLog, bind_of_ok (element?_eq hk), Forest.copyLog]
  cases f.element? h <;> rfl

/-- The program is not trapped and gives this outcome. -/
structure Ends (x : Guarded Outcome) (o : Outcome) : Prop where
  eq : x = .ok o
  refuses : ∀ fault, o.answer = .error fault → fault.isRefusal = true

theorem ends_ofChange {x : Attempt Forest} {r : Except Fault Forest} (h : Yields x r) :
    Ends (do return .ofChange f (← x.run)) (.ofChange f r) := by
  refine ⟨bind_of_ok h.run_eq _, fun fault hfault => ?_⟩
  cases r with
  | ok f' => cases hfault
  | error fault' =>
    cases hfault
    exact h.refuses _ rfl

theorem ends_ofCreation {x : Attempt (Handle × Forest)} {r : Except Fault (Handle × Forest)}
    (h : Yields x r) : Ends (do return .ofCreation f (← x.run)) (.ofCreation f r) := by
  refine ⟨bind_of_ok h.run_eq _, fun fault hfault => ?_⟩
  cases r with
  | ok made => cases hfault
  | error fault' =>
    cases hfault
    exact h.refuses _ rfl

/-- A rendering fails if its node was removed or its sink took no more. -/
theorem render_refuses (hf : Reachable f) {layout : Layout} {env : Option Environment} {s : Sink}
    {fault : Fault} (h' : (f.render h layout env s).failure = some fault) :
    fault.isRefusal = true := by
  cases hr : f.isRemoved h with
  | true =>
    rw [Forest.render, Forest.pieces, Forest.live_of_removed hr] at h'
    cases h'
    rfl
  | false =>
    rw [Forest.render, hf.pieces_eq (Forest.isRemoved_eq_false_iff.mp hr) layout env] at h'
    obtain ⟨cause, -, rfl⟩ := Option.map_eq_some_iff.mp h'
    rfl

/-- A command is not trapped if its handles were given out and the sink of a rendering takes less
than `2 ^ 63` bytes. -/
theorem exec_ends (hf : Reachable f) {command : Command} (hnamed : ∀ h ∈ command.named, f.Known h)
    (hunit : command.unit < 2 ^ 64) (hbytes : (f.exec command).taken.size < 2 ^ 63) :
    Ends (exec f command) (f.exec command) := by
  obtain ⟨k, hw⟩ := hf.wellFormed
  cases command with
  | create seed =>
    exact ⟨bind_of_ok (create_eq hw.queue seed) _, fun fault hfault => by cases hfault⟩
  | appendNew p seed =>
    exact ends_ofCreation (appendNew_yields hw (hnamed p List.mem_cons_self) seed)
  | copy h =>
    have hyields := copy_yields hw (hnamed h List.mem_cons_self)
    have hlog := copyLog_eq (hnamed h List.mem_cons_self)
    exact ⟨(bind_of_ok hlog _).trans (bind_of_ok hyields.run_eq _),
      (ends_ofCreation hyields).refuses⟩
  | append p c =>
    obtain ⟨hp, hc⟩ : f.Known p ∧ f.Known c := by simpa [Command.named] using hnamed
    exact ends_ofChange (append_yields hw hp hc)
  | detach h => exact ends_ofChange (detach_yields hw (hnamed h List.mem_cons_self))
  | removeChildren h => exact ends_ofChange (removeChildren_yields hw (hnamed h List.mem_cons_self))
  | remove h =>
    have hyields := remove_yields hw (hnamed h List.mem_cons_self)
    rw [exec, bind_of_ok hyields.run_eq, Forest.exec]
    cases hremove : f.remove h with
    | ok made => exact ⟨rfl, fun fault hfault => by cases hfault⟩
    | error fault =>
      refine ⟨rfl, fun fault' hfault => hyields.refuses fault' ?_⟩
      cases hfault
      exact hremove
  | setHidden h hidden =>
    exact ends_ofChange (setHidden_yields (hnamed h List.mem_cons_self) hidden)
  | editAttributes h edit =>
    exact ends_ofChange (editAttributes_yields (hnamed h List.mem_cons_self) edit)
  | editElement h edit =>
    have hk := hnamed h List.mem_cons_self
    rw [exec, bind_of_ok (element?_eq hk), Forest.exec]
    cases f.element? h with
    | some e => exact ends_ofChange (editAttributes_yields hk edit)
    | none => exact ⟨rfl, fun fault hfault => by cases hfault⟩
  | editText h edit => exact ends_ofChange (editText_yields (hnamed h List.mem_cons_self) edit)
  | render h layout env s =>
    have hrender : render f h layout env s = .ok (f.render h layout env s) := by
      refine render_eq hf (hnamed h List.mem_cons_self) hbytes ?_
      rintro unit rfl
      exact hunit
    refine ⟨bind_of_ok hrender _, fun fault hfault => ?_⟩
    rw [Forest.exec, Outcome.ofRendering] at hfault
    split at hfault
    · cases hfault
    · next hfailure =>
      cases hfault
      exact render_refuses hf hfailure

end Guarded

/-! ## Questions -/

namespace Forest

variable {f : Forest} {k : Kinship} {h x : Handle} {commands : List Command}

/-- No question about a handle is trapped, except for those about the content of its slot as such,
which are while the slot is empty. -/
structure Untrapped (f : Forest) (h : Handle) : Prop where
  isRemoved : Guarded.isRemoved f h = .ok (f.isRemoved h)
  links : Guarded.links f h = .ok (f.links h)
  up : ∀ count, Guarded.up f h count = .ok (f.up? h count)
  children : Guarded.children f h = .ok (f.children h)
  childrenBackwards : Guarded.childrenBackwards f h = .ok (f.childrenBackwards h)
  ancestors : Guarded.ancestors f h = .ok (f.ancestors h)
  descendants : Guarded.descendants f h = .ok (f.descendants h)
  postorder : Guarded.postorder f h = .ok (f.postorder h)
  traverse : ∃ edges, f.traverse h = .ok edges ∧ Guarded.traverse f h = .ok edges
  isHidden : Guarded.isHidden f h = .ok (f.isHidden h)
  element? : Guarded.element? f h = .ok (f.element? h)
  leafText? : Guarded.leafText? f h = .ok (f.leafText? h)
  id? : Guarded.id? f h = .ok (f.id? h)
  attribute? : ∀ a, Guarded.attribute? f h a = .ok (f.attribute? h a)
  optionChildren : Guarded.optionChildren f h = .ok (f.optionChildren h)
  hasAttribute : ∀ a, Guarded.Yields (Guarded.hasAttribute f h a) (f.hasAttribute h a)
  customAttribute : ∀ key,
    Guarded.Yields (Guarded.customAttribute f h key) (f.customAttribute h key)
  text : Guarded.Yields (Guarded.text f h) (f.text h)
  selectedOption : Guarded.Yields (Guarded.selectedOption f h) (f.selectedOption h)
  value : ∀ {α : Type} (read : Cell → α), Guarded.value f h read =
    (f.occupant? h).elim (.error (.vacant h)) fun c => .ok (read c)
  kind : Guarded.value f h (·.content.kind) = (f.kind h).mapError fun _ => .vacant h
  acceptsChildren : Guarded.value f h (·.content.acceptsChildren) =
    (f.acceptsChildren h).mapError fun _ => .vacant h
  template? : Guarded.value f h (·.content.template?) =
    (f.template? h).mapError fun _ => .vacant h

theorem untrapped_of_known (hs : f.Shows k) (hk : f.Known h) : f.Untrapped h where
  isRemoved := Guarded.isRemoved_eq hk
  links := Guarded.links_eq (Guarded.slot_lt_of_known hk)
  up := Guarded.up_eq hs (Guarded.slot_lt_of_known hk)
  children := Guarded.children_eq hs (Guarded.slot_lt_of_known hk)
  childrenBackwards := Guarded.childrenBackwards_eq hs (Guarded.slot_lt_of_known hk)
  ancestors := Guarded.ancestors_eq hs (Guarded.slot_lt_of_known hk)
  descendants := Guarded.descendants_eq hs (Guarded.slot_lt_of_known hk)
  postorder := Guarded.postorder_eq hs (Guarded.slot_lt_of_known hk)
  traverse := Guarded.traverse_eq hs hk
  isHidden := Guarded.isHidden_eq hk
  element? := Guarded.element?_eq hk
  leafText? := Guarded.leafText?_eq hk
  id? := Guarded.id?_eq hk
  attribute? := Guarded.attribute?_eq hk
  optionChildren := Guarded.optionChildren_eq hs (Guarded.slot_lt_of_known hk)
  hasAttribute := Guarded.hasAttribute_yields hk
  customAttribute := Guarded.customAttribute_yields hk
  text := Guarded.text_yields hk
  selectedOption := Guarded.selectedOption_yields hs hk
  value := Guarded.value_eq (Guarded.slot_lt_of_known hk)
  kind := Guarded.value_eq_held (Guarded.slot_lt_of_known hk) _
  acceptsChildren := Guarded.value_eq_held (Guarded.slot_lt_of_known hk) _
  template? := Guarded.value_eq_held (Guarded.slot_lt_of_known hk) _

/-! ## Handles that are given out -/

/-- The answer to a question about `h` names this handle. -/
inductive Answers (f : Forest) (h : Handle) : Handle → Prop where
  | link {read : Handle → Option Handle} {x : Handle} (hread : read ∈ [f.parent?, f.firstChild?,
      f.lastChild?, f.nextSibling?, f.previousSibling?]) (hx : read h = some x) : Answers f h x
  | up {count : Nat} {x : Handle} (hx : f.up? h count = some x) : Answers f h x
  | row {row : List Handle} {x : Handle} (hrow : row ∈ [f.children h, f.childrenBackwards h,
      f.ancestors h, f.descendants h, f.postorder h, f.optionChildren h]) (hx : x ∈ row) :
      Answers f h x
  | edge {edges : List Edge} {e : Edge} (hedges : f.traverse h = .ok edges) (he : e ∈ edges) :
      Answers f h e.node
  | option {x : Handle} (hx : f.selectedOption h = .ok x) : Answers f h x

/-- The handle was given out in the run: as that of a new node, or in answer to a question about a
handle that was given out before. -/
inductive Handed : List Command → Handle → Prop where
  | made {commands : List Command} {h : Handle} (hh : h ∈ empty.issued commands) : Handed commands h
  | answer {commands : List Command} {h x : Handle} (hh : Handed commands h)
      (hx : (empty.run commands).Answers h x) : Handed commands x
  | earlier {before after : List Command} {h : Handle} (hh : Handed before h) :
      Handed (before ++ after) h

/-- The neighbours of whoever is in the slot live. -/
theorem lives_of_link (hs : f.Shows k) {read : Handle → Option Handle} (hread : read ∈ [f.parent?,
    f.firstChild?, f.lastChild?, f.nextSibling?, f.previousSibling?]) (hx : read h = some x) :
    f.Lives x := by
  have hslot : read h = read (f.occupant h) ∧ (f.occupant? h = none → read h = none) := by
    simp only [List.mem_cons, List.not_mem_nil, or_false] at hread
    rcases hread with rfl | rfl | rfl | rfl | rfl <;> refine ⟨rfl, fun ho => ?_⟩ <;>
      simp only [parent?, firstChild?, lastChild?, nextSibling?, previousSibling?,
        Guarded.links_of_vacant ho]
  cases ho : f.occupant? h with
  | none => exact absurd (hx.symm.trans (hslot.2 ho)) (Option.some_ne_none x)
  | some c => exact hs.lives_of_link ⟨c, cell?_occupant ho⟩ hread (hslot.1 ▸ hx)

/-- Every handle in an answer is one that was given out. -/
theorem known_of_answers (hs : f.Shows k) (hk : f.Known h) (hx : f.Answers h x) : f.Known x := by
  cases hx with
  | link hread hx => exact .inl (lives_of_link hs hread hx)
  | up hx =>
    have hmem := List.mem_of_getElem? hx
    exact .inl (Guarded.lives_of_mem_row (Guarded.exists_passes_ancestors hs h) hmem)
  | row hrow hx =>
    simp only [List.mem_cons, List.not_mem_nil, or_false] at hrow
    rcases hrow with rfl | rfl | rfl | rfl | rfl | rfl
    · exact .inl (Guarded.lives_of_mem_row (Guarded.exists_passes_children hs h) hx)
    · exact .inl (Guarded.lives_of_mem_row (Guarded.exists_passes_childrenBackwards hs h) hx)
    · exact .inl (Guarded.lives_of_mem_row (Guarded.exists_passes_ancestors hs h) hx)
    · obtain ⟨e, he, hstarted⟩ := List.mem_filterMap.mp hx
      exact Edge.node_of_started? hstarted ▸ hs.known_of_mem_walk hk he
    · obtain ⟨e, he, hstopped⟩ := List.mem_filterMap.mp hx
      exact Edge.node_of_stopped? hstopped ▸ hs.known_of_mem_walk hk he
    · have hmem := (List.mem_filter.mp hx).1
      exact .inl (Guarded.lives_of_mem_row (Guarded.exists_passes_children hs h) hmem)
  | edge hedges he =>
    cases hr : f.isRemoved h with
    | true =>
      rw [traverse, if_pos hr] at hedges
      cases hedges
      cases he
    | false =>
      have hh := isRemoved_eq_false_iff.mp hr
      rw [hs.traverse_eq hh] at hedges
      cases hedges
      have hmem := (f.grove h).visibleEdges_sublist.subset he
      exact hs.known_of_mem_walk hk (hs.walk_eq hh ▸ hmem)
  | option hx =>
    obtain ⟨c, -, hx⟩ := bind_eq_ok_iff.mp hx
    split at hx
    · next hfind =>
      cases hx
      have hmem := (List.mem_filter.mp (List.mem_of_find?_eq_some hfind)).1
      exact .inl (Guarded.lives_of_mem_row (Guarded.exists_passes_children hs h) hmem)
    · cases hx

theorem Handed.known (hh : Handed commands h) : (empty.run commands).Known h := by
  induction hh with
  | made hh => exact known_of_mem_issued .empty hh
  | @answer commands h x _ hx ih =>
    obtain ⟨k, hw⟩ := (Reachable.empty.run commands).wellFormed
    exact known_of_answers hw.shows ih hx
  | @earlier before after h _ ih =>
    rw [run_append]
    exact (later_run _ after).known_of_known ih

/-- **No run is ever trapped.** After every run, no question about a handle that was given out is
trapped, be its node removed and its slot used again, except for those that read the slot as such,
and those exactly while the slot is empty. No command is, if the handles that it is given were given
out and the sink of a rendering takes less than `2 ^ 63` bytes: it has the outcome that the total
functions give, and a fault in it is about what was asked for. -/
theorem runs_untrapped (commands : List Command) :
    (∀ h, Handed commands h → (empty.run commands).Untrapped h) ∧
      ∀ command : Command, (∀ h ∈ command.named, Handed commands h) → command.unit < 2 ^ 64 →
        ((empty.run commands).exec command).taken.size < 2 ^ 63 →
          Guarded.Ends (Guarded.exec (empty.run commands) command)
            ((empty.run commands).exec command) := by
  have hf := Reachable.empty.run commands
  obtain ⟨k, hw⟩ := hf.wellFormed
  refine ⟨fun h hh => untrapped_of_known hw.shows hh.known, fun command hnamed hunit hbytes => ?_⟩
  exact Guarded.exec_ends hf (fun h hh => (hnamed h hh).known) hunit hbytes

/-- Two nodes were removed: one left its slot empty, the slot of the other one has a copy of an
item. The list is rendered with the greatest unit that can be counted: the item would be indented by
one, and its text by two of them, but the sink is full before that. -/
theorem runs_untrapped_of_reuse :
    let commands : List Command := [.create (.element .ul), .appendNew ⟨0, 0⟩ (.element .li),
      .appendNew ⟨1, 0⟩ (.template "$$ $x"), .appendNew ⟨0, 0⟩ .comment,
      .appendNew ⟨3, 0⟩ (.text "a"), .remove ⟨3, 0⟩, .copy ⟨1, 0⟩]
    let f := empty.run commands
    let s : Sink := ⟨some 9, none, fun _ => 0, .takeNothing, .never⟩
    let command : Command := .render ⟨0, 0⟩ (.pretty (2 ^ 64 - 1)) none s
    Handed commands ⟨3, 0⟩ ∧ Handed commands ⟨4, 0⟩ ∧
      f.Untrapped ⟨3, 0⟩ ∧ f.Untrapped ⟨4, 0⟩ ∧
      Guarded.value f ⟨3, 0⟩ (·.content.kind) = .error (.vacant ⟨3, 0⟩) ∧
      Guarded.value f ⟨4, 0⟩ (·.content.kind) = .ok .element ∧
      (f.exec command).taken.size ≤ 9 ∧
      Guarded.Ends (Guarded.exec f command) (f.exec command) := by
  intro commands f s command
  have hissued : ∀ h ∈ ([⟨0, 0⟩, ⟨3, 0⟩, ⟨4, 0⟩] : List Handle), h ∈ empty.issued commands := by
    decide
  have hempty : Handed commands ⟨3, 0⟩ := .made (hissued _ (by simp))
  have hreused : Handed commands ⟨4, 0⟩ := .made (hissued _ (by simp))
  obtain ⟨hquestions, hcommands⟩ := runs_untrapped commands
  have hsize : (f.exec command).taken.size ≤ 9 :=
    (Reachable.empty.run commands).size_taken_le ⟨_, rfl⟩ _ none rfl (by decide)
  refine ⟨hempty, hreused, hquestions _ hempty, hquestions _ hreused,
    (hquestions _ hempty).value _, (hquestions _ hreused).value _, hsize, ?_⟩
  have hbytes : (f.exec command).taken.size < 2 ^ 63 := Nat.lt_of_le_of_lt hsize (by decide)
  refine hcommands command (fun h hh => ?_) (by decide) hbytes
  cases List.mem_singleton.mp hh
  exact .made (hissued _ (by simp))

end Forest

end Markup

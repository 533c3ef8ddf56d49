import Markup.Proofs.Sameness

/-!
# Stamps over time

A removal raises the stamp of a slot and nothing lowers one, so a handle that falls behind the stamp
of its slot stays behind it, whatever nodes the slot holds later. Such a handle is spent. Every
handle that was given out is one of a node that lives, or spent.

* `Forest.Change.later`: what every change does to stamps and nodes.
* `Forest.Gone`: all that can be asked of a removed node, and all that can be done with it.
* `Forest.issued_stays_gone`: a new handle is none of the earlier ones, and a removed node never
  comes back.
-/

namespace Markup

namespace Forest

/-- The stamp of the slot went beyond that of the handle. -/
def Spent (f : Forest) (h : Handle) : Prop := h.stamp < f.stampAt h.slot

/-- The handle was given out: its node lives, or did. -/
def Known (f : Forest) (h : Handle) : Prop := f.Lives h ∨ f.Spent h

/-- The second forest may come after the first one: no stamp falls, and when a node goes, that of
its slot rises. -/
structure Later (f f' : Forest) : Prop where
  stampAt_le : ∀ i, f.stampAt i ≤ f'.stampAt i
  known : ∀ {h}, f.Lives h → f'.Known h

variable {f f' f'' : Forest} {h : Handle}

theorem stampAt_of_getElem? {i : Nat} {s : Slot} (hs : f.slots[i]? = some s) :
    f.stampAt i = s.stamp := by
  rw [stampAt, hs]
  rfl

theorem stampAt_of_lives (hh : f.Lives h) : f.stampAt h.slot = h.stamp := by
  obtain ⟨c, hc⟩ := hh
  obtain ⟨s, hs, hstamp, -⟩ := cell?_eq_some_iff.mp hc
  rw [stampAt_of_getElem? hs, hstamp]

theorem Spent.not_lives (hh : f.Spent h) : ¬ f.Lives h := fun hl =>
  absurd (stampAt_of_lives hl) (Nat.ne_of_gt hh)

theorem Known.spent (hh : f.Known h) (hr : f.isRemoved h = true) : f.Spent h := by
  refine hh.resolve_left fun hl => ?_
  rw [isRemoved_eq_false_iff.mpr hl] at hr
  cases hr

namespace Later

theorem refl (f : Forest) : f.Later f := ⟨fun _ => Nat.le_refl _, .inl⟩

theorem spent (hl : f.Later f') (hh : f.Spent h) : f'.Spent h :=
  Nat.lt_of_lt_of_le hh (hl.stampAt_le h.slot)

theorem known_of_known (hl : f.Later f') (hh : f.Known h) : f'.Known h :=
  hh.elim hl.known fun hs => .inr (hl.spent hs)

theorem trans (hl : f.Later f') (hl' : f'.Later f'') : f.Later f'' where
  stampAt_le i := (hl.stampAt_le i).trans (hl'.stampAt_le i)
  known hh := hl'.known_of_known (hl.known hh)

theorem foldl {α : Type} {step : Forest → α → Forest} (hstep : ∀ (f : Forest) x, f.Later (step f x))
    (l : List α) (f : Forest) : f.Later (l.foldl step f) := by
  induction l generalizing f with
  | nil => exact refl f
  | cons x l ih => exact (hstep f x).trans (ih _)

/-! ## One step after another -/

theorem update (f : Forest) (h : Handle) (change : Cell → Cell) : f.Later (f.update h change) where
  stampAt_le i := Nat.le_of_eq ((SameSlots.update f h change).stampAt_eq i).symm
  known hh := .inl ((lives_update f h change _).mpr hh)

/-- Rewiring is about links only. -/
theorem of_facts (hslots : f.SameSlots f') (hfacts : f'.facts = f.facts) : f.Later f' where
  stampAt_le i := Nat.le_of_eq (hslots.stampAt_eq i).symm
  known hh := .inl (lives_of_facts hh hfacts)

theorem unlink (f : Forest) (h : Handle) : f.Later (f.unlink h) :=
  of_facts (.unlink f h) (facts_unlink f h)

theorem link (f : Forest) (p h : Handle) : f.Later (f.link p h) :=
  of_facts (.link f p h) (facts_link f p h)

/-- A node that comes into a slot leaves its stamp alone. -/
theorem place (f : Forest) (c : Cell) : f.Later (f.place c).2 := by
  unfold Forest.place
  cases f.free with
  | nil =>
    refine ⟨fun i => ?_, fun {h} hh => .inl ?_⟩
    · simp only [stampAt, Array.getElem?_push]
      split
      · next e =>
        have hnone : f.slots[i]? = none := by simp [e]
        rw [hnone]
        exact Nat.zero_le _
      · exact Nat.le_refl _
    · obtain ⟨d, hd⟩ := hh
      obtain ⟨s, hs, hstamp, hcell⟩ := cell?_eq_some_iff.mp hd
      have hlt := (Array.getElem?_eq_some_iff.mp hs).1
      refine ⟨d, cell?_eq_some_iff.mpr ⟨s, ?_, hstamp, hcell⟩⟩
      rw [Array.getElem?_push, if_neg (Nat.ne_of_lt hlt), hs]
  | cons j rest =>
    refine ⟨fun i => ?_, fun {h} hh => .inl ?_⟩
    · refine Nat.le_of_eq ?_
      simp only [stampAt, Array.getElem?_modify]
      split
      · next e =>
        subst e
        cases f.slots[j]? <;> rfl
      · rfl
    · obtain ⟨d, hd⟩ := hh
      obtain ⟨s, hs, hstamp, hcell⟩ := cell?_eq_some_iff.mp hd
      by_cases e : j = h.slot
      · refine ⟨c, cell?_eq_some_iff.mpr ⟨{ s with cell := some c }, ?_, hstamp, rfl⟩⟩
        rw [Array.getElem?_modify, if_pos e, hs]
        rfl
      · refine ⟨d, cell?_eq_some_iff.mpr ⟨s, ?_, hstamp, hcell⟩⟩
        rw [Array.getElem?_modify, if_neg e, hs]

/-- A node that goes leaves a higher stamp. -/
theorem release (f : Forest) (h : Handle) : f.Later (f.release h) := by
  have hstamp : ∀ i, (f.release h).stampAt i =
      (f.slots[i]?.map fun s => if h.slot = i then s.stamp + 1 else s.stamp).getD 0 := by
    intro i
    simp only [stampAt, Forest.release, Array.getElem?_modify]
    cases f.slots[i]? <;> split <;> simp_all
  refine ⟨fun i => ?_, fun {k} hk => ?_⟩
  · rw [hstamp, stampAt]
    cases f.slots[i]? with
    | none => exact Nat.le_refl _
    | some s =>
      simp only [Option.map_some, Option.getD_some]
      split <;> omega
  · obtain ⟨d, hd⟩ := hk
    obtain ⟨s, hs, hks, hcell⟩ := cell?_eq_some_iff.mp hd
    by_cases e : h.slot = k.slot
    · refine .inr ?_
      rw [Spent, hstamp, hs, Option.map_some, if_pos e, hks]
      exact Nat.lt_succ_self _
    · refine .inl ⟨d, cell?_eq_some_iff.mpr ⟨s, ?_, hks, hcell⟩⟩
      simp only [Forest.release, Array.getElem?_modify]
      rw [if_neg e, hs]

end Later

/-- Every change leaves the stamps in order. -/
theorem Change.later (hchange : f.Change f') : f.Later f' := by
  cases hchange with
  | stay => exact .refl f
  | create seed => exact .place f _
  | grow seed hp haccepts => exact (Later.place f _).trans (.link _ _ _)
  | copy hc => exact (Later.update f _ _).trans (.place _ _)
  | move hchild hp haccepts hcycle => exact (Later.unlink f _).trans (.link _ _ _)
  | detach hh => exact .unlink f _
  | scatter hh => exact .foldl Later.unlink _ f
  | remove hh => exact (Later.unlink f _).trans (.foldl Later.release _ _)
  | setHidden h hidden => exact .update f h _
  | editAttributes edit hc hedit => exact .update f _ _
  | editText edit hc hedit => exact .update f _ _
  | remember hs => exact .foldl (fun f h => Later.update f h _) hs f

theorem later_run (f : Forest) (commands : List Command) : f.Later (f.run commands) := by
  induction commands generalizing f with
  | nil => exact .refl f
  | cons c cs ih => exact (f.exec_change c).later.trans (ih _)

/-! ## The stamp as a signed number

A slot and its stamp can be kept as one number that is negative while the slot is empty. Then a
removal turns `s` into `-s - 1`, the next use of the slot turns `t` into `-t`, and a node was
removed when the number is not the stamp of its handle. -/

/-- The stamp of a slot, with a sign that says whether the slot is empty. -/
def signedStamp (f : Forest) (i : Nat) : Int :=
  if ((f.slots[i]?).bind (·.cell)).isSome then f.stampAt i else -f.stampAt i

theorem signedStamp_release (hh : f.Lives h) :
    (f.release h).signedStamp h.slot = -f.signedStamp h.slot - 1 := by
  obtain ⟨c, hc⟩ := hh
  obtain ⟨s, hs, -, hcell⟩ := cell?_eq_some_iff.mp hc
  simp only [signedStamp, stampAt, Forest.release, Array.getElem?_modify, hs, if_true]
  simp [hcell]
  omega

theorem signedStamp_place (hq : f.QueueSound) {i : Nat} {rest : List Nat}
    (hfree : f.free = i :: rest) (c : Cell) :
    (f.place c).1.slot = i ∧ (f.place c).2.signedStamp i = -f.signedStamp i := by
  obtain ⟨s, hs, hcell⟩ := (hq.mem_free i).mp (hfree ▸ List.mem_cons_self)
  simp only [Forest.place, hfree, signedStamp, stampAt, Array.getElem?_modify, hs]
  simp [hcell]

/-- Of the handles that were given out, those of removed nodes are the ones whose stamp is not the
signed one of their slot. -/
theorem isRemoved_iff_signedStamp (hh : f.Known h) :
    f.isRemoved h = true ↔ f.signedStamp h.slot ≠ h.stamp := by
  rcases hh with ⟨c, hc⟩ | hs
  · have hlives : f.isRemoved h = false := isRemoved_eq_false_iff.mpr ⟨c, hc⟩
    have hstamp := stampAt_of_lives ⟨c, hc⟩
    obtain ⟨s, hslot, -, hcell⟩ := cell?_eq_some_iff.mp hc
    simp [hlives, signedStamp, hslot, hcell, hstamp]
  · have hremoved : f.isRemoved h = true := Option.isNone_iff_eq_none.mpr
      (cell?_eq_none_iff.mpr hs.not_lives)
    unfold Spent at hs
    simp only [hremoved, true_iff, signedStamp]
    split <;> omega

/-! ## What a removed node is good for -/

theorem liveParent_of_removed (hr : f.isRemoved h = true) :
    f.liveParent h = .error (.removed h) := by
  rw [liveParent, live_of_removed hr]
  rfl

theorem element?_of_removed (hr : f.isRemoved h = true) : f.element? h = none := by
  rw [element?, Option.isNone_iff_eq_none.mp hr]
  rfl

theorem element_of_removed (hr : f.isRemoved h = true) :
    f.element h = .error (.removed h) := by
  rw [element, live_of_removed hr]
  rfl

end Forest

/-- The nodes that a command checks, in order, and stops at the first that was removed. To edit the
element of a node is to ask for the element, and checks nothing. -/
def Command.checked : Command → List Handle
  | .create _ | .editElement _ _ => []
  | .append parent child => [child, parent]
  | .appendNew h _ | .copy h | .detach h | .removeChildren h | .remove h | .setHidden h _
  | .editAttributes h _ | .editText h _ | .render h _ _ _ => [h]

namespace Forest

variable {f : Forest} {h : Handle}

/-- A command that is given a removed node says so, and does nothing else. -/
theorem exec_of_removed {command : Command} {k : Handle}
    (hk : command.checked.find? f.isRemoved = some k) :
    f.exec command = { forest := f, answer := .error (.removed k) } := by
  have single : ∀ {h}, [h].find? f.isRemoved = some k → h = k ∧ f.isRemoved k = true := by
    intro h hfind
    have hmem := List.mem_of_find?_eq_some hfind
    exact ⟨(List.mem_singleton.mp hmem).symm, List.find?_some hfind⟩
  cases command with
  | create seed => cases hk
  | editElement h edit => cases hk
  | append p child =>
    cases hchild : f.isRemoved child with
    | true =>
      rw [Command.checked, List.find?_cons, hchild] at hk
      cases hk
      rw [exec, Forest.append, live_of_removed hchild]
      rfl
    | false =>
      rw [Command.checked, List.find?_cons, hchild] at hk
      obtain ⟨rfl, hp⟩ := single hk
      obtain ⟨c, hc⟩ := isRemoved_eq_false_iff.mp hchild
      rw [exec, Forest.append, live_eq_ok_iff.mpr hc, liveParent_of_removed hp]
      rfl
  | appendNew p seed =>
    obtain ⟨rfl, hr⟩ := single hk
    rw [exec, appendNew, liveParent_of_removed hr]
    rfl
  | copy h =>
    obtain ⟨rfl, hr⟩ := single hk
    rw [exec, Forest.copy, live_of_removed hr, copyLog, element?_of_removed hr]
    rfl
  | detach h =>
    obtain ⟨rfl, hr⟩ := single hk
    rw [exec, Forest.detach, live_of_removed hr]
    rfl
  | removeChildren h =>
    obtain ⟨rfl, hr⟩ := single hk
    rw [exec, Forest.removeChildren, live_of_removed hr]
    rfl
  | remove h =>
    obtain ⟨rfl, hr⟩ := single hk
    rw [exec, Forest.remove, live_of_removed hr]
    rfl
  | setHidden h hidden =>
    obtain ⟨rfl, hr⟩ := single hk
    rw [exec, Forest.setHidden, live_of_removed hr]
    rfl
  | editAttributes h edit =>
    obtain ⟨rfl, hr⟩ := single hk
    rw [exec, Forest.editAttributes, live_of_removed hr]
    rfl
  | editText h edit =>
    obtain ⟨rfl, hr⟩ := single hk
    rw [exec, Forest.editText, live_of_removed hr]
    rfl
  | render h layout env sink =>
    obtain ⟨rfl, hr⟩ := single hk
    rw [exec, Forest.render, pieces, live_of_removed hr]
    rfl

/-- A removed node: every command that checks it is refused, and every reader finds nothing. -/
structure Gone (f : Forest) (h : Handle) : Prop where
  removed : f.isRemoved h = true
  refused : ∀ command : Command, h ∈ command.checked →
    ∃ k, command.checked.find? f.isRemoved = some k ∧
      f.exec command = { forest := f, answer := .error (.removed k) }
  hasAttribute : ∀ a, f.hasAttribute h a = .error (.removed h)
  customAttribute : ∀ key, f.customAttribute h key = .error (.removed h)
  text : f.text h = .error (.removed h)
  selectedOption : f.selectedOption h = .error (.removed h)
  output : ∀ layout env, f.output h layout env = .error (.removed h)
  isHidden : f.isHidden h = false
  element? : f.element? h = none
  noElement : ∀ edit, f.exec (.editElement h edit) = { forest := f, answer := .ok .noElement }
  id? : f.id? h = none
  attribute? : ∀ a, f.attribute? h a = none
  leafText? : f.leafText? h = none
  traverse : f.traverse h = .ok []

theorem gone_of_removed (hr : f.isRemoved h = true) : f.Gone h where
  removed := hr
  refused command hmem := by
    have hsome := List.find?_isSome.mpr ⟨h, hmem, hr⟩
    obtain ⟨k, hk⟩ := Option.isSome_iff_exists.mp hsome
    exact ⟨k, hk, exec_of_removed hk⟩
  hasAttribute a := by rw [Forest.hasAttribute, element_of_removed hr]; rfl
  customAttribute key := by rw [Forest.customAttribute, element_of_removed hr]; rfl
  text := by rw [Forest.text, live_of_removed hr]; rfl
  selectedOption := by rw [Forest.selectedOption, element_of_removed hr]; rfl
  output layout env := by rw [Forest.output, pieces, live_of_removed hr]; rfl
  isHidden := by rw [Forest.isHidden, Option.isNone_iff_eq_none.mp hr]; rfl
  element? := element?_of_removed hr
  noElement edit := by rw [exec, element?_of_removed hr]
  id? := by rw [Forest.id?, element?_of_removed hr]; rfl
  attribute? a := by rw [Forest.attribute?, element?_of_removed hr]; rfl
  leafText? := by rw [Forest.leafText?, Option.isNone_iff_eq_none.mp hr]; rfl
  traverse := by rw [Forest.traverse, if_pos hr]

end Forest

/-! ## What a run gives out -/

namespace Outcome

/-- The node that a command made. -/
def made? (o : Outcome) : Option Handle :=
  match o.answer with
  | .ok (.node h) => some h
  | _ => none

theorem made?_eq_some_iff {o : Outcome} {h : Handle} :
    o.made? = some h ↔ o.answer = .ok (.node h) := by
  unfold made?
  split <;> simp_all

end Outcome

namespace Forest

variable {f : Forest} {h : Handle}

/-- The handle of a new node was never given out before. -/
theorem not_known_place (hq : f.QueueSound) (c : Cell) : ¬ f.Known (f.place c).1 := by
  rintro (hl | hs)
  · exact not_lives_place hq c hl
  · unfold Spent place at hs
    split at hs
    · simp [stampAt] at hs
    · exact Nat.lt_irrefl _ hs

theorem ofChange_ne_node (r : Except Fault Forest) :
    (Outcome.ofChange f r).answer ≠ .ok (.node h) := by
  cases r <;> exact nofun

/-- A command that makes a node answers with a handle that is new and lives. -/
theorem exec_node (hq : f.QueueSound) {command : Command}
    (hnode : (f.exec command).answer = .ok (.node h)) :
    ¬ f.Known h ∧ (f.exec command).forest.Lives h := by
  cases command with
  | create seed =>
    cases hnode
    exact ⟨not_known_place hq _, (lives_place hq _ _).mpr (.inl rfl)⟩
  | appendNew p seed =>
    cases hmade : f.appendNew p seed with
    | error fault =>
      rw [exec, hmade] at hnode
      cases hnode
    | ok made =>
      rw [exec, hmade] at hnode ⊢
      cases hnode
      obtain ⟨-, rfl⟩ := appendNew_eq_ok_iff.mp hmade
      exact ⟨not_known_place hq _, (lives_link _ _ _ _).mpr ((lives_place hq _ _).mpr (.inl rfl))⟩
  | copy k =>
    cases hmade : f.copy k with
    | error fault =>
      rw [exec, hmade] at hnode
      cases hnode
    | ok made =>
      rw [exec, hmade] at hnode ⊢
      cases hnode
      obtain ⟨c, -, rfl⟩ := copy_eq_ok_iff.mp hmade
      have hq' := hq.update k fun c => { c with content := c.content.rememberTag }
      have hnew := not_known_place hq' { content := c.content.rememberTag }
      exact ⟨fun hk => hnew ((Later.update f k _).known_of_known hk),
        (lives_place hq' _ _).mpr (.inl rfl)⟩
  | append p child => exact absurd hnode (ofChange_ne_node _)
  | detach k => exact absurd hnode (ofChange_ne_node _)
  | removeChildren k => exact absurd hnode (ofChange_ne_node _)
  | setHidden k hidden => exact absurd hnode (ofChange_ne_node _)
  | editAttributes k edit => exact absurd hnode (ofChange_ne_node _)
  | editText k edit => exact absurd hnode (ofChange_ne_node _)
  | remove k =>
    simp only [exec] at hnode
    split at hnode <;> cases hnode
  | editElement k edit =>
    simp only [exec] at hnode
    split at hnode
    · exact absurd hnode (ofChange_ne_node _)
    · cases hnode
  | render k layout env sink =>
    simp only [exec, Outcome.ofRendering] at hnode
    split at hnode <;> cases hnode

/-- The handles that commands give out, in order. -/
def issued (f : Forest) : List Command → List Handle
  | [] => []
  | c :: cs => (f.exec c).made?.toList ++ (f.exec c).forest.issued cs

theorem run_append (f : Forest) (before after : List Command) :
    f.run (before ++ after) = (f.run before).run after :=
  List.foldl_append

/-- What was given out is known from then on. -/
theorem known_of_mem_issued {commands : List Command} (hf : Reachable f)
    (hh : h ∈ f.issued commands) : (f.run commands).Known h := by
  induction commands generalizing f with
  | nil => cases hh
  | cons c cs ih =>
    rcases List.mem_append.mp hh with hh | hh
    · obtain ⟨k, hw⟩ := hf.wellFormed
      have hnode := Outcome.made?_eq_some_iff.mp (Option.mem_toList.mp hh)
      exact (later_run _ cs).known (exec_node hw.queue hnode).2
    · exact ih (hf.exec c) hh

/-- **Removed nodes never come back.** A command that makes a node gives out a handle that lives and
that was not given out before. And when a handle that was given out is one of a removed node, it is
so after every further run, however often the slot is used again. -/
theorem issued_stays_gone :
    (∀ (before : List Command) (command : Command) (h : Handle),
      ((empty.run before).exec command).answer = .ok (.node h) →
        (empty.run (before ++ [command])).isRemoved h = false ∧ h ∉ empty.issued before) ∧
    ∀ (before after : List Command) (h : Handle), h ∈ empty.issued before →
      (empty.run before).isRemoved h = true → (empty.run (before ++ after)).Gone h := by
  constructor
  · intro before command h hnode
    have hf := Reachable.empty.run before
    obtain ⟨k, hw⟩ := hf.wellFormed
    obtain ⟨hnew, hlives⟩ := exec_node hw.queue hnode
    refine ⟨?_, fun hmem => hnew (known_of_mem_issued .empty hmem)⟩
    rw [run_append]
    exact isRemoved_eq_false_iff.mpr hlives
  · intro before after h hmem hremoved
    have hspent := (known_of_mem_issued .empty hmem).spent hremoved
    refine gone_of_removed ?_
    rw [run_append, isRemoved, Option.isNone_iff_eq_none, cell?_eq_none_iff]
    exact ((later_run _ after).spent hspent).not_lives

/-- A slot is used three times, and the first handle stays gone. -/
theorem issued_stays_gone_of_reuse :
    let before : List Command := [.create (.element .ul), .remove ⟨0, 0⟩]
    let after : List Command := [.create (.text "a"), .remove ⟨0, 1⟩, .create .fragment]
    empty.issued (before ++ after) = [⟨0, 0⟩, ⟨0, 1⟩, ⟨0, 2⟩] ∧
      (empty.run (before ++ after)).isRemoved ⟨0, 2⟩ = false ∧
      ⟨0, 2⟩ ∉ empty.issued (before ++ [.create (.text "a"), .remove ⟨0, 1⟩]) ∧
      (empty.run (before ++ after)).Gone ⟨0, 0⟩ := by
  intro before after
  obtain ⟨hlives, hnew⟩ := issued_stays_gone.1
    [.create (.element .ul), .remove ⟨0, 0⟩, .create (.text "a"), .remove ⟨0, 1⟩]
    (.create .fragment) ⟨0, 2⟩ (by decide)
  exact ⟨by decide, hlives, hnew, issued_stays_gone.2 before after ⟨0, 0⟩ (by decide) (by decide)⟩

end Forest

end Markup

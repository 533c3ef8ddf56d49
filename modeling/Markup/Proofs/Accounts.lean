import Markup.Proofs.Stamps
import Mathlib.Data.List.Induction
import Mathlib.Data.List.Range
import Mathlib.Order.Bounds.Defs

/-!
# Slot accounts

Every slot that was ever made holds a node or waits in the queue, and it waits once. So there are as
many slots as nodes and waiting slots together. A new slot is made only while none waits, and then
every slot holds a node: a forest has as many slots as it had nodes when it had the most.

* `Forest.nodes`: the nodes that live, in the order of their slots.
* `Forest.WellFormed.accounted`: what every slot is there for.
* `Forest.exec_made`, `Forest.queueGrows_of_not_made`: slots and queue after a command.
* `Forest.size_is_peak`: the accounts of a run.
-/

namespace Markup

namespace Forest

variable {f : Forest} {k : Kinship} {h : Handle} {i : Nat}

/-! ## Slots and nodes -/

/-- The nodes that live, in the order of their slots. -/
def nodes (f : Forest) : List Handle :=
  ((List.range f.size).map fun i => ⟨i, f.stampAt i⟩).filter fun h => (f.cell? h).isSome

theorem slot_lt_size (hh : f.Lives h) : h.slot < f.size := by
  obtain ⟨c, hc⟩ := hh
  obtain ⟨s, hs, -⟩ := cell?_eq_some_iff.mp hc
  exact (Array.getElem?_eq_some_iff.mp hs).1

theorem mem_nodes : h ∈ f.nodes ↔ f.Lives h := by
  rw [nodes, List.mem_filter, List.mem_map, ← lives_iff_isSome]
  refine and_iff_right_of_imp fun hh => ?_
  refine ⟨h.slot, List.mem_range.mpr (slot_lt_size hh), ?_⟩
  rw [stampAt_of_lives hh]

theorem nodup_nodes (f : Forest) : f.nodes.Nodup :=
  (List.nodup_range.map fun _ _ h => congrArg Handle.slot h).filter _

theorem Vacant.lt_size (hv : f.Vacant i) : i < f.size := by
  obtain ⟨s, hs, -⟩ := hv
  exact (Array.getElem?_eq_some_iff.mp hs).1

theorem Vacant.occupant? (hv : f.Vacant h.slot) : f.occupant? h = none := by
  obtain ⟨s, hs, hcell⟩ := hv
  rw [Forest.occupant?, hs]
  exact hcell

theorem Vacant.not_lives (hv : f.Vacant h.slot) : ¬ f.Lives h := by
  rintro ⟨c, hc⟩
  have hnone := hv.occupant?
  rw [(occupant?_eq_of_cell? hc).1] at hnone
  cases hnone

theorem lives_or_vacant (hi : i < f.size) : f.Lives ⟨i, f.stampAt i⟩ ∨ f.Vacant i := by
  have hslot := f.getElem?_slots hi
  cases hc : f.cell? ⟨i, f.stampAt i⟩ with
  | some c => exact .inl ⟨c, hc⟩
  | none => exact .inr ⟨_, hslot, hc⟩

/-! ## What a slot is there for -/

/-- The slot holds a node, one, and does not wait. -/
def Taken (f : Forest) (i : Nat) : Prop := (∃! h : Handle, h.slot = i ∧ f.Lives h) ∧ i ∉ f.free

/-- The slot waits, once, and nothing is in it: no node, whatever its handle, and no links. -/
def Waits (f : Forest) (i : Nat) : Prop :=
  f.free.count i = 1 ∧ ∀ h : Handle, h.slot = i → f.occupant? h = none ∧ f.links h = {}

/-- All slots are accounted for: each is taken or waits, and `nodes` lists who lives, once. -/
structure Accounted (f : Forest) : Prop where
  taken_or_waits : ∀ i, i < f.size → Xor (f.Taken i) (f.Waits i)
  lt_size : ∀ i ∈ f.free, i < f.size
  mem_nodes_iff : ∀ h, h ∈ f.nodes ↔ f.Lives h
  nodup : f.nodes.Nodup
  size_eq : f.size = f.nodes.length + f.free.length

theorem taken_of_lives (hq : f.QueueSound) (hh : f.Lives h) : f.Taken h.slot := by
  refine ⟨⟨h, ⟨rfl, hh⟩, fun x hx => eq_of_slot_eq hx.2 hh hx.1⟩, fun hmem => ?_⟩
  exact ((hq.mem_free _).mp hmem).not_lives hh

theorem waits_of_vacant (hq : f.QueueSound) (hv : f.Vacant i) : f.Waits i := by
  refine ⟨List.count_eq_one_of_mem hq.nodup ((hq.mem_free i).mpr hv), fun h hslot => ?_⟩
  subst hslot
  refine ⟨hv.occupant?, ?_⟩
  rw [links, hv.occupant?]
  rfl

theorem Waits.not_taken (hw : f.Waits i) : ¬ f.Taken i := fun ht =>
  ht.2 (List.count_pos_iff.mp (hw.1 ▸ Nat.one_pos))

/-- The slots of nodes and the waiting slots are all slots. -/
theorem nodes_append_free_perm (hq : f.QueueSound) :
    (f.nodes.map (·.slot) ++ f.free).Perm (List.range f.size) := by
  have hslots : (f.nodes.map (·.slot)).Nodup := f.nodup_nodes.map_on fun _ hx _ hy e =>
    eq_of_slot_eq (mem_nodes.mp hx) (mem_nodes.mp hy) e
  have hn : (f.nodes.map (·.slot) ++ f.free).Nodup := by
    refine List.nodup_append.mpr ⟨hslots, hq.nodup, ?_⟩
    rintro i hi j hj rfl
    obtain ⟨h, hh, rfl⟩ := List.mem_map.mp hi
    exact ((hq.mem_free _).mp hj).not_lives (mem_nodes.mp hh)
  refine (List.perm_ext_iff_of_nodup hn List.nodup_range).mpr fun i => ?_
  rw [List.mem_append, List.mem_range, hq.mem_free]
  constructor
  · rintro (hi | hi)
    · obtain ⟨h, hh, rfl⟩ := List.mem_map.mp hi
      exact slot_lt_size (mem_nodes.mp hh)
    · exact hi.lt_size
  · intro hi
    exact (lives_or_vacant hi).imp_left fun hl => List.mem_map.mpr ⟨_, mem_nodes.mpr hl, rfl⟩

theorem WellFormed.accounted (hw : f.WellFormed k) : f.Accounted where
  taken_or_waits i hi := by
    rcases lives_or_vacant hi with hl | hv
    · have ht := taken_of_lives hw.queue hl
      exact .inl ⟨ht, fun hwaits => hwaits.not_taken ht⟩
    · have hwaits := waits_of_vacant hw.queue hv
      exact .inr ⟨hwaits, hwaits.not_taken⟩
  lt_size i hi := ((hw.queue.mem_free i).mp hi).lt_size
  mem_nodes_iff _ := mem_nodes
  nodup := f.nodup_nodes
  size_eq := by
    have hlength := (nodes_append_free_perm hw.queue).length_eq
    rw [List.length_append, List.length_map, List.length_range] at hlength
    exact hlength.symm

/-! ## How many slots there are after a command -/

theorem slot_place (f : Forest) (c : Cell) : (f.place c).1.slot = f.free.headD f.size := by
  unfold place
  cases f.free <;> rfl

theorem size_place (f : Forest) (c : Cell) :
    (f.place c).2.size = f.size + if f.free = [] then 1 else 0 := by
  unfold place
  cases f.free with
  | nil => exact Array.size_push _
  | cons i rest => exact Array.size_modify

theorem free_place (f : Forest) (c : Cell) : (f.place c).2.free = f.free.tail := by
  unfold place
  cases hfree : f.free with
  | nil => rw [List.tail_nil]
  | cons i rest => rfl

/-- There are as many slots, and those that waited still wait, in front of others. -/
structure QueueGrows (f f' : Forest) : Prop where
  size_eq : f'.size = f.size
  queue_kept : f.free <+: f'.free

theorem SameSlots.queueGrows {f f' : Forest} (h : f.SameSlots f') : f.QueueGrows f' :=
  ⟨h.size_eq, h.free_eq ▸ List.prefix_rfl⟩

namespace QueueGrows

theorem refl (f : Forest) : f.QueueGrows f := ⟨rfl, List.prefix_rfl⟩

theorem trans {f f' f'' : Forest} (h : f.QueueGrows f') (h' : f'.QueueGrows f'') :
    f.QueueGrows f'' :=
  ⟨h'.size_eq.trans h.size_eq, h.queue_kept.trans h'.queue_kept⟩

theorem foldl {α : Type} {step : Forest → α → Forest}
    (hstep : ∀ (f : Forest) x, f.QueueGrows (step f x)) (l : List α) (f : Forest) :
    f.QueueGrows (l.foldl step f) := by
  induction l generalizing f with
  | nil => exact refl f
  | cons x l ih => exact (hstep f x).trans (ih _)

theorem unlink (f : Forest) (h : Handle) : f.QueueGrows (f.unlink h) :=
  (SameSlots.unlink f h).queueGrows

theorem update (f : Forest) (h : Handle) (change : Cell → Cell) :
    f.QueueGrows (f.update h change) :=
  (SameSlots.update f h change).queueGrows

theorem release (f : Forest) (h : Handle) : f.QueueGrows (f.release h) :=
  ⟨Array.size_modify, List.prefix_append _ _⟩

end QueueGrows

/-- A node that is made takes the first waiting slot, or else a new one at the end. -/
theorem exec_made {command : Command} (hmade : (f.exec command).made? = some h) :
    h.slot = f.free.headD f.size ∧
      (f.exec command).forest.size = f.size + (if f.free = [] then 1 else 0) ∧
      (f.exec command).forest.free = f.free.tail := by
  have hnode := Outcome.made?_eq_some_iff.mp hmade
  cases command with
  | create seed =>
    cases hnode
    exact ⟨slot_place f _, size_place f _, free_place f _⟩
  | appendNew p seed =>
    cases hresult : f.appendNew p seed with
    | error fault =>
      rw [exec, hresult] at hnode
      cases hnode
    | ok made =>
      rw [exec, hresult] at hnode ⊢
      cases hnode
      obtain ⟨-, rfl⟩ := appendNew_eq_ok_iff.mp hresult
      have hsame := SameSlots.link (f.create seed).2 p (f.create seed).1
      exact ⟨slot_place f _, hsame.size_eq.trans (size_place f _),
        hsame.free_eq.trans (free_place f _)⟩
  | copy x =>
    cases hresult : f.copy x with
    | error fault =>
      rw [exec, hresult] at hnode
      cases hnode
    | ok made =>
      rw [exec, hresult] at hnode ⊢
      cases hnode
      obtain ⟨c, -, rfl⟩ := copy_eq_ok_iff.mp hresult
      have hsize : (f.rememberTag x).size = f.size := (QueueGrows.update f x _).size_eq
      refine ⟨?_, ?_, free_place (f.rememberTag x) _⟩
      · exact (slot_place (f.rememberTag x) _).trans (congrArg f.free.headD hsize)
      · exact (size_place (f.rememberTag x) _).trans (congrArg (· + _) hsize)
  | append p child => exact absurd hnode (ofChange_ne_node _)
  | detach x => exact absurd hnode (ofChange_ne_node _)
  | removeChildren x => exact absurd hnode (ofChange_ne_node _)
  | setHidden x hidden => exact absurd hnode (ofChange_ne_node _)
  | editAttributes x edit => exact absurd hnode (ofChange_ne_node _)
  | editText x edit => exact absurd hnode (ofChange_ne_node _)
  | remove x =>
    simp only [exec] at hnode
    split at hnode <;> cases hnode
  | editElement x edit =>
    simp only [exec] at hnode
    split at hnode
    · exact absurd hnode (ofChange_ne_node _)
    · cases hnode
  | render x layout env sink =>
    simp only [exec, Outcome.ofRendering] at hnode
    split at hnode <;> cases hnode

theorem queueGrows_ofChange {r : Except Fault Forest} (hr : ∀ f', r = .ok f' → f.QueueGrows f') :
    f.QueueGrows (Outcome.ofChange f r).forest := by
  cases r with
  | error fault => exact .refl f
  | ok f' => exact hr f' rfl

theorem queueGrows_editAttributes {f' : Forest} {edit : AttributeEdit}
    (hedit : f.editAttributes h edit = .ok f') : f.QueueGrows f' := by
  obtain ⟨c, content, -, -, rfl⟩ := editAttributes_eq_ok_iff.mp hedit
  exact .update f h _

/-- Without a new node there is no new slot, and no slot leaves the queue. -/
theorem queueGrows_of_not_made {command : Command} (hnot : (f.exec command).made? = none) :
    f.QueueGrows (f.exec command).forest := by
  cases command with
  | create seed => cases hnot
  | appendNew p seed =>
    cases hresult : f.appendNew p seed with
    | error fault => rw [exec, hresult]; exact .refl f
    | ok made =>
      rw [exec, hresult] at hnot
      cases hnot
  | copy x =>
    cases hresult : f.copy x with
    | error fault => rw [exec, hresult]; exact .refl f
    | ok made =>
      rw [exec, hresult] at hnot
      cases hnot
  | append p child =>
    refine queueGrows_ofChange fun f' happend => ?_
    obtain ⟨-, -, -, rfl⟩ := append_eq_ok_iff.mp happend
    exact (QueueGrows.unlink f child).trans (SameSlots.link _ p child).queueGrows
  | detach x =>
    refine queueGrows_ofChange fun f' hdetach => ?_
    obtain ⟨-, rfl⟩ := detach_eq_ok_iff.mp hdetach
    exact .unlink f x
  | removeChildren x =>
    refine queueGrows_ofChange fun f' hr => ?_
    obtain ⟨-, rfl⟩ := removeChildren_eq_ok_iff.mp hr
    exact .foldl QueueGrows.unlink _ f
  | remove x =>
    simp only [exec]
    split
    · next count f' hr =>
      obtain ⟨-, hresult⟩ := remove_eq_ok_iff.mp hr
      obtain rfl : f' = _ := congrArg Prod.snd hresult
      exact (QueueGrows.unlink f x).trans (.foldl QueueGrows.release _ _)
    · exact .refl f
  | setHidden x hidden =>
    refine queueGrows_ofChange fun f' hset => ?_
    obtain ⟨-, rfl⟩ := setHidden_eq_ok_iff.mp hset
    exact .update f x _
  | editAttributes x edit => exact queueGrows_ofChange fun f' => queueGrows_editAttributes
  | editElement x edit =>
    simp only [exec]
    split
    · exact queueGrows_ofChange fun f' => queueGrows_editAttributes
    · exact .refl f
  | editText x edit =>
    refine queueGrows_ofChange fun f' hedit => ?_
    obtain ⟨c, content, -, -, rfl⟩ := editText_eq_ok_iff.mp hedit
    exact .update f x _
  | render x layout env sink =>
    obtain ⟨hs, heq⟩ := f.exists_forest_render x layout env sink
    have hforest : (f.exec (.render x layout env sink)).forest = hs.foldl Forest.rememberTag f :=
      heq
    rw [hforest]
    exact .foldl (fun f x => .update f x _) hs f

/-- A command makes a new slot when it makes a node while no slot waits, and at no other time. -/
theorem size_exec (f : Forest) (command : Command) :
    (f.exec command).forest.size =
      f.size + if (f.exec command).made?.isSome ∧ f.free = [] then 1 else 0 := by
  cases hmade : (f.exec command).made? with
  | none => simp [(queueGrows_of_not_made hmade).size_eq]
  | some h => simp [(exec_made hmade).2.1]

theorem size_le_run (f : Forest) (commands : List Command) : f.size ≤ (f.run commands).size := by
  induction commands generalizing f with
  | nil => exact Nat.le_refl _
  | cons c cs ih =>
    have hstep : f.size ≤ (f.exec c).forest.size := by
      rw [size_exec]
      exact Nat.le_add_right _ _
    exact hstep.trans (ih _)

/-! ## The accounts of a run -/

theorem accounted_run (commands : List Command) : (empty.run commands).Accounted := by
  obtain ⟨k, hw⟩ := (Reachable.empty.run commands).wellFormed
  exact hw.accounted

/-- There was a time when every slot held a node: when the last slot was made. -/
theorem exists_length_nodes_eq_size (commands : List Command) :
    ∃ before, before <+: commands ∧
      (empty.run before).nodes.length = (empty.run commands).size := by
  induction commands using List.reverseRecOn with
  | nil => exact ⟨[], List.prefix_rfl, rfl⟩
  | append_singleton commands c ih =>
    have hstep : empty.run (commands ++ [c]) = ((empty.run commands).exec c).forest :=
      run_append _ _ _
    by_cases hnew : ((empty.run commands).exec c).made?.isSome ∧ (empty.run commands).free = []
    · refine ⟨commands ++ [c], List.prefix_rfl, ?_⟩
      obtain ⟨h, hmade⟩ := Option.isSome_iff_exists.mp hnew.1
      have hfree : (empty.run (commands ++ [c])).free = [] := by
        rw [hstep, (exec_made hmade).2.2, hnew.2]
        rfl
      have hsize := (accounted_run (commands ++ [c])).size_eq
      rw [hfree] at hsize
      exact hsize.symm
    · obtain ⟨before, hbefore, hlength⟩ := ih
      refine ⟨before, hbefore.trans (List.prefix_append _ _), hlength.trans ?_⟩
      rw [hstep, size_exec, if_neg hnew, Nat.add_zero]

/-- **As many slots as nodes at the peak.** After every run all slots are accounted for. Further
commands never lower the number of slots; it is the greatest number of nodes that lived at one time
of the run, and only a node that is made while no slot waits raises it, by one. -/
theorem size_is_peak (commands : List Command) :
    let f := empty.run commands
    f.Accounted ∧ (∀ more, f.size ≤ (f.run more).size) ∧
      IsGreatest {n | ∃ before, before <+: commands ∧ (empty.run before).nodes.length = n} f.size ∧
      ∀ command, (f.exec command).forest.size =
        f.size + if (f.exec command).made?.isSome ∧ f.free = [] then 1 else 0 := by
  intro f
  refine ⟨accounted_run commands, size_le_run f, ⟨?_, ?_⟩, size_exec f⟩
  · exact exists_length_nodes_eq_size commands
  · rintro n ⟨before, ⟨after, rfl⟩, rfl⟩
    calc (empty.run before).nodes.length
        ≤ (empty.run before).size := (accounted_run before).size_eq ▸ Nat.le_add_right _ _
      _ ≤ ((empty.run before).run after).size := size_le_run _ after
      _ = (empty.run (before ++ after)).size := by rw [run_append]

/-- Three nodes at most lived at one time, though five were made, and one more was refused. -/
example :
    let f := empty.run [.create (.element .ul), .appendNew ⟨0, 0⟩ (.element .li),
      .appendNew ⟨1, 0⟩ (.text "a"), .appendNew ⟨2, 0⟩ .comment, .remove ⟨1, 0⟩,
      .create .fragment, .copy ⟨0, 0⟩]
    f.size = 3 ∧ f.nodes = [⟨0, 0⟩, ⟨1, 1⟩, ⟨2, 1⟩] ∧ f.free = [] := by
  decide

end Forest

end Markup

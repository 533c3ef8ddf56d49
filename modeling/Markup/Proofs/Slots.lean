import Markup.Command
import Markup.Proofs.Kinship

/-!
# Slots

What the operations on slots do to the nodes that are read through their handles. A queue is sound
when it holds every empty slot once; then a new node never takes the slot of another one, and its
handle is that of no other node.

* `Forest.cell?_place`, `Forest.cell?_release`: a new node and a removed one show under their own
  handle only.
* `Forest.cell?_unlink`, `Forest.cell?_link`: moving a node changes nothing but links.
* `Forest.length_le_size`: there are no more nodes than slots.
-/

namespace Markup

namespace Forest

/-- The node of the handle was not removed. -/
def Lives (f : Forest) (h : Handle) : Prop := ∃ c, f.cell? h = some c

theorem lives_iff_isSome {f : Forest} {h : Handle} : f.Lives h ↔ (f.cell? h).isSome = true :=
  Option.isSome_iff_exists.symm

theorem isRemoved_eq_false_iff {f : Forest} {h : Handle} : f.isRemoved h = false ↔ f.Lives h := by
  rw [lives_iff_isSome, isRemoved, ← Option.not_isSome]
  simp

theorem isRemoved_eq_true_iff {f : Forest} {h : Handle} : f.isRemoved h = true ↔ ¬ f.Lives h := by
  rw [← isRemoved_eq_false_iff, Bool.not_eq_false]

theorem isHidden_of_cell? {f : Forest} {h : Handle} {c : Cell} (hc : f.cell? h = some c) :
    f.isHidden h = c.hidden := by
  rw [isHidden, hc]
  rfl

theorem cell?_eq_none_iff {f : Forest} {h : Handle} : f.cell? h = none ↔ ¬ f.Lives h := by
  rw [lives_iff_isSome, Option.not_isSome_iff_eq_none]

theorem cell?_eq_some_iff {f : Forest} {h : Handle} {c : Cell} :
    f.cell? h = some c ↔
      ∃ s, f.slots[h.slot]? = some s ∧ s.stamp = h.stamp ∧ s.cell = some c := by
  simp only [cell?, Option.bind_eq_some_iff, Option.ite_none_right_eq_some]

/-- The node in a slot lives, under a handle of its own. -/
theorem cell?_occupant {f : Forest} {h : Handle} {c : Cell} (hc : f.occupant? h = some c) :
    f.cell? (f.occupant h) = some c := by
  obtain ⟨s, hs, hcell⟩ := Option.bind_eq_some_iff.mp hc
  refine cell?_eq_some_iff.mpr ⟨s, hs, ?_, hcell⟩
  simp [occupant, stampAt, hs]

/-- A slot holds one node. -/
theorem eq_of_slot_eq {f : Forest} {h k : Handle} (hh : f.Lives h) (hk : f.Lives k)
    (e : h.slot = k.slot) : h = k := by
  obtain ⟨c, hc⟩ := hh
  obtain ⟨d, hd⟩ := hk
  obtain ⟨s, hs, hst, -⟩ := cell?_eq_some_iff.mp hc
  obtain ⟨t, ht, htt, -⟩ := cell?_eq_some_iff.mp hd
  rw [e, ht] at hs
  cases hs
  cases h
  cases k
  simp_all

/-- There are no more nodes than slots. -/
theorem length_le_size {f : Forest} {l : List Handle} (hn : l.Nodup) (hl : ∀ x ∈ l, f.Lives x) :
    l.length ≤ f.size := by
  have hmap : (l.map (·.slot)).Nodup :=
    hn.map_on fun x hx y hy e => eq_of_slot_eq (hl x hx) (hl y hy) e
  have hsub : l.map (·.slot) ⊆ List.range f.size := by
    intro i hi
    obtain ⟨x, hx, rfl⟩ := List.mem_map.mp hi
    obtain ⟨c, hc⟩ := hl x hx
    obtain ⟨s, hs, -⟩ := cell?_eq_some_iff.mp hc
    exact List.mem_range.mpr (Array.getElem?_eq_some_iff.mp hs).1
  have := hmap.length_le_of_subset hsub
  rwa [List.length_map, List.length_range] at this

/-! ## The queue -/

/-- The slot is there and holds no node. -/
def Vacant (f : Forest) (i : Nat) : Prop := ∃ s, f.slots[i]? = some s ∧ s.cell = none

/-- The queue holds every empty slot once, and no other. -/
structure QueueSound (f : Forest) : Prop where
  mem_free : ∀ i, i ∈ f.free ↔ f.Vacant i
  nodup : f.free.Nodup

theorem queueSound_empty : empty.QueueSound where
  mem_free i := by simp [empty, Vacant]
  nodup := List.nodup_nil

/-- A new node shows under its own handle only. -/
theorem cell?_place {f : Forest} (hq : f.QueueSound) (c : Cell) (k : Handle) :
    (f.place c).2.cell? k = if k = (f.place c).1 then some c else f.cell? k := by
  obtain ⟨j, t⟩ := k
  unfold place
  cases hfree : f.free with
  | nil =>
    simp only [cell?, Array.getElem?_push, Handle.mk.injEq]
    by_cases hj : j = f.slots.size
    · have hout : f.slots[j]? = none := by simp [hj]
      by_cases ht : t = 0 <;> simp [hj, ht, eq_comm]
    · simp [hj]
  | cons i rest =>
    obtain ⟨s, hs, hcell⟩ := (hq.mem_free i).mp (hfree ▸ List.mem_cons_self)
    simp only [cell?, Array.getElem?_modify, stampAt, Handle.mk.injEq]
    by_cases hj : j = i
    · subst hj
      by_cases ht : t = s.stamp <;> simp [hs, ht, eq_comm]
    · rw [if_neg fun e => hj e.symm, if_neg fun e => hj e.1]

/-- The handle of a new node is new. -/
theorem not_lives_place {f : Forest} (hq : f.QueueSound) (c : Cell) :
    ¬ f.Lives (f.place c).1 := by
  rw [← cell?_eq_none_iff]
  unfold place
  cases hfree : f.free with
  | nil => simp [cell?]
  | cons i rest =>
    obtain ⟨s, hs, hcell⟩ := (hq.mem_free i).mp (hfree ▸ List.mem_cons_self)
    simp [cell?, hs, hcell]

/-- A removed node is gone, and no other. -/
theorem cell?_release {f : Forest} {h : Handle} (hh : f.Lives h) (k : Handle) :
    (f.release h).cell? k = if k = h then none else f.cell? k := by
  obtain ⟨c, hc⟩ := hh
  obtain ⟨s, hs, hst, -⟩ := cell?_eq_some_iff.mp hc
  simp only [cell?, release, Array.getElem?_modify]
  by_cases hk : h.slot = k.slot
  · rw [if_pos hk, ← hk, hs]
    by_cases e : k = h
    · simp [e]
    · have hne : s.stamp ≠ k.stamp := by
        intro e'
        cases h
        cases k
        simp_all
      simp [e, hne]
  · rw [if_neg hk, if_neg fun e => hk (congrArg Handle.slot e.symm)]

theorem vacant_modify (f : Forest) (free : List Nat) (j : Nat) (change : Slot → Slot) (i : Nat) :
    (⟨f.slots.modify j change, free⟩ : Forest).Vacant i ↔
      ∃ s, f.slots[i]? = some s ∧ (if j = i then change s else s).cell = none := by
  simp only [Vacant, Array.getElem?_modify]
  by_cases h : j = i
  · subst h
    simp
  · simp [h]

theorem QueueSound.update {f : Forest} (hq : f.QueueSound) (h : Handle) (change : Cell → Cell) :
    (f.update h change).QueueSound where
  mem_free i := by
    refine (hq.mem_free i).trans ((vacant_modify f _ _ _ i).trans ?_).symm
    refine exists_congr fun s => and_congr_right fun _ => ?_
    split
    · split <;> simp
    · rfl
  nodup := hq.nodup

theorem QueueSound.relink {f : Forest} (hq : f.QueueSound) (o : Option Handle)
    (change : Links → Links) : (f.relink o change).QueueSound := by
  cases o with
  | none => exact hq
  | some h => exact hq.update h _

theorem QueueSound.place {f : Forest} (hq : f.QueueSound) (c : Cell) :
    (f.place c).2.QueueSound := by
  unfold Forest.place
  cases hfree : f.free with
  | nil =>
    refine ⟨fun i => ?_, List.nodup_nil⟩
    have hnone : ¬ f.Vacant i := fun h => by
      have := (hq.mem_free i).mpr h
      rw [hfree] at this
      cases this
    simp only [List.not_mem_nil, false_iff]
    rintro ⟨s, hs, hcell⟩
    rw [Array.getElem?_push] at hs
    split at hs
    · cases hs
      cases hcell
    · exact hnone ⟨s, hs, hcell⟩
  | cons j rest =>
    obtain ⟨hj, hrest⟩ := List.nodup_cons.mp (hfree ▸ hq.nodup)
    refine ⟨fun i => ?_, hrest⟩
    have hmem : i ∈ j :: rest ↔ f.Vacant i := hfree ▸ hq.mem_free i
    rw [vacant_modify]
    by_cases e : j = i
    · subst e
      simp [hj]
    · simp only [if_neg e]
      exact ⟨fun hi => hmem.mp (List.mem_cons_of_mem _ hi), fun hi =>
        (List.mem_cons.mp (hmem.mpr hi)).resolve_left (Ne.symm e)⟩

theorem QueueSound.release {f : Forest} (hq : f.QueueSound) {h : Handle} (hh : f.Lives h) :
    (f.release h).QueueSound := by
  obtain ⟨c, hc⟩ := hh
  obtain ⟨s, hs, -, hcell⟩ := cell?_eq_some_iff.mp hc
  have hnot : h.slot ∉ f.free := by
    rw [hq.mem_free]
    rintro ⟨t, ht, hnone⟩
    rw [hs] at ht
    cases ht
    rw [hcell] at hnone
    cases hnone
  refine ⟨fun i => ?_, ?_⟩
  · refine List.mem_append.trans (Iff.trans ?_ (vacant_modify f _ _ _ i).symm)
    rw [List.mem_singleton, hq.mem_free]
    by_cases e : h.slot = i
    · subst e
      simp [hs]
    · simp only [if_neg e, Ne.symm e, or_false]
      rfl
  · exact List.nodup_append.mpr ⟨hq.nodup, List.nodup_singleton _, by
      rintro i hi j hj rfl
      exact hnot (List.mem_singleton.mp hj ▸ hi)⟩

/-! ## Moving a node -/

/-- Changed links show at their own node only. -/
theorem cell?_relink (f : Forest) (o : Option Handle) (change : Links → Links) (x : Handle) :
    (f.relink o change).cell? x =
      (f.cell? x).map fun c => if o = some x then { c with links := change c.links } else c := by
  cases o with
  | none => simp [relink]
  | some h =>
    rw [relink, cell?_update]
    by_cases e : x = h
    · simp [e]
    · simp [e, Ne.symm e]

/-- Changed links leave the rest of a node as it was. -/
theorem cell?_relink_eq (f : Forest) (o : Option Handle) (change : Links → Links) (x : Handle) :
    (f.relink o change).cell? x =
      (f.cell? x).map fun c =>
        { c with links := if o = some x then change c.links else c.links } := by
  rw [cell?_relink]
  congr 1
  funext c
  split <;> rfl

/-- A node that leaves its row changes links around it, and nothing else. -/
theorem cell?_unlink {f : Forest} {h : Handle} {c : Cell} (hc : f.cell? h = some c) (x : Handle) :
    (f.unlink h).cell? x =
      (f.cell? x).map fun d => { d with links := d.links.without h c.links x } := by
  simp only [unlink, hc, cell?_relink_eq, Option.map_map]
  congr 1
  funext d
  simp only [Function.comp, Links.without, Option.some.injEq, eq_comm (a := h)]
  congr 1
  split_ifs <;> simp_all

theorem cell?_link (f : Forest) (p h x : Handle) :
    (f.link p h).cell? x =
      (f.cell? x).map fun d =>
        { d with links := d.links.within p h ((f.cell? p).bind (·.links.last)) x } := by
  simp only [link, cell?_relink_eq, Option.map_map]
  generalize (f.cell? p).bind (·.links.last) = last
  congr 1
  funext d
  simp only [Function.comp, Links.within, Option.some.injEq, eq_comm (a := h), eq_comm (a := p)]
  congr 1
  cases last <;> split_ifs <;> simp_all

end Forest

end Markup

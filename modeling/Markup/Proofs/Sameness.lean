import Markup.Proofs.Invariant

/-!
# When nothing changes

Rewiring neither makes slots nor empties them, and it leaves stamps and queue alone. So a forest is
the same before and after when its links show the same kinship and its nodes hold the same things.

* `Forest.SameSlots.eq_of_cell?`: on the same slots, a forest is what its handles show.
* `Forest.WellFormed.unlink_eq_self`, `Forest.WellFormed.unlink_link`: taking out a node that is in
  no row changes nothing, and a node that came into a row can leave it again.
* `Forest.WellFormed.append_create`: a new node can be moved at once.
-/

namespace Markup

namespace Forest

/-- As many slots, with the same stamps, and the same of them wait. -/
structure SameSlots (f f' : Forest) : Prop where
  size_eq : f'.size = f.size
  stampAt_eq : ∀ i, f'.stampAt i = f.stampAt i
  free_eq : f'.free = f.free

variable {f f' f'' : Forest} {k : Kinship}

/-- What is in a slot shows under the handle with the stamp of the slot. -/
theorem getElem?_slots (f : Forest) {i : Nat} (hi : i < f.size) :
    f.slots[i]? = some ⟨f.stampAt i, f.cell? ⟨i, f.stampAt i⟩⟩ := by
  obtain ⟨s, hs⟩ : ∃ s, f.slots[i]? = some s := ⟨_, Array.getElem?_eq_getElem hi⟩
  simp [stampAt, cell?, hs]

namespace SameSlots

theorem refl (f : Forest) : f.SameSlots f := ⟨rfl, fun _ => rfl, rfl⟩

theorem trans (h : f.SameSlots f') (h' : f'.SameSlots f'') : f.SameSlots f'' where
  size_eq := h'.size_eq.trans h.size_eq
  stampAt_eq i := (h'.stampAt_eq i).trans (h.stampAt_eq i)
  free_eq := h'.free_eq.trans h.free_eq

/-- On the same slots, a forest is what its handles show. -/
theorem eq_of_cell? (h : f.SameSlots f') (hcell : ∀ x, f'.cell? x = f.cell? x) : f' = f := by
  have hslots : f'.slots = f.slots := by
    refine Array.ext_getElem? fun i => ?_
    by_cases hi : i < f.size
    · rw [f.getElem?_slots hi, f'.getElem?_slots (h.size_eq ▸ hi), h.stampAt_eq, hcell]
    · have hi' : ¬ i < f'.size := h.size_eq ▸ hi
      rw [Array.getElem?_eq_none (Nat.le_of_not_lt hi),
        Array.getElem?_eq_none (Nat.le_of_not_lt hi')]
  calc f' = ⟨f'.slots, f'.free⟩ := rfl
    _ = f := by rw [hslots, h.free_eq]

theorem update (f : Forest) (h : Handle) (change : Cell → Cell) :
    f.SameSlots (f.update h change) where
  size_eq := Array.size_modify
  stampAt_eq i := by
    simp only [stampAt, Forest.update, Array.getElem?_modify]
    split
    · next e =>
      subst e
      cases f.slots[h.slot]? with
      | none => rfl
      | some s =>
        simp only [Option.map_some]
        split <;> rfl
    · rfl
  free_eq := rfl

theorem relink (f : Forest) (o : Option Handle) (change : Links → Links) :
    f.SameSlots (f.relink o change) := by
  cases o with
  | none => exact refl f
  | some h => exact update f h _

theorem unlink (f : Forest) (h : Handle) : f.SameSlots (f.unlink h) := by
  unfold Forest.unlink
  split
  · exact refl f
  · exact (((relink f _ _).trans (relink _ _ _)).trans (relink _ _ _)).trans (relink _ _ _)

theorem link (f : Forest) (p h : Handle) : f.SameSlots (f.link p h) := by
  unfold Forest.link
  exact ((relink f _ _).trans (relink _ _ _)).trans (relink _ _ _)

end SameSlots

/-- What nodes are and hold, and whether they are hidden; nothing of their links. -/
def facts (f : Forest) (x : Handle) : Option (Content × Bool) :=
  (f.cell? x).map fun c => (c.content, c.hidden)

theorem exists_cell?_of_facts {x : Handle} {c : Cell} (h : f'.facts x = f.facts x)
    (hc : f.cell? x = some c) :
    ∃ d, f'.cell? x = some d ∧ d.content = c.content ∧ d.hidden = c.hidden := by
  rw [facts, facts, hc, Option.map_some, Option.map_eq_some_iff] at h
  obtain ⟨d, hd, heq⟩ := h
  exact ⟨d, hd, Prod.mk.inj heq⟩

theorem lives_of_facts {x : Handle} (hx : f.Lives x) (h : f'.facts = f.facts) : f'.Lives x := by
  obtain ⟨c, hc⟩ := hx
  obtain ⟨d, hd, -⟩ := exists_cell?_of_facts (congrFun h x) hc
  exact ⟨d, hd⟩

theorem facts_unlink (f : Forest) (h : Handle) : (f.unlink h).facts = f.facts := by
  funext x
  cases hh : f.cell? h with
  | none => rw [unlink, hh]
  | some c => simp [facts, cell?_unlink hh, Function.comp_def]

theorem facts_unlinkAll (f : Forest) (hs : List Handle) :
    (hs.foldl unlink f).facts = f.facts := by
  induction hs generalizing f with
  | nil => rfl
  | cons h rest ih => exact (ih _).trans (facts_unlink f h)

theorem facts_link (f : Forest) (p h : Handle) : (f.link p h).facts = f.facts := by
  funext x
  simp [facts, cell?_link, Function.comp_def]

/-- One kinship has one forest, on the same slots and with the same things in them. -/
theorem Shows.eq_of_facts (hs : f.Shows k) (hs' : f'.Shows k) (hslots : f.SameSlots f')
    (hfacts : f'.facts = f.facts) : f' = f := by
  refine hslots.eq_of_cell? fun x => ?_
  have hx := congrFun hfacts x
  cases hc : f.cell? x with
  | none =>
    rw [facts, facts, hc, Option.map_none, Option.map_eq_none_iff] at hx
    exact hx
  | some c =>
    obtain ⟨d, hd, hcontent, hhidden⟩ := exists_cell?_of_facts hx hc
    have hlinks : d.links = c.links := by rw [hs'.links_eq hd, hs.links_eq hc]
    calc f'.cell? x = some ⟨d.content, d.hidden, d.links⟩ := hd
      _ = some c := by rw [hcontent, hhidden, hlinks]

namespace WellFormed

/-- A node without a parent has no row to leave. -/
theorem unlink_eq_self (hw : f.WellFormed k) {h : Handle} (hh : f.Lives h)
    (hroot : k.parent h = none) : f.unlink h = f := by
  have hs' := hw.shows.unlink hh
  rw [hw.shows.lawful.unlink_eq_self hroot] at hs'
  exact hw.shows.eq_of_facts hs' (.unlink f h) (facts_unlink f h)

/-- Who came into a row leaves it as it was. -/
theorem unlink_link (hw : f.WellFormed k) {p h : Handle} (hp : f.Lives p) (hh : f.Lives h)
    (hroot : k.parent h = none) (hne : h ≠ p) (habove : ¬ k.Above h p) :
    (f.link p h).unlink h = f := by
  have hs' := (hw.shows.link hp hh hroot hne habove).unlink ((lives_link f p h h).mpr hh)
  rw [hw.shows.lawful.unlink_link hroot] at hs'
  exact hw.shows.eq_of_facts hs' ((SameSlots.link f p h).trans (.unlink _ h))
    ((facts_unlink _ h).trans (facts_link f p h))

/-- To make a node below another one is to make it and then to move it: it is in no row that it
would have to leave. -/
theorem append_create (hw : f.WellFormed k) (seed : Seed) {p : Handle} (hp : f.TakesChildren p) :
    (f.create seed).2.append p (f.create seed).1 =
      .ok ((f.create seed).2.link p (f.create seed).1) := by
  obtain ⟨c, hc, ha⟩ := hp
  have hnew : ¬ f.Lives (f.create seed).1 := not_lives_place hw.queue _
  have hne : (f.create seed).1 ≠ p := fun h => hnew (h ▸ ⟨c, hc⟩)
  have hp' : (f.create seed).2.cell? p = some c :=
    (cell?_place hw.queue _ p).trans ((if_neg (Ne.symm hne)).trans hc)
  have habove : ¬ k.Above (f.create seed).1 p := fun h => hnew (hw.shows.lives_of_above h).1
  have hlives : (f.create seed).2.Lives (f.create seed).1 :=
    (lives_place hw.queue _ _).mpr (.inl rfl)
  have hw' : (f.create seed).2.WellFormed k := hw.place rfl
  refine hw'.append_iff.mpr ⟨hlives, ⟨c, hp', ha⟩, ⟨hne, habove⟩, ?_⟩
  rw [hw'.unlink_eq_self hlives (hw.shows.parent_eq_none hnew)]

end WellFormed

end Forest

end Markup

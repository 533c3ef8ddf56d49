import Markup.Proofs.Slots

/-!
# The shape of a forest

A forest shows a kinship when the links of every node are those of the kinship, and only nodes
that live are in it. Moving, making and removing nodes then changes the kinship as it should, and
the lists that are read off the links are its rows.

* `Forest.Shows.unlink`, `Forest.Shows.link`, `Forest.Shows.place`, `Forest.Shows.releaseAll`:
  one lemma for each change.
* `Forest.Shows.children_eq`, `Forest.Shows.mem_ancestors`: what is read along the links, with
  nothing cut off.
-/

namespace Markup

namespace Forest

/-- The links of a forest are those of a lawful kinship among the nodes that live. -/
structure Shows (f : Forest) (k : Kinship) : Prop where
  lawful : k.Lawful
  links_eq : ∀ {h c}, f.cell? h = some c → c.links = k.links h
  lives : ∀ {p x}, k.parent x = some p → f.Lives p ∧ f.Lives x

theorem shows_empty : empty.Shows .empty where
  lawful := .empty
  links_eq h := by simp [cell?, empty] at h
  lives h := by cases h

/-! ## Changing the shape -/

theorem lives_unlink {f : Forest} {h : Handle} (hh : f.Lives h) (x : Handle) :
    (f.unlink h).Lives x ↔ f.Lives x := by
  obtain ⟨c, hc⟩ := hh
  simp [lives_iff_isSome, cell?_unlink hc]

theorem lives_link (f : Forest) (p h x : Handle) : (f.link p h).Lives x ↔ f.Lives x := by
  simp [lives_iff_isSome, cell?_link]

theorem lives_update (f : Forest) (h : Handle) (change : Cell → Cell) (x : Handle) :
    (f.update h change).Lives x ↔ f.Lives x := by
  rw [lives_iff_isSome, lives_iff_isSome, cell?_update]
  split
  · next e => simp [e]
  · rfl

theorem lives_place {f : Forest} (hq : f.QueueSound) (c : Cell) (x : Handle) :
    (f.place c).2.Lives x ↔ x = (f.place c).1 ∨ f.Lives x := by
  rw [lives_iff_isSome, lives_iff_isSome, cell?_place hq]
  split
  · next e => simp [e]
  · next e => simp [e]

theorem lives_release {f : Forest} {h : Handle} (hh : f.Lives h) (x : Handle) :
    (f.release h).Lives x ↔ x ≠ h ∧ f.Lives x := by
  rw [lives_iff_isSome, lives_iff_isSome, cell?_release hh]
  split
  · next e => simp [e]
  · next e => simp [e]

namespace Shows

variable {f : Forest} {k : Kinship}

/-- Nobody is below or above a node that does not live. -/
theorem parent_eq_none (hs : f.Shows k) {h : Handle} (hh : ¬ f.Lives h) : k.parent h = none := by
  cases hp : k.parent h with
  | none => rfl
  | some p => exact absurd (hs.lives hp).2 hh

/-- Who is above somebody lives, and who is below somebody. -/
theorem lives_of_above (hs : f.Shows k) {a h : Handle} (habove : k.Above a h) :
    f.Lives a ∧ f.Lives h := by
  obtain ⟨x, hx, -⟩ := Relation.TransGen.head'_iff.mp habove
  obtain ⟨y, -, hy⟩ := Relation.TransGen.tail'_iff.mp habove
  exact ⟨(hs.lives hx).1, (hs.lives hy).2⟩

theorem children_eq_nil (hs : f.Shows k) {h : Handle} (hh : ¬ f.Lives h) : k.children h = [] :=
  List.eq_nil_iff_forall_not_mem.mpr fun _ hx => hh (hs.lives (hs.lawful.mem_children.mp hx)).1

/-- A change of what nodes are and hold leaves the shape as it is. -/
theorem update (hs : f.Shows k) (h : Handle) {change : Cell → Cell}
    (hchange : ∀ c, (change c).links = c.links) : (f.update h change).Shows k where
  lawful := hs.lawful
  links_eq {x c} hc := by
    rw [cell?_update] at hc
    split at hc
    · next e =>
      obtain ⟨d, hd, rfl⟩ := Option.map_eq_some_iff.mp hc
      rw [hchange, e, hs.links_eq hd]
    · exact hs.links_eq hc
  lives hp := by
    rw [lives_update, lives_update]
    exact hs.lives hp

theorem unlink (hs : f.Shows k) {h : Handle} (hh : f.Lives h) :
    (f.unlink h).Shows (k.unlink h) where
  lawful := hs.lawful.unlink h
  links_eq {x d} hd := by
    obtain ⟨c, hc⟩ := hh
    rw [cell?_unlink hc] at hd
    obtain ⟨e, he, rfl⟩ := Option.map_eq_some_iff.mp hd
    rw [hs.lawful.links_unlink, ← hs.links_eq hc, ← hs.links_eq he]
  lives {p x} hp := by
    rw [Kinship.parent_unlink] at hp
    split at hp
    · cases hp
    · rw [lives_unlink hh, lives_unlink hh]
      exact hs.lives hp

theorem link (hs : f.Shows k) {p h : Handle} (hp : f.Lives p) (hh : f.Lives h)
    (hroot : k.parent h = none) (hne : h ≠ p) (habove : ¬ k.Above h p) :
    (f.link p h).Shows (k.link p h) where
  lawful := hs.lawful.link hroot hne habove
  links_eq {x d} hd := by
    obtain ⟨c, hc⟩ := hp
    rw [cell?_link, hc] at hd
    obtain ⟨e, he, rfl⟩ := Option.map_eq_some_iff.mp hd
    rw [hs.lawful.links_link hroot, ← hs.links_eq hc, ← hs.links_eq he]
    rfl
  lives {q x} hq := by
    rw [lives_link, lives_link]
    rw [Kinship.parent_link] at hq
    split at hq
    · next e =>
      cases hq
      exact ⟨hp, e ▸ hh⟩
    · exact hs.lives hq

/-- A new node stands alone. -/
theorem place (hs : f.Shows k) (hq : f.QueueSound) {c : Cell} (hc : c.links = {}) :
    (f.place c).2.Shows k where
  lawful := hs.lawful
  links_eq {x d} hd := by
    rw [cell?_place hq] at hd
    split at hd
    · next e =>
      cases hd
      have hnot : ¬ f.Lives x := e ▸ not_lives_place hq c
      rw [hc]
      simp [Kinship.links, hs.parent_eq_none hnot, hs.children_eq_nil hnot]
    · exact hs.links_eq hd
  lives hp := by
    rw [lives_place hq, lives_place hq]
    exact ⟨.inr (hs.lives hp).1, .inr (hs.lives hp).2⟩

end Shows

/-! ## Removing many nodes -/

/-- What is left after some nodes, all different, were removed one after the other. -/
theorem cell?_releaseAll {f : Forest} {gone : List Handle} (hn : gone.Nodup)
    (hl : ∀ x ∈ gone, f.Lives x) (x : Handle) :
    (gone.foldl release f).cell? x = if x ∈ gone then none else f.cell? x := by
  induction gone generalizing f with
  | nil => simp
  | cons h rest ih =>
    obtain ⟨hh, hrest⟩ := List.nodup_cons.mp hn
    have hlh := hl h List.mem_cons_self
    have hl' : ∀ y ∈ rest, (f.release h).Lives y := fun y hy => by
      rw [lives_release hlh]
      exact ⟨fun e => hh (e ▸ hy), hl y (List.mem_cons_of_mem _ hy)⟩
    rw [List.foldl_cons, ih hrest hl', cell?_release hlh]
    by_cases e : x = h <;> by_cases hx : x ∈ rest <;> simp [e, hx]

theorem QueueSound.releaseAll {f : Forest} (hq : f.QueueSound) {gone : List Handle}
    (hn : gone.Nodup) (hl : ∀ x ∈ gone, f.Lives x) : (gone.foldl Forest.release f).QueueSound := by
  induction gone generalizing f with
  | nil => exact hq
  | cons h rest ih =>
    obtain ⟨hh, hrest⟩ := List.nodup_cons.mp hn
    have hlh := hl h List.mem_cons_self
    refine ih (hq.release hlh) hrest fun y hy => ?_
    rw [lives_release hlh]
    exact ⟨fun e => hh (e ▸ hy), hl y (List.mem_cons_of_mem _ hy)⟩

/-- Whole families may go. -/
theorem Shows.releaseAll {f : Forest} {k : Kinship} (hs : f.Shows k) {gone : List Handle}
    (hn : gone.Nodup) (hl : ∀ x ∈ gone, f.Lives x)
    (hgone : ∀ x p, k.parent x = some p → (x ∈ gone ↔ p ∈ gone)) :
    (gone.foldl release f).Shows (k.drop gone) where
  lawful := hs.lawful.drop hgone
  links_eq {x c} hc := by
    rw [cell?_releaseAll hn hl] at hc
    split at hc
    · cases hc
    · next hx =>
      rw [hs.links_eq hc]
      have hparent : ∀ p, k.parent x = some p → p ∉ gone := fun p hp hm =>
        hx ((hgone x p hp).mpr hm)
      cases hp : k.parent x with
      | none => simp [Kinship.links, hx, hp]
      | some p => simp [Kinship.links, hx, hp, hparent p hp]
  lives {p x} hp := by
    rw [Kinship.parent_drop] at hp
    split at hp
    · cases hp
    · next hx =>
      have hpn : p ∉ gone := fun hm => hx ((hgone x p hp).mpr hm)
      obtain ⟨hlp, hlx⟩ := hs.lives hp
      simp only [lives_iff_isSome, cell?_releaseAll hn hl, if_neg hpn, if_neg hx] at hlp hlx ⊢
      exact ⟨hlp, hlx⟩

/-! ## Reading the shape -/

theorem links_of_cell? {f : Forest} {h : Handle} {c : Cell} (hc : f.cell? h = some c) :
    f.links h = c.links := by
  rw [links, (occupant?_eq_of_cell? hc).1]
  rfl

namespace Shows

variable {f : Forest} {k : Kinship}

theorem links_of_lives (hs : f.Shows k) {h : Handle} (hh : f.Lives h) : f.links h = k.links h := by
  obtain ⟨c, hc⟩ := hh
  rw [links_of_cell? hc, hs.links_eq hc]

theorem parent?_eq (hs : f.Shows k) {h : Handle} (hh : f.Lives h) : f.parent? h = k.parent h := by
  rw [parent?, hs.links_of_lives hh]
  rfl

theorem firstChild?_eq (hs : f.Shows k) {h : Handle} (hh : f.Lives h) :
    f.firstChild? h = (k.children h).head? := by
  rw [firstChild?, hs.links_of_lives hh]
  rfl

theorem lives_of_mem_children (hs : f.Shows k) {p x : Handle} (hx : x ∈ k.children p) :
    f.Lives x :=
  (hs.lives (hs.lawful.mem_children.mp hx)).2

theorem nextSibling?_eq (hs : f.Shows k) {p x : Handle} (hx : x ∈ k.children p) :
    f.nextSibling? x = follower? x (k.children p) := by
  rw [nextSibling?, hs.links_of_lives (hs.lives_of_mem_children hx)]
  exact Kinship.next_of_parent (hs.lawful.mem_children.mp hx)

theorem previousSibling?_eq (hs : f.Shows k) {p x : Handle} (hx : x ∈ k.children p) :
    f.previousSibling? x = follower? x (k.children p).reverse := by
  rw [previousSibling?, hs.links_of_lives (hs.lives_of_mem_children hx)]
  exact Kinship.previous_of_parent (hs.lawful.mem_children.mp hx)

/-- Going from sibling to sibling passes the children, all of them. -/
theorem passes_children (hs : f.Shows k) {h : Handle} (hh : f.Lives h) :
    Passes f.nextSibling? (f.firstChild? h) (k.children h) := by
  rw [firstChild?, hs.links_of_lives hh]
  exact passes_of_follower? (hs.lawful.nodup h) fun _ hx => hs.nextSibling?_eq hx

theorem passes_reverse_children (hs : f.Shows k) {h : Handle} (hh : f.Lives h) :
    Passes f.previousSibling? (f.lastChild? h) (k.children h).reverse := by
  rw [lastChild?, hs.links_of_lives hh, Kinship.links, ← List.head?_reverse]
  exact passes_of_follower? (List.nodup_reverse.mpr (hs.lawful.nodup h)) fun _ hx =>
    hs.previousSibling?_eq (List.mem_reverse.mp hx)

theorem length_children_le (hs : f.Shows k) (h : Handle) : (k.children h).length ≤ f.size :=
  length_le_size (hs.lawful.nodup h) fun _ hx => hs.lives_of_mem_children hx

/-- The children that are read are the row of the kinship. -/
theorem children_eq (hs : f.Shows k) {h : Handle} (hh : f.Lives h) :
    f.children h = k.children h :=
  chase_eq_of_passes (hs.passes_children hh) (hs.length_children_le h)

/-- Going from parent to parent passes everybody above, and ends. -/
theorem exists_passes_parent (hs : f.Shows k) {h : Handle} (hh : f.Lives h) :
    ∃ row, Passes f.parent? (f.parent? h) row ∧ row.Nodup ∧ ∀ x, x ∈ row ↔ k.Above x h := by
  induction h using hs.lawful.wf.induction with
  | _ h ih =>
    rw [hs.parent?_eq hh]
    cases hp : k.parent h with
    | none =>
      refine ⟨[], rfl, List.nodup_nil, fun x => ⟨fun hx => absurd hx List.not_mem_nil, ?_⟩⟩
      exact fun hx => absurd hx (Kinship.not_above_of_root hp x)
    | some p =>
      obtain ⟨row, hpass, hn, hmem⟩ := ih p hp (hs.lives hp).1
      refine ⟨p :: row, ⟨rfl, hpass⟩, List.nodup_cons.mpr ⟨fun hm => ?_, hn⟩, fun x => ?_⟩
      · exact hs.lawful.not_above_self p ((hmem p).mp hm)
      · rw [List.mem_cons, hmem]
        constructor
        · rintro (rfl | hx)
          · exact .single hp
          · exact .tail hx hp
        · intro hx
          obtain ⟨q, hq, h'⟩ := Relation.TransGen.tail'_iff.mp hx
          rw [hp] at h'
          cases h'
          exact (Relation.reflTransGen_iff_eq_or_transGen.mp hq).imp Eq.symm id

/-- The ancestors that are read are everybody above. -/
theorem mem_ancestors (hs : f.Shows k) {h x : Handle} (hh : f.Lives h) :
    x ∈ f.ancestors h ↔ k.Above x h := by
  obtain ⟨row, hpass, hn, hmem⟩ := hs.exists_passes_parent hh
  have hlives : ∀ y ∈ row, f.Lives y := fun y hy => (hs.lives_of_above ((hmem y).mp hy)).1
  rw [ancestors, chase_eq_of_passes hpass (length_le_size hn hlives), hmem]

/-- A node has the parent that the kinship gives it; nobody else has one. -/
theorem parent_iff (hs : f.Shows k) {p x : Handle} :
    f.Lives x ∧ f.parent? x = some p ↔ k.parent x = some p := by
  constructor
  · rintro ⟨hx, hp⟩
    rwa [hs.parent?_eq hx] at hp
  · intro hp
    have hx := (hs.lives hp).2
    exact ⟨hx, by rw [hs.parent?_eq hx, hp]⟩

end Shows

/-- Going up from `x`, from parent to parent, one comes to `a`. -/
def Above (f : Forest) : Handle → Handle → Prop :=
  Relation.TransGen fun p x => f.Lives x ∧ f.parent? x = some p

theorem Shows.above_eq {f : Forest} {k : Kinship} (hs : f.Shows k) : f.Above = k.Above := by
  have hparent : (fun p x => f.Lives x ∧ f.parent? x = some p) =
      fun p x => k.parent x = some p := by
    funext p x
    exact propext hs.parent_iff
  rw [Above, Kinship.Above, hparent]

end Forest

end Markup

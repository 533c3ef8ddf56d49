import Markup.Proofs.Invariant

/-!
# Links in reachable forests

The five links of a node, and the lists that are read along them, fit together in every reachable
forest. Nothing here speaks of a kinship: it is what somebody who reads the links can rely on.

* `Reachable.wellLinked`: no link leads to a removed node, rows read the same from both ends, and
  no node is above itself.
-/

namespace Markup

namespace Forest

/-- The links fit together: those of a node lead to nodes, a row reads the same from both ends, its
nodes are those that have the parent, and going up ends. -/
structure WellLinked (f : Forest) : Prop where
  lives : ∀ {h}, f.Lives h → ∀ read ∈ [f.parent?, f.firstChild?, f.lastChild?, f.nextSibling?,
    f.previousSibling?], ∀ x, read h = some x → f.Lives x
  next_iff : ∀ {x y}, f.Lives x → f.Lives y →
    (f.nextSibling? x = some y ↔ f.previousSibling? y = some x)
  forwards : ∀ {h}, f.Lives h → Passes f.nextSibling? (f.firstChild? h) (f.children h)
  backwards : ∀ {h}, f.Lives h →
    Passes f.previousSibling? (f.lastChild? h) (f.children h).reverse
  parent_iff : ∀ {x p}, f.Lives x → f.Lives p → (f.parent? x = some p ↔ x ∈ f.children p)
  once : ∀ {x p}, f.Lives x → f.parent? x = some p → (f.children p).count x = 1
  nowhere_else : ∀ {x p q}, f.Lives x → f.Lives q → f.parent? x = some p → q ≠ p →
    x ∉ f.children q
  alone : ∀ {x}, f.Lives x → f.parent? x = none →
    f.nextSibling? x = none ∧ f.previousSibling? x = none
  ends : ∀ h, ∃ row, Passes f.parent? (some h) row
  freed : ∀ h, h.slot ∈ f.free → f.links h = {}

variable {f : Forest} {k : Kinship}

namespace Shows

/-- The neighbours of a node are nodes. -/
theorem lives_of_link (hs : f.Shows k) {h x : Handle} (hh : f.Lives h)
    {read : Handle → Option Handle} (hread : read ∈ [f.parent?, f.firstChild?, f.lastChild?,
      f.nextSibling?, f.previousSibling?]) (hx : read h = some x) : f.Lives x := by
  have hlinks := hs.links_of_lives hh
  have hrow : ∀ {p : Handle} {row : List Handle}, (∀ y, y ∈ row → y ∈ k.children p) →
      follower? h row = some x → f.Lives x := by
    intro p row hrow hfollow
    exact hs.lives_of_mem_children (hrow x (mem_of_follower?_eq_some hfollow).2)
  simp only [List.mem_cons, List.not_mem_nil, or_false] at hread
  rcases hread with rfl | rfl | rfl | rfl | rfl
  · rw [hs.parent?_eq hh] at hx
    exact (hs.lives hx).1
  · rw [firstChild?, hlinks] at hx
    exact hs.lives_of_mem_children (List.mem_of_head? hx)
  · rw [lastChild?, hlinks] at hx
    exact hs.lives_of_mem_children (List.mem_of_getLast? hx)
  · rw [nextSibling?, hlinks] at hx
    obtain ⟨p, -, hx⟩ := Option.bind_eq_some_iff.mp hx
    exact hrow (fun _ hy => hy) hx
  · rw [previousSibling?, hlinks] at hx
    obtain ⟨p, -, hx⟩ := Option.bind_eq_some_iff.mp hx
    exact hrow (fun _ hy => List.mem_reverse.mp hy) hx

/-- Both links between neighbours in a row are there, or none. -/
theorem nextSibling?_iff (hs : f.Shows k) {x y : Handle} (hx : f.Lives x) (hy : f.Lives y) :
    f.nextSibling? x = some y ↔ f.previousSibling? y = some x := by
  rw [nextSibling?, previousSibling?, hs.links_of_lives hx, hs.links_of_lives hy]
  simp only [Kinship.links, Option.bind_eq_some_iff]
  constructor
  · rintro ⟨p, hp, hfollow⟩
    have hmem := (mem_of_follower?_eq_some hfollow).2
    exact ⟨p, hs.lawful.mem_children.mp hmem,
      (follower?_eq_some_comm (hs.lawful.nodup p)).mp hfollow⟩
  · rintro ⟨p, hp, hfollow⟩
    have hmem := List.mem_reverse.mp (mem_of_follower?_eq_some hfollow).2
    exact ⟨p, hs.lawful.mem_children.mp hmem,
      (follower?_eq_some_comm (hs.lawful.nodup p)).mpr hfollow⟩

theorem parent?_iff (hs : f.Shows k) {x p : Handle} (hx : f.Lives x) (hp : f.Lives p) :
    f.parent? x = some p ↔ x ∈ f.children p := by
  rw [hs.parent?_eq hx, hs.children_eq hp, hs.lawful.mem_children]

/-- Also through the handle of a removed node, whose slot may have another node, going up ends. -/
theorem exists_passes_parent_some (hs : f.Shows k) (h : Handle) :
    ∃ row, Passes f.parent? (some h) row := by
  cases ho : f.occupant? h with
  | none => exact ⟨[h], rfl, by rw [parent?, links, ho]; rfl⟩
  | some c =>
    obtain ⟨row, hpass, -⟩ := hs.exists_passes_parent ⟨c, cell?_occupant ho⟩
    exact ⟨h :: row, rfl, hpass⟩

end Shows

theorem wellLinked_of_wellFormed (hw : f.WellFormed k) : f.WellLinked where
  lives hh _ hread _ hx := hw.shows.lives_of_link hh hread hx
  next_iff := hw.shows.nextSibling?_iff
  forwards hh := hw.shows.children_eq hh ▸ hw.shows.passes_children hh
  backwards hh := hw.shows.children_eq hh ▸ hw.shows.passes_reverse_children hh
  parent_iff := hw.shows.parent?_iff
  once {x p} hx hp := by
    rw [hw.shows.parent?_eq hx] at hp
    rw [hw.shows.children_eq (hw.shows.lives hp).1]
    exact List.count_eq_one_of_mem (hw.shows.lawful.nodup p) (hw.shows.lawful.mem_children.mpr hp)
  nowhere_else hx hq hp hne hmem := by
    rw [← hw.shows.parent?_iff hx hq, hp] at hmem
    exact hne (Option.some.inj hmem).symm
  alone hx hp := by
    rw [hw.shows.parent?_eq hx] at hp
    rw [nextSibling?, previousSibling?, hw.shows.links_of_lives hx]
    simp [Kinship.links, hp]
  ends := hw.shows.exists_passes_parent_some
  freed h hfree := by
    obtain ⟨s, hs, hempty⟩ := (hw.queue.mem_free _).mp hfree
    rw [links, occupant?, hs, Option.bind_some, hempty]
    rfl

end Forest

/-- **In a reachable forest the links fit together**, whatever was done and whatever failed. -/
theorem Reachable.wellLinked {f : Forest} (hf : Reachable f) : f.WellLinked := by
  obtain ⟨k, hw⟩ := hf.wellFormed
  exact Forest.wellLinked_of_wellFormed hw

/-- An item moves behind the other one, which is then removed; a comment takes its slot. -/
theorem wellLinked_of_moves :
    let f := Forest.empty.run [.create (.element .ul), .appendNew ⟨0, 0⟩ (.element .li),
      .appendNew ⟨0, 0⟩ (.element .li), .append ⟨0, 0⟩ ⟨1, 0⟩, .remove ⟨2, 0⟩,
      .appendNew ⟨0, 0⟩ .comment]
    f.children ⟨0, 0⟩ = [⟨1, 0⟩, ⟨2, 1⟩] ∧ f.WellLinked :=
  ⟨by decide, (Reachable.empty.run _).wellLinked⟩

end Markup

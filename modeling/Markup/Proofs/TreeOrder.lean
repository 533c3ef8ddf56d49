import Markup.Proofs.GuardedWalk

/-!
# The order of a walk

A walk lists a node before the nodes below it when it is read at start edges, and after them when it
is read at stop edges. What is listed below a node is what is listed for its children, in the order
of their row. So the list of a node and the nodes below it is the pre-order of its tree, and it has
those nodes that have the node above them.

The handle of a removed node lists itself. If another node with children took its slot, the walk
goes on through the tree of that node: the list has everybody who comes behind that node in the
pre-order of the whole tree.

* `Forest.Shows.flatMap_grove`: what is read off a row of trees is read off one tree at a time.
* `Forest.Shows.descendants_cons`, `Forest.Shows.postorder_concat`: the two orders, by recursion on
  the children.
* `Forest.Shows.mem_descendants_iff`: who is listed, by going up.
* `Forest.Shows.descendants_of_occupant`: what the handle of a removed node lists.
* `Forest.WalksInOrder`, `Reachable.walksInOrder`: the walks of every reachable forest.
-/

namespace Markup

namespace Forest

variable {f : Forest} {k : Kinship} {h : Handle}

/-! ## One tree at a time -/

/-- What is read off a row of trees is read off one tree at a time. -/
theorem Shows.flatMap_grove (hs : f.Shows k) {α : Type} {φ : Grove → List α}
    (hnil : φ .nil = [])
    (htree : ∀ h content hidden below rest, φ (.tree h content hidden below rest) =
      φ (.tree h content hidden below .nil) ++ φ rest)
    {row : List Handle} {g : Grove} (hg : f.Grows k row g) :
    φ g = row.flatMap fun x => φ (f.grove x) := by
  induction hg with
  | nil => exact hnil
  | @tree h c row below rest hc hbelow hrest _ ihr =>
    have hgrove := hs.grove_eq hc
    rw [(hs.grows_grovesBelow ⟨c, hc⟩).unique hbelow] at hgrove
    rw [htree, ihr, List.flatMap_cons, hgrove]

/-- A node is listed before the nodes below it, and these are listed child by child. -/
theorem Shows.descendants_cons (hs : f.Shows k) (hh : f.Lives h) :
    f.descendants h = h :: (f.children h).flatMap f.descendants := by
  obtain ⟨c, hc⟩ := id hh
  have hbelow : (f.grovesBelow h).handles = (k.children h).flatMap fun x => (f.grove x).handles :=
    hs.flatMap_grove rfl (by simp [Grove.handles]) (hs.grows_grovesBelow hh)
  rw [hs.descendants_eq hh, hs.grove_eq hc, Grove.handles, Grove.handles, List.append_nil, hbelow,
    hs.children_eq hh]
  exact congrArg (h :: ·) (List.flatMap_congr fun x hx =>
    (hs.descendants_eq (hs.lives_of_mem_children hx)).symm)

/-- A node is listed after the nodes below it, and these are listed child by child. -/
theorem Shows.postorder_concat (hs : f.Shows k) (hh : f.Lives h) :
    f.postorder h = (f.children h).flatMap f.postorder ++ [h] := by
  obtain ⟨c, hc⟩ := id hh
  have hbelow :
      (f.grovesBelow h).handlesUp = (k.children h).flatMap fun x => (f.grove x).handlesUp :=
    hs.flatMap_grove rfl (by simp [Grove.handlesUp]) (hs.grows_grovesBelow hh)
  rw [hs.postorder_eq hh, hs.grove_eq hc, Grove.handlesUp, Grove.handlesUp, hbelow,
    hs.children_eq hh]
  exact congrArg (· ++ [h]) (List.flatMap_congr fun x hx =>
    (hs.postorder_eq (hs.lives_of_mem_children hx)).symm)

/-! ## Who is listed -/

/-- Somebody is some levels above a node who is among its ancestors. -/
theorem mem_ancestors_iff_up? {f : Forest} {n m : Handle} :
    n ∈ f.ancestors m ↔ ∃ count, 1 ≤ count ∧ f.up? m count = some n := by
  rw [List.mem_iff_getElem?]
  constructor
  · rintro ⟨i, hi⟩
    exact ⟨i + 1, Nat.le_add_left 1 i, hi⟩
  · rintro ⟨count, -, hup⟩
    exact ⟨count - 1, hup⟩

/-- A node lists itself and the nodes that have it above them. -/
theorem Shows.mem_descendants_iff (hs : f.Shows k) {n : Handle} (hn : f.Lives n) {m : Handle} :
    m ∈ f.descendants n ↔
      f.Lives m ∧ (m = n ∨ ∃ count, 1 ≤ count ∧ f.up? m count = some n) := by
  rw [hs.mem_descendants hn, ← mem_ancestors_iff_up?]
  constructor
  · rintro (rfl | habove)
    · exact ⟨hn, .inl rfl⟩
    · have hm := (hs.lives_of_above habove).2
      exact ⟨hm, .inr ((hs.mem_ancestors hm).mpr habove)⟩
  · rintro ⟨hm, rfl | hup⟩
    · exact .inl rfl
    · exact .inr ((hs.mem_ancestors hm).mp hup)

/-! ## The handle of a removed node -/

/-- Where there is no child the walk passes one node. -/
theorem Shows.descendants_of_no_child (hs : f.Shows k) (hfirst : f.firstChild? h = none) :
    f.descendants h = [h] := by
  rw [descendants, (hs.trail_walk h).unique (trail_of_no_child hfirst)]
  rfl

/-- With the handle of a removed node, everybody is listed who comes behind the node that took the
slot. -/
theorem Shows.descendants_of_occupant (hs : f.Shows k) (hh : ¬ f.Lives h) {c : Handle}
    (hfirst : f.firstChild? h = some c) :
    ∃ t before after, f.Lives t ∧ f.parent? t = none ∧
      f.descendants t = before ++ f.occupant h :: after ∧ f.descendants h = h :: after ∧
      (h :: after).Nodup := by
  obtain ⟨t, before, rest, ht, htop, hwalk, htrail⟩ := hs.trail_of_occupant hh hfirst
  have hlisted : f.descendants t =
      before.filterMap Edge.started? ++ f.occupant h :: rest.filterMap Edge.started? := by
    rw [descendants, hwalk, List.filterMap_append]
    rfl
  refine ⟨t, _, _, ht, by rw [hs.parent?_eq ht, htop], hlisted, ?_, ?_⟩
  · rw [descendants, (hs.trail_walk h).unique htrail]
    rfl
  · have hnodup := hs.nodup_descendants ht
    rw [hlisted] at hnodup
    refine List.nodup_cons.mpr ⟨fun hmem => hh ?_, (List.nodup_append.mp hnodup).2.1.of_cons⟩
    refine hs.lives_of_mem_descendants ht ?_
    rw [hlisted]
    exact List.mem_append_right _ (List.mem_cons_of_mem _ hmem)

/-- Whose slot is empty, or holds a node without children, has no child. -/
theorem Shows.firstChild?_eq_none_iff (hs : f.Shows k) :
    f.firstChild? h = none ↔ f.occupant? h = none ∨ f.children (f.occupant h) = [] := by
  cases ho : f.occupant? h with
  | none => exact iff_of_true (by rw [firstChild?, links, ho]; rfl) (.inl rfl)
  | some c =>
    have hlives : f.Lives (f.occupant h) := ⟨c, cell?_occupant ho⟩
    have hfirst : f.firstChild? h = (f.children (f.occupant h)).head? :=
      (hs.firstChild?_eq hlives).trans (by rw [hs.children_eq hlives])
    rw [hfirst, List.head?_eq_none_iff, or_iff_right (Option.some_ne_none c)]

/-- What the walks through a forest list: a node, hidden or not, and then child by child what is
below it. Every walk ends, also that from the handle of a removed node. -/
structure WalksInOrder (f : Forest) : Prop where
  ends : ∀ h, f.Trail h (.start h) (f.walk h)
  order : ∀ {n}, f.Lives n → f.descendants n = n :: (f.children n).flatMap f.descendants
  once : ∀ {n}, f.Lives n → (f.descendants n).Nodup
  up : ∀ {n}, f.Lives n → ∀ m, m ∈ f.descendants n ↔
    f.Lives m ∧ (m = n ∨ ∃ count, 1 ≤ count ∧ f.up? m count = some n)
  up_removed : ∀ m count, f.up? m count = f.up? (f.occupant m) count
  /-- A removed node lists itself, if nobody is in its slot, or a node without children. -/
  alone : ∀ {h}, ¬ f.Lives h → f.occupant? h = none ∨ f.children (f.occupant h) = [] →
    f.descendants h = [h]
  /-- Otherwise it lists everybody behind the node in the slot as well, in the tree of that node. -/
  behind : ∀ {h}, ¬ f.Lives h → f.occupant? h ≠ none → f.children (f.occupant h) ≠ [] →
    ∃ top before after, f.Lives top ∧ f.parent? top = none ∧
      f.descendants top = before ++ f.occupant h :: after ∧ f.descendants h = h :: after ∧
      (h :: after).Nodup

end Forest

/-- **Walks list trees in pre-order, and those that are listed are those that come up to the root.**
Every walk comes to its end. The handle of a removed node lists itself, and everybody behind the
node that took its slot if that one has children. -/
theorem Reachable.walksInOrder {f : Forest} (hf : Reachable f) : f.WalksInOrder := by
  obtain ⟨k, hw⟩ := hf.wellFormed
  have hs := hw.shows
  constructor
  case ends => exact hs.trail_walk
  case order => exact hs.descendants_cons
  case once => exact hs.nodup_descendants
  case up => exact fun hn m => hs.mem_descendants_iff hn
  case up_removed => exact fun m count => rfl
  case alone =>
    exact fun _ halone => hs.descendants_of_no_child (hs.firstChild?_eq_none_iff.mpr halone)
  case behind =>
    intro h hh hoccupied hchildren
    have hfirst : f.firstChild? h ≠ none := fun e =>
      (hs.firstChild?_eq_none_iff.mp e).elim hoccupied hchildren
    obtain ⟨c, hc⟩ := Option.ne_none_iff_exists'.mp hfirst
    exact hs.descendants_of_occupant hh hc

/-- The first item of a list was removed, and its slot is used for a hidden item with an image
inside, behind the second item and in front of a third one. The handle of the removed item lists
what comes behind the hidden one. -/
theorem walksInOrder_of_reuse :
    let f := Forest.empty.run [.create (.element .ul), .appendNew ⟨0, 0⟩ (.element .li),
      .appendNew ⟨0, 0⟩ (.element .li), .remove ⟨1, 0⟩, .appendNew ⟨0, 0⟩ (.element .li),
      .appendNew ⟨1, 1⟩ (.element .img), .appendNew ⟨0, 0⟩ (.element .li), .setHidden ⟨1, 1⟩ true]
    f.descendants ⟨0, 0⟩ = [⟨0, 0⟩, ⟨2, 0⟩, ⟨1, 1⟩, ⟨3, 0⟩, ⟨4, 0⟩] ∧
      f.up? ⟨3, 0⟩ 2 = some ⟨0, 0⟩ ∧ ⟨3, 0⟩ ∈ f.descendants ⟨0, 0⟩ ∧
      f.descendants ⟨1, 0⟩ = [⟨1, 0⟩, ⟨3, 0⟩, ⟨4, 0⟩] ∧
      ∃ top before after, f.Lives top ∧ f.parent? top = none ∧
        f.descendants top = before ++ ⟨1, 1⟩ :: after ∧ f.descendants ⟨1, 0⟩ = ⟨1, 0⟩ :: after ∧
        (⟨1, 0⟩ :: after).Nodup := by
  intro f
  have hwalks : f.WalksInOrder := (Reachable.empty.run _).walksInOrder
  have hlist : f.Lives ⟨0, 0⟩ := ⟨_, rfl⟩
  have himage : f.Lives ⟨3, 0⟩ := ⟨_, rfl⟩
  have hremoved : ¬ f.Lives ⟨1, 0⟩ := Forest.cell?_eq_none_iff.mp rfl
  have hup : f.up? ⟨3, 0⟩ 2 = some ⟨0, 0⟩ := by decide
  exact ⟨by decide, hup, (hwalks.up hlist _).mpr ⟨himage, .inr ⟨2, by decide, hup⟩⟩, by decide,
    hwalks.behind hremoved (by decide) (by decide)⟩

end Markup

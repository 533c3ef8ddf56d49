import Markup.Proofs.Rows
import Mathlib.Logic.Relation
import Mathlib.Order.WellFounded

/-!
# Kinship

What the links of a forest say, without the links: every node has a parent or none, and a row of
children. A kinship is lawful when the two agree, no node stands twice in a row, and nobody is
above itself. The five links of a node are a function of the kinship (`Kinship.links`), and the
changes that are made to links are functions of the links before (`Links.without`,
`Links.within`).

* `Kinship.Lawful.unlink`, `Kinship.Lawful.link`, `Kinship.Lawful.drop`: what keeps a kinship
  lawful. A node may enter the row of a parent that is not below it; the check of everybody above
  the parent is what makes `link` safe.
* `Kinship.links_unlink`, `Kinship.links_link`: rewiring a few links is the same as changing the
  kinship.
-/

namespace Markup

namespace Links

/-- The links with front and end exchanged. -/
def mirror (l : Links) : Links :=
  { l with previous := l.next, next := l.previous, first := l.last, last := l.first }

/-- The links `k` of `x` after the node `h` with links `l` left its row. -/
def without (k : Links) (h : Handle) (l : Links) (x : Handle) : Links where
  parent := if x = h then none else k.parent
  previous := if x = h then none else if l.next = some x then l.previous else k.previous
  next := if x = h then none else if l.previous = some x then l.next else k.next
  first := if l.parent = some x ∧ l.previous = none then l.next else k.first
  last := if l.parent = some x ∧ l.next = none then l.previous else k.last

/-- The links `k` of `x` after `h` came behind `last` into the row below `p`. -/
def within (k : Links) (p h : Handle) (last : Option Handle) (x : Handle) : Links where
  parent := if x = h then some p else k.parent
  previous := if x = h then last else k.previous
  next := if x = h then none else if last = some x then some h else k.next
  first := if x = p ∧ last = none then some h else k.first
  last := if x = p then some h else k.last

end Links

/-- Who is whose child. -/
structure Kinship where
  parent : Handle → Option Handle
  children : Handle → List Handle

namespace Kinship

/-- The links that show the kinship at a node. -/
def links (k : Kinship) (x : Handle) : Links where
  parent := k.parent x
  previous := (k.parent x).bind fun p => follower? x (k.children p).reverse
  next := (k.parent x).bind fun p => follower? x (k.children p)
  first := (k.children x).head?
  last := (k.children x).getLast?

/-- `p` is above `x`, be it by several levels. -/
def Above (k : Kinship) : Handle → Handle → Prop :=
  Relation.TransGen fun p x => k.parent x = some p

/-- Nobody has a parent. -/
def empty : Kinship := ⟨fun _ => none, fun _ => []⟩

/-- The kinship after `h` became the root of its own tree. -/
def unlink (k : Kinship) (h : Handle) : Kinship where
  parent x := if x = h then none else k.parent x
  children p := (k.children p).erase h

/-- The kinship after `h` became the last child of `p`. -/
def link (k : Kinship) (p h : Handle) : Kinship where
  parent x := if x = h then some p else k.parent x
  children q := if q = p then k.children q ++ [h] else k.children q

/-- The kinship among the nodes that are not `gone`. -/
def drop (k : Kinship) (gone : List Handle) : Kinship where
  parent x := if x ∈ gone then none else k.parent x
  children p := if p ∈ gone then [] else k.children p

@[simp] theorem parent_unlink (k : Kinship) (h x : Handle) :
    (k.unlink h).parent x = if x = h then none else k.parent x := rfl

@[simp] theorem children_unlink (k : Kinship) (h p : Handle) :
    (k.unlink h).children p = (k.children p).erase h := rfl

@[simp] theorem parent_link (k : Kinship) (p h x : Handle) :
    (k.link p h).parent x = if x = h then some p else k.parent x := rfl

@[simp] theorem children_link (k : Kinship) (p h q : Handle) :
    (k.link p h).children q = if q = p then k.children q ++ [h] else k.children q := rfl

@[simp] theorem parent_drop (k : Kinship) (gone : List Handle) (x : Handle) :
    (k.drop gone).parent x = if x ∈ gone then none else k.parent x := rfl

@[simp] theorem children_drop (k : Kinship) (gone : List Handle) (p : Handle) :
    (k.drop gone).children p = if p ∈ gone then [] else k.children p := rfl

/-- Parents and rows of children belong together. -/
structure Lawful (k : Kinship) : Prop where
  mem_children : ∀ {p x}, x ∈ k.children p ↔ k.parent x = some p
  nodup : ∀ p, (k.children p).Nodup
  wf : WellFounded fun p x => k.parent x = some p

/-- Nobody is above a node without a parent. -/
theorem not_above_of_root {k : Kinship} {h : Handle} (hroot : k.parent h = none) (a : Handle) :
    ¬ k.Above a h := by
  intro habove
  obtain ⟨p, -, hp⟩ := Relation.TransGen.tail'_iff.mp habove
  rw [hroot] at hp
  cases hp

namespace Lawful

variable {k : Kinship}

theorem not_above_self (hk : k.Lawful) (x : Handle) : ¬ k.Above x x :=
  hk.wf.transGen.irrefl.irrefl x

/-- Of two nodes above a third, one is above the other. -/
theorem above_total (hk : k.Lawful) {p q x : Handle} (hp : k.Above p x) (hq : k.Above q x) :
    p = q ∨ k.Above p q ∨ k.Above q p := by
  induction x using hk.wf.induction with
  | _ x ih =>
    obtain ⟨r, hpr, hr⟩ := Relation.TransGen.tail'_iff.mp hp
    obtain ⟨s, hqs, hs⟩ := Relation.TransGen.tail'_iff.mp hq
    rw [hr] at hs
    cases hs
    rcases Relation.reflTransGen_iff_eq_or_transGen.mp hpr with rfl | hpr
    · rcases Relation.reflTransGen_iff_eq_or_transGen.mp hqs with e | hqs
      · exact .inl e
      · exact .inr (.inr hqs)
    · rcases Relation.reflTransGen_iff_eq_or_transGen.mp hqs with rfl | hqs
      · exact .inr (.inl hpr)
      · exact ih r hr hpr hqs

/-- No child of a node is above another one. -/
theorem not_above_of_mem_children (hk : k.Lawful) {p x y : Handle} (hx : x ∈ k.children p)
    (hy : y ∈ k.children p) : ¬ k.Above x y := by
  intro h
  obtain ⟨q, hxq, hq⟩ := Relation.TransGen.tail'_iff.mp h
  rw [hk.mem_children.mp hy] at hq
  cases hq
  exact hk.not_above_self p (Relation.TransGen.head' (hk.mem_children.mp hx) hxq)

/-- Going up from `x` one passes `y` before its parent, so who is below the parent is not past
`y`. -/
theorem below_child (hk : k.Lawful) {p x y z : Handle} (hparent : k.parent y = some p)
    (hpz : k.Above p z) (hyx : x = y ∨ k.Above y x) (hzx : z = x ∨ k.Above z x) :
    z = y ∨ k.Above y z := by
  have hnot : ¬ k.Above z y := by
    intro hzy
    obtain ⟨q, hzq, hq⟩ := Relation.TransGen.tail'_iff.mp hzy
    obtain rfl : p = q := Option.some.inj (hparent.symm.trans hq)
    exact hk.not_above_self p (hpz.trans_left hzq)
  rcases hyx with rfl | hyx
  · exact .inl (hzx.resolve_right hnot)
  · rcases hzx with rfl | hzx
    · exact .inr hyx
    · exact (hk.above_total hyx hzx).imp Eq.symm fun h => h.resolve_right hnot

theorem empty : Kinship.empty.Lawful where
  mem_children := by simp [Kinship.empty]
  nodup _ := List.nodup_nil
  wf := ⟨fun _ => ⟨_, fun _ h => by cases h⟩⟩

theorem unlink (hk : k.Lawful) (h : Handle) : (k.unlink h).Lawful where
  mem_children {p x} := by
    simp only [parent_unlink, children_unlink, (hk.nodup p).mem_erase_iff, hk.mem_children]
    by_cases e : x = h <;> simp [e]
  nodup p := (hk.nodup p).erase h
  wf := by
    refine Subrelation.wf (fun {p x} hp => ?_) hk.wf
    simp only [parent_unlink] at hp
    split at hp
    · cases hp
    · exact hp

/-- Going up from a node that is not below `h` ends also when `h` gets a parent: it never meets `h`,
so there the parents are the old ones. -/
theorem acc_link (hk : k.Lawful) {p h : Handle} (hne : h ≠ p) (habove : ¬ k.Above h p) {y : Handle}
    (hy : y = p ∨ k.Above y p) : Acc (fun q x => (k.link p h).parent x = some q) y := by
  induction y using hk.wf.induction with
  | _ y ih =>
    have hyh : y ≠ h := by
      rintro rfl
      exact hy.elim hne habove
    refine ⟨y, fun z hz => ?_⟩
    rw [parent_link, if_neg hyh] at hz
    refine ih z hz (.inr ?_)
    rcases hy with rfl | hy
    · exact .single hz
    · exact .head hz hy

theorem wf_link (hk : k.Lawful) {p h : Handle} (hne : h ≠ p) (habove : ¬ k.Above h p) :
    WellFounded fun q x => (k.link p h).parent x = some q := by
  have here : Acc (fun q x => (k.link p h).parent x = some q) h := by
    refine ⟨h, fun z hz => ?_⟩
    rw [parent_link, if_pos rfl] at hz
    exact hk.acc_link hne habove (.inl (Option.some.inj hz).symm)
  refine ⟨fun x => ?_⟩
  induction x using hk.wf.induction with
  | _ x ih =>
    by_cases hx : x = h
    · exact hx ▸ here
    · refine ⟨x, fun z hz => ih z ?_⟩
      rwa [parent_link, if_neg hx] at hz

/-- A node without a parent may become the last child of a node that is not below it. -/
theorem link (hk : k.Lawful) {p h : Handle} (hroot : k.parent h = none) (hne : h ≠ p)
    (habove : ¬ k.Above h p) : (k.link p h).Lawful where
  mem_children {q x} := by
    simp only [parent_link, children_link]
    by_cases hq : q = p <;> by_cases hx : x = h
    · simp [hq, hx]
    · simp [hq, hx, hk.mem_children]
    · simp [hq, hx, hk.mem_children, hroot, Ne.symm hq]
    · simp [hq, hx, hk.mem_children]
  nodup q := by
    simp only [children_link]
    split
    · next hq =>
      have hh : h ∉ k.children q := by rw [hk.mem_children, hroot]; simp
      exact List.nodup_append.mpr ⟨hk.nodup q, List.nodup_singleton h, by
        rintro a ha b hb rfl
        exact hh (List.mem_singleton.mp hb ▸ ha)⟩
    · exact hk.nodup q
  wf := hk.wf_link hne habove

/-- Nodes may go if nobody below them stays, and their parents go as well. -/
theorem drop (hk : k.Lawful) {gone : List Handle}
    (hgone : ∀ x p, k.parent x = some p → (x ∈ gone ↔ p ∈ gone)) : (k.drop gone).Lawful where
  mem_children {p x} := by
    simp only [parent_drop, children_drop]
    by_cases hp : p ∈ gone <;> by_cases hx : x ∈ gone
    · simp [hp, hx]
    · simp only [if_pos hp, if_neg hx, List.not_mem_nil, false_iff]
      exact fun h => hx ((hgone x p h).mpr hp)
    · simp only [if_neg hp, if_pos hx, hk.mem_children, reduceCtorEq, iff_false]
      exact fun h => hp ((hgone x p h).mp hx)
    · simp only [if_neg hp, if_neg hx, hk.mem_children]
  nodup p := by
    simp only [children_drop]
    split
    · exact List.nodup_nil
    · exact hk.nodup p
  wf := by
    refine Subrelation.wf (fun {p x} hp => ?_) hk.wf
    simp only [parent_drop] at hp
    split at hp
    · cases hp
    · exact hp

end Lawful

/-- Kinships with the same parents and the same rows are the same. -/
theorem ext_kin {k k' : Kinship} (hparent : ∀ x, k.parent x = k'.parent x)
    (hchildren : ∀ p, k.children p = k'.children p) : k = k' := by
  cases k
  cases k'
  exact congr (congrArg mk (funext hparent)) (funext hchildren)

namespace Lawful

variable {k : Kinship}

theorem not_mem_of_root (hk : k.Lawful) {h : Handle} (hroot : k.parent h = none) (p : Handle) :
    h ∉ k.children p := by
  rw [hk.mem_children, hroot]
  exact nofun

/-- A row is left by nobody who is not in it. -/
theorem children_erase (hk : k.Lawful) {h p : Handle} (hp : k.parent h ≠ some p) :
    (k.children p).erase h = k.children p :=
  List.erase_of_not_mem fun hm => hp (hk.mem_children.mp hm)

/-- A node without a parent has nothing to leave. -/
theorem unlink_eq_self (hk : k.Lawful) {h : Handle} (hroot : k.parent h = none) :
    k.unlink h = k := by
  refine ext_kin (fun x => ?_) fun p => hk.children_erase (by rw [hroot]; exact nofun)
  rw [parent_unlink]
  split
  · next e => rw [e, hroot]
  · rfl

/-- Who came into a row leaves it as it was. -/
theorem unlink_link (hk : k.Lawful) {p h : Handle} (hroot : k.parent h = none) :
    (k.link p h).unlink h = k := by
  refine ext_kin (fun x => ?_) fun q => ?_
  · rw [parent_unlink, parent_link]
    split
    · next e => rw [e, hroot]
    · rfl
  · have hnot := hk.not_mem_of_root hroot q
    rw [children_unlink, children_link]
    split
    · rw [List.erase_append_right _ hnot, List.erase_cons_head, List.append_nil]
    · exact List.erase_of_not_mem hnot

end Lawful

/-- Nobody is above a node in the rest of the forest who was not above it before. -/
theorem above_of_above_unlink {k : Kinship} {h p x : Handle} (hp : (k.unlink h).Above p x) :
    k.Above p x := by
  refine Relation.TransGen.mono (fun q y hq => ?_) _ _ hp
  simp only [parent_unlink] at hq
  split at hq
  · cases hq
  · exact hq

/-! ## The two ends of a row

What holds at the front of a row holds at its end as well: `mirror` turns every row around. -/

/-- The kinship with every row turned around. -/
def mirror (k : Kinship) : Kinship := { k with children := fun p => (k.children p).reverse }

@[simp] theorem links_mirror (k : Kinship) (x : Handle) :
    k.mirror.links x = (k.links x).mirror := by
  simp [links, mirror, Links.mirror]

theorem next_of_parent {k : Kinship} {x p : Handle} (h : k.parent x = some p) :
    (k.links x).next = follower? x (k.children p) := by
  simp [links, h]

theorem previous_of_parent {k : Kinship} {x p : Handle} (h : k.parent x = some p) :
    (k.links x).previous = follower? x (k.children p).reverse := by
  simp [links, h]

namespace Lawful

variable {k : Kinship}

theorem mirror (hk : k.Lawful) : k.mirror.Lawful where
  mem_children := List.mem_reverse.trans hk.mem_children
  nodup p := List.nodup_reverse.mpr (hk.nodup p)
  wf := hk.wf

theorem mirror_unlink (hk : k.Lawful) (h : Handle) : k.mirror.unlink h = (k.unlink h).mirror := by
  simp [Kinship.mirror, Kinship.unlink, reverse_erase (hk.nodup _)]

/-! ## Rewiring links -/

/-- A node is behind the one in front of it. -/
theorem next_eq_some_iff (hk : k.Lawful) {x y : Handle} :
    (k.links x).next = some y ↔ (k.links y).previous = some x := by
  simp only [links, Option.bind_eq_some_iff]
  constructor
  · rintro ⟨p, -, h⟩
    refine ⟨p, ?_, (follower?_eq_some_comm (hk.nodup p)).mp h⟩
    exact hk.mem_children.mp (mem_of_follower?_eq_some h).2
  · rintro ⟨p, -, h⟩
    refine ⟨p, ?_, (follower?_eq_some_comm (hk.nodup p)).mpr h⟩
    exact hk.mem_children.mp (List.mem_reverse.mp (mem_of_follower?_eq_some h).2)

/-- The first of a row is who has nobody in front. -/
theorem first_eq_some_iff (hk : k.Lawful) {p x : Handle} :
    (k.links p).first = some x ↔ (k.links x).parent = some p ∧ (k.links x).previous = none := by
  have hfirst : ∀ q, k.parent x = some q →
      ((k.links x).previous = none ↔ (k.children q).head? = some x) := by
    intro q hq
    have hx : x ∈ (k.children q).reverse := List.mem_reverse.mpr (hk.mem_children.mpr hq)
    have hlast := follower?_eq_none_iff (List.nodup_reverse.mpr (hk.nodup q)) hx
    rw [List.getLast?_reverse] at hlast
    simpa [links, hq] using hlast
  constructor
  · intro h
    have hp : k.parent x = some p := hk.mem_children.mp (List.mem_of_head? h)
    exact ⟨hp, (hfirst p hp).mpr h⟩
  · rintro ⟨hp, h⟩
    exact (hfirst p hp).mp h

theorem next_unlink (hk : k.Lawful) {h x : Handle} (hx : x ≠ h) :
    ((k.unlink h).links x).next =
      if (k.links x).next = some h then (k.links h).next else (k.links x).next := by
  cases hp : k.parent x with
  | none => simp [links, hx, hp]
  | some p =>
    have hp' : (k.unlink h).parent x = some p := by rw [parent_unlink, if_neg hx, hp]
    rw [next_of_parent hp', next_of_parent hp, children_unlink, follower?_erase (hk.nodup p) hx]
    split
    · next e => rw [next_of_parent (hk.mem_children.mp (mem_of_follower?_eq_some e).2)]
    · rfl

theorem first_unlink (hk : k.Lawful) (h x : Handle) :
    ((k.unlink h).links x).first =
      if (k.links x).first = some h then (k.links h).next else (k.links x).first := by
  refine head?_erase.trans ?_
  exact ite_congr rfl (fun e => (next_of_parent (hk.first_eq_some_iff.mp e).1).symm) fun _ => rfl

theorem previous_unlink (hk : k.Lawful) {h x : Handle} (hx : x ≠ h) :
    ((k.unlink h).links x).previous =
      if (k.links x).previous = some h then (k.links h).previous else (k.links x).previous := by
  have := hk.mirror.next_unlink hx
  rwa [hk.mirror_unlink, links_mirror, links_mirror, links_mirror] at this

theorem last_eq_some_iff (hk : k.Lawful) {p x : Handle} :
    (k.links p).last = some x ↔ (k.links x).parent = some p ∧ (k.links x).next = none := by
  have := hk.mirror.first_eq_some_iff (p := p) (x := x)
  rwa [links_mirror, links_mirror] at this

theorem last_unlink (hk : k.Lawful) (h x : Handle) :
    ((k.unlink h).links x).last =
      if (k.links x).last = some h then (k.links h).previous else (k.links x).last := by
  have := hk.mirror.first_unlink h x
  rwa [hk.mirror_unlink, links_mirror, links_mirror, links_mirror] at this

/-- Joining the two neighbours of `h`, and moving the ends of its row where it stood at one, is
what it takes for `h` to leave. -/
theorem links_unlink (hk : k.Lawful) (h x : Handle) :
    (k.unlink h).links x = (k.links x).without h (k.links h) x := by
  ext1
  · rfl
  · by_cases hx : x = h
    · simp [links, Links.without, hx]
    · refine (hk.previous_unlink hx).trans ?_
      simp only [Links.without, if_neg hx]
      exact if_congr hk.next_eq_some_iff.symm rfl rfl
  · by_cases hx : x = h
    · simp [links, Links.without, hx]
    · refine (hk.next_unlink hx).trans ?_
      simp only [Links.without, if_neg hx]
      exact if_congr hk.next_eq_some_iff rfl rfl
  · exact (hk.first_unlink h x).trans (if_congr hk.first_eq_some_iff rfl rfl)
  · exact (hk.last_unlink h x).trans (if_congr hk.last_eq_some_iff rfl rfl)

/-- Coming behind the last of a row, and becoming the first where there was none, is what it takes
for `h` to enter. -/
theorem links_link (hk : k.Lawful) {p h : Handle} (hroot : k.parent h = none) (x : Handle) :
    (k.link p h).links x = (k.links x).within p h (k.links p).last x := by
  have hh : h ∉ k.children p := by rw [hk.mem_children, hroot]; simp
  have hlast : (k.links p).last = some x → k.parent x = some p := fun e =>
    (hk.last_eq_some_iff.mp e).1
  ext1
  · rfl
  · by_cases hx : x = h
    · subst hx
      simp [links, Links.within, follower?]
    · cases hq : k.parent x with
      | none => simp [links, Links.within, hx, hq]
      | some q =>
        by_cases e : q = p
        · simp [links, Links.within, hx, hq, e, follower?, Ne.symm hx]
        · simp [links, Links.within, hx, hq, e]
  · by_cases hx : x = h
    · subst hx
      have hnot : follower? x (k.children p ++ [x]) = none := by
        rw [follower?_append_cons hh, List.head?_nil]
      simp [links, Links.within, hnot]
    · by_cases hp : k.parent x = some p
      · have hp' : (k.link p h).parent x = some p := by rw [parent_link, if_neg hx, hp]
        rw [next_of_parent hp', children_link, if_pos rfl, follower?_concat (hk.nodup p) hx]
        simp only [Links.within, if_neg hx, next_of_parent hp]
        rfl
      · simp only [Links.within, if_neg hx, if_neg fun e => hp (hlast e)]
        cases hq : k.parent x with
        | none => simp [links, hx, hq]
        | some q =>
          have e : q ≠ p := fun e => hp (e ▸ hq)
          simp [links, hx, hq, e]
  · by_cases hx : x = p
    · cases hc : k.children p <;> simp [links, Links.within, hx, hc]
    · simp [links, Links.within, hx]
  · by_cases hx : x = p <;> simp [links, Links.within, hx]

end Lawful

end Kinship

end Markup

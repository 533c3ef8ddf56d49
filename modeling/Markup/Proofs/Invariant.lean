import Markup.Proofs.Contents

/-!
# The forest invariant

A forest is well formed as a kinship when its links show that kinship, its queue is sound, and
only nodes that take children have some. Every change of a well-formed forest gives one, with the
kinship changed accordingly.

An element that takes the place of another one can be void where the other one was not. What is left
then is a forest that is well formed for some kinds of node: those of the other kinds may have
children that they would not take.

* `Forest.FormedFor`: the invariant for some kinds, `Forest.WellFormed`: for all of them.
* `Forest.FormedFor.of_change`: every change keeps it.
* `Reachable.wellFormed`: every reachable forest is well formed.
-/

namespace Markup

namespace Content

/-- Whether a node takes no children and is of one of the kinds. -/
def Barren (kinds : Kind → Prop) (c : Content) : Prop :=
  c.acceptsChildren = false ∧ kinds c.kind

variable {kinds : Kind → Prop} {c c' : Content}

theorem Barren.of_sort_eq (hc : c'.Barren kinds) (h : c'.sort = c.sort) : c.Barren kinds := by
  have hkind : c'.kind = c.kind := congrArg Prod.fst h
  exact ⟨(acceptsChildren_of_sort_eq h).symm.trans hc.1, hkind ▸ hc.2⟩

theorem not_barren (h : c.acceptsChildren = true) : ¬ c.Barren kinds := fun hc =>
  Bool.false_ne_true (hc.1.symm.trans h)

end Content

namespace Forest

/-- The links show a kinship, the queue is sound, and nodes of some kinds are childless if they take
no children. -/
structure FormedFor (kinds : Kind → Prop) (f : Forest) (k : Kinship) : Prop where
  shows : f.Shows k
  queue : f.QueueSound
  barren : ∀ {h c}, f.cell? h = some c → c.content.Barren kinds → k.children h = []

/-- The links show a kinship, the queue is sound, and who takes no children has none. -/
abbrev WellFormed (f : Forest) (k : Kinship) : Prop := f.FormedFor (fun _ => True) k

theorem formedFor_empty (kinds : Kind → Prop) : empty.FormedFor kinds .empty where
  shows := shows_empty
  queue := queueSound_empty
  barren _ _ := rfl

theorem WellFormed.childless {f : Forest} {k : Kinship} (hw : f.WellFormed k) {h : Handle}
    {c : Cell} (hc : f.cell? h = some c) (ha : c.content.acceptsChildren = false) :
    k.children h = [] := hw.barren hc ⟨ha, trivial⟩

/-- No tree stands below a node that takes no children. -/
theorem WellFormed.eq_nil_of_grows {f : Forest} {k : Kinship} (hw : f.WellFormed k) {h : Handle}
    {c : Cell} {below : Grove} (hc : f.cell? h = some c) (ha : c.content.acceptsChildren = false)
    (hg : f.Grows k (k.children h) below) : below = .nil := by
  rw [hw.childless hc ha] at hg
  cases hg
  rfl

namespace FormedFor

variable {kinds : Kind → Prop} {f f' : Forest} {k : Kinship}

/-- A change of contents keeps the shape if it makes no node childless. -/
theorem updateContent (hw : f.FormedFor kinds k) (h : Handle) {change : Cell → Cell}
    (hlinks : ∀ c, (change c).links = c.links)
    (hbarren : ∀ c, f.cell? h = some c → (change c).content.Barren kinds →
      c.content.Barren kinds) : (f.update h change).FormedFor kinds k where
  shows := hw.shows.update h hlinks
  queue := hw.queue.update h change
  barren {x c'} hc hb := by
    obtain ⟨c, hx, rfl | ⟨rfl, rfl⟩⟩ := exists_cell?_of_update hc
    · exact hw.barren hx hb
    · exact hw.barren hx (hbarren c hx hb)

/-- So it does if nodes stay what they are. -/
theorem update (hw : f.FormedFor kinds k) (h : Handle) {change : Cell → Cell}
    (hlinks : ∀ c, (change c).links = c.links)
    (hsort : ∀ c, f.cell? h = some c → (change c).content.sort = c.content.sort) :
    (f.update h change).FormedFor kinds k :=
  hw.updateContent h hlinks fun c hc hb => hb.of_sort_eq (hsort c hc)

theorem rememberTag (hw : f.FormedFor kinds k) (h : Handle) :
    (f.rememberTag h).FormedFor kinds k :=
  hw.update h (fun _ => rfl) fun c _ => c.content.sort_rememberTag

theorem rememberAll (hw : f.FormedFor kinds k) (hs : List Handle) :
    (hs.foldl Forest.rememberTag f).FormedFor kinds k := by
  induction hs generalizing f with
  | nil => exact hw
  | cons h rest ih => exact ih (hw.rememberTag h)

theorem place (hw : f.FormedFor kinds k) {c : Cell} (hc : c.links = {}) :
    (f.place c).2.FormedFor kinds k where
  shows := hw.shows.place hw.queue hc
  queue := hw.queue.place c
  barren {x d} hd hb := by
    rw [cell?_place hw.queue] at hd
    split at hd
    · next e => exact hw.shows.children_eq_nil (e ▸ not_lives_place hw.queue c)
    · exact hw.barren hd hb

theorem unlink (hw : f.FormedFor kinds k) {h : Handle} (hh : f.Lives h) :
    (f.unlink h).FormedFor kinds (k.unlink h) where
  shows := hw.shows.unlink hh
  queue := by
    obtain ⟨c, hc⟩ := hh
    simp only [Forest.unlink, hc]
    exact (((hw.queue.relink _ _).relink _ _).relink _ _).relink _ _
  barren {x c'} hc hb := by
    obtain ⟨c, hx, e, -⟩ := exists_cell?_of_unlink hc
    rw [Kinship.children_unlink, hw.barren hx (e ▸ hb), List.erase_nil]

theorem unlinkAll (hw : f.FormedFor kinds k) {hs : List Handle} (hl : ∀ x ∈ hs, f.Lives x) :
    (hs.foldl Forest.unlink f).FormedFor kinds (hs.foldl Kinship.unlink k) := by
  induction hs generalizing f k with
  | nil => exact hw
  | cons h rest ih =>
    have hh := hl h List.mem_cons_self
    exact ih (hw.unlink hh) fun x hx => (lives_unlink hh x).mpr (hl x (List.mem_cons_of_mem h hx))

theorem link (hw : f.FormedFor kinds k) {p h : Handle} {c : Cell} (hp : f.cell? p = some c)
    (haccepts : c.content.acceptsChildren = true) (hh : f.Lives h) (hroot : k.parent h = none)
    (hne : h ≠ p) (habove : ¬ k.Above h p) : (f.link p h).FormedFor kinds (k.link p h) where
  shows := hw.shows.link ⟨c, hp⟩ hh hroot hne habove
  queue := by
    simp only [Forest.link]
    exact ((hw.queue.relink _ _).relink _ _).relink _ _
  barren {x d'} hd hb := by
    obtain ⟨d, hx, e, -⟩ := exists_cell?_of_link hd
    have hxp : x ≠ p := by
      rintro rfl
      rw [hp] at hx
      cases hx
      exact Content.not_barren haccepts (e ▸ hb)
    rw [Kinship.children_link, if_neg hxp]
    exact hw.barren hx (e ▸ hb)

/-- A new node comes behind the children of another one. -/
theorem grow (hw : f.FormedFor kinds k) (seed : Seed) {p : Handle} {c : Cell}
    (hp : f.cell? p = some c) (haccepts : c.content.acceptsChildren = true) :
    ((f.create seed).2.link p (f.create seed).1).FormedFor kinds (k.link p (f.create seed).1) := by
  have hnew : ¬ f.Lives (f.create seed).1 := not_lives_place hw.queue _
  have hne : (f.create seed).1 ≠ p := fun e => hnew (e ▸ ⟨c, hp⟩)
  have hp' : (f.create seed).2.cell? p = some c :=
    (cell?_place hw.queue _ p).trans ((if_neg (Ne.symm hne)).trans hp)
  refine (hw.place rfl).link hp' haccepts ?_ (hw.shows.parent_eq_none hnew) hne fun habove => ?_
  · exact (lives_place hw.queue _ _).mpr (.inl rfl)
  · exact hnew (hw.shows.lives_of_above habove).1

/-- A node moves behind the children of another one, which is not below it. -/
theorem move (hw : f.FormedFor kinds k) {p child : Handle} {c : Cell} (hchild : f.Lives child)
    (hp : f.cell? p = some c) (haccepts : c.content.acceptsChildren = true)
    (hcycle : child ∉ p :: f.ancestors p) :
    ((f.unlink child).link p child).FormedFor kinds ((k.unlink child).link p child) := by
  obtain ⟨hne, hancestors⟩ := not_or.mp (mt List.mem_cons.mpr hcycle)
  rw [hw.shows.mem_ancestors ⟨c, hp⟩] at hancestors
  obtain ⟨c', hp'⟩ := (lives_unlink hchild p).mpr ⟨c, hp⟩
  obtain ⟨d, hd, e, -⟩ := exists_cell?_of_unlink hp'
  rw [hp] at hd
  cases hd
  refine (hw.unlink hchild).link hp' (e ▸ haccepts) ((lives_unlink hchild child).mpr hchild) ?_ hne
    fun habove => hancestors (Kinship.above_of_above_unlink habove)
  rw [Kinship.parent_unlink, if_pos rfl]

/-- Who may move where, and what comes of it. -/
theorem append_iff (hw : f.FormedFor kinds k) {p c : Handle} :
    f.append p c = .ok f' ↔
      f.Lives c ∧ f.TakesChildren p ∧ (c ≠ p ∧ ¬ k.Above c p) ∧ f' = (f.unlink c).link p c := by
  rw [append_eq_ok_iff]
  refine and_congr_right fun _ => and_congr_right fun ⟨d, hd, _⟩ => and_congr_left fun _ => ?_
  rw [List.mem_cons, not_or, hw.shows.mem_ancestors ⟨d, hd⟩]

theorem of_append (hw : f.FormedFor kinds k) {p c : Handle} (happend : f.append p c = .ok f') :
    f'.FormedFor kinds ((k.unlink c).link p c) := by
  obtain ⟨hc, ⟨d, hd, ha⟩, hcycle, rfl⟩ := append_eq_ok_iff.mp happend
  exact hw.move hc hd ha hcycle

/-- Somebody without a parent goes, with everybody below. -/
theorem removeTree (hw : f.FormedFor kinds k) {h : Handle} (hh : f.Lives h)
    (hroot : k.parent h = none) :
    ((f.postorder h).foldl Forest.release f).FormedFor kinds (k.drop (f.postorder h)) := by
  have hmem : ∀ x, x ∈ f.postorder h ↔ x = h ∨ k.Above h x := fun _ => hw.shows.mem_postorder hh
  have hn : (f.postorder h).Nodup := hw.shows.nodup_postorder hh
  have hl : ∀ x ∈ f.postorder h, f.Lives x := fun _ hx => hw.shows.lives_of_mem_postorder hh hx
  have hgone : ∀ x p, k.parent x = some p → (x ∈ f.postorder h ↔ p ∈ f.postorder h) := by
    intro x p hp
    have hne : x ≠ h := by
      rintro rfl
      rw [hroot] at hp
      cases hp
    rw [hmem, hmem, or_iff_right hne, Kinship.Above, Relation.TransGen.tail'_iff]
    constructor
    · rintro ⟨q, hq, hq'⟩
      rw [hp] at hq'
      cases hq'
      exact (Relation.reflTransGen_iff_eq_or_transGen.mp hq).imp id id
    · intro h'
      exact ⟨p, Relation.reflTransGen_iff_eq_or_transGen.mpr h', hp⟩
  refine ⟨hw.shows.releaseAll hn hl hgone, hw.queue.releaseAll hn hl, fun {x c} hc hb => ?_⟩
  rw [Kinship.children_drop, hw.barren (cell?_of_releaseAll hc) hb, ite_self]

/-- Every change keeps a forest well formed. -/
theorem of_change (hw : f.FormedFor kinds k) (h : f.Change f') : ∃ k', f'.FormedFor kinds k' := by
  cases h with
  | stay => exact ⟨k, hw⟩
  | create seed => exact ⟨k, hw.place rfl⟩
  | grow seed hp haccepts => exact ⟨_, hw.grow seed hp haccepts⟩
  | @copy h c hc => exact ⟨k, (hw.rememberTag h).place rfl⟩
  | move hchild hp haccepts hcycle => exact ⟨_, hw.move hchild hp haccepts hcycle⟩
  | detach hh => exact ⟨_, hw.unlink hh⟩
  | @scatter h hh =>
    refine ⟨_, hw.unlinkAll fun x hx => ?_⟩
    rw [hw.shows.children_eq hh] at hx
    exact hw.shows.lives_of_mem_children hx
  | @remove h hh =>
    refine ⟨_, (hw.unlink hh).removeTree ((lives_unlink hh h).mpr hh) ?_⟩
    rw [Kinship.parent_unlink, if_pos rfl]
  | setHidden h hidden => exact ⟨k, hw.update h (fun _ => rfl) fun _ _ => rfl⟩
  | @editAttributes h c content edit hc hedit =>
    refine ⟨k, hw.update h (fun _ => rfl) fun d hd => ?_⟩
    rw [hc] at hd
    cases hd
    exact (Content.Edited.attributes edit hedit).sort_eq
  | @editText h c content edit hc hedit =>
    refine ⟨k, hw.update h (fun _ => rfl) fun d hd => ?_⟩
    rw [hc] at hd
    cases hd
    exact (Content.Edited.text edit hedit).sort_eq
  | remember hs => exact ⟨k, hw.rememberAll hs⟩

end FormedFor

end Forest

/-- Every reachable forest is well formed. -/
theorem Reachable.wellFormed {f : Forest} (hf : Reachable f) : ∃ k, f.WellFormed k :=
  hf.of_change (P := fun f => ∃ k, f.WellFormed k) ⟨_, Forest.formedFor_empty _⟩
    fun _ _ ⟨_, hw⟩ hchange => hw.of_change hchange

end Markup

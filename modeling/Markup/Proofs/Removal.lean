import Markup.Proofs.Accounts
import Markup.Proofs.Isolation
import Markup.Proofs.TreeOrder

/-!
# What a removal does

A removal takes a node out of its row, walks through the tree that it has then, and empties the
slots of that tree, the slots of children before that of their parent. The nodes were counted
before, by a walk from the node where it stood. The two walks pass the same nodes, because leaving a
row changes nothing at or below the node.

An empty slot has no links. The walk could empty the slots on its way all the same: once it has left
a node it never comes back to it.

* `Forest.releaseFrom`, `Forest.Shows.releaseFrom_eq`: the walk that empties slots on its way.
* `Forest.WellFormed.postorder_unlink`: the order of a tree does not depend on where it stands.
* `Forest.WellFormed.cell?_removed`: what every handle shows afterwards.
* `Forest.slot_of_issued`: new nodes take the slots that wait, in the order of the queue, whatever
  else happens in between.
* `Forest.TreeRemoved`, `Reachable.remove_exact`: what a removal does.
-/

namespace Markup

/-- Behind the stop edge of a node come edges of other nodes only. -/
theorem Grove.pairwise_edges {g : Grove} (hn : g.handles.Nodup) :
    g.edges.Pairwise fun x y => x.stopped? ≠ some y.node := by
  induction g with
  | nil => exact .nil
  | tree h content hidden below rest ihb ihr =>
    rw [handles, List.cons_append, List.nodup_cons, List.nodup_append, List.mem_append,
      not_or] at hn
    obtain ⟨⟨hb, hr⟩, hnb, hnr, hapart⟩ := hn
    have hstopped {g : Grove} {x : Edge} {y : Handle} (hx : x ∈ g.edges)
        (hy : x.stopped? = some y) : y ∈ g.handles := by
      rw [← Edge.node_of_stopped? hy]
      exact node_mem_handles hx
    rw [edges, List.cons_append, List.pairwise_cons, List.pairwise_append, List.pairwise_cons]
    refine ⟨fun y _ => (Option.some_ne_none _).symm, ihb hnb, ⟨fun y hy e => ?_, ihr hnr⟩,
      fun x hx y hy e => ?_⟩
    · exact hr (Option.some.inj e ▸ node_mem_handles hy)
    · rcases List.mem_cons.mp hy with rfl | hy
      · exact hb (hstopped hx e)
      · exact hapart _ (hstopped hx e) _ (node_mem_handles hy) rfl

/-- Only the node, its parent and the siblings beside it have other links when it leaves. -/
theorem Links.without_of_apart {l own : Links} {h x : Handle} (hne : x ≠ h)
    (hparent : own.parent ≠ some x) (hprevious : own.previous ≠ some x)
    (hnext : own.next ≠ some x) : l.without h own x = l := by
  simp [Links.without, hne, hparent, hprevious, hnext]

namespace Forest

variable {f : Forest} {k : Kinship} {n x p h : Handle}

/-! ## The two walks -/

/-- The order of a tree does not depend on where it stands. -/
theorem WellFormed.postorder_unlink (hw : f.WellFormed k) (hn : f.Lives n) :
    (f.unlink n).postorder n = f.postorder n :=
  (hw.sameTree_unlink hn hn fun _ => rfl).postorder_eq hw.shows (hw.unlink hn).shows hn

/-! ## Emptying slots during the walk -/

/-- A walk that empties slots does so at stop edges. -/
def leave (f : Forest) : Edge → Forest
  | .start _ => f
  | .stop h => f.release h

/-- The walk that empties slots, from edge `e` on and with at most `count` edges. The edge behind is
read first. -/
def releaseFrom (root : Handle) : Nat → Forest → Edge → Forest
  | 0, f, _ => f
  | count + 1, f, e =>
    match f.nextEdge? root e with
    | some e' => releaseFrom root count (f.leave e) e'
    | none => f.leave e

/-- The links of a node say where the walk goes from there. -/
theorem nextEdge?_congr {f' : Forest} {root : Handle} {e : Edge}
    (hlinks : f'.links e.node = f.links e.node) : f'.nextEdge? root e = f.nextEdge? root e := by
  cases e with
  | start h =>
    replace hlinks : f'.links h = f.links h := hlinks
    rw [nextEdge?, nextEdge?, firstChild?, firstChild?, hlinks]
  | stop h =>
    replace hlinks : f'.links h = f.links h := hlinks
    rw [nextEdge?, nextEdge?, nextSibling?, nextSibling?, parent?, parent?, hlinks]

theorem cell?_leave {e : Edge} (hh : f.Lives e.node) (hx : e.stopped? ≠ some x) :
    (f.leave e).cell? x = f.cell? x := by
  cases e with
  | start h => rfl
  | stop h => exact (cell?_release hh x).trans (if_neg fun e => hx (congrArg some e.symm))

theorem foldl_release_cons (f : Forest) (e : Edge) (es : List Edge) :
    ((e :: es).filterMap Edge.stopped?).foldl release f =
      (es.filterMap Edge.stopped?).foldl release (f.leave e) := by
  cases e <;> rfl

/-- No node is met again behind its stop edge, so the walk that empties slots goes where the walk
goes that does not. -/
theorem Trail.releaseFrom_eq {f f' : Forest} {root : Handle} {e : Edge} {es : List Edge}
    (ht : f.Trail root e es) (hlives : ∀ x ∈ es, f.Lives x.node)
    (hsame : ∀ x ∈ es, f'.cell? x.node = f.cell? x.node)
    (hleft : es.Pairwise fun x y => x.stopped? ≠ some y.node) {count : Nat}
    (hcount : es.length ≤ count) :
    releaseFrom root count f' e = (es.filterMap Edge.stopped?).foldl release f' := by
  have hnextEdge {f' : Forest} {x : Edge} (hx : f.Lives x.node)
      (hcell : f'.cell? x.node = f.cell? x.node) : f'.nextEdge? root x = f.nextEdge? root x := by
    obtain ⟨c, hc⟩ := hx
    exact nextEdge?_congr ((links_of_cell? (hcell.trans hc)).trans (links_of_cell? hc).symm)
  induction ht generalizing f' count with
  | @last e hend =>
    obtain ⟨count, rfl⟩ := Nat.exists_eq_add_of_le' hcount
    rw [List.length_singleton, releaseFrom,
      hnextEdge (hlives e List.mem_cons_self) (hsame e List.mem_cons_self), hend]
    exact (foldl_release_cons f' e []).symm
  | @next e e' es hnext hrest ih =>
    obtain ⟨count, rfl⟩ := Nat.exists_eq_add_of_le' (Nat.lt_of_lt_of_le (Nat.succ_pos _) hcount)
    obtain ⟨hhere, hbehind⟩ := List.pairwise_cons.mp hleft
    have hlive := hlives e List.mem_cons_self
    have hcell := hsame e List.mem_cons_self
    have hlive' : f'.Lives e.node := by
      obtain ⟨c, hc⟩ := hlive
      exact ⟨c, hcell.trans hc⟩
    rw [releaseFrom, hnextEdge hlive hcell, hnext, foldl_release_cons]
    refine ih (fun x hx => hlives x (List.mem_cons_of_mem _ hx)) (fun x hx => ?_) hbehind
      (by simpa using hcount)
    rw [cell?_leave hlive' (hhere x hx), hsame x (List.mem_cons_of_mem _ hx)]

/-- It makes no difference whether the slots of a tree are emptied during the walk or after it. -/
theorem Shows.releaseFrom_eq (hs : f.Shows k) (hn : f.Lives n) :
    releaseFrom n (2 * f.size + 2) f (.start n) = (f.postorder n).foldl release f := by
  obtain ⟨htrail, hlives, hlength⟩ := hs.trail_of_lives hn
  refine htrail.releaseFrom_eq hlives (fun _ _ => rfl) ?_ (by omega)
  rw [hs.walk_eq hn]
  exact Grove.pairwise_edges (hs.nodup_handles_grove hn)

/-! ## What is left -/

/-- What is left of a forest without a node and everybody below it. -/
def removed (f : Forest) (n : Handle) : Forest :=
  ((f.unlink n).postorder n).foldl release (f.unlink n)

theorem remove_eq (hn : f.Lives n) : f.remove n = .ok ((f.descendants n).length, f.removed n) :=
  remove_eq_ok_iff.mpr ⟨hn, rfl⟩

theorem free_releaseAll (f : Forest) (gone : List Handle) :
    (gone.foldl release f).free = f.free ++ gone.map (·.slot) := by
  induction gone generalizing f with
  | nil => rw [List.foldl_nil, List.map_nil, List.append_nil]
  | cons h gone ih => rw [List.foldl_cons, ih, release, List.append_assoc, List.map_cons]; rfl

namespace WellFormed

variable (hw : f.WellFormed k) (hn : f.Lives n)
include hw hn

/-- The freed slots wait behind the others, those of children before that of their parent. -/
theorem free_removed : (f.removed n).free = f.free ++ (f.postorder n).map (·.slot) := by
  rw [removed, free_releaseAll, hw.postorder_unlink hn, (SameSlots.unlink f n).free_eq]

/-- The tree is gone, and everybody else is there, with the links as they are without the node. -/
theorem cell?_removed (x : Handle) :
    (f.removed n).cell? x =
      if x ∈ f.descendants n then none
      else (f.cell? x).map fun c => { c with links := c.links.without n (f.links n) x } := by
  obtain ⟨c, hc⟩ := id hn
  have hperm := hw.shows.postorder_perm hn
  have hnodup := hw.shows.nodup_postorder hn
  have hlives : ∀ y ∈ f.postorder n, (f.unlink n).Lives y := fun y hy =>
    (lives_unlink hn y).mpr (hw.shows.lives_of_mem_postorder hn hy)
  rw [removed, hw.postorder_unlink hn, cell?_releaseAll hnodup hlives, cell?_unlink hc,
    links_of_cell? hc]
  exact if_congr hperm.mem_iff rfl rfl

theorem shows_removed : (f.removed n).Shows ((k.unlink n).drop (f.postorder n)) := by
  have hroot : (k.unlink n).parent n = none := by rw [Kinship.parent_unlink, if_pos rfl]
  rw [removed, ← hw.postorder_unlink hn]
  exact ((hw.unlink hn).removeTree ((lives_unlink hn n).mpr hn) hroot).shows

theorem lives_removed_iff : (f.removed n).Lives x ↔ f.Lives x ∧ x ∉ f.descendants n := by
  rw [lives_iff_isSome, lives_iff_isSome, hw.cell?_removed hn]
  split
  · next hx => simp [hx]
  · next hx => simp [hx]

/-- Every row that is left is what it was, without the node. -/
theorem children_removed (hx : f.Lives x) (hout : x ∉ f.descendants n) :
    (f.removed n).children x = (f.children x).erase n := by
  have hx' := (hw.lives_removed_iff hn).mpr ⟨hx, hout⟩
  have hkept : x ∉ f.postorder n := fun hm => hout ((hw.shows.postorder_perm hn).mem_iff.mp hm)
  rw [(hw.shows_removed hn).children_eq hx', Kinship.children_drop, if_neg hkept,
    Kinship.children_unlink, hw.shows.children_eq hx]

/-- The parent of the node stays. -/
theorem parent_not_mem_descendants (hp : f.parent? n = some p) : p ∉ f.descendants n := by
  rw [hw.shows.parent?_eq hn] at hp
  rw [hw.shows.mem_descendants hn]
  rintro (rfl | hbelow)
  · exact hw.shows.lawful.not_above_self p (.single hp)
  · exact hw.shows.lawful.not_above_self p (.head hp hbelow)

/-- The node leaves the row of its parent, and nobody else does. -/
theorem row_removed (hp : f.parent? n = some p) :
    ∃ before behind, f.children p = before ++ n :: behind ∧
      (f.removed n).children p = before ++ behind := by
  have hparent : k.parent n = some p := (hw.shows.parent?_eq hn).symm.trans hp
  have hlives : f.Lives p := (hw.shows.lives hparent).1
  have hmem : n ∈ f.children p := by
    rw [hw.shows.children_eq hlives]
    exact hw.shows.lawful.mem_children.mpr hparent
  obtain ⟨before, behind, hrow⟩ := List.append_of_mem hmem
  have hnodup : (before ++ n :: behind).Nodup := by
    rw [← hrow, hw.shows.children_eq hlives]
    exact hw.shows.lawful.nodup p
  have hnot : n ∉ before := fun hb =>
    List.disjoint_of_nodup_append hnodup hb List.mem_cons_self
  refine ⟨before, behind, hrow, ?_⟩
  rw [hw.children_removed hn hlives (hw.parent_not_mem_descendants hn hp), hrow,
    List.erase_append_right _ hnot, List.erase_cons_head]

/-- Who is not beside the node, and not its parent, has the links it had. -/
theorem cell?_removed_of_apart (hx : x ∉ f.descendants n) (hparent : f.parent? n ≠ some x)
    (hprevious : f.previousSibling? n ≠ some x) (hnext : f.nextSibling? n ≠ some x) :
    (f.removed n).cell? x = f.cell? x := by
  have hne : x ≠ n := fun e => hx ((hw.shows.mem_descendants hn).mpr (.inl e))
  rw [hw.cell?_removed hn, if_neg hx]
  simp only [Links.without_of_apart hne hparent hprevious hnext]
  exact Option.map_id'

end WellFormed

/-! ## The slots of new nodes -/

/-- New nodes take the slots that wait, in the order of the queue, whatever else happens in
between. -/
theorem slot_of_issued {commands : List Command} {i slot : Nat}
    (hh : (f.issued commands)[i]? = some h) (hslot : f.free[i]? = some slot) : h.slot = slot := by
  induction commands generalizing f i with
  | nil => cases hh
  | cons c cs ih =>
    rw [issued] at hh
    cases hmade : (f.exec c).made? with
    | none =>
      -- the queue can only have become longer
      obtain ⟨more, hfree⟩ := (queueGrows_of_not_made hmade).queue_kept
      rw [hmade] at hh
      refine ih hh ?_
      rw [← hfree, List.getElem?_append_left (List.getElem?_eq_some_iff.mp hslot).1, hslot]
    | some made =>
      obtain ⟨hfirst, -, hfree⟩ := exec_made hmade
      rw [hmade] at hh
      cases i with
      | zero =>
        cases hh
        rw [hfirst, List.headD_eq_head?_getD, List.head?_eq_getElem?, hslot]
        rfl
      | succ i => exact ih hh (by rw [hfree, List.getElem?_tail, hslot])

/-- What the removal of `n` does. Those that were there and are gone are the node and everybody
below it; the row of its parent closes up behind it, and all other rows are the same. The slots of
the tree wait behind those that waited before, children before parents, and new nodes take them in
that order. -/
structure TreeRemoved (f f' : Forest) (n : Handle) : Prop where
  gone_iff : ∀ h, f.isRemoved h = false ∧ f'.isRemoved h = true ↔ h ∈ f.descendants n
  nobody_comes : ∀ {h}, f.isRemoved h = true → f'.isRemoved h = true
  row : ∀ {p}, f.parent? n = some p → ∃ before behind, f.children p = before ++ n :: behind ∧
    f'.children p = before ++ behind
  other_rows : ∀ {x}, f.Lives x → x ∉ f.descendants n → f.parent? n ≠ some x →
    f'.children x = f.children x
  /-- Everybody else is what it was, hidden if it was, under the same stamp. The links are those of
  a row without the node. -/
  stays : ∀ {x c}, f.cell? x = some c → x ∉ f.descendants n →
    f'.cell? x = some { c with links := c.links.without n (f.links n) x } ∧
      f'.stampAt x.slot = f.stampAt x.slot
  untouched : ∀ {x}, x ∉ f.descendants n → f.parent? n ≠ some x → f.previousSibling? n ≠ some x →
    f.nextSibling? n ≠ some x → f'.cell? x = f.cell? x
  /-- The slots may as well be emptied during the walk through the tree, each when the walk leaves
  the node. -/
  during_walk : f' = releaseFrom n (2 * f.size + 2) (f.unlink n) (.start n)
  free_eq : f'.free = f.free ++ (f.postorder n).map (·.slot)
  freed : (f.postorder n).Perm (f.descendants n)
  postorder_eq : ∀ {x}, f.Lives x → f.postorder x = (f.children x).flatMap f.postorder ++ [x]
  reused : ∀ {commands} {i slot : Nat} {h : Handle}, (f'.issued commands)[i]? = some h →
    f'.free[i]? = some slot → h.slot = slot

end Forest

/-- **A removal frees the tree of the node, and nothing else.** The nodes of the tree are gone, the
row of the parent closes, and their slots wait in post-order behind those that waited before. The
report counts as many nodes as slots are freed. -/
theorem Reachable.remove_exact {f : Forest} (hf : Reachable f) {n : Handle} (hn : f.Lives n) :
    ∃ count f', f.remove n = .ok (count, f') ∧
      f.exec (.remove n) = ⟨f', .ok .done, #[], [.removed count]⟩ ∧
      count = (f.descendants n).length ∧ f'.free.length = f.free.length + count ∧
      f.TreeRemoved f' n := by
  obtain ⟨k, hw⟩ := hf.wellFormed
  have hs := hw.shows
  have hremove := Forest.remove_eq hn
  refine ⟨_, _, hremove, by rw [Forest.exec, hremove], rfl, ?_, ?_⟩
  · rw [hw.free_removed hn, List.length_append, List.length_map, (hs.postorder_perm hn).length_eq]
  constructor
  case gone_iff =>
    intro h
    rw [Forest.isRemoved_eq_false_iff, Forest.isRemoved_eq_true_iff, hw.lives_removed_iff hn]
    constructor
    · rintro ⟨hh, hgone⟩
      by_contra hout
      exact hgone ⟨hh, hout⟩
    · exact fun hm => ⟨hs.lives_of_mem_descendants hn hm, fun hkept => hkept.2 hm⟩
  case nobody_comes =>
    intro h hh
    rw [Forest.isRemoved_eq_true_iff] at hh ⊢
    exact fun hl => hh ((hw.lives_removed_iff hn).mp hl).1
  case row => exact hw.row_removed hn
  case other_rows =>
    intro x hx hout hparent
    rw [hw.children_removed hn hx hout, hs.children_eq hx]
    rw [hs.parent?_eq hn] at hparent
    exact hs.lawful.children_erase hparent
  case stays =>
    intro x c hc hout
    have hcell := hw.cell?_removed hn x
    rw [if_neg hout, hc] at hcell
    exact ⟨hcell, (Forest.stampAt_of_lives ⟨_, hcell⟩).trans (Forest.stampAt_of_lives ⟨c, hc⟩).symm⟩
  case untouched => exact hw.cell?_removed_of_apart hn
  case during_walk =>
    have hn' : (f.unlink n).Lives n := (Forest.lives_unlink hn n).mpr hn
    rw [← (Forest.SameSlots.unlink f n).size_eq, (hw.unlink hn).shows.releaseFrom_eq hn']
    rfl
  case free_eq => exact hw.free_removed hn
  case freed => exact hs.postorder_perm hn
  case postorder_eq => exact hs.postorder_concat
  case reused => exact Forest.slot_of_issued

/-- The second of three items goes, with two leaves in it, while the slot of a fourth one waits. The
next five nodes take that slot, those of the leaves, that of the item, and a new one. -/
theorem remove_exact_of_item :
    let f := Forest.empty.run [.create (.element .ul), .appendNew ⟨0, 0⟩ (.element .li),
      .appendNew ⟨0, 0⟩ (.element .li), .appendNew ⟨0, 0⟩ (.element .li),
      .appendNew ⟨2, 0⟩ (.element .img), .appendNew ⟨2, 0⟩ (.text "a"),
      .appendNew ⟨0, 0⟩ (.element .li), .remove ⟨1, 0⟩]
    let f' := f.run [.remove ⟨2, 0⟩]
    f.descendants ⟨2, 0⟩ = [⟨2, 0⟩, ⟨4, 0⟩, ⟨5, 0⟩] ∧ f.remove ⟨2, 0⟩ = .ok (3, f') ∧
      f'.children ⟨0, 0⟩ = [⟨3, 0⟩, ⟨6, 0⟩] ∧ f'.free = [1, 4, 5, 2] ∧
      f'.issued (List.replicate 5 (.create .fragment)) =
        [⟨1, 1⟩, ⟨4, 1⟩, ⟨5, 1⟩, ⟨2, 1⟩, ⟨7, 0⟩] ∧
      f.TreeRemoved f' ⟨2, 0⟩ := by
  intro f f'
  have hn : f.Lives ⟨2, 0⟩ := ⟨_, rfl⟩
  have htree : f.descendants ⟨2, 0⟩ = [⟨2, 0⟩, ⟨4, 0⟩, ⟨5, 0⟩] := by decide
  obtain ⟨count, g, hremove, hexec, hcount, -, hremoved⟩ := (Reachable.empty.run _).remove_exact hn
  obtain rfl : f' = g := congrArg Outcome.forest hexec
  obtain rfl : count = 3 := hcount.trans (congrArg List.length htree)
  exact ⟨htree, hremove, by decide, by decide, by decide, hremoved⟩

end Markup

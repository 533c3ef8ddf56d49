import Markup.Proofs.Grove

/-!
# Walks and groves

The walk from a node goes from link to link and stops by comparing handles. It passes the edges of
the tree of that node, in the order of `Grove.edges`: from the start edge of a row of siblings it
comes to the stop edge of their parent, and the root is met there once, at the end.

* `Forest.Shows.walk_eq`: the walk from a node passes the edges of its tree.
* `Forest.Shows.descendants_eq`, `Forest.Shows.postorder_eq`: what is read off the walk.
* `Forest.Shows.traverse_eq`: without hidden nodes and what is below them, it passes the visible
  edges of the tree.
-/

namespace Markup

namespace Forest

variable {f : Forest} {k : Kinship}

/-- Where the walk goes from a node with the given children: to the first of them, or else to the
stop edge of the node. -/
def rowStart (p : Handle) : List Handle → Edge
  | [] => .stop p
  | x :: _ => .start x

theorem walkFrom_succ (f : Forest) (root : Handle) (n : Nat) {e e' : Edge}
    (h : f.nextEdge? root e = some e') :
    f.walkFrom root (n + 1) e = e :: f.walkFrom root n e' := by
  rw [walkFrom, h]

/-- Behind a start edge the walk goes to the children. -/
theorem Shows.nextEdge?_start (hs : f.Shows k) (root : Handle) {h : Handle} (hh : f.Lives h) :
    f.nextEdge? root (.start h) = some (rowStart h (k.children h)) := by
  rw [nextEdge?, hs.firstChild?_eq hh]
  cases k.children h <;> rfl

/-- Behind a stop edge the walk goes on in the row of the node. -/
theorem Shows.nextEdge?_stop (hs : f.Shows k) {root p x : Handle} {before behind : List Handle}
    (hp : k.children p = before ++ x :: behind) (hx : x ≠ root) :
    f.nextEdge? root (.stop x) = some (rowStart p behind) := by
  have hmem : x ∈ k.children p := by rw [hp]; simp
  have hnot : x ∉ before := fun h =>
    List.disjoint_of_nodup_append (hp ▸ hs.lawful.nodup p) h List.mem_cons_self
  have hparent : f.parent? x = some p := by
    rw [hs.parent?_eq (hs.lives_of_mem_children hmem), hs.lawful.mem_children.mp hmem]
  rw [nextEdge?, if_neg hx, hs.nextSibling?_eq hmem, hp, follower?_append_cons hnot, hparent]
  cases behind <;> rfl

/-- From the start of a part of a row, up to the end of the row, the walk passes the edges of the
trees there, and then comes to the stop edge of the parent. -/
theorem Shows.walkFrom_rowStart (hs : f.Shows k) {root p : Handle} {before row : List Handle}
    {g : Grove} (hg : f.Grows k row g) (hp : k.children p = before ++ row)
    (hroot : root ∉ g.handles) (n : Nat) :
    f.walkFrom root (g.edges.length + n) (rowStart p row) =
      g.edges ++ f.walkFrom root n (.stop p) := by
  induction hg generalizing p before n with
  | nil => simp [Grove.edges, rowStart]
  | @tree h c row below rest hc hbelow hrest ihb ihr =>
    simp only [Grove.handles, List.cons_append, List.mem_cons, List.mem_append, not_or] at hroot
    obtain ⟨hne, hb, hr⟩ := hroot
    have hdown := ihb (List.nil_append _).symm hb (1 + rest.edges.length + n)
    have hp' : k.children p = (before ++ [h]) ++ row := by rw [hp, List.append_cons]
    have hnext := ihr hp' hr n
    have hlen : (Grove.tree h c.content c.hidden below rest).edges.length + n =
        below.edges.length + (1 + rest.edges.length + n) + 1 := by
      simp only [Grove.edges, List.cons_append, List.length_cons, List.length_append]
      omega
    have hstop : 1 + rest.edges.length + n = rest.edges.length + n + 1 := by omega
    rw [hlen, rowStart, walkFrom_succ f root _ (hs.nextEdge?_start root ⟨c, hc⟩), hdown, hstop,
      walkFrom_succ f root _ (hs.nextEdge?_stop hp (Ne.symm hne)), hnext]
    simp [Grove.edges]

/-- The walk from a node passes the edges of its tree. -/
theorem Shows.walk_eq (hs : f.Shows k) {h : Handle} (hh : f.Lives h) :
    f.walk h = (f.grove h).edges := by
  obtain ⟨c, hc⟩ := id hh
  have hgrove := hs.grove_eq hc
  have hnodup := hs.nodup_handles_grove hh
  have hsize := length_le_size hnodup (hs.grows_grove hh).lives
  rw [hgrove] at hnodup hsize ⊢
  simp only [Grove.handles, List.append_nil] at hnodup hsize
  have hroot : h ∉ (f.grovesBelow h).handles := (List.nodup_cons.mp hnodup).1
  have hlen := (f.grovesBelow h).length_edges
  obtain ⟨n, hn⟩ : ∃ n, 2 * f.size + 2 = (f.grovesBelow h).edges.length + (n + 1) + 1 :=
    ⟨2 * f.size - (f.grovesBelow h).edges.length, by
      simp only [List.length_cons] at hsize
      omega⟩
  have hend : f.walkFrom h (n + 1) (.stop h) = [.stop h] := by simp [walkFrom, nextEdge?]
  rw [walk, hn, walkFrom_succ f h _ (hs.nextEdge?_start h hh),
    hs.walkFrom_rowStart (hs.grows_grovesBelow hh) (List.nil_append _).symm hroot, hend]
  simp [Grove.edges]

theorem Shows.descendants_eq (hs : f.Shows k) {h : Handle} (hh : f.Lives h) :
    f.descendants h = (f.grove h).handles := by
  rw [descendants, hs.walk_eq hh, Grove.filterMap_started?_edges]

theorem Shows.postorder_eq (hs : f.Shows k) {h : Handle} (hh : f.Lives h) :
    f.postorder h = (f.grove h).handlesUp := by
  rw [postorder, hs.walk_eq hh, Grove.filterMap_stopped?_edges]

/-! ## Who is listed -/

/-- Everybody below a node is listed with it. -/
theorem Shows.mem_descendants (hs : f.Shows k) {h : Handle} (hh : f.Lives h) {x : Handle} :
    x ∈ f.descendants h ↔ x = h ∨ k.Above h x := by
  rw [hs.descendants_eq hh, hs.mem_handles_grove hh]

/-- Nobody is listed twice. -/
theorem Shows.nodup_descendants (hs : f.Shows k) {h : Handle} (hh : f.Lives h) :
    (f.descendants h).Nodup := by
  rw [hs.descendants_eq hh]
  exact hs.nodup_handles_grove hh

theorem Shows.lives_of_mem_descendants (hs : f.Shows k) {h : Handle} (hh : f.Lives h) {x : Handle}
    (hx : x ∈ f.descendants h) : f.Lives x := by
  rw [hs.descendants_eq hh] at hx
  exact (hs.grows_grove hh).lives x hx

/-- Children first or parents first, the same nodes are listed. -/
theorem Shows.postorder_perm (hs : f.Shows k) {h : Handle} (hh : f.Lives h) :
    (f.postorder h).Perm (f.descendants h) := by
  rw [hs.postorder_eq hh, hs.descendants_eq hh]
  exact (f.grove h).handlesUp_perm

theorem Shows.mem_postorder (hs : f.Shows k) {h : Handle} (hh : f.Lives h) {x : Handle} :
    x ∈ f.postorder h ↔ x = h ∨ k.Above h x :=
  (hs.postorder_perm hh).mem_iff.trans (hs.mem_descendants hh)

theorem Shows.nodup_postorder (hs : f.Shows k) {h : Handle} (hh : f.Lives h) :
    (f.postorder h).Nodup :=
  (hs.postorder_perm hh).nodup_iff.mpr (hs.nodup_descendants hh)

theorem Shows.lives_of_mem_postorder (hs : f.Shows k) {h : Handle} (hh : f.Lives h) {x : Handle}
    (hx : x ∈ f.postorder h) : f.Lives x :=
  hs.lives_of_mem_descendants hh ((hs.postorder_perm hh).mem_iff.mp hx)

/-! ## What is visible -/

/-- Inside a hidden node every edge is left out, up to its stop edge. -/
theorem visibleEdges_hidden (f : Forest) {h : Handle} {inside : List Edge}
    (hinside : Edge.stop h ∉ inside) (behind : List Edge) :
    f.visibleEdges (some h) (inside ++ .stop h :: behind) = f.visibleEdges none behind := by
  induction inside with
  | nil => rw [List.nil_append, visibleEdges, if_pos rfl]
  | cons e inside ih =>
    obtain ⟨hne, hrest⟩ := not_or.mp (mt List.mem_cons.mpr hinside)
    cases e with
    | start x => exact ih hrest
    | stop x =>
      have hx : x ≠ h := fun e => hne (e ▸ rfl)
      rw [List.cons_append, visibleEdges, if_neg hx]
      exact ih hrest

/-- The edges of a grove are passed as far as they are visible. -/
theorem Grows.visibleEdges_eq (hk : k.Lawful) {row : List Handle} {g : Grove}
    (hg : f.Grows k row g) (behind : List Edge) :
    f.visibleEdges none (g.edges ++ behind) =
      (f.visibleEdges none behind).map (g.visibleEdges ++ ·) := by
  induction hg generalizing behind with
  | nil =>
    rw [Grove.edges, List.nil_append]
    cases f.visibleEdges none behind <;> rfl
  | @tree h c row below rest hc hbelow hrest ihb ihr =>
    have hheld : f.held h = .ok c := by rw [held, (occupant?_eq_of_cell? hc).1]
    have hedges : (Grove.tree h c.content c.hidden below rest).edges ++ behind =
        .start h :: (below.edges ++ .stop h :: (rest.edges ++ behind)) := by
      simp [Grove.edges]
    rw [hedges, visibleEdges, hheld]
    cases hhidden : c.hidden with
    | true =>
      have hinside : Edge.stop h ∉ below.edges := by
        intro hm
        have hstop : h ∈ below.edges.filterMap Edge.stopped? :=
          List.mem_filterMap.mpr ⟨_, hm, rfl⟩
        rw [Grove.filterMap_stopped?_edges, below.handlesUp_perm.mem_iff] at hstop
        exact hk.not_above_self h (hbelow.above_of_mem hk hstop)
      simp [bind, Except.bind, visibleEdges_hidden f hinside, ihr, Grove.visibleEdges, hhidden]
    | false =>
      have hdown : f.visibleEdges none (below.edges ++ .stop h :: (rest.edges ++ behind)) =
          (f.visibleEdges none behind).map fun edges =>
            below.visibleEdges ++ .stop h :: (rest.visibleEdges ++ edges) := by
        rw [ihb, visibleEdges, ihr]
        cases f.visibleEdges none behind <;> rfl
      simp only [bind, Except.bind, hhidden, Bool.false_eq_true, if_false, hdown,
        Grove.visibleEdges]
      cases f.visibleEdges none behind <;> simp [Except.map, pure, Except.pure]

/-- The visible walk from a node passes the visible edges of its tree. -/
theorem Shows.traverse_eq (hs : f.Shows k) {h : Handle} (hh : f.Lives h) :
    f.traverse h = .ok (f.grove h).visibleEdges := by
  have hvisible := (hs.grows_grove hh).visibleEdges_eq hs.lawful []
  rw [List.append_nil, ← hs.walk_eq hh] at hvisible
  rw [traverse, isRemoved_eq_false_iff.mpr hh, if_neg Bool.false_ne_true, hvisible]
  simp [visibleEdges, Except.map]

end Forest

end Markup

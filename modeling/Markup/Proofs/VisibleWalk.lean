import Markup.Proofs.Fronts
import Markup.Proofs.TreeOrder

/-!
# The walk through what is visible

The walk through what is visible is a filter on the edges of a whole walk: behind the start edge of
a hidden node it leaves everything out, up to the stop edge of that node. What it lets pass is what
a recursion on the children gives that has nothing for a hidden node, whatever is below it. So the
edges that pass are nested, and they are the two edges of every node that is visible.

* `Edge.Nested`: every stop edge belongs to the start edge that it closes.
* `Forest.visibleFrom_iff`: visibility by going down.
* `Forest.Grows.mem_visibleEdges_iff`: whose edges pass.
* `Forest.VisibleWalks`: the recursion; `Forest.VisibleWalks.eq_visibleEdges`: it has one solution.
* `Reachable.traverses_visible`: the filter gives it.
-/

namespace Markup

namespace Edge

/-- Every stop edge closes the last start edge that is still open, which is that of its node, and
none is left open. -/
inductive Nested : List Edge → Prop where
  | nil : Nested []
  | node (h : Handle) {inside behind : List Edge} (hinside : Nested inside)
      (hbehind : Nested behind) : Nested (.start h :: inside ++ .stop h :: behind)

theorem Nested.append {a b : List Edge} (ha : Nested a) (hb : Nested b) : Nested (a ++ b) := by
  induction ha with
  | nil => exact hb
  | node h hinside _ _ ih =>
    rw [List.append_assoc, List.cons_append]
    exact .node h hinside ih

theorem node_eq_iff {e : Edge} {h : Handle} : e.node = h ↔ e = .start h ∨ e = .stop h := by
  cases e <;> simp [node]

/-- Edges are all different if the start edges are, and the stop edges. -/
theorem nodup_of_filterMap {edges : List Edge} (hstarts : (edges.filterMap started?).Nodup)
    (hstops : (edges.filterMap stopped?).Nodup) : edges.Nodup := by
  induction edges with
  | nil => exact List.nodup_nil
  | cons e edges ih =>
    cases e with
    | start h =>
      obtain ⟨hnew, hstarts⟩ := List.nodup_cons.mp hstarts
      exact List.nodup_cons.mpr
        ⟨fun hm => hnew (List.mem_filterMap.mpr ⟨_, hm, rfl⟩), ih hstarts hstops⟩
    | stop h =>
      obtain ⟨hnew, hstops⟩ := List.nodup_cons.mp hstops
      exact List.nodup_cons.mpr
        ⟨fun hm => hnew (List.mem_filterMap.mpr ⟨_, hm, rfl⟩), ih hstarts hstops⟩

end Edge

theorem Grove.nested_visibleEdges (g : Grove) : Edge.Nested g.visibleEdges := by
  induction g with
  | nil => exact .nil
  | tree h content hidden below rest ihb ihr =>
    refine .append ?_ ihr
    cases hidden with
    | true => exact .nil
    | false => exact .node h ihb .nil

namespace Forest

variable {f : Forest} {k : Kinship} {n x : Handle}

/-! ## Whose edges pass -/

/-- From a node that is not hidden one sees the node itself, and what one sees from its children. -/
theorem visibleFrom_iff (hs : f.Shows k) :
    f.VisibleFrom n x ↔
      f.isHidden n = false ∧ (x = n ∨ ∃ y ∈ k.children n, f.VisibleFrom y x) := by
  simp only [VisibleFrom, hs.above_eq]
  constructor
  · rintro ⟨hbelow, hvisible⟩
    refine ⟨hvisible n (.inl rfl) (hbelow.imp_left Eq.symm), hbelow.imp_right fun habove => ?_⟩
    obtain ⟨y, hy, hyx⟩ := Relation.TransGen.head'_iff.mp habove
    refine ⟨y, hs.lawful.mem_children.mpr hy, ?_, fun z hz => hvisible z (.inr ?_)⟩
    · exact Relation.reflTransGen_iff_eq_or_transGen.mp hyx
    · rcases hz with rfl | hz
      · exact .single hy
      · exact .head hy hz
  · rintro ⟨hvisible, rfl | ⟨y, hy, hyx, hbelow⟩⟩
    · simpa only [VisibleFrom, hs.above_eq] using VisibleFrom.root hs hvisible
    · have hparent := hs.lawful.mem_children.mp hy
      have hnx : k.Above n x := by
        rcases hyx with rfl | hyx
        · exact .single hparent
        · exact .head hparent hyx
      refine ⟨.inr hnx, fun z hz hzx => ?_⟩
      rcases hz with rfl | hz
      · exact hvisible
      · exact hbelow z (hs.lawful.below_child hparent hz hyx hzx) hzx

/-- Trees show their edges at the nodes that are visible from their roots. -/
theorem Grows.mem_visibleEdges_iff (hs : f.Shows k) {row : List Handle} {g : Grove}
    (hg : f.Grows k row g) {e : Edge} :
    e ∈ g.visibleEdges ↔ ∃ r ∈ row, f.VisibleFrom r e.node := by
  induction hg with
  | nil => simp [Grove.visibleEdges]
  | @tree h c row below rest hc hbelow hrest ihb ihr =>
    rw [Grove.visibleEdges, List.mem_append, ihr, List.exists_mem_cons_iff, visibleFrom_iff hs,
      isHidden_of_cell? hc, Edge.node_eq_iff, ← ihb]
    refine or_congr_left ?_
    cases c.hidden with
    | true => simp
    | false => simp [or_assoc, or_comm]

theorem Shows.mem_visibleEdges_iff (hs : f.Shows k) (hn : f.Lives n) {e : Edge} :
    e ∈ (f.grove n).visibleEdges ↔ f.VisibleFrom n e.node := by
  rw [(hs.grows_grove hn).mem_visibleEdges_iff hs]
  simp

/-- No edge passes twice. -/
theorem Shows.nodup_visibleEdges (hs : f.Shows k) (hn : f.Lives n) :
    (f.grove n).visibleEdges.Nodup := by
  refine (Edge.nodup_of_filterMap ?_ ?_).sublist (f.grove n).visibleEdges_sublist
  · rw [Grove.filterMap_started?_edges]
    exact hs.nodup_handles_grove hn
  · rw [Grove.filterMap_stopped?_edges, ← hs.postorder_eq hn]
    exact hs.nodup_postorder hn

/-! ## The recursion -/

/-- The edges `edges x` are nothing for a hidden node, and else the two edges of the node around
those of its children, in order. -/
def VisibleWalks (f : Forest) (edges : Handle → List Edge) : Prop :=
  ∀ x, f.Lives x → edges x =
    if f.isHidden x then [] else .start x :: (f.children x).flatMap edges ++ [.stop x]

/-- The visible edges of trees are a solution. -/
theorem Shows.visibleWalks (hs : f.Shows k) :
    f.VisibleWalks fun x => (f.grove x).visibleEdges := by
  intro x hx
  obtain ⟨c, hc⟩ := id hx
  have hbelow : (f.grovesBelow x).visibleEdges =
      (k.children x).flatMap fun y => (f.grove y).visibleEdges :=
    hs.flatMap_grove rfl (by simp [Grove.visibleEdges]) (hs.grows_grovesBelow hx)
  beta_reduce
  rw [hs.grove_eq hc, Grove.visibleEdges, Grove.visibleEdges, List.append_nil, hbelow,
    hs.children_eq hx, isHidden_of_cell? hc]

/-- There is no other one. -/
theorem VisibleWalks.flatMap_eq {edges : Handle → List Edge} (hedges : f.VisibleWalks edges)
    (hs : f.Shows k) {row : List Handle} {g : Grove} (hg : f.Grows k row g) :
    row.flatMap edges = g.visibleEdges := by
  induction hg with
  | nil => rfl
  | tree hc _ _ ihb ihr =>
    rw [List.flatMap_cons, ihr, hedges _ ⟨_, hc⟩, hs.children_eq ⟨_, hc⟩, ihb,
      isHidden_of_cell? hc, Grove.visibleEdges]

theorem VisibleWalks.eq_visibleEdges {edges : Handle → List Edge} (hedges : f.VisibleWalks edges)
    (hs : f.Shows k) (hn : f.Lives n) : edges n = (f.grove n).visibleEdges := by
  rw [← hedges.flatMap_eq hs (hs.grows_grove hn), List.flatMap_singleton]

end Forest

/-- **The walk through what is visible is the recursion that has nothing for a hidden node.** The
recursion has a solution, and only one. Its edges are nested, and they are the two edges, once each,
of the nodes that are visible from the root. -/
theorem Reachable.traverses_visible {f : Forest} (hf : Reachable f) :
    (∃ edges, f.VisibleWalks edges) ∧ ∀ edges, f.VisibleWalks edges → ∀ n, f.Lives n →
      f.Trail n (.start n) (f.walk n) ∧ f.traverse n = .ok (edges n) ∧ Edge.Nested (edges n) ∧
        (∀ x, f.VisibleFrom n x →
          (edges n).count (.start x) = 1 ∧ (edges n).count (.stop x) = 1) ∧
        ∀ e ∈ edges n, f.VisibleFrom n e.node := by
  obtain ⟨k, hw⟩ := hf.wellFormed
  have hs := hw.shows
  refine ⟨⟨_, hs.visibleWalks⟩, fun edges hedges n hn => ?_⟩
  rw [hedges.eq_visibleEdges hs hn]
  have hnodup := hs.nodup_visibleEdges hn
  have hmem (e : Edge) := hs.mem_visibleEdges_iff hn (e := e)
  refine ⟨hs.trail_walk n, hs.traverse_eq hn, Grove.nested_visibleEdges _, fun x hx => ?_,
    fun e he => (hmem e).mp he⟩
  exact ⟨List.count_eq_one_of_mem hnodup ((hmem (.start x)).mpr hx),
    List.count_eq_one_of_mem hnodup ((hmem (.stop x)).mpr hx)⟩

/-- The second of three items is hidden, and so is an image below it, in front of another image. -/
theorem traverses_visible_of_hidden :
    let f := Forest.empty.run [.create (.element .ul), .appendNew ⟨0, 0⟩ (.element .li),
      .appendNew ⟨0, 0⟩ (.element .li), .appendNew ⟨0, 0⟩ (.element .li),
      .appendNew ⟨2, 0⟩ (.element .img), .appendNew ⟨2, 0⟩ (.element .img),
      .setHidden ⟨2, 0⟩ true, .setHidden ⟨4, 0⟩ true]
    f.traverse ⟨0, 0⟩ = .ok [.start ⟨0, 0⟩, .start ⟨1, 0⟩, .stop ⟨1, 0⟩, .start ⟨3, 0⟩,
        .stop ⟨3, 0⟩, .stop ⟨0, 0⟩] ∧
      f.traverse ⟨2, 0⟩ = .ok [] ∧
      ∃ edges, f.VisibleWalks edges ∧ f.traverse ⟨0, 0⟩ = .ok (edges ⟨0, 0⟩) ∧
        Edge.Nested (edges ⟨0, 0⟩) ∧ f.traverse ⟨2, 0⟩ = .ok (edges ⟨2, 0⟩) := by
  intro f
  obtain ⟨⟨edges, hedges⟩, htraverse⟩ :=
    (Reachable.empty.run _ : Reachable f).traverses_visible
  obtain ⟨-, hlist, hnested, -⟩ := htraverse edges hedges ⟨0, 0⟩ ⟨_, rfl⟩
  obtain ⟨-, hitem, -⟩ := htraverse edges hedges ⟨2, 0⟩ ⟨_, rfl⟩
  exact ⟨by decide, by decide, edges, hedges, hlist, hnested, hitem⟩

end Markup

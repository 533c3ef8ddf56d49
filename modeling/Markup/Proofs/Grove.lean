import Markup.Proofs.Shape

/-!
# Groves

A grove is a row of trees, as data: the first tree with what is below it, and the trees beside it.
`Forest.grove` reads the tree of a node out of a forest, by going down level by level. What is
said about a whole subtree (the order in which it is walked, what it renders as) is said by
recursion on the grove.

* `Forest.Shows.grove_eq`: the tree of a node is the node with the trees of its children below, so
  the reading is not cut off.
* `Forest.Grows.nodup_handles`, `Forest.Shows.mem_handles_grove`: a tree has the node and everybody
  below it, each once.
-/

namespace Markup

/-- Trees side by side. -/
inductive Grove where
  | nil
  /-- The tree of a node, with the trees below the node, and the trees beside it. -/
  | tree (h : Handle) (content : Content) (hidden : Bool) (below rest : Grove)
deriving DecidableEq

namespace Grove

/-- The nodes, parents before children. -/
def handles : Grove → List Handle
  | nil => []
  | tree h _ _ below rest => h :: below.handles ++ rest.handles

/-- The nodes, children before parents. -/
def handlesUp : Grove → List Handle
  | nil => []
  | tree h _ _ below rest => below.handlesUp ++ h :: rest.handlesUp

/-- The two edges of every node, one before and one after those of the nodes below. -/
def edges : Grove → List Edge
  | nil => []
  | tree h _ _ below rest => .start h :: below.edges ++ .stop h :: rest.edges

/-- The edges of the nodes that are neither hidden nor below a hidden one. -/
def visibleEdges : Grove → List Edge
  | nil => []
  | tree h _ hidden below rest =>
    (if hidden then [] else .start h :: below.visibleEdges ++ [.stop h]) ++ rest.visibleEdges

theorem filterMap_started?_edges (g : Grove) : g.edges.filterMap Edge.started? = g.handles := by
  induction g with
  | nil => rfl
  | tree h content hidden below rest ihb ihr =>
    simp [edges, handles, List.filterMap_cons, Edge.started?, ihb, ihr]

theorem filterMap_stopped?_edges (g : Grove) : g.edges.filterMap Edge.stopped? = g.handlesUp := by
  induction g with
  | nil => rfl
  | tree h content hidden below rest ihb ihr =>
    simp [edges, handlesUp, List.filterMap_cons, Edge.stopped?, ihb, ihr]

theorem length_edges (g : Grove) : g.edges.length = 2 * g.handles.length := by
  induction g with
  | nil => rfl
  | tree h content hidden below rest ihb ihr =>
    simp only [edges, handles, List.length_append, List.length_cons, ihb, ihr]
    omega

theorem handlesUp_perm (g : Grove) : g.handlesUp.Perm g.handles := by
  induction g with
  | nil => exact .refl _
  | tree h content hidden below rest ihb ihr =>
    exact List.perm_middle.trans ((ihb.append ihr).cons h)

end Grove

namespace Forest

/-- The trees of the nodes in a row, down to `n` levels. -/
def groveAt (f : Forest) : Nat → List Handle → Grove
  | 0, _ => .nil
  | n + 1, row =>
    row.foldr
      (fun h rest =>
        match f.cell? h with
        | some c => .tree h c.content c.hidden (f.groveAt n (f.children h)) rest
        | none => rest)
      .nil

/-- The tree of a node. There are no more levels than slots. -/
def grove (f : Forest) (h : Handle) : Grove := f.groveAt f.size [h]

/-- The grove has exactly the trees of the nodes in the row. -/
inductive Grows (f : Forest) (k : Kinship) : List Handle → Grove → Prop where
  | nil : Grows f k [] .nil
  | tree {h : Handle} {c : Cell} {row : List Handle} {below rest : Grove} (hc : f.cell? h = some c)
      (hbelow : Grows f k (k.children h) below) (hrest : Grows f k row rest) :
      Grows f k (h :: row) (.tree h c.content c.hidden below rest)

variable {f : Forest} {k : Kinship}

/-- A row has one grove. -/
theorem Grows.unique {row : List Handle} {g g' : Grove} (hg : f.Grows k row g)
    (hg' : f.Grows k row g') : g = g' := by
  induction hg generalizing g' with
  | nil => cases hg'; rfl
  | tree hc _ _ ihb ihr =>
    cases hg' with
    | tree hc' hb hr =>
      rw [hc] at hc'
      cases hc'
      rw [ihb hb, ihr hr]

/-- The nodes in `above` are all above every node of the row. -/
structure Overhead (f : Forest) (k : Kinship) (above row : List Handle) : Prop where
  nodup : above.Nodup
  lives : ∀ y ∈ above, f.Lives y
  row_lives : ∀ x ∈ row, f.Lives x
  is_above : ∀ x ∈ row, ∀ y ∈ above, k.Above y x

namespace Overhead

variable {above row : List Handle} {x : Handle}

theorem nodup_cons (ho : f.Overhead k above row) (hs : f.Shows k) (hx : x ∈ row) :
    (x :: above).Nodup := by
  refine List.nodup_cons.mpr ⟨fun hm => ?_, ho.nodup⟩
  exact hs.lawful.not_above_self x (ho.is_above x hx x hm)

theorem lives_cons (ho : f.Overhead k above row) (hx : x ∈ row) :
    ∀ y ∈ x :: above, f.Lives y := by
  intro y hy
  rcases List.mem_cons.mp hy with rfl | hy
  · exact ho.row_lives y hx
  · exact ho.lives y hy

/-- There is a slot for every node above, and one more. -/
theorem length_lt (ho : f.Overhead k above row) (hs : f.Shows k) (hx : x ∈ row) :
    above.length < f.size :=
  length_le_size (ho.nodup_cons hs hx) (ho.lives_cons hx)

/-- One level down, the parent is above as well. -/
theorem down (ho : f.Overhead k above row) (hs : f.Shows k) (hx : x ∈ row) :
    f.Overhead k (x :: above) (k.children x) where
  nodup := ho.nodup_cons hs hx
  lives := ho.lives_cons hx
  row_lives _ hy := hs.lives_of_mem_children hy
  is_above y hy z hz := by
    have hp := hs.lawful.mem_children.mp hy
    rcases List.mem_cons.mp hz with rfl | hz
    · exact .single hp
    · exact .tail (ho.is_above x hx z hz) hp

theorem rest {xs : List Handle} (ho : f.Overhead k above (x :: xs)) : f.Overhead k above xs where
  nodup := ho.nodup
  lives := ho.lives
  row_lives y hy := ho.row_lives y (List.mem_cons_of_mem x hy)
  is_above y hy := ho.is_above y (List.mem_cons_of_mem x hy)

end Overhead

/-- Enough levels are read if the nodes above the row take the other slots. -/
theorem Shows.grows_groveAt (hs : f.Shows k) {n : Nat} {row above : List Handle}
    (ho : f.Overhead k above row) (hsize : f.size ≤ n + above.length) :
    f.Grows k row (f.groveAt n row) := by
  induction n generalizing row above with
  | zero =>
    cases row with
    | nil => exact .nil
    | cons x xs =>
      have hlt := ho.length_lt hs List.mem_cons_self
      omega
  | succ n ih =>
    induction row with
    | nil => exact .nil
    | cons x xs ihrow =>
      have hlx := ho.row_lives x List.mem_cons_self
      have hbelow : f.Grows k (k.children x) (f.groveAt n (k.children x)) :=
        ih (ho.down hs List.mem_cons_self) (by rw [List.length_cons]; omega)
      obtain ⟨c, hc⟩ := id hlx
      have heq : f.groveAt (n + 1) (x :: xs) =
          .tree x c.content c.hidden (f.groveAt n (k.children x)) (f.groveAt (n + 1) xs) := by
        simp [groveAt, hc, hs.children_eq hlx]
      rw [heq]
      exact .tree hc hbelow (ihrow ho.rest)

theorem Shows.grows_of_lives (hs : f.Shows k) {row : List Handle} (hrow : ∀ x ∈ row, f.Lives x) :
    f.Grows k row (f.groveAt f.size row) := by
  have ho : f.Overhead k [] row :=
    ⟨List.nodup_nil, fun _ h => absurd h List.not_mem_nil, hrow,
      fun _ _ _ h => absurd h List.not_mem_nil⟩
  exact hs.grows_groveAt ho (Nat.le_add_right _ _)

theorem Shows.grows_grove (hs : f.Shows k) {h : Handle} (hh : f.Lives h) :
    f.Grows k [h] (f.grove h) :=
  hs.grows_of_lives fun _ hx => List.mem_singleton.mp hx ▸ hh

/-- The trees of the children of a node. -/
def grovesBelow (f : Forest) (h : Handle) : Grove := f.groveAt f.size (f.children h)

theorem Shows.grows_grovesBelow (hs : f.Shows k) {h : Handle} (hh : f.Lives h) :
    f.Grows k (k.children h) (f.grovesBelow h) := by
  rw [grovesBelow, hs.children_eq hh]
  exact hs.grows_of_lives fun _ hx => hs.lives_of_mem_children hx

/-- The tree of a node is the node with the trees of its children below. -/
theorem Shows.grove_eq (hs : f.Shows k) {h : Handle} {c : Cell} (hc : f.cell? h = some c) :
    f.grove h = .tree h c.content c.hidden (f.grovesBelow h) .nil :=
  (hs.grows_grove ⟨c, hc⟩).unique (.tree hc (hs.grows_grovesBelow ⟨c, hc⟩) .nil)

/-! ## Who is in a grove -/

theorem Grows.lives {row : List Handle} {g : Grove} (hg : f.Grows k row g) :
    ∀ x ∈ g.handles, f.Lives x := by
  induction hg with
  | nil => exact fun _ h => absurd h List.not_mem_nil
  | tree hc _ _ ihb ihr =>
    intro x hx
    rcases List.mem_append.mp hx with hx | hx
    · rcases List.mem_cons.mp hx with rfl | hx
      · exact ⟨_, hc⟩
      · exact ihb x hx
    · exact ihr x hx

/-- A grove has the nodes of its row and everybody below them. -/
theorem Grows.mem_handles (hk : k.Lawful) {row : List Handle} {g : Grove} (hg : f.Grows k row g)
    {x : Handle} : x ∈ g.handles ↔ ∃ r ∈ row, x = r ∨ k.Above r x := by
  induction hg with
  | nil => simp [Grove.handles]
  | @tree h c row below rest hc _ _ ihb ihr =>
    have hbelow : x ∈ below.handles ↔ k.Above h x := by
      rw [ihb, Kinship.Above, Relation.TransGen.head'_iff]
      refine exists_congr fun r => and_congr hk.mem_children ?_
      exact Relation.reflTransGen_iff_eq_or_transGen.symm
    rw [Grove.handles, List.mem_append, List.mem_cons, ihr, hbelow, List.exists_mem_cons_iff]

/-- The nodes of the trees below a node are below it. -/
theorem Grows.above_of_mem (hk : k.Lawful) {h x : Handle} {below : Grove}
    (hg : f.Grows k (k.children h) below) (hx : x ∈ below.handles) : k.Above h x := by
  obtain ⟨r, hr, hx⟩ := (hg.mem_handles hk).mp hx
  have hp := hk.mem_children.mp hr
  rcases hx with rfl | hx
  · exact .single hp
  · exact .head hp hx

/-- Nobody is twice in a grove if nobody in its row is above another. -/
theorem Grows.nodup_handles (hk : k.Lawful) {row : List Handle} {g : Grove}
    (hg : f.Grows k row g) (hn : row.Nodup) (hrow : ∀ r ∈ row, ∀ s ∈ row, ¬ k.Above r s) :
    g.handles.Nodup := by
  induction hg with
  | nil => exact List.nodup_nil
  | @tree h c row below rest hc hbelow hrest ihb ihr =>
    obtain ⟨hh, hn⟩ := List.nodup_cons.mp hn
    have hb := ihb (hk.nodup h) fun r hr s hs => hk.not_above_of_mem_children hr hs
    have hr := ihr hn fun r hr s hs =>
      hrow r (List.mem_cons_of_mem h hr) s (List.mem_cons_of_mem h hs)
    have habove : ∀ x ∈ below.handles, k.Above h x := fun x hx => hbelow.above_of_mem hk hx
    rw [Grove.handles, List.cons_append, List.nodup_cons, List.nodup_append]
    refine ⟨fun hm => ?_, hb, hr, ?_⟩
    · rcases List.mem_append.mp hm with hm | hm
      · exact hk.not_above_self h (habove h hm)
      · obtain ⟨r, hr, e | ha⟩ := (hrest.mem_handles hk).mp hm
        · exact hh (e ▸ hr)
        · exact hrow r (List.mem_cons_of_mem h hr) h List.mem_cons_self ha
    · rintro x hx y hy rfl
      have hhx := habove x hx
      obtain ⟨r, hr, e | ha⟩ := (hrest.mem_handles hk).mp hy
      · exact hrow h List.mem_cons_self r (List.mem_cons_of_mem h hr) (e ▸ hhx)
      · rcases hk.above_total hhx ha with e | ha | ha
        · exact hh (e ▸ hr)
        · exact hrow h List.mem_cons_self r (List.mem_cons_of_mem h hr) ha
        · exact hrow r (List.mem_cons_of_mem h hr) h List.mem_cons_self ha

theorem Shows.nodup_handles_grove (hs : f.Shows k) {h : Handle} (hh : f.Lives h) :
    (f.grove h).handles.Nodup := by
  refine (hs.grows_grove hh).nodup_handles hs.lawful (List.nodup_singleton h) fun r hr s hs' => ?_
  rw [List.mem_singleton.mp hr, List.mem_singleton.mp hs']
  exact hs.lawful.not_above_self h

/-- The tree of a node has the node and everybody below it. -/
theorem Shows.mem_handles_grove (hs : f.Shows k) {h : Handle} (hh : f.Lives h) {x : Handle} :
    x ∈ (f.grove h).handles ↔ x = h ∨ k.Above h x := by
  rw [(hs.grows_grove hh).mem_handles hs.lawful]
  simp

end Forest

end Markup

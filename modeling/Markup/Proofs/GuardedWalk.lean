import Markup.Proofs.Guarded

/-!
# Guarded walks

A walk ends when it meets the stop edge of its root. The handle of a removed node may be asked for a
walk as well; no stop edge is its own then, and when another node took the slot the walk goes on
through the tree of that node. It ends all the same: behind the stop edge of the top of a tree there
is nothing.

* `Forest.Trail`: the edges of a walk that comes to its end.
* `Forest.Shows.exists_trail`: from every handle there is one, with no more than twice as many edges
  as there are slots.
* `Guarded.walk_eq`, `Guarded.traverse_eq`: no guard stops a walk, and the traversal of a node reads
  no empty slot.
-/

namespace Markup

/-- The node of an edge. -/
def Edge.node : Edge → Handle
  | .start h => h
  | .stop h => h

theorem Edge.node_of_started? {e : Edge} {h : Handle} (he : e.started? = some h) : e.node = h := by
  cases e <;> cases he
  rfl

theorem Edge.node_of_stopped? {e : Edge} {h : Handle} (he : e.stopped? = some h) : e.node = h := by
  cases e <;> cases he
  rfl

/-- The edges of trees are edges of their nodes. -/
theorem Grove.node_mem_handles {g : Grove} {e : Edge} (he : e ∈ g.edges) : e.node ∈ g.handles := by
  cases e with
  | start h =>
    rw [← g.filterMap_started?_edges]
    exact List.mem_filterMap.mpr ⟨_, he, rfl⟩
  | stop h =>
    rw [← g.handlesUp_perm.mem_iff, ← g.filterMap_stopped?_edges]
    exact List.mem_filterMap.mpr ⟨_, he, rfl⟩

/-- What is visible is passed in the same order. -/
theorem Grove.visibleEdges_sublist (g : Grove) : g.visibleEdges.Sublist g.edges := by
  induction g with
  | nil => exact .slnil
  | tree h content hidden below rest ihb ihr =>
    have hedges : (tree h content hidden below rest).edges =
        (.start h :: below.edges ++ [.stop h]) ++ rest.edges := by simp [edges]
    rw [visibleEdges, hedges]
    refine List.Sublist.append ?_ ihr
    cases hidden with
    | true => exact List.nil_sublist _
    | false => exact (ihb.cons_cons _).append_right _

namespace Forest

variable {f : Forest} {k : Kinship} {root root' h : Handle} {e : Edge} {es : List Edge}

/-- The edges of the walk from `root`, from `e` on, up to the one that ends it. -/
inductive Trail (f : Forest) (root : Handle) : Edge → List Edge → Prop where
  | last {e : Edge} (hend : f.nextEdge? root e = none) : Trail f root e [e]
  | next {e e' : Edge} {es : List Edge} (hnext : f.nextEdge? root e = some e')
      (hrest : Trail f root e' es) : Trail f root e (e :: es)

namespace Trail

theorem walkFrom_eq (ht : f.Trail root e es) {n : Nat} (hn : es.length ≤ n) :
    f.walkFrom root n e = es := by
  induction ht generalizing n with
  | last hend =>
    obtain ⟨n, rfl⟩ := Nat.exists_eq_add_of_le' hn
    rw [List.length_singleton, walkFrom, hend]
  | next hnext _ ih =>
    obtain ⟨n, rfl⟩ := Nat.exists_eq_add_of_le' (Nat.lt_of_lt_of_le (Nat.succ_pos _) hn)
    rw [walkFrom_succ f root n hnext, ih (by simpa using hn)]

/-- From every edge that it passes, the walk comes to its end. -/
theorem exists_suffix (ht : f.Trail root e es) {x : Edge} (hx : x ∈ es) :
    ∃ rest, f.Trail root x rest ∧ rest <:+ es := by
  induction ht with
  | last hend =>
    obtain rfl := List.mem_singleton.mp hx
    exact ⟨_, .last hend, List.suffix_rfl⟩
  | next hnext hrest ih =>
    rcases List.mem_cons.mp hx with rfl | hx
    · exact ⟨_, .next hnext hrest, List.suffix_rfl⟩
    · obtain ⟨rest, htrail, hsuffix⟩ := ih hx
      exact ⟨rest, htrail, hsuffix.trans (List.suffix_cons _ _)⟩

/-- A walk comes to its end in one way. -/
theorem unique {es' : List Edge} (ht : f.Trail root e es) (ht' : f.Trail root e es') :
    es = es' := by
  induction ht generalizing es' with
  | last hend =>
    cases ht' with
    | last => rfl
    | next hnext => exact absurd (hend.symm.trans hnext) nofun
  | next hnext _ ih =>
    cases ht' with
    | last hend => exact absurd (hend.symm.trans hnext) nofun
    | next hnext' hrest' =>
      obtain rfl := Option.some.inj (hnext.symm.trans hnext')
      rw [ih hrest']

/-- The root matters at the edges of the walk only. -/
theorem of_root (ht : f.Trail root e es)
    (hroot : ∀ x ∈ es, f.nextEdge? root' x = f.nextEdge? root x) : f.Trail root' e es := by
  induction ht with
  | last hend => exact .last ((hroot _ List.mem_cons_self).trans hend)
  | next hnext _ ih =>
    refine .next ((hroot _ List.mem_cons_self).trans hnext) (ih fun x hx => ?_)
    exact hroot x (List.mem_cons_of_mem _ hx)

end Trail

/-- A walk that could have more edges comes to its end. -/
theorem trail_of_length_lt {n : Nat} (hn : (f.walkFrom root n e).length < n) :
    f.Trail root e (f.walkFrom root n e) := by
  induction n generalizing e with
  | zero => exact absurd hn (Nat.not_lt_zero _)
  | succ n ih =>
    cases hnext : f.nextEdge? root e with
    | none =>
      rw [walkFrom, hnext]
      exact .last hnext
    | some e' =>
      rw [walkFrom_succ f root n hnext] at hn ⊢
      exact .next hnext (ih (by simpa using hn))

/-- The walk from a handle without a child passes its two edges. -/
theorem trail_of_no_child (hfirst : f.firstChild? h = none) :
    f.Trail h (.start h) [.start h, .stop h] := by
  have hstart : f.nextEdge? h (.start h) = some (.stop h) := by rw [nextEdge?, hfirst]
  exact .next hstart (.last (if_pos rfl))

namespace Shows

/-- The walk from a node passes nodes only, each one twice. -/
theorem trail_of_lives (hs : f.Shows k) (hh : f.Lives h) :
    f.Trail h (.start h) (f.walk h) ∧ (∀ x ∈ f.walk h, f.Lives x.node) ∧
      (f.walk h).length ≤ 2 * f.size := by
  have hlives := (hs.grows_grove hh).lives
  have hlength : (f.walk h).length ≤ 2 * f.size := by
    rw [hs.walk_eq hh, Grove.length_edges]
    exact Nat.mul_le_mul_left 2 (length_le_size (hs.nodup_handles_grove hh) hlives)
  refine ⟨trail_of_length_lt (Nat.lt_of_le_of_lt hlength (by omega)), fun x hx => ?_, hlength⟩
  rw [hs.walk_eq hh] at hx
  exact hlives _ (Grove.node_mem_handles hx)

/-- Every node is in a tree that has a top. -/
theorem exists_top (hs : f.Shows k) (hh : f.Lives h) :
    ∃ t, f.Lives t ∧ k.parent t = none ∧ (h = t ∨ k.Above t h) := by
  induction h using hs.lawful.wf.induction with
  | _ h ih =>
    cases hp : k.parent h with
    | none => exact ⟨h, hh, hp, .inl rfl⟩
    | some p =>
      obtain ⟨t, ht, htop, hpt⟩ := ih p hp (hs.lives hp).1
      refine ⟨t, ht, htop, .inr ?_⟩
      rcases hpt with rfl | hpt
      · exact .single hp
      · exact .tail hpt hp

/-- The walk from the top of a tree ends where a walk with a root that it never meets does. -/
theorem nextEdge?_of_top (hs : f.Shows k) {t : Handle} (ht : f.Lives t) (htop : k.parent t = none)
    (hroot : ¬ f.Lives root) {x : Edge} (hx : f.Lives x.node) :
    f.nextEdge? root x = f.nextEdge? t x := by
  cases x with
  | start y => rfl
  | stop y =>
    have hne : y ≠ root := fun e => hroot (e ▸ hx)
    rw [nextEdge?, nextEdge?, if_neg hne]
    by_cases e : y = t
    · rw [if_pos e, e, nextSibling?, parent?, hs.links_of_lives ht]
      simp [Kinship.links, htop]
    · rw [if_neg e]

/-- The walk from the handle of a removed node passes what remains of the walk through the tree of
the node that took the slot, if that node has a child. -/
theorem trail_of_occupant (hs : f.Shows k) (hh : ¬ f.Lives h) {c : Handle}
    (hfirst : f.firstChild? h = some c) :
    ∃ t before rest, f.Lives t ∧ k.parent t = none ∧
      f.walk t = before ++ .start (f.occupant h) :: rest ∧
        f.Trail h (.start h) (.start h :: rest) := by
  have hstart : f.nextEdge? h (.start h) = some (.start c) := by rw [nextEdge?, hfirst]
  have hoccupant : f.Lives (f.occupant h) := by
    cases ho : f.occupant? h with
    | none =>
      rw [firstChild?, links, ho] at hfirst
      cases hfirst
    | some d => exact ⟨d, cell?_occupant ho⟩
  obtain ⟨t, ht, htop, hbelow⟩ := hs.exists_top hoccupant
  obtain ⟨htrail, hlives, -⟩ := hs.trail_of_lives ht
  have hmem : Edge.start (f.occupant h) ∈ f.walk t := by
    obtain ⟨x, hx, hstarted⟩ := List.mem_filterMap.mp ((hs.mem_descendants ht).mpr hbelow)
    cases x with
    | start y =>
      cases hstarted
      exact hx
    | stop y => cases hstarted
  obtain ⟨rest, hrest, before, hbefore⟩ := htrail.exists_suffix hmem
  -- the slot has another node, and its children are that node's
  have hdown : f.nextEdge? t (.start (f.occupant h)) = some (.start c) := by
    have hfirst' : f.firstChild? (f.occupant h) = some c := hfirst
    rw [nextEdge?, hfirst']
  cases hrest with
  | last hend => exact absurd (hdown.symm.trans hend) (Option.some_ne_none _)
  | @next _ e' es hnext hrest =>
    have hc : Edge.start c = e' := Option.some.inj (hdown.symm.trans hnext)
    have hes : ∀ x ∈ es, f.Lives x.node := fun x hx => hlives x (by simp [← hbefore, hx])
    have htrail' : f.Trail h (.start c) es :=
      hc ▸ hrest.of_root fun x hx => hs.nextEdge?_of_top ht htop hh (hes x hx)
    exact ⟨t, before, es, ht, htop, hbefore.symm, .next hstart htrail'⟩

/-- From every handle there is a walk that ends, also from that of a removed node. -/
theorem exists_trail (hs : f.Shows k) (h : Handle) :
    ∃ es, f.Trail h (.start h) es ∧ (∀ x ∈ es, x.node = h ∨ f.Lives x.node) ∧
      es.length ≤ 2 * f.size + 2 := by
  by_cases hh : f.Lives h
  · obtain ⟨htrail, hlives, hlength⟩ := hs.trail_of_lives hh
    exact ⟨_, htrail, fun x hx => .inr (hlives x hx), by omega⟩
  cases hfirst : f.firstChild? h with
  | none =>
    refine ⟨[.start h, .stop h], trail_of_no_child hfirst, fun x hx => .inl ?_, by simp⟩
    rcases List.mem_pair.mp hx with rfl | rfl <;> rfl
  | some c =>
    obtain ⟨t, before, rest, ht, -, hwalk, htrail⟩ := hs.trail_of_occupant hh hfirst
    obtain ⟨-, hlives, hlength⟩ := hs.trail_of_lives ht
    rw [hwalk] at hlives hlength
    refine ⟨_, htrail, fun x hx => (List.mem_cons.mp hx).imp (congrArg Edge.node) fun hx => ?_, ?_⟩
    · exact hlives x (by simp [hx])
    · simp only [List.length_append, List.length_cons] at hlength ⊢
      omega

/-- The walk from a handle comes to its end before the bound of its length cuts it off. -/
theorem trail_walk (hs : f.Shows k) (h : Handle) : f.Trail h (.start h) (f.walk h) := by
  obtain ⟨es, htrail, -, hlength⟩ := hs.exists_trail h
  rwa [walk, htrail.walkFrom_eq hlength]

/-- A walk passes its root and nodes, and no other handle. -/
theorem known_of_mem_walk (hs : f.Shows k) (hk : f.Known h) (he : e ∈ f.walk h) :
    f.Known e.node := by
  obtain ⟨es, htrail, hnodes, hlength⟩ := hs.exists_trail h
  rw [walk, htrail.walkFrom_eq hlength] at he
  exact (hnodes e he).elim (fun e => e ▸ hk) .inl

end Shows

end Forest

namespace Guarded

variable {f : Forest} {k : Kinship} {root h : Handle} {e : Edge} {es : List Edge}

/-- The edge behind a given one, in the walk from `root`. -/
def nextEdge (f : Forest) (root : Handle) : Edge → Guarded (Option Edge)
  | .start h => do
    match (← links f h).first with
    | some c => return some (.start c)
    | none => return some (.stop h)
  | .stop h =>
    if h = root then return none
    else do
      let l ← links f h
      match l.next with
      | some s => return some (.start s)
      | none => return l.parent.map .stop

/-- The walk from `root`, from edge `e` on; there should be no more than `n` edges. -/
def walkFrom (f : Forest) (root : Handle) : Nat → Edge → Guarded (List Edge)
  | 0, _ => .error .endless
  | n + 1, e => do
    match ← nextEdge f root e with
    | some e' => return e :: (← walkFrom f root n e')
    | none => return [e]

/-- The walk from `root`. -/
def walk (f : Forest) (root : Handle) : Guarded (List Edge) :=
  walkFrom f root (2 * f.size + 2) (.start root)

/-- A node and the nodes below it, parents before children. -/
def descendants (f : Forest) (h : Handle) : Guarded (List Handle) := do
  return (← walk f h).filterMap Edge.started?

/-- A node and the nodes below it, children before parents. -/
def postorder (f : Forest) (h : Handle) : Guarded (List Handle) := do
  return (← walk f h).filterMap Edge.stopped?

/-- The edges outside hidden nodes, where `skipping` is the hidden node that the walk is in. -/
def visibleEdges (f : Forest) : Option Handle → List Edge → Guarded (List Edge)
  | _, [] => .ok []
  | some h, .stop k :: edges => visibleEdges f (if k = h then none else some h) edges
  | some h, .start _ :: edges => visibleEdges f (some h) edges
  | none, .stop h :: edges => do return .stop h :: (← visibleEdges f none edges)
  | none, .start h :: edges => do
    if (← data f h).hidden then visibleEdges f (some h) edges
    else return .start h :: (← visibleEdges f none edges)

/-- The walk through what is visible at and below a node; nothing for a removed node. -/
def traverse (f : Forest) (h : Handle) : Guarded (List Edge) := do
  if ← isRemoved f h then return [] else visibleEdges f none (← walk f h)

theorem nextEdge_eq (hi : e.node.slot < f.size) : nextEdge f root e = .ok (f.nextEdge? root e) := by
  cases e with
  | start h =>
    replace hi : h.slot < f.size := hi
    rw [nextEdge, bind_of_ok (links_eq hi), Forest.nextEdge?, Forest.firstChild?]
    cases (f.links h).first <;> rfl
  | stop h =>
    replace hi : h.slot < f.size := hi
    rw [nextEdge, Forest.nextEdge?]
    split
    · rfl
    · rw [bind_of_ok (links_eq hi), Forest.nextSibling?, Forest.parent?]
      cases (f.links h).next <;> rfl

theorem walkFrom_eq (ht : f.Trail root e es) (hi : ∀ x ∈ es, x.node.slot < f.size) {n : Nat}
    (hn : es.length ≤ n) : walkFrom f root n e = .ok es := by
  induction ht generalizing n with
  | last hend =>
    obtain ⟨n, rfl⟩ := Nat.exists_eq_add_of_le' hn
    rw [List.length_singleton, walkFrom, bind_of_ok (nextEdge_eq (hi _ List.mem_cons_self)), hend]
    rfl
  | next hnext _ ih =>
    obtain ⟨n, rfl⟩ := Nat.exists_eq_add_of_le' (Nat.lt_of_lt_of_le (Nat.succ_pos _) hn)
    have hrest := ih (fun x hx => hi x (List.mem_cons_of_mem _ hx)) (by simpa using hn)
    rw [walkFrom, bind_of_ok (nextEdge_eq (hi _ List.mem_cons_self)), hnext]
    exact bind_of_ok hrest _

/-- A walk ends, wherever it starts, and never leaves the slots. -/
theorem walk_eq (hs : f.Shows k) (hi : h.slot < f.size) : walk f h = .ok (f.walk h) := by
  obtain ⟨es, htrail, hnodes, hlength⟩ := hs.exists_trail h
  have hslots : ∀ x ∈ es, x.node.slot < f.size := fun x hx =>
    (hnodes x hx).elim (fun e => e ▸ hi) Forest.slot_lt_size
  rw [walk, walkFrom_eq htrail hslots hlength, Forest.walk, htrail.walkFrom_eq hlength]

theorem descendants_eq (hs : f.Shows k) (hi : h.slot < f.size) :
    descendants f h = .ok (f.descendants h) :=
  bind_of_ok (walk_eq hs hi) _

theorem postorder_eq (hs : f.Shows k) (hi : h.slot < f.size) :
    postorder f h = .ok (f.postorder h) :=
  bind_of_ok (walk_eq hs hi) _

/-- Where the reading of slots gives nodes, the guard before it lets it pass. -/
theorem visibleEdges_eq {skipping : Option Handle} {edges visible : List Edge}
    (hv : f.visibleEdges skipping edges = .ok visible) :
    visibleEdges f skipping edges = .ok visible := by
  induction edges generalizing skipping visible with
  | nil =>
    cases hv
    cases skipping <;> rfl
  | cons x edges ih =>
    cases skipping with
    | some h => cases x <;> exact ih hv
    | none =>
      cases x with
      | stop y =>
        obtain ⟨rest, hrest, hvisible⟩ := bind_eq_ok_iff.mp hv
        cases hvisible
        rw [visibleEdges, bind_of_ok (ih hrest)]
        rfl
      | start y =>
        obtain ⟨c, hc, hv⟩ := bind_eq_ok_iff.mp hv
        rw [visibleEdges, bind_of_ok (data_of_held hc)]
        split at hv
        · next hidden =>
          rw [if_pos hidden]
          exact ih hv
        · next shown =>
          obtain ⟨rest, hrest, hvisible⟩ := bind_eq_ok_iff.mp hv
          cases hvisible
          rw [if_neg shown, bind_of_ok (ih hrest)]
          rfl

/-- The traversal of a node reads no empty slot. -/
theorem traverse_eq (hs : f.Shows k) (hk : f.Known h) :
    ∃ edges, f.traverse h = .ok edges ∧ traverse f h = .ok edges := by
  rw [traverse, bind_of_ok (isRemoved_eq hk), Forest.traverse]
  cases hr : f.isRemoved h with
  | true => exact ⟨[], rfl, rfl⟩
  | false =>
    have hh := Forest.isRemoved_eq_false_iff.mp hr
    have htraverse := hs.traverse_eq hh
    rw [Forest.traverse, hr, if_neg Bool.false_ne_true] at htraverse
    refine ⟨_, htraverse, ?_⟩
    rw [if_neg Bool.false_ne_true, bind_of_ok (walk_eq hs (Forest.slot_lt_size hh))]
    exact visibleEdges_eq htraverse

end Guarded

end Markup

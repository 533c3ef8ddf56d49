import Markup.Proofs.GuardedText
import Markup.Proofs.GuardedWalk
import Markup.Proofs.Sameness

/-!
# Guarded edits

A change of the forest writes into the slots of several nodes: the neighbours of a node that moves,
every node of a tree that goes, the slot at the head of the queue. With a guard at every one of
them, the operations do what they do without: the links of a node lead to nodes, and the queue to
empty slots.

* `Guarded.update_eq`: the slot of a node that lives can be written.
* `Guarded.unlink_eq`, `Guarded.link_eq`, `Guarded.place_eq`: the guards on the way of a node into a
  row, out of it and into a slot.
* `Guarded.append_yields`, `Guarded.remove_yields` and others: operations are never trapped.
-/

namespace Markup

namespace Guarded

variable {f : Forest} {k : Kinship} {h p : Handle}

/-! ## Slots -/

/-- Changes the node in the slot of a handle. The stamp was checked before. -/
def update (f : Forest) (h : Handle) (change : Cell → Cell) : Guarded Forest := do
  let c ← data f h
  return { f with slots := f.slots.modify h.slot fun s => { s with cell := some (change c) } }

/-- Changes the links of a node, if there is one. -/
def relink (f : Forest) (o : Option Handle) (change : Links → Links) : Guarded Forest :=
  match o with
  | none => return f
  | some h => update f h fun c => { c with links := change c.links }

/-- Puts a new node in the first waiting slot, which should be empty, or else in a new one. -/
def place (f : Forest) (c : Cell) : Guarded (Handle × Forest) :=
  match f.free with
  | [] => return f.place c
  | i :: _ => do
    if (← slot f ⟨i, 0⟩).cell.isSome then throw (.occupied i)
    return f.place c

/-- Empties the slot of a handle, in which there should be a node. -/
def release (f : Forest) (h : Handle) : Guarded Forest := do
  let _ ← data f h
  return f.release h

/-- Takes a node out of the row of its siblings. -/
def unlink (f : Forest) (h : Handle) : Guarded Forest := do
  let l ← links f h
  let f ← relink f l.previous fun k => { k with next := l.next }
  let f ← relink f l.next fun k => { k with previous := l.previous }
  let f ← relink f l.parent fun k =>
    { k with
      first := if l.previous.isSome then k.first else l.next
      last := if l.next.isSome then k.last else l.previous }
  relink f (some h) fun k => { k with parent := none, previous := none, next := none }

/-- Puts a node behind the children of another one. It should not come behind or below itself. -/
def link (f : Forest) (parent h : Handle) : Guarded Forest := do
  let last := (← links f parent).last
  if h = parent ∨ some h = last then throw (.knot h)
  let f ← relink f last fun k => { k with next := some h }
  let f ← relink f (some parent) fun k =>
    { k with first := if last.isSome then k.first else some h, last := some h }
  relink f (some h) fun k => { k with parent := some parent, previous := last, next := none }

/-- The slot of a node that lives can be written, and it is that node which is changed. -/
theorem update_eq (hh : f.Lives h) (change : Cell → Cell) :
    update f h change = .ok (f.update h change) := by
  obtain ⟨c, hc⟩ := hh
  obtain ⟨s, hs, hstamp, hcell⟩ := Forest.cell?_eq_some_iff.mp hc
  rw [update, bind_of_ok (data_of_cell? hc)]
  refine congrArg (fun slots => Except.ok { f with slots }) (Array.ext_getElem? fun i => ?_)
  rw [Array.getElem?_modify, Array.getElem?_modify]
  by_cases e : h.slot = i
  · subst e
    rw [if_pos rfl, if_pos rfl, hs, Option.map_some, Option.map_some, if_pos hstamp, hcell]
    rfl
  · rw [if_neg e, if_neg e]

theorem relink_eq {o : Option Handle} (ho : ∀ x, o = some x → f.Lives x) (change : Links → Links) :
    relink f o change = .ok (f.relink o change) := by
  cases o with
  | none => rfl
  | some x => exact update_eq (ho x rfl) _

theorem lives_relink (o : Option Handle) (change : Links → Links) (x : Handle) :
    (f.relink o change).Lives x ↔ f.Lives x := by
  cases o with
  | none => rfl
  | some y => exact Forest.lives_update f y _ x

/-- What waits in the queue is an empty slot. -/
theorem place_eq (hq : f.QueueSound) (c : Cell) : place f c = .ok (f.place c) := by
  rw [place]
  split
  · rfl
  · next i rest hfree =>
    obtain ⟨s, hs, hempty⟩ := (hq.mem_free i).mp (hfree ▸ List.mem_cons_self)
    have hslot : slot f ⟨i, 0⟩ = .ok s := by rw [slot, hs]
    rw [bind_of_ok hslot, hempty]
    rfl

theorem release_eq (hh : f.Lives h) : release f h = .ok (f.release h) := by
  obtain ⟨c, hc⟩ := hh
  exact bind_of_ok (data_of_cell? hc) _

/-! ## Rows -/

/-- A node that leaves its row writes into the slots of nodes only. -/
theorem unlink_eq (hs : f.Shows k) (hh : f.Lives h) : unlink f h = .ok (f.unlink h) := by
  have hlink : ∀ read ∈ [f.parent?, f.firstChild?, f.lastChild?, f.nextSibling?,
      f.previousSibling?], ∀ x, read h = some x → f.Lives x :=
    fun _ hread _ hx => hs.lives_of_link hh hread hx
  have hprevious : ∀ x, (f.links h).previous = some x → f.Lives x :=
    hlink f.previousSibling? (by simp)
  have hnext : ∀ x, (f.links h).next = some x → f.Lives x := hlink f.nextSibling? (by simp)
  have hparent : ∀ x, (f.links h).parent = some x → f.Lives x := hlink f.parent? (by simp)
  obtain ⟨c, hc⟩ := id hh
  rw [Forest.links_of_cell? hc] at hprevious hnext hparent
  rw [unlink, bind_of_ok (links_eq (Forest.slot_lt_size hh)), Forest.links_of_cell? hc,
    bind_of_ok (relink_eq hprevious _), bind_of_ok (relink_eq (fun x hx => ?_) _),
    bind_of_ok (relink_eq (fun x hx => ?_) _), relink_eq (fun x hx => ?_) _, Forest.unlink, hc]
  · cases hx
    simpa only [lives_relink] using hh
  · simpa only [lives_relink] using hparent x hx
  · exact (lives_relink _ _ x).mpr (hnext x hx)

/-- A node without a parent comes into a row, and writes into the slots of nodes only. -/
theorem link_eq (hs : f.Shows k) (hp : f.Lives p) (hh : f.Lives h) (hroot : k.parent h = none)
    (hne : h ≠ p) : link f p h = .ok (f.link p h) := by
  have hlast : ∀ x, (f.links p).last = some x → f.Lives x ∧ x ≠ h := fun x hx => by
    rw [hs.links_of_lives hp] at hx
    have hmem : x ∈ k.children p := List.mem_of_getLast? hx
    refine ⟨hs.lives_of_mem_children hmem, ?_⟩
    rintro rfl
    rw [hs.lawful.mem_children, hroot] at hmem
    cases hmem
  have hknot : ¬ (h = p ∨ some h = (f.links p).last) :=
    not_or.mpr ⟨hne, fun e => (hlast h e.symm).2 rfl⟩
  obtain ⟨c, hc⟩ := id hp
  rw [Forest.links_of_cell? hc] at hlast hknot
  rw [link, bind_of_ok (links_eq (Forest.slot_lt_size hp)), Forest.links_of_cell? hc]
  simp only [if_neg hknot]
  rw [bind_of_ok (relink_eq (fun x hx => (hlast x hx).1) _),
    bind_of_ok (relink_eq (fun x hx => ?_) _), relink_eq (fun x hx => ?_) _, Forest.link, hc]
  · rfl
  · cases hx
    simpa only [lives_relink] using hh
  · cases hx
    exact (lives_relink _ _ p).mpr hp

/-! ## Many nodes -/

/-- One step after another, where every step keeps what the next one needs. -/
theorem foldlM_eq {step : Forest → Handle → Guarded Forest} {next : Forest → Handle → Forest}
    {P : Forest → List Handle → Prop}
    (hstep : ∀ {f h rest}, P f (h :: rest) →
      step f h = .ok (next f h) ∧ P (next f h) rest)
    {row : List Handle} (hrow : P f row) : row.foldlM step f = .ok (row.foldl next f) := by
  induction row generalizing f with
  | nil => rfl
  | cons h rest ih =>
    obtain ⟨hok, hrest⟩ := hstep hrow
    rw [List.foldlM_cons, bind_of_ok hok, ih hrest, List.foldl_cons]

theorem unlinkAll_eq (hw : f.WellFormed k) {row : List Handle} (hl : ∀ x ∈ row, f.Lives x) :
    row.foldlM unlink f = .ok (row.foldl Forest.unlink f) := by
  refine foldlM_eq (P := fun f row => (∃ k, f.WellFormed k) ∧ ∀ x ∈ row, f.Lives x) ?_
    ⟨⟨k, hw⟩, hl⟩
  rintro f h rest ⟨⟨k, hw⟩, hl⟩
  have hh := hl h List.mem_cons_self
  refine ⟨unlink_eq hw.shows hh, ⟨_, hw.unlink hh⟩, fun x hx => ?_⟩
  exact (Forest.lives_unlink hh x).mpr (hl x (List.mem_cons_of_mem h hx))

/-- No slot is emptied twice. -/
theorem releaseAll_eq {row : List Handle} (hn : row.Nodup) (hl : ∀ x ∈ row, f.Lives x) :
    row.foldlM release f = .ok (row.foldl Forest.release f) := by
  refine foldlM_eq (P := fun f row => row.Nodup ∧ ∀ x ∈ row, f.Lives x) ?_ ⟨hn, hl⟩
  rintro f h rest ⟨hn, hl⟩
  have hh := hl h List.mem_cons_self
  obtain ⟨hnot, hn⟩ := List.nodup_cons.mp hn
  refine ⟨release_eq hh, hn, fun x hx => (Forest.lives_release hh x).mpr ⟨?_, ?_⟩⟩
  · exact fun e => hnot (e ▸ hx)
  · exact hl x (List.mem_cons_of_mem h hx)

/-! ## Operations -/

/-- Makes a node of its own. -/
def create (f : Forest) (seed : Seed) : Guarded (Handle × Forest) := do
  let content ← content seed
  place f { content }

/-- Moves a node behind the children of `parent`. -/
def append (f : Forest) (parent child : Handle) : Attempt Forest := do
  let _ ← live f child
  let _ ← liveParent f parent
  if child ∈ parent :: (← ancestors f parent) then throw (.cycle child)
  link (← unlink f child) parent child

/-- Makes a node behind the children of `parent`: makes it, and moves it. -/
def appendNew (f : Forest) (parent : Handle) (seed : Seed) : Attempt (Handle × Forest) := do
  let content ← content seed
  let _ ← liveParent f parent
  let made ← place f { content }
  return (made.1, ← append made.2 parent made.1)

/-- Makes a node the root of its own tree. -/
def detach (f : Forest) (h : Handle) : Attempt Forest := do
  let _ ← live f h
  unlink f h

/-- Makes every child of a node the root of its own tree. -/
def removeChildren (f : Forest) (h : Handle) : Attempt Forest := do
  let _ ← live f h
  let row ← children f h
  (row.foldlM unlink f : Guarded Forest)

/-- Takes a node and everything below it out of the forest. -/
def remove (f : Forest) (h : Handle) : Attempt (Nat × Forest) := do
  let _ ← live f h
  let count := (← descendants f h).length
  let f ← unlink f h
  let row ← postorder f h
  return (count, ← (row.foldlM release f : Guarded Forest))

/-- Hides a node, or shows it again. -/
def setHidden (f : Forest) (h : Handle) (hidden : Bool) : Attempt Forest := do
  let _ ← live f h
  update f h fun c => { c with hidden }

/-- Edits the attributes of a node with an element. -/
def editAttributes (f : Forest) (h : Handle) (edit : AttributeEdit) : Attempt Forest := do
  let c ← live f h
  match c.content.editAttributes? edit with
  | some content => update f h fun c => { c with content }
  | none => throw (.notElement h)

/-- Edits a leaf of text. -/
def editText (f : Forest) (h : Handle) (edit : TextEdit) : Attempt Forest := do
  let c ← live f h
  match ← edit? c.content edit with
  | some content => update f h fun c => { c with content }
  | none => throw (.notText h)

/-- Makes a node with the content of another one; both remember the open tag. -/
def copy (f : Forest) (h : Handle) : Attempt (Handle × Forest) := do
  let c ← live f h
  let f ← update f h fun c => { c with content := c.content.rememberTag }
  place f { content := c.content.rememberTag }

theorem create_eq (hq : f.QueueSound) (seed : Seed) : create f seed = .ok (f.create seed) := by
  rw [create, bind_of_ok (content_eq seed)]
  exact place_eq hq _

theorem append_yields (hw : f.WellFormed k) (hp : f.Known p) (hh : f.Known h) :
    Yields (append f p h) (f.append p h) := by
  refine (live_yields hh).bind fun d hd => (liveParent_yields hp).bind fun c hc => ?_
  have hlives : f.Lives h := ⟨d, Forest.live_eq_ok_iff.mp hd⟩
  have hplives : f.Lives p := ⟨c, (Forest.liveParent_eq_ok_iff.mp hc).1⟩
  refine .step (ancestors_eq hw.shows (Forest.slot_lt_size hplives)) ?_
  by_cases hcycle : h ∈ p :: f.ancestors p
  · simp only [if_pos hcycle]
    exact .throw rfl
  · simp only [if_neg hcycle]
    have hne : h ≠ p := fun e => hcycle (e ▸ List.mem_cons_self)
    refine .step (unlink_eq hw.shows hlives) (.lift (link_eq (hw.shows.unlink hlives) ?_ ?_ ?_ hne))
    · exact (Forest.lives_unlink hlives p).mpr hplives
    · exact (Forest.lives_unlink hlives h).mpr hlives
    · rw [Kinship.parent_unlink, if_pos rfl]

theorem appendNew_yields (hw : f.WellFormed k) (hp : f.Known p) (seed : Seed) :
    Yields (appendNew f p seed) (f.appendNew p seed) := by
  refine .step (content_eq seed) ((liveParent_yields hp).bind fun c hc => ?_)
  refine .step (place_eq hw.queue _) ?_
  have hw' : (f.create seed).2.WellFormed k := hw.place rfl
  have hplives : (f.create seed).2.Lives p :=
    (Forest.lives_place hw.queue _ p).mpr (.inr ⟨c, (Forest.liveParent_eq_ok_iff.mp hc).1⟩)
  have hnew : (f.create seed).2.Lives (f.create seed).1 :=
    (Forest.lives_place hw.queue _ _).mpr (.inl rfl)
  have happend := append_yields hw' (.inl hplives) (.inl hnew)
  rw [hw.append_create seed ⟨c, Forest.liveParent_eq_ok_iff.mp hc⟩] at happend
  exact happend.bind fun _ _ => .pure _

theorem detach_yields (hw : f.WellFormed k) (hh : f.Known h) : Yields (detach f h) (f.detach h) :=
  (live_yields hh).bind fun c hc =>
    .lift (unlink_eq hw.shows ⟨c, Forest.live_eq_ok_iff.mp hc⟩)

theorem removeChildren_yields (hw : f.WellFormed k) (hh : f.Known h) :
    Yields (removeChildren f h) (f.removeChildren h) := by
  refine (live_yields hh).bind fun c hc => ?_
  refine .step (children_eq hw.shows (slot_lt_of_known hh)) (.lift (unlinkAll_eq hw fun x hx => ?_))
  exact lives_of_mem_row (exists_passes_children hw.shows h) hx

/-- The nodes of the tree are counted, the tree is taken out, and every slot of it is emptied. -/
theorem remove_yields (hw : f.WellFormed k) (hh : f.Known h) :
    Yields (remove f h) (f.remove h) := by
  refine (live_yields hh).bind fun c hc => ?_
  have hlives : f.Lives h := ⟨c, Forest.live_eq_ok_iff.mp hc⟩
  have hw' := hw.unlink hlives
  have hlives' : (f.unlink h).Lives h := (Forest.lives_unlink hlives h).mpr hlives
  refine .step (descendants_eq hw.shows (slot_lt_of_known hh)) ?_
  refine .step (unlink_eq hw.shows hlives) ?_
  refine .step (postorder_eq hw'.shows (Forest.slot_lt_size hlives')) ?_
  refine .step (releaseAll_eq (hw'.shows.nodup_postorder hlives') fun x hx => ?_) (.pure _)
  exact hw'.shows.lives_of_mem_postorder hlives' hx

theorem setHidden_yields (hh : f.Known h) (hidden : Bool) :
    Yields (setHidden f h hidden) (f.setHidden h hidden) :=
  (live_yields hh).bind fun c hc => .lift (update_eq ⟨c, Forest.live_eq_ok_iff.mp hc⟩ _)

theorem editAttributes_yields (hh : f.Known h) (edit : AttributeEdit) :
    Yields (editAttributes f h edit) (f.editAttributes h edit) := by
  refine (live_yields hh).bind fun c hc => ?_
  cases c.content.editAttributes? edit with
  | none => exact .throw rfl
  | some content => exact .lift (update_eq ⟨c, Forest.live_eq_ok_iff.mp hc⟩ _)

theorem editText_yields (hh : f.Known h) (edit : TextEdit) :
    Yields (editText f h edit) (f.editText h edit) := by
  refine (live_yields hh).bind fun c hc => .step (edit?_eq c.content edit) ?_
  cases c.content.edit? edit with
  | none => exact .throw rfl
  | some content => exact .lift (update_eq ⟨c, Forest.live_eq_ok_iff.mp hc⟩ _)

theorem copy_yields (hw : f.WellFormed k) (hh : f.Known h) : Yields (copy f h) (f.copy h) := by
  refine (live_yields hh).bind fun c hc => ?_
  refine .step (update_eq ⟨c, Forest.live_eq_ok_iff.mp hc⟩ _) (.lift (place_eq ?_ _))
  exact hw.queue.update h _

end Guarded

end Markup

import Markup.Proofs.Sameness
import Markup.Proofs.Tags

/-!
# Rows of children

What a forest is to somebody who does not see its links: the nodes that live, each with the row of
its children. Every operation that moves or makes a node is a plain operation on rows, and touches
nothing else.

* `Rows.leave`, `Rows.enter`, `Rows.clear`, `Rows.add`: the operations on rows.
* `Forest.Rearranged`, `Forest.Added`: one forest is another one with other rows, or with one more
  node.
* `Reachable.rows_refined`: appending, detaching, making and copying are those operations.
-/

namespace Markup

/-- For every node the row of its children, and nothing where no node is. -/
def Rows : Type := Handle → Option (List Handle)

namespace Rows

/-- `c` leaves the row of its parent, if it has one; the others keep their order. -/
def leave (r : Rows) (parent : Option Handle) (c : Handle) : Rows :=
  fun x => if parent = some x then (r x).map (·.erase c) else r x

/-- Nobody leaves a row without a parent. -/
theorem leave_none (r : Rows) (c : Handle) : r.leave none c = r := by
  funext x
  exact if_neg nofun

/-- `c` comes to the end of the row of `p`. -/
def enter (r : Rows) (p c : Handle) : Rows :=
  fun x => if x = p then (r x).map (· ++ [c]) else r x

/-- The row of `n` gets empty. -/
def clear (r : Rows) (n : Handle) : Rows := fun x => if x = n then (r x).map fun _ => [] else r x

/-- A node comes that has no children. -/
def add (r : Rows) (h : Handle) : Rows := fun x => if x = h then some [] else r x

end Rows

namespace Kinship

/-- Who leaves is in no row any more, and the others keep their order. -/
theorem Lawful.children_unlinkAll {k : Kinship} (hk : k.Lawful) (gone : List Handle) (p : Handle) :
    (gone.foldl Kinship.unlink k).children p = (k.children p).filter (· ∉ gone) := by
  induction gone generalizing k with
  | nil => simp
  | cons h rest ih =>
    rw [List.foldl_cons, ih (hk.unlink h), children_unlink, (hk.nodup p).erase_eq_filter,
      List.filter_filter]
    refine List.filter_congr fun x _ => ?_
    by_cases e : x = h <;> simp [e]

/-- Who leaves has no parent any more. -/
theorem parent_unlinkAll (k : Kinship) (gone : List Handle) (x : Handle) :
    (gone.foldl unlink k).parent x = if x ∈ gone then none else k.parent x := by
  induction gone generalizing k with
  | nil => simp
  | cons h rest ih =>
    rw [List.foldl_cons, ih, parent_unlink]
    by_cases hx : x ∈ rest <;> by_cases e : x = h <;> simp [hx, e]

/-- Nobody at or below a node is its parent. -/
theorem Lawful.parent_ne_of_below {k : Kinship} (hk : k.Lawful) {c x : Handle}
    (hx : x = c ∨ k.Above c x) : k.parent c ≠ some x := by
  intro hp
  refine hk.not_above_self c ?_
  rcases hx with rfl | hx
  · exact .single hp
  · exact .tail hx hp

end Kinship

namespace Forest

/-- The nodes that live, each with its children. -/
def rows (f : Forest) : Rows := fun x => (f.cell? x).map fun _ => f.children x

/-- The first forest with other rows: every node is and holds what it did, hidden or not, and no
node comes or goes. -/
structure Rearranged (f f' : Forest) (rows : Rows) : Prop where
  rows_eq : f'.rows = rows
  facts_eq : f'.facts = f.facts

/-- The rows at a node and below it are as before. -/
def SameBelow (f f' : Forest) (c : Handle) : Prop :=
  ∀ x, f.Lives x → x = c ∨ f.Above c x → f'.children x = f.children x

/-- The first forest with one more node, which is visible and stands alone. Nothing else changes,
except that the `source` of a copy remembers its tag from then on. -/
structure Added (f f' : Forest) (h : Handle) (content : Content) (source : Option Handle) :
    Prop where
  is_new : f.rows h = none
  rows_eq : f'.rows = f.rows.add h
  parent?_eq : f'.parent? h = none
  facts_new : f'.facts h = some (content, false)
  facts_others : ∀ {x}, x ≠ h → some x ≠ source → f'.facts x = f.facts x
  facts_source : ∀ {x}, x ≠ h → f'.forgetTags.facts x = f.forgetTags.facts x

variable {f f' : Forest} {k : Kinship}

theorem Shows.rows_apply (hs : f.Shows k) (x : Handle) :
    f.rows x = (f.cell? x).map fun _ => k.children x := by
  unfold rows
  cases hc : f.cell? x with
  | none => rfl
  | some c => rw [hs.children_eq ⟨c, hc⟩]

theorem rows_eq_none_iff {x : Handle} : f.rows x = none ↔ ¬ f.Lives x := by
  rw [rows, Option.map_eq_none_iff, cell?_eq_none_iff]

theorem children_eq_of_rows_eq {x : Handle} (hx : f.Lives x) (hrow : f'.rows x = f.rows x) :
    f'.children x = f.children x := by
  obtain ⟨c, hc⟩ := hx
  rw [rows, rows, hc, Option.map_some, Option.map_eq_some_iff] at hrow
  obtain ⟨d, -, h⟩ := hrow
  exact h

theorem map_cell?_of_facts {α : Type} {x : Handle} {a : α} (h : f'.facts x = f.facts x) :
    ((f'.cell? x).map fun _ => a) = (f.cell? x).map fun _ => a := by
  unfold facts at h
  cases hc : f.cell? x <;> cases hc' : f'.cell? x <;> simp_all

/-! ## Rows after a change -/

namespace WellFormed

theorem rows_unlink (hw : f.WellFormed k) {h : Handle} (hh : f.Lives h) :
    (f.unlink h).rows = f.rows.leave (f.parent? h) h := by
  funext x
  obtain ⟨c, hc⟩ := id hh
  rw [(hw.shows.unlink hh).rows_apply, Rows.leave, hw.shows.rows_apply, hw.shows.parent?_eq hh,
    cell?_unlink hc, Option.map_map]
  split
  · rw [Option.map_map]
    rfl
  · next hp =>
    rw [Kinship.children_unlink, hw.shows.lawful.children_erase hp]
    rfl

theorem rows_link (hw : f.WellFormed k) {p h : Handle} (hp : f.TakesChildren p)
    (hh : f.Lives h) (hroot : k.parent h = none) (hne : h ≠ p) (habove : ¬ k.Above h p) :
    (f.link p h).rows = f.rows.enter p h := by
  funext x
  obtain ⟨c, hc, ha⟩ := hp
  rw [(hw.link hc ha hh hroot hne habove).shows.rows_apply, Rows.enter, hw.shows.rows_apply,
    cell?_link, Option.map_map, Kinship.children_link]
  split
  · rw [Option.map_map]
    rfl
  · rfl

/-- All children of a node leave it, and every other row is as before. -/
theorem rows_unlinkAll (hw : f.WellFormed k) {n : Handle} (hn : f.Lives n) :
    ((f.children n).foldl Forest.unlink f).rows = f.rows.clear n := by
  funext x
  have hlives : ∀ y ∈ f.children n, f.Lives y := by
    rw [hw.shows.children_eq hn]
    exact fun y hy => hw.shows.lives_of_mem_children hy
  have hchildren : ((f.children n).foldl Kinship.unlink k).children x =
      if x = n then [] else k.children x := by
    rw [hw.shows.lawful.children_unlinkAll, hw.shows.children_eq hn]
    split
    · next e => simp [e]
    · next e =>
      refine List.filter_eq_self.mpr fun y hy => decide_eq_true fun hy' => e ?_
      have hp := hw.shows.lawful.mem_children.mp hy
      rw [hw.shows.lawful.mem_children.mp hy'] at hp
      exact (Option.some.inj hp).symm
  rw [(hw.unlinkAll hlives).shows.rows_apply, Rows.clear, hw.shows.rows_apply, hchildren,
    map_cell?_of_facts (congrFun (facts_unlinkAll f _) x)]
  split
  · rw [Option.map_map]
    rfl
  · rfl

/-- A new node has an empty row. -/
theorem rows_place (hw : f.WellFormed k) {c : Cell} (hc : c.links = {}) :
    (f.place c).2.rows = f.rows.add (f.place c).1 := by
  funext x
  rw [(hw.place hc).shows.rows_apply, Rows.add, hw.shows.rows_apply, cell?_place hw.queue]
  split
  · next e => rw [e, hw.shows.children_eq_nil (not_lives_place hw.queue c)]; rfl
  · rfl

/-- What nodes are and hold does not show in the rows. -/
theorem rows_rememberTag (hw : f.WellFormed k) (h : Handle) :
    (f.rememberTag h).rows = f.rows := by
  funext x
  rw [(hw.rememberTag h).shows.rows_apply, hw.shows.rows_apply, Forest.rememberTag, cell?_update]
  split
  · next e => rw [e, Option.map_map]; rfl
  · rfl

end WellFormed

/-! ## The operations -/

theorem facts_forgetTags (f : Forest) (x : Handle) :
    f.forgetTags.facts x = (f.facts x).map fun fact => (fact.1.forgetTag, fact.2) := by
  rw [facts, cell?_forgetTags, facts, Option.map_map, Option.map_map]
  rfl

theorem facts_place (hq : f.QueueSound) (c : Cell) (x : Handle) :
    (f.place c).2.facts x =
      if x = (f.place c).1 then some (c.content, c.hidden) else f.facts x := by
  rw [facts, cell?_place hq]
  split <;> rfl

theorem facts_rememberTag (f : Forest) (h x : Handle) :
    (f.rememberTag h).facts x =
      if x = h then (f.facts h).map fun fact => (fact.1.rememberTag, fact.2) else f.facts x := by
  rw [facts, rememberTag, cell?_update]
  split
  · rw [facts, Option.map_map, Option.map_map]
    rfl
  · rfl

theorem TakesChildren.of_facts {p : Handle} (hp : f.TakesChildren p) (h : f'.facts = f.facts) :
    f'.TakesChildren p := by
  obtain ⟨c, hc, ha⟩ := hp
  obtain ⟨d, hd, hcontent, -⟩ := exists_cell?_of_facts (congrFun h p) hc
  exact ⟨d, hd, by rw [hcontent, ha]⟩

namespace WellFormed

variable {p c n h : Handle}

/-- A node leaves one row and comes to the end of another one. -/
theorem append_rearranges (hw : f.WellFormed k) (happend : f.append p c = .ok f') :
    f.Rearranged f' ((f.rows.leave (f.parent? c) c).enter p c) := by
  obtain ⟨hc, hp, ⟨hne, habove⟩, rfl⟩ := hw.append_iff.mp happend
  have hroot : (k.unlink c).parent c = none := by rw [Kinship.parent_unlink, if_pos rfl]
  have hw' : (f.unlink c).WellFormed (k.unlink c) := hw.unlink hc
  have hrows := hw'.rows_link (hp.of_facts (facts_unlink f c)) ((lives_unlink hc c).mpr hc) hroot
    hne fun h => habove (Kinship.above_of_above_unlink h)
  rw [hw.rows_unlink hc] at hrows
  exact ⟨hrows, (facts_link _ p c).trans (facts_unlink f c)⟩

/-- It takes along everything below it. -/
theorem append_sameBelow (hw : f.WellFormed k) (happend : f.append p c = .ok f') :
    f.SameBelow f' c := by
  intro x hx hbelow
  have hrows := (hw.append_rearranges happend).rows_eq
  obtain ⟨hc, -, ⟨hne, habove⟩, -⟩ := hw.append_iff.mp happend
  rw [hw.shows.above_eq] at hbelow
  have hxp : x ≠ p := by
    rintro rfl
    exact hbelow.elim (fun e => hne e.symm) habove
  refine children_eq_of_rows_eq hx ?_
  rw [hrows, Rows.enter, if_neg hxp, Rows.leave, hw.shows.parent?_eq hc,
    if_neg (hw.shows.lawful.parent_ne_of_below hbelow)]

/-- It is the last child then, also when it was a child before. -/
theorem append_children (hw : f.WellFormed k) (happend : f.append p c = .ok f') :
    f'.parent? c = some p ∧ f'.children p = (f.children p).erase c ++ [c] := by
  have hs := (hw.of_append happend).shows
  have hfacts := (hw.append_rearranges happend).facts_eq
  obtain ⟨hc, ⟨d, hd, -⟩, -⟩ := hw.append_iff.mp happend
  rw [hs.parent?_eq (lives_of_facts hc hfacts), hs.children_eq (lives_of_facts ⟨d, hd⟩ hfacts),
    hw.shows.children_eq ⟨d, hd⟩, Kinship.parent_link, if_pos rfl, Kinship.children_link,
    if_pos rfl, Kinship.children_unlink]
  exact ⟨rfl, rfl⟩

/-- Where a node came to, it may come again, and then nothing changes. -/
theorem append_again (hw : f.WellFormed k) (happend : f.append p c = .ok f') :
    f'.append p c = .ok f' := by
  have hfacts := (hw.append_rearranges happend).facts_eq
  have hw' := hw.of_append happend
  obtain ⟨hc, hp, ⟨hne, habove⟩, rfl⟩ := hw.append_iff.mp happend
  have hparent : ((k.unlink c).link p c).parent c = some p := by
    rw [Kinship.parent_link, if_pos rfl]
  refine hw'.append_iff.mpr ⟨lives_of_facts hc hfacts, hp.of_facts hfacts, ⟨hne, fun hcp => ?_⟩, ?_⟩
  · exact hw'.shows.lawful.not_above_self c (.tail hcp hparent)
  · obtain ⟨d, hd, -⟩ := hp
    have hroot : (k.unlink c).parent c = none := by rw [Kinship.parent_unlink, if_pos rfl]
    have hout : (f.unlink c).WellFormed (k.unlink c) := hw.unlink hc
    rw [hout.unlink_link ((lives_unlink hc p).mpr ⟨d, hd⟩) ((lives_unlink hc c).mpr hc) hroot hne
      fun h => habove (Kinship.above_of_above_unlink h)]

/-- A node leaves its row. -/
theorem detach_rearranges (hw : f.WellFormed k) (hdetach : f.detach n = .ok f') :
    f.Rearranged f' (f.rows.leave (f.parent? n) n) ∧ f'.parent? n = none := by
  obtain ⟨hn, rfl⟩ := detach_eq_ok_iff.mp hdetach
  refine ⟨⟨hw.rows_unlink hn, facts_unlink f n⟩, ?_⟩
  rw [(hw.shows.unlink hn).parent?_eq ((lives_unlink hn n).mpr hn), Kinship.parent_unlink,
    if_pos rfl]

/-- Where a node is in no row that it can leave, nothing changes. -/
theorem detach_of_root (hw : f.WellFormed k) (hdetach : f.detach n = .ok f')
    (hroot : f.parent? n = none) : f' = f := by
  obtain ⟨hn, rfl⟩ := detach_eq_ok_iff.mp hdetach
  rw [hw.shows.parent?_eq hn] at hroot
  exact hw.unlink_eq_self hn hroot

/-- It takes along everything below it. -/
theorem detach_sameBelow (hw : f.WellFormed k) (hdetach : f.detach n = .ok f') :
    f.SameBelow f' n := by
  intro x hx hbelow
  have hrows := (hw.detach_rearranges hdetach).1.rows_eq
  obtain ⟨hn, -⟩ := detach_eq_ok_iff.mp hdetach
  rw [hw.shows.above_eq] at hbelow
  refine children_eq_of_rows_eq hx ?_
  rw [hrows, Rows.leave, hw.shows.parent?_eq hn,
    if_neg (hw.shows.lawful.parent_ne_of_below hbelow)]

/-- A row gets empty, and who was in it has no parent any more. -/
theorem removeChildren_rearranges (hw : f.WellFormed k) (hr : f.removeChildren n = .ok f') :
    f.Rearranged f' (f.rows.clear n) ∧ ∀ c ∈ f.children n, f'.parent? c = none := by
  obtain ⟨hn, rfl⟩ := removeChildren_eq_ok_iff.mp hr
  have hlives : ∀ y ∈ f.children n, f.Lives y := by
    rw [hw.shows.children_eq hn]
    exact fun y hy => hw.shows.lives_of_mem_children hy
  have hfacts := facts_unlinkAll f (f.children n)
  refine ⟨⟨hw.rows_unlinkAll hn, hfacts⟩, fun c hc => ?_⟩
  rw [(hw.unlinkAll hlives).shows.parent?_eq (lives_of_facts (hlives c hc) hfacts),
    Kinship.parent_unlinkAll, if_pos hc]

/-- They take along everything below them. -/
theorem removeChildren_sameBelow (hw : f.WellFormed k) (hr : f.removeChildren n = .ok f')
    (hc : c ∈ f.children n) : f.SameBelow f' c := by
  intro x hx hbelow
  have hrows := (hw.removeChildren_rearranges hr).1.rows_eq
  obtain ⟨hn, -⟩ := removeChildren_eq_ok_iff.mp hr
  rw [hw.shows.children_eq hn, hw.shows.lawful.mem_children] at hc
  rw [hw.shows.above_eq] at hbelow
  have hxn : x ≠ n := by
    rintro rfl
    exact hw.shows.lawful.parent_ne_of_below hbelow hc
  refine children_eq_of_rows_eq hx ?_
  rw [hrows, Rows.clear, if_neg hxn]

/-- A new node stands alone. -/
theorem added_place (hw : f.WellFormed k) (content : Content) :
    f.Added (f.place { content }).2 (f.place { content }).1 content none where
  is_new := rows_eq_none_iff.mpr (not_lives_place hw.queue _)
  rows_eq := hw.rows_place rfl
  parent?_eq := by
    have hlives := (lives_place hw.queue { content } _).mpr (.inl rfl)
    rw [(hw.place (c := { content }) rfl).shows.parent?_eq hlives,
      hw.shows.parent_eq_none (not_lives_place hw.queue _)]
  facts_new := by rw [facts_place hw.queue, if_pos rfl]
  facts_others hx _ := by rw [facts_place hw.queue, if_neg hx]
  facts_source hx := by
    rw [facts_forgetTags, facts_forgetTags, facts_place hw.queue, if_neg hx]

/-- So does a copy, and the rest of the forest remembers at most one tag more. -/
theorem added_copy (hw : f.WellFormed k) (hcopy : f.copy n = .ok (h, f')) :
    ∃ d, f.cell? n = some d ∧ f.Added f' h d.content.rememberTag (some n) := by
  obtain ⟨d, hd, hmade⟩ := copy_eq_ok_iff.mp hcopy
  -- the source remembers its tag first, and the copy is placed beside it
  have hw' : (f.rememberTag n).WellFormed k := hw.rememberTag n
  have hadded := hw'.added_place d.content.rememberTag
  rw [← hmade] at hadded
  have hrows := hw.rows_rememberTag n
  refine ⟨d, hd, hrows ▸ hadded.is_new, hrows ▸ hadded.rows_eq, hadded.parent?_eq,
    hadded.facts_new, fun {x} hx hxn => ?_, fun {x} hx => ?_⟩
  · rw [hadded.facts_others hx nofun, facts_rememberTag, if_neg fun e => hxn (congrArg some e)]
  · rw [hadded.facts_source hx, facts_forgetTags, facts_forgetTags, facts_rememberTag]
    split
    · next e =>
      rw [e, Option.map_map]
      refine congrArg (Option.map · _) (funext fun fact => ?_)
      exact congrArg (·, fact.2) fact.1.forgetTag_rememberTag
    · rfl

/-- A node that is made behind the children of another one is made first, and then comes to the
end of the row. -/
theorem appendNew_rearranges (hw : f.WellFormed k) {seed : Seed}
    (hmade : f.appendNew p seed = .ok (h, f')) :
    h = (f.create seed).1 ∧
      (f.create seed).2.Rearranged f' ((f.create seed).2.rows.enter p h) ∧
      f'.parent? h = some p := by
  obtain ⟨⟨c, hc, ha⟩, hmade⟩ := appendNew_eq_ok_iff.mp hmade
  obtain rfl : h = (f.create seed).1 := congrArg Prod.fst hmade
  obtain rfl : f' = (f.create seed).2.link p (f.create seed).1 := congrArg Prod.snd hmade
  have hw' : (f.create seed).2.WellFormed k := hw.place rfl
  have hmoved := hw.append_create seed ⟨c, hc, ha⟩
  have hrows := hw'.append_rearranges hmoved
  have hroot : (f.create seed).2.parent? (f.create seed).1 = none :=
    (hw.added_place seed.content).parent?_eq
  rw [hroot, Rows.leave_none] at hrows
  exact ⟨rfl, hrows, (hw'.append_children hmoved).1⟩

end WellFormed

/-- What the operations that move and make nodes do to the rows of a forest. A node that moves
leaves its row and comes to the end of another one, with everything below it; to move it there again
changes nothing. A node that is made, or copied, stands alone. -/
structure ActsOnRows (f : Forest) : Prop where
  append : ∀ {p c f'}, f.append p c = .ok f' →
    f.Rearranged f' ((f.rows.leave (f.parent? c) c).enter p c) ∧ f.SameBelow f' c ∧
      f'.parent? c = some p ∧ f'.children p = (f.children p).erase c ++ [c] ∧
      f'.append p c = .ok f'
  detach : ∀ {n}, f.Lives n → ∃ f', f.detach n = .ok f' ∧
    f.Rearranged f' (f.rows.leave (f.parent? n) n) ∧ f.SameBelow f' n ∧ f'.parent? n = none ∧
      (f.parent? n = none → f' = f)
  removeChildren : ∀ {n}, f.Lives n → ∃ f', f.removeChildren n = .ok f' ∧
    f.Rearranged f' (f.rows.clear n) ∧
      ∀ c ∈ f.children n, f'.parent? c = none ∧ f.SameBelow f' c
  create : ∀ seed, f.Added (f.create seed).2 (f.create seed).1 seed.content none
  copy : ∀ {n}, f.Lives n → ∃ h f' d, f.copy n = .ok (h, f') ∧ f.cell? n = some d ∧
    f.Added f' h d.content.rememberTag (some n)
  appendNew : ∀ {p} seed, f.TakesChildren p → ∃ h f', f.appendNew p seed = .ok (h, f') ∧
    h = (f.create seed).1 ∧
      (f.create seed).2.Rearranged f' ((f.create seed).2.rows.enter p h) ∧ f'.parent? h = some p

end Forest

/-- **A reachable forest is rows of children**, and every operation that moves or makes a node is
the operation on rows, with everything else as it was. -/
theorem Reachable.rows_refined {f : Forest} (hf : Reachable f) : f.ActsOnRows := by
  obtain ⟨k, hw⟩ := hf.wellFormed
  constructor
  case append =>
    intro p c f' happend
    obtain ⟨hparent, hchildren⟩ := hw.append_children happend
    exact ⟨hw.append_rearranges happend, hw.append_sameBelow happend, hparent, hchildren,
      hw.append_again happend⟩
  case detach =>
    intro n hn
    have hdetach : f.detach n = .ok (f.unlink n) := Forest.detach_eq_ok_iff.mpr ⟨hn, rfl⟩
    obtain ⟨hrows, hparent⟩ := hw.detach_rearranges hdetach
    exact ⟨_, hdetach, hrows, hw.detach_sameBelow hdetach, hparent, hw.detach_of_root hdetach⟩
  case removeChildren =>
    intro n hn
    have hr : f.removeChildren n = .ok ((f.children n).foldl Forest.unlink f) :=
      Forest.removeChildren_eq_ok_iff.mpr ⟨hn, rfl⟩
    obtain ⟨hrows, hparent⟩ := hw.removeChildren_rearranges hr
    exact ⟨_, hr, hrows, fun c hc => ⟨hparent c hc, hw.removeChildren_sameBelow hr hc⟩⟩
  case create =>
    exact fun seed => hw.added_place seed.content
  case copy =>
    rintro n ⟨d, hd⟩
    have hcopy := Forest.copy_eq_ok_iff.mpr ⟨d, hd, rfl⟩
    obtain ⟨e, he, hadded⟩ := hw.added_copy hcopy
    exact ⟨_, _, e, hcopy, he, hadded⟩
  case appendNew =>
    intro p seed hp
    have hmade : f.appendNew p seed = _ := Forest.appendNew_eq_ok_iff.mpr ⟨hp, rfl⟩
    exact ⟨_, _, hmade, hw.appendNew_rearranges hmade⟩

/-- The first of three items moves to the end, and stays there when it is to move again. -/
theorem rows_refined_of_item :
    let f := Forest.empty.run [.create (.element .ul), .appendNew ⟨0, 0⟩ (.element .li),
      .appendNew ⟨0, 0⟩ (.element .li), .appendNew ⟨0, 0⟩ (.element .li)]
    let f' := f.run [.append ⟨0, 0⟩ ⟨1, 0⟩]
    f.children ⟨0, 0⟩ = [⟨1, 0⟩, ⟨2, 0⟩, ⟨3, 0⟩] ∧
      f'.children ⟨0, 0⟩ = [⟨2, 0⟩, ⟨3, 0⟩, ⟨1, 0⟩] ∧
      f.Rearranged f' ((f.rows.leave (some ⟨0, 0⟩) ⟨1, 0⟩).enter ⟨0, 0⟩ ⟨1, 0⟩) ∧
      f'.append ⟨0, 0⟩ ⟨1, 0⟩ = .ok f' := by
  intro f f'
  obtain ⟨hrows, -, -, -, hagain⟩ :=
    (Reachable.empty.run _).rows_refined.append (show f.append ⟨0, 0⟩ ⟨1, 0⟩ = .ok f' by rfl)
  exact ⟨by decide, by decide, hrows, hagain⟩

end Markup

import Markup.Proofs.Frames
import Markup.Proofs.Sameness
import Markup.Proofs.Tokens

/-!
# Leaving out a tree

There are three ways to keep a node and everything below it out of what is rendered above it: the
node is hidden, it leaves its row, or it is removed. In each of them a node above has the tokens of
its tree without that tree, so no layout can tell them apart.

* `Grove.without`, `Grove.hide`: trees without the tree of a node, or with that node hidden.
* `Forest.Grows.of_same`: trees are the same where the nodes and their rows are.
* `Forest.Grows.hide`, `Forest.Grows.unlink`, `Forest.Grows.removeTree`: one lemma for each way.
* `Reachable.output_of_hidden_above`: a mark above a node plays no role for the node itself.
* `Reachable.output_left_out`: all three ways give `Forest.textWithout`, and a node that is shown
  again leaves no trace.
-/

namespace Markup

namespace Grove

/-- The trees without the tree of `h`. -/
def without (h : Handle) : Grove → Grove
  | nil => nil
  | tree x content hidden below rest =>
    if x = h then rest.without h
    else tree x content hidden (below.without h) (rest.without h)

/-- The trees with `h` hidden. -/
def hide (h : Handle) : Grove → Grove
  | nil => nil
  | tree x content hidden below rest =>
    tree x content (if x = h then true else hidden) (below.hide h) (rest.hide h)

/-- A hidden node has no token, nor has anybody below it. -/
theorem tokens_hide (env : Option Environment) (h : Handle) (g : Grove) :
    (g.hide h).tokens env = (g.without h).tokens env := by
  induction g with
  | nil => rfl
  | tree x content hidden below rest ihb ihr =>
    by_cases hx : x = h
    · simp [hide, without, tokens, hx, ihr]
    · simp [hide, without, tokens, hx, ihb, ihr]

end Grove

namespace Forest

variable {f f' : Forest} {k k' : Kinship} {row : List Handle} {g : Grove} {r h : Handle}

/-- Trees are the same where nodes hold the same and have the same children. -/
theorem Grows.of_same (hg : f.Grows k row g) (hfacts : ∀ x ∈ g.handles, f'.facts x = f.facts x)
    (hrows : ∀ x ∈ g.handles, k'.children x = k.children x) : f'.Grows k' row g := by
  induction hg with
  | nil => exact .nil
  | @tree x c row below rest hc _ _ ihb ihr =>
    have hx : x ∈ (Grove.tree x c.content c.hidden below rest).handles := by simp [Grove.handles]
    have hbelow : ∀ y ∈ below.handles,
        y ∈ (Grove.tree x c.content c.hidden below rest).handles := by
      intro y hy
      simp [Grove.handles, hy]
    have hrest : ∀ y ∈ rest.handles,
        y ∈ (Grove.tree x c.content c.hidden below rest).handles := by
      intro y hy
      simp [Grove.handles, hy]
    obtain ⟨d, hd, hcontent, hhidden⟩ := exists_cell?_of_facts (hfacts x hx) hc
    rw [← hcontent, ← hhidden]
    refine .tree hd ?_ ?_
    · rw [hrows x hx]
      exact ihb (fun y hy => hfacts y (hbelow y hy)) fun y hy => hrows y (hbelow y hy)
    · exact ihr (fun y hy => hfacts y (hrest y hy)) fun y hy => hrows y (hrest y hy)

/-- To hide a node changes its mark in the trees and no row. -/
theorem Grows.hide (hg : f.Grows k row g) (h : Handle) :
    (f.update h fun c => { c with hidden := true }).Grows k row (g.hide h) := by
  induction hg with
  | nil => exact .nil
  | @tree x c row below rest hc _ _ ihb ihr =>
    have hd : (f.update h fun c => { c with hidden := true }).cell? x =
        some { c with hidden := if x = h then true else c.hidden } := by
      rw [cell?_update]
      by_cases hx : x = h
      · rw [if_pos hx, if_pos hx, ← hx, hc]
        rfl
      · rw [if_neg hx, if_neg hx, hc]
    exact .tree hd ihb ihr

/-- A node that leaves its row takes its tree along. -/
theorem Grows.unlink (hk : k.Lawful) (hg : f.Grows k row g) (h : Handle) :
    (f.unlink h).Grows (k.unlink h) (row.filter (· != h)) (g.without h) := by
  induction hg with
  | nil => exact .nil
  | @tree x c row below rest hc _ _ ihb ihr =>
    by_cases hx : x = h
    · simpa [Grove.without, hx] using ihr
    · obtain ⟨d, hd, hcontent, hhidden⟩ :=
        exists_cell?_of_facts (congrFun (facts_unlink f h) x) hc
      have hchildren : (k.unlink h).children x = (k.children x).filter (· != h) :=
        (hk.nodup x).erase_eq_filter h
      rw [List.filter_cons_of_pos (by simpa using hx), Grove.without, if_neg hx, ← hcontent,
        ← hhidden]
      exact .tree hd (hchildren ▸ ihb) ihr

/-- When somebody without a parent goes with everybody below, the other trees stay. -/
theorem Grows.removeTree (hs : f.Shows k) (hg : f.Grows k [r] g) (hh : f.Lives h)
    (hroot : k.parent h = none) (hne : r ≠ h) (habove : ¬ k.Above h r) :
    ((f.postorder h).foldl release f).Grows (k.drop (f.postorder h)) [r] g := by
  -- a node of both trees would put one of `r` and `h` above the other
  have hstays : ∀ x ∈ g.handles, x ∉ f.postorder h := by
    intro x hx hgone
    have hnot : ¬ k.Above r h := Kinship.not_above_of_root hroot r
    have hxr : x = r ∨ k.Above r x := by simpa using (hg.mem_handles hs.lawful).mp hx
    rcases hxr with rfl | hxr <;> rcases (hs.mem_postorder hh).mp hgone with rfl | hxh
    · exact hne rfl
    · exact habove hxh
    · exact hnot hxr
    · rcases hs.lawful.above_total hxr hxh with e | hrh | hhr
      · exact hne e
      · exact hnot hrh
      · exact habove hhr
  refine hg.of_same (fun x hx => ?_) fun x hx => ?_
  · rw [facts, cell?_releaseAll (hs.nodup_postorder hh) fun y hy => hs.lives_of_mem_postorder hh hy,
      if_neg (hstays x hx), facts]
  · rw [Kinship.children_drop, if_neg (hstays x hx)]

/-- Who was visible and is hidden is shown again as before. -/
theorem update_hide_show (hvisible : f.isHidden h = false) :
    (f.update h fun c => { c with hidden := true }).update h (fun c => { c with hidden := false }) =
      f := by
  refine ((SameSlots.update f h _).trans (.update _ h _)).eq_of_cell? fun x => ?_
  rw [cell?_update, cell?_update, cell?_update, if_pos rfl, Option.map_map]
  split
  · next e =>
    subst e
    cases hc : f.cell? x with
    | none => rfl
    | some c =>
      rw [isHidden_of_cell? hc] at hvisible
      simp [← hvisible]
  · rfl

end Forest

/-- The output of a node is what the tokens of its tree show. -/
theorem Reachable.output_of_grows {f : Forest} {k : Kinship} {r : Handle} {g : Grove}
    (hf : Reachable f) (hs : f.Shows k) (hg : f.Grows k [r] g) (layout : Layout)
    (env : Option Environment) :
    f.output r layout env = .ok (shownText (layout.pieces (g.tokens env))) := by
  have hr : f.Lives r := hg.lives r ((hg.mem_handles hs.lawful).mpr ⟨r, by simp, .inl rfl⟩)
  obtain rfl := (hs.grows_grove hr).unique hg
  rw [Forest.output, hf.pieces_eq hr]
  rfl

namespace Forest

/-- What is rendered from `r` on when the tree of `h` is left out. -/
def textWithout (f : Forest) (r h : Handle) (layout : Layout) (env : Option Environment) : String :=
  shownText (layout.pieces (((f.grove r).without h).tokens env))

variable {f f' : Forest} {k : Kinship} {r h : Handle} (hf : Reachable f) (hw : f.WellFormed k)
include hf hw

theorem output_of_hide (hr : f.Lives r) (hhide : f.setHidden h true = .ok f') (layout : Layout)
    (env : Option Environment) :
    f'.output r layout env = .ok (f.textWithout r h layout env) := by
  have hf' : Reachable f' := hf.of_exec (.setHidden h true) (by rw [exec, hhide]; rfl)
  obtain ⟨-, rfl⟩ := setHidden_eq_ok_iff.mp hhide
  have hgrows := (hw.shows.grows_grove hr).hide h
  rw [hf'.output_of_grows (hw.shows.update h fun _ => rfl) hgrows, Grove.tokens_hide, textWithout]

theorem output_of_detach (hr : f.Lives r) (hne : r ≠ h) (hdetach : f.detach h = .ok f')
    (layout : Layout) (env : Option Environment) :
    f'.output r layout env = .ok (f.textWithout r h layout env) := by
  have hf' : Reachable f' := hf.of_exec (.detach h) (by rw [exec, hdetach]; rfl)
  obtain ⟨hh, rfl⟩ := detach_eq_ok_iff.mp hdetach
  have hgrows := (hw.shows.grows_grove hr).unlink hw.shows.lawful h
  rw [List.filter_singleton, bne_iff_ne.mpr hne] at hgrows
  exact hf'.output_of_grows (hw.shows.unlink hh) hgrows layout env

/-- The node leaves its row first, so that nobody who goes is below anybody who stays. -/
theorem output_of_remove (habove : k.Above r h) {count : Nat}
    (hremove : f.remove h = .ok (count, f')) (layout : Layout) (env : Option Environment) :
    f'.output r layout env = .ok (f.textWithout r h layout env) := by
  have hf' : Reachable f' := hf.of_exec (.remove h) (by rw [exec, hremove])
  obtain ⟨hh, hresult⟩ := remove_eq_ok_iff.mp hremove
  obtain rfl : f' = _ := congrArg Prod.snd hresult
  have hne : r ≠ h := fun e => hw.shows.lawful.not_above_self h (e ▸ habove)
  have hunlinked := hw.unlink hh
  have hh' : (f.unlink h).Lives h := (lives_unlink hh h).mpr hh
  have hroot : (k.unlink h).parent h = none := by rw [Kinship.parent_unlink, if_pos rfl]
  have hnot : ¬ (k.unlink h).Above h r := fun hhr =>
    hw.shows.lawful.not_above_self r (habove.trans (Kinship.above_of_above_unlink hhr))
  have hgrows := (hw.shows.grows_grove (hw.shows.lives_of_above habove).1).unlink hw.shows.lawful h
  rw [List.filter_singleton, bne_iff_ne.mpr hne] at hgrows
  exact hf'.output_of_grows (hunlinked.removeTree hh' hroot).shows
    (hgrows.removeTree hunlinked.shows hh' hroot hne hnot) layout env

end Forest

/-- Whether somebody above a node is hidden plays no role for what is rendered from that node on. -/
theorem Reachable.output_of_hidden_above {f : Forest} (hf : Reachable f) {a r : Handle}
    (habove : f.Above a r) (hidden : Bool) :
    ∃ f', f.setHidden a hidden = .ok f' ∧
      ∀ layout env, f'.output r layout env = f.output r layout env := by
  obtain ⟨k, hw⟩ := hf.wellFormed
  rw [hw.shows.above_eq] at habove
  obtain ⟨ha, hr⟩ := hw.shows.lives_of_above habove
  have hmark : f.setHidden a hidden = .ok (f.update a fun c => { c with hidden }) :=
    Forest.setHidden_eq_ok_iff.mpr ⟨ha, rfl⟩
  have hf' : Reachable (f.update a fun c => { c with hidden }) :=
    hf.of_exec (.setHidden a hidden) (by rw [Forest.exec, hmark]; rfl)
  have hgrove := hw.shows.grows_grove hr
  have hgrows : (f.update a fun c => { c with hidden }).Grows k [r] (f.grove r) := by
    refine hgrove.of_same (fun x hx => ?_) fun _ _ => rfl
    have hne : x ≠ a := by
      rintro rfl
      rcases (hw.shows.mem_handles_grove hr).mp hx with rfl | hrx
      · exact hw.shows.lawful.not_above_self x habove
      · exact hw.shows.lawful.not_above_self r (hrx.trans habove)
    rw [Forest.facts, Forest.cell?_update, if_neg hne, Forest.facts]
  refine ⟨_, hmark, fun layout env => ?_⟩
  rw [hf'.output_of_grows (hw.shows.update a fun _ => rfl) hgrows,
    hf.output_of_grows hw.shows hgrove]

/-- **Hiding, detaching and removing show the same** in everything above: each of them gives the
output without the tree of the node, in either layout. To hide a visible node and to show it again
gives the output as it was. -/
theorem Reachable.output_left_out {f : Forest} (hf : Reachable f) {r h : Handle}
    (habove : f.Above r h) :
    ∃ hidden detached removed count,
      f.setHidden h true = .ok hidden ∧ f.detach h = .ok detached ∧
        f.remove h = .ok (count, removed) ∧
      (∀ layout env, hidden.output r layout env = .ok (f.textWithout r h layout env) ∧
        detached.output r layout env = .ok (f.textWithout r h layout env) ∧
        removed.output r layout env = .ok (f.textWithout r h layout env)) ∧
      (f.isHidden h = false → ∃ shown, hidden.setHidden h false = .ok shown ∧
        ∀ layout env, shown.output r layout env = f.output r layout env) := by
  obtain ⟨k, hw⟩ := hf.wellFormed
  rw [hw.shows.above_eq] at habove
  obtain ⟨hr, hh⟩ := hw.shows.lives_of_above habove
  have hne : r ≠ h := fun e => hw.shows.lawful.not_above_self h (e ▸ habove)
  have hhide : f.setHidden h true = .ok (f.update h fun c => { c with hidden := true }) :=
    Forest.setHidden_eq_ok_iff.mpr ⟨hh, rfl⟩
  have hdetach : f.detach h = .ok (f.unlink h) := Forest.detach_eq_ok_iff.mpr ⟨hh, rfl⟩
  have hremove := Forest.remove_eq_ok_iff.mpr ⟨hh, rfl⟩
  refine ⟨_, _, _, _, hhide, hdetach, hremove, fun layout env => ?_, fun hvisible => ?_⟩
  · exact ⟨Forest.output_of_hide hf hw hr hhide layout env,
      Forest.output_of_detach hf hw hr hne hdetach layout env,
      Forest.output_of_remove hf hw habove hremove layout env⟩
  · refine ⟨f, Forest.setHidden_eq_ok_iff.mpr ⟨?_, ?_⟩, fun _ _ => rfl⟩
    · exact (Forest.lives_update f h _ h).mpr hh
    · exact (Forest.update_hide_show hvisible).symm

/-- The only text of a block stands two fragments deep, and the inner fragment is left out. -/
theorem output_left_out_of_fragments :
    let f := Forest.empty.run [.create (.element .div), .appendNew ⟨0, 0⟩ .fragment,
      .appendNew ⟨1, 0⟩ .fragment, .appendNew ⟨2, 0⟩ (.text "a")]
    f.Above ⟨0, 0⟩ ⟨2, 0⟩ ∧ f.isHidden ⟨2, 0⟩ = false ∧
      f.output ⟨0, 0⟩ (.pretty 2) none = .ok "<div>\n  a\n</div>" ∧
      ∃ hidden detached removed count shown,
        f.setHidden ⟨2, 0⟩ true = .ok hidden ∧ f.detach ⟨2, 0⟩ = .ok detached ∧
          f.remove ⟨2, 0⟩ = .ok (count, removed) ∧
          hidden.output ⟨0, 0⟩ (.pretty 2) none = .ok "<div></div>" ∧
          detached.output ⟨0, 0⟩ (.pretty 2) none = .ok "<div></div>" ∧
          removed.output ⟨0, 0⟩ (.pretty 2) none = .ok "<div></div>" ∧
          hidden.setHidden ⟨2, 0⟩ false = .ok shown ∧
          shown.output ⟨0, 0⟩ (.pretty 2) none = .ok "<div>\n  a\n</div>" := by
  intro f
  have habove : f.Above ⟨0, 0⟩ ⟨2, 0⟩ :=
    .tail (.single ⟨⟨_, rfl⟩, rfl⟩ : f.Above ⟨0, 0⟩ ⟨1, 0⟩) ⟨⟨_, rfl⟩, rfl⟩
  have hvisible : f.isHidden ⟨2, 0⟩ = false := by decide
  have hbefore : f.output ⟨0, 0⟩ (.pretty 2) none = .ok "<div>\n  a\n</div>" := by decide
  obtain ⟨hidden, detached, removed, count, hhide, hdetach, hremove, houtput, hshow⟩ :=
    (Reachable.empty.run _ : Reachable f).output_left_out habove
  obtain ⟨hhidden, hdetached, hremoved⟩ := houtput (.pretty 2) none
  obtain ⟨shown, hshown, hagain⟩ := hshow hvisible
  have htext : f.textWithout ⟨0, 0⟩ ⟨2, 0⟩ (.pretty 2) none = "<div></div>" := by decide
  rw [htext] at hhidden hdetached hremoved
  exact ⟨habove, hvisible, hbefore, hidden, detached, removed, count, shown, hhide, hdetach,
    hremove, hhidden, hdetached, hremoved, hshown, (hagain _ _).trans hbefore⟩

end Markup

import Markup.Proofs.ChildRows
import Markup.Proofs.CompactText
import Markup.Proofs.Remembering

/-!
# Changes elsewhere

What is rendered from a node on depends on the node and on what is below it. A command that works
elsewhere may write into the links of that node: its siblings come and go, and so does its parent.
It may also use a slot again, one that a handle of an earlier node still names. Nothing of that
shows.

* `Forest.SameTree`: the tree of a node is the same in two forests, apart from remembered tags.
* `Forest.Shows.sameTree`: it is the same if every node in it holds the same and has the same
  children.
* `Command.Spares`: the command works outside the tree of a node.
* `Reachable.output_of_spares`: then the output of the node is the same, in every layout.
* `Reachable.output_run_of_spares`: so it is after many such commands.
-/

namespace Markup

/-! ## Trees without tags -/

namespace Content

theorem compactText_forgetTag (env : Option Environment) (inner : String) (c : Content) :
    c.forgetTag.compactText env inner = c.compactText env inner := by
  cases c <;> rfl

theorem openToken_forgetTag (env : Option Environment) (h : Handle) (c : Content) :
    c.forgetTag.openToken env h = (c.openToken env h).forgetTag := by
  cases c <;> rfl

end Content

namespace Grove

/-- The trees with no tag remembered. -/
def forgetTags : Grove → Grove
  | nil => nil
  | tree h content hidden below rest =>
    tree h content.forgetTag hidden below.forgetTags rest.forgetTags

theorem handles_forgetTags (g : Grove) : g.forgetTags.handles = g.handles := by
  induction g with
  | nil => rfl
  | tree h content hidden below rest ihb ihr => rw [forgetTags, handles, ihb, ihr, handles]

theorem handlesUp_forgetTags (g : Grove) : g.forgetTags.handlesUp = g.handlesUp := by
  induction g with
  | nil => rfl
  | tree h content hidden below rest ihb ihr => rw [forgetTags, handlesUp, ihb, ihr, handlesUp]

theorem compactText_forgetTags (env : Option Environment) (g : Grove) :
    g.forgetTags.compactText env = g.compactText env := by
  induction g with
  | nil => rfl
  | tree h content hidden below rest ihb ihr =>
    rw [forgetTags, compactText, compactText, ihb, ihr, Content.compactText_forgetTag]

theorem tokens_forgetTags (env : Option Environment) (g : Grove) :
    g.forgetTags.tokens env = (g.tokens env).map Token.forgetTag := by
  induction g with
  | nil => rfl
  | tree h content hidden below rest ihb ihr =>
    have hstop : content.forgetTag.stopToken?.toList =
        content.stopToken?.toList.map Token.forgetTag := by
      rw [content.stopToken?_forgetTag_eq]
      cases content.stopToken? <;> rfl
    rw [forgetTags, tokens, tokens, ihb, ihr, List.map_append, Content.openToken_forgetTag, hstop]
    cases hidden <;> simp

/-- Who is in no tree can be left out. -/
theorem without_eq_self {h : Handle} {g : Grove} (hh : h ∉ g.handles) : g.without h = g := by
  induction g with
  | nil => rfl
  | tree x content hidden below rest ihb ihr =>
    simp only [handles, List.cons_append, List.mem_cons, List.mem_append, not_or] at hh
    obtain ⟨hx, hb, hr⟩ := hh
    rw [without, if_neg (Ne.symm hx), ihb hb, ihr hr]

end Grove

namespace Forest

variable {f f' f'' : Forest} {k k' : Kinship} {r h p c x : Handle}

theorem Grows.forgetTags {row : List Handle} {g : Grove} (hg : f.Grows k row g) :
    f.forgetTags.Grows k row g.forgetTags := by
  induction hg with
  | nil => exact .nil
  | @tree x c row below rest hc _ _ ihb ihr =>
    have hd : f.forgetTags.cell? x = some { c with content := c.content.forgetTag } := by
      rw [cell?_forgetTags, hc]
      rfl
    exact .tree hd ihb ihr

/-- The tree of `r` is the same in both forests, apart from remembered tags. -/
structure SameTree (f f' : Forest) (r : Handle) : Prop where
  lives : f'.Lives r
  grove_eq : (f'.grove r).forgetTags = (f.grove r).forgetTags

namespace SameTree

theorem refl (hr : f.Lives r) : f.SameTree f r := ⟨hr, rfl⟩

theorem trans (h : f.SameTree f' r) (h' : f'.SameTree f'' r) : f.SameTree f'' r :=
  ⟨h'.lives, h'.grove_eq.trans h.grove_eq⟩

/-- The same nodes are at and below `r`, in the same order. -/
theorem descendants_eq (h : f.SameTree f' r) (hs : f.Shows k) (hs' : f'.Shows k')
    (hr : f.Lives r) : f'.descendants r = f.descendants r := by
  rw [hs'.descendants_eq h.lives, hs.descendants_eq hr, ← Grove.handles_forgetTags, h.grove_eq,
    Grove.handles_forgetTags]

theorem postorder_eq (h : f.SameTree f' r) (hs : f.Shows k) (hs' : f'.Shows k')
    (hr : f.Lives r) : f'.postorder r = f.postorder r := by
  rw [hs'.postorder_eq h.lives, hs.postorder_eq hr, ← Grove.handlesUp_forgetTags, h.grove_eq,
    Grove.handlesUp_forgetTags]

end SameTree

/-! ## Who is in the tree -/

/-- A child of somebody in the tree is in the tree, and is not `r`. -/
theorem Shows.mem_descendants_of_parent (hs : f.Shows k) (hr : f.Lives r)
    (hx : x ∈ f.descendants r) (hc : k.parent c = some x) : c ∈ f.descendants r ∧ c ≠ r := by
  have habove : k.Above r c := by
    rcases (hs.mem_descendants hr).mp hx with rfl | hrx
    · exact .single hc
    · exact .tail hrx hc
  exact ⟨(hs.mem_descendants hr).mpr (.inr habove), fun e =>
    hs.lawful.not_above_self r (e ▸ habove)⟩

/-- Trees are the same if every node in them holds the same, apart from its tag, and has the same
children. -/
theorem Shows.sameTree (hs : f.Shows k) (hs' : f'.Shows k') (hr : f.Lives r)
    (hfacts : ∀ x ∈ f.descendants r, f'.forgetTags.facts x = f.forgetTags.facts x)
    (hrows : ∀ x ∈ f.descendants r, k'.children x = k.children x) : f.SameTree f' r := by
  have hgrove := (hs.grows_grove hr).forgetTags
  rw [hs.descendants_eq hr, ← Grove.handles_forgetTags] at hfacts hrows
  have hgrove' := hgrove.of_same hfacts hrows
  have hr' : f'.Lives r := by
    rw [← lives_forgetTags]
    refine hgrove'.lives r ?_
    rw [Grove.handles_forgetTags, hs.mem_handles_grove hr]
    exact .inl rfl
  exact ⟨hr', (hs'.grows_grove hr').forgetTags.unique hgrove'⟩

/-! ## One change after another -/

namespace WellFormed

variable (hw : f.WellFormed k) (hr : f.Lives r)
include hw hr

/-- A new node comes into a slot of its own. -/
theorem sameTree_place {c : Cell} (hc : c.links = {}) : f.SameTree (f.place c).2 r := by
  refine hw.shows.sameTree (hw.shows.place hw.queue hc) hr (fun x hx => ?_) fun _ _ => rfl
  have hne : x ≠ (f.place c).1 := fun e =>
    not_lives_place hw.queue c (e ▸ hw.shows.lives_of_mem_descendants hr hx)
  rw [facts_forgetTags, facts_place hw.queue, if_neg hne, facts_forgetTags]

theorem sameTree_update {change : Cell → Cell} (hlinks : ∀ c, (change c).links = c.links)
    (hh : h ∉ f.descendants r) : f.SameTree (f.update h change) r := by
  refine hw.shows.sameTree (hw.shows.update h hlinks) hr (fun x hx => ?_) fun _ _ => rfl
  have hne : x ≠ h := fun e => hh (e ▸ hx)
  rw [facts_forgetTags, facts, cell?_update, if_neg hne, facts_forgetTags, facts]

theorem sameTree_rememberAll (hs : List Handle) : f.SameTree (hs.foldl Forest.rememberTag f) r := by
  refine hw.shows.sameTree (hw.rememberAll hs).shows hr (fun x _ => ?_) fun _ _ => rfl
  rw [forgetTags_rememberAll]

/-- Who leaves a row leaves none of the tree, if it is outside or the node itself. -/
theorem sameTree_unlink (hc : f.Lives c) (hout : c ∈ f.descendants r → c = r) :
    f.SameTree (f.unlink c) r := by
  refine hw.shows.sameTree (hw.shows.unlink hc) hr (fun x _ => ?_) fun x hx => ?_
  · rw [facts_forgetTags, facts_unlink, facts_forgetTags]
  · have hp : k.parent c ≠ some x := fun hp =>
      have ⟨hmem, hne⟩ := hw.shows.mem_descendants_of_parent hr hx hp
      hne (hout hmem)
    rw [Kinship.children_unlink, hw.shows.lawful.children_erase hp]

/-- Who comes into a row outside comes into none of the tree. -/
theorem sameTree_link (hs' : (f.link p c).Shows (k.link p c)) (hp : p ∉ f.descendants r) :
    f.SameTree (f.link p c) r := by
  refine hw.shows.sameTree hs' hr (fun x _ => ?_) fun x hx => ?_
  · rw [facts_forgetTags, facts_link, facts_forgetTags]
  · rw [Kinship.children_link, if_neg fun e : x = p => hp (e ▸ hx)]

theorem sameTree_unlinkAll (hh : f.Lives h) (hout : h ∉ f.descendants r) :
    f.SameTree ((f.children h).foldl Forest.unlink f) r := by
  have hchildren := hw.shows.children_eq hh
  have hlives : ∀ x ∈ f.children h, f.Lives x := fun x hx =>
    hw.shows.lives_of_mem_children (hchildren ▸ hx)
  refine hw.shows.sameTree (hw.unlinkAll hlives).shows hr (fun x _ => ?_) fun x hx => ?_
  · rw [facts_forgetTags, facts_unlinkAll, facts_forgetTags]
  · rw [hw.shows.lawful.children_unlinkAll, List.filter_eq_self]
    refine fun y hy => decide_eq_true fun hy' => ?_
    have hp := hw.shows.lawful.mem_children.mp hy
    rw [hchildren, hw.shows.lawful.mem_children, hp] at hy'
    exact hout (Option.some.inj hy' ▸ hx)

/-- When somebody goes with everybody below, all of the tree stays, if neither of the two is at or
below the other. -/
theorem sameTree_remove (hh : f.Lives h) (hout : h ∉ f.descendants r) (habove : ¬ k.Above h r) :
    f.SameTree (((f.unlink h).postorder h).foldl release (f.unlink h)) r := by
  have hw' := hw.unlink hh
  have hh' : (f.unlink h).Lives h := (lives_unlink hh h).mpr hh
  have hroot : (k.unlink h).parent h = none := by rw [Kinship.parent_unlink, if_pos rfl]
  have hne : r ≠ h := fun e => hout ((hw.shows.mem_descendants hr).mpr (.inl e.symm))
  have hnot : ¬ (k.unlink h).Above h r := fun hhr => habove (Kinship.above_of_above_unlink hhr)
  have hgrows := (hw.shows.grows_grove hr).unlink hw.shows.lawful h
  rw [List.filter_singleton, bne_iff_ne.mpr hne,
    Grove.without_eq_self (hw.shows.descendants_eq hr ▸ hout)] at hgrows
  have hgrows' := hgrows.removeTree hw'.shows hh' hroot hne hnot
  have hr' := hgrows'.lives r ((hw.shows.mem_handles_grove hr).mpr (.inl rfl))
  refine ⟨hr', ?_⟩
  rw [((hw'.removeTree hh' hroot).shows.grows_grove hr').unique hgrows']

/-- A node that moves leaves one row and comes into another one. -/
theorem sameTree_append (happend : f.append p c = .ok f') (hp : p ∉ f.descendants r)
    (hout : c ∈ f.descendants r → c = r) : f.SameTree f' r := by
  have hw'' := hw.of_append happend
  obtain ⟨hc, -, -, rfl⟩ := append_eq_ok_iff.mp happend
  have hw' : (f.unlink c).WellFormed (k.unlink c) := hw.unlink hc
  have hunlinked := hw.sameTree_unlink hr hc hout
  rw [← hunlinked.descendants_eq hw.shows hw'.shows hr] at hp
  exact hunlinked.trans (hw'.sameTree_link hunlinked.lives hw''.shows hp)

/-- A node that is made below another one is made, and then comes into the row. -/
theorem sameTree_grow (seed : Seed) (hp : f.TakesChildren p) (hout : p ∉ f.descendants r) :
    f.SameTree ((f.create seed).2.link p (f.create seed).1) r := by
  obtain ⟨c, hc, ha⟩ := hp
  have hw' : (f.create seed).2.WellFormed k := hw.place rfl
  have hplaced : f.SameTree (f.create seed).2 r := hw.sameTree_place hr rfl
  rw [← hplaced.descendants_eq hw.shows hw'.shows hr] at hout
  exact hplaced.trans (hw'.sameTree_link hplaced.lives (hw.grow seed hc ha).shows hout)

/-- The source of a copy remembers its tag, and then a new node comes. -/
theorem sameTree_copy {made : Handle × Forest} (hcopy : f.copy h = .ok made) :
    f.SameTree made.2 r := by
  obtain ⟨c, -, rfl⟩ := copy_eq_ok_iff.mp hcopy
  have hremembered : f.SameTree (f.rememberTag h) r := hw.sameTree_rememberAll hr [h]
  have hw' : (f.rememberTag h).WellFormed k := hw.rememberTag h
  exact hremembered.trans (hw'.sameTree_place hremembered.lives rfl)

end WellFormed

end Forest

/-! ## Commands that work elsewhere -/

/-- The command works outside the tree of `r`, or moves that tree as a whole; and it removes nobody
above `r`. -/
def Command.Spares (f : Forest) (r : Handle) : Command → Prop
  | .create _ | .copy _ | .render _ _ _ _ => True
  | .appendNew p _ => p ∉ f.descendants r
  | .append p c => p ∉ f.descendants r ∧ (c ∉ f.descendants r ∨ c = r)
  | .detach h => h ∉ f.descendants r ∨ h = r
  | .remove h => h ∉ f.descendants r ∧ ¬ f.Above h r
  | .removeChildren h | .setHidden h _ | .editAttributes h _ | .editElement h _ | .editText h _ =>
    h ∉ f.descendants r

namespace Forest

variable {f : Forest} {r : Handle}

theorem sameTree_ofChange {result : Except Fault Forest} (hr : f.Lives r)
    (h : ∀ f', result = .ok f' → f.SameTree f' r) :
    f.SameTree (Outcome.ofChange f result).forest r := by
  cases result with
  | error fault => exact .refl hr
  | ok f' => exact h f' rfl

theorem sameTree_ofCreation {result : Except Fault (Handle × Forest)} (hr : f.Lives r)
    (h : ∀ made, result = .ok made → f.SameTree made.2 r) :
    f.SameTree (Outcome.ofCreation f result).forest r := by
  cases result with
  | error fault => exact .refl hr
  | ok made => exact h made rfl

theorem WellFormed.sameTree_editAttributes {f' : Forest} {k : Kinship} {h : Handle}
    {edit : AttributeEdit} (hw : f.WellFormed k) (hr : f.Lives r) (hout : h ∉ f.descendants r)
    (hedit : f.editAttributes h edit = .ok f') : f.SameTree f' r := by
  obtain ⟨c, content, -, -, rfl⟩ := editAttributes_eq_ok_iff.mp hedit
  exact hw.sameTree_update hr (fun _ => rfl) hout

end Forest

/-- A command that works elsewhere leaves the tree as it is, whether it succeeds or not. -/
theorem Reachable.sameTree_exec {f : Forest} (hf : Reachable f) {r : Handle} (hr : f.Lives r)
    {command : Command} (h : command.Spares f r) : f.SameTree (f.exec command).forest r := by
  obtain ⟨k, hw⟩ := hf.wellFormed
  cases command with
  | create seed => exact hw.sameTree_place hr rfl
  | appendNew p seed =>
    refine Forest.sameTree_ofCreation hr fun made hmade => ?_
    obtain ⟨hp, rfl⟩ := Forest.appendNew_eq_ok_iff.mp hmade
    exact hw.sameTree_grow hr seed hp h
  | copy x => exact Forest.sameTree_ofCreation hr fun made => hw.sameTree_copy hr
  | append p c =>
    refine Forest.sameTree_ofChange hr fun f' happend => ?_
    exact hw.sameTree_append hr happend h.1 fun hmem => h.2.resolve_left (not_not_intro hmem)
  | detach x =>
    refine Forest.sameTree_ofChange hr fun f' hdetach => ?_
    obtain ⟨hx, rfl⟩ := Forest.detach_eq_ok_iff.mp hdetach
    exact hw.sameTree_unlink hr hx fun hmem => Or.resolve_left h (not_not_intro hmem)
  | removeChildren x =>
    refine Forest.sameTree_ofChange hr fun f' hremove => ?_
    obtain ⟨hx, rfl⟩ := Forest.removeChildren_eq_ok_iff.mp hremove
    exact hw.sameTree_unlinkAll hr hx h
  | remove x =>
    obtain ⟨hout, habove⟩ := h
    rw [hw.shows.above_eq] at habove
    simp only [Forest.exec]
    split
    · next count f' hremove =>
      obtain ⟨hx, hresult⟩ := Forest.remove_eq_ok_iff.mp hremove
      obtain rfl : f' = _ := congrArg Prod.snd hresult
      exact hw.sameTree_remove hr hx hout habove
    · exact .refl hr
  | setHidden x hidden =>
    refine Forest.sameTree_ofChange hr fun f' hset => ?_
    obtain ⟨-, rfl⟩ := Forest.setHidden_eq_ok_iff.mp hset
    exact hw.sameTree_update hr (fun _ => rfl) h
  | editAttributes x edit =>
    exact Forest.sameTree_ofChange hr fun f' => hw.sameTree_editAttributes hr h
  | editElement x edit =>
    simp only [Forest.exec]
    split
    · exact Forest.sameTree_ofChange hr fun f' => hw.sameTree_editAttributes hr h
    · exact .refl hr
  | editText x edit =>
    refine Forest.sameTree_ofChange hr fun f' hedit => ?_
    obtain ⟨c, content, -, -, rfl⟩ := Forest.editText_eq_ok_iff.mp hedit
    exact hw.sameTree_update hr (fun _ => rfl) h
  | render x layout env sink =>
    obtain ⟨hs, heq⟩ := f.exists_forest_render x layout env sink
    exact (congrArg (f.SameTree · r) heq).mpr (hw.sameTree_rememberAll hr hs)

/-- Output is the same where trees are: compact output has the tags that attributes give, and pretty
output takes no notice of remembered ones. -/
theorem Reachable.output_of_sameTree {f f' : Forest} (hf : Reachable f) (hf' : Reachable f')
    {r : Handle} (hr : f.Lives r) (h : f.SameTree f' r) (layout : Layout)
    (env : Option Environment) : f'.output r layout env = f.output r layout env := by
  cases layout with
  | compact =>
    rw [hf.output_compactText env hr, hf'.output_compactText env h.lives, Forest.compactText,
      Forest.compactText, ← Grove.compactText_forgetTags, h.grove_eq, Grove.compactText_forgetTags]
  | pretty unit =>
    have hpieces : ∀ g : Grove, Pretty.pieces unit (g.tokens env) =
        Pretty.pieces unit (g.forgetTags.tokens env) := by
      intro g
      rw [Grove.tokens_forgetTags]
      exact (Pretty.piecesFrom_forgetTag unit [] _).symm
    rw [Forest.output, Forest.output, hf.pieces_eq hr, hf'.pieces_eq h.lives, Layout.pieces,
      Layout.pieces, hpieces (f'.grove r), h.grove_eq, ← hpieces]

/-- **What happens elsewhere does not show.** After a command that works outside the tree of a node,
or moves the node with all of its tree, the node lives, the same nodes are below it, and its output
is the same in every layout and environment. Names of nodes that are gone are outside, even when
their slots are used in the tree. -/
theorem Reachable.output_of_spares {f : Forest} (hf : Reachable f) {r : Handle} (hr : f.Lives r)
    {command : Command} (h : command.Spares f r) :
    (f.exec command).forest.Lives r ∧
      (f.exec command).forest.descendants r = f.descendants r ∧
      ∀ layout env, (f.exec command).forest.output r layout env = f.output r layout env := by
  have hsame := hf.sameTree_exec hr h
  obtain ⟨k, hw⟩ := hf.wellFormed
  obtain ⟨k', hw'⟩ := (hf.exec command).wellFormed
  exact ⟨hsame.lives, hsame.descendants_eq hw.shows hw'.shows hr,
    hf.output_of_sameTree (hf.exec command) hr hsame⟩

/-- An item of a list: a sibling of it was removed, and its slot is used for an image inside of the
item. The stale handle is outside of the item; so are the list, and the sibling behind. -/
theorem output_of_spares_of_item :
    let f := Forest.empty.run [.create (.element .ul), .appendNew ⟨0, 0⟩ (.element .li),
      .appendNew ⟨0, 0⟩ (.element .li), .appendNew ⟨0, 0⟩ (.element .li), .remove ⟨2, 0⟩,
      .appendNew ⟨1, 0⟩ (.element .img)]
    f.descendants ⟨1, 0⟩ = [⟨1, 0⟩, ⟨2, 1⟩] ∧
      f.output ⟨1, 0⟩ .compact none = .ok "<li><img /></li>" ∧
      (f.run [.editAttributes ⟨2, 0⟩ (.set .id "a")]).output ⟨1, 0⟩ .compact none =
        .ok "<li><img /></li>" ∧
      (f.run [.append ⟨0, 0⟩ ⟨1, 0⟩]).output ⟨1, 0⟩ .compact none = .ok "<li><img /></li>" ∧
      (f.run [.remove ⟨3, 0⟩]).output ⟨1, 0⟩ .compact none = .ok "<li><img /></li>" := by
  intro f
  have hf : Reachable f := Reachable.empty.run _
  have hr : f.Lives ⟨1, 0⟩ := ⟨_, rfl⟩
  have hdescendants : f.descendants ⟨1, 0⟩ = [⟨1, 0⟩, ⟨2, 1⟩] := by decide
  have houtput : f.output ⟨1, 0⟩ .compact none = .ok "<li><img /></li>" := by decide
  have hout : ∀ h : Handle, h ∉ [⟨1, 0⟩, ⟨2, 1⟩] → h ∉ f.descendants ⟨1, 0⟩ := by
    intro h hh
    rwa [hdescendants]
  have hparent : f.parent? ⟨1, 0⟩ = some ⟨0, 0⟩ := by decide
  have hroot : f.parent? ⟨0, 0⟩ = none := by decide
  -- the only node above the item is the list, which has nobody above it
  have habove : ¬ f.Above ⟨3, 0⟩ ⟨1, 0⟩ := by
    intro ha
    obtain ⟨p, hp, -, hp'⟩ := Relation.TransGen.tail'_iff.mp ha
    obtain rfl : ⟨0, 0⟩ = p := Option.some.inj (hparent.symm.trans hp')
    rcases Relation.reflTransGen_iff_eq_or_transGen.mp hp with e | ha
    · cases e
    · obtain ⟨q, -, -, hq⟩ := Relation.TransGen.tail'_iff.mp ha
      rw [hroot] at hq
      cases hq
  have hedits : (Command.editAttributes ⟨2, 0⟩ (.set .id "a")).Spares f ⟨1, 0⟩ :=
    hout _ (by decide)
  have hmoves : (Command.append ⟨0, 0⟩ ⟨1, 0⟩).Spares f ⟨1, 0⟩ := ⟨hout _ (by decide), .inr rfl⟩
  have hremoves : (Command.remove ⟨3, 0⟩).Spares f ⟨1, 0⟩ := ⟨hout _ (by decide), habove⟩
  have hedit := hf.output_of_spares hr hedits
  have hmove := hf.output_of_spares hr hmoves
  have hremove := hf.output_of_spares hr hremoves
  exact ⟨hdescendants, houtput, (hedit.2.2 _ _).trans houtput, (hmove.2.2 _ _).trans houtput,
    (hremove.2.2 _ _).trans houtput⟩

/-- Every command of the list works outside the tree of `r`, as that tree is when its turn comes. -/
def Forest.SparesAll (f : Forest) (r : Handle) : List Command → Prop
  | [] => True
  | command :: commands => command.Spares f r ∧ (f.exec command).forest.SparesAll r commands

/-- Many commands that work elsewhere do not show either. -/
theorem Reachable.output_run_of_spares {f : Forest} (hf : Reachable f) {r : Handle}
    (hr : f.Lives r) {commands : List Command} (h : f.SparesAll r commands) (layout : Layout)
    (env : Option Environment) :
    (f.run commands).output r layout env = f.output r layout env := by
  induction commands generalizing f with
  | nil => rfl
  | cons command commands ih =>
    have hsame := hf.sameTree_exec hr h.1
    have hf' := hf.exec command
    exact (ih hf' hsame.lives h.2).trans (hf.output_of_sameTree hf' hr hsame layout env)

end Markup

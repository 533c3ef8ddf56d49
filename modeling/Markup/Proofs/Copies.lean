import Markup.Proofs.Accounts
import Markup.Proofs.Isolation
import Markup.Proofs.Progress

/-!
# Copies

A copy has what its source has of its own: the kind, the element with both groups of attributes, the
text or the template. It has none of what is around the source: it is visible, and has no parent, no
siblings and no children. The tag that the source may have to render first is the only thing that
changes anywhere else. So a copy is rendered as the source is once its children are taken away and
it is shown.

* `Content.Remembering`: the same content with its tag remembered.
* `Forest.CopiedTo`: what a copy is, and what remains as it was.
* `Forest.RendersAs`: two nodes give the same output, and any sink gets the same bytes.
* `Reachable.copy_exact`: what a copy is, what it leaves as it was, and how it is rendered.
-/

namespace Markup

/-! ## What a sink sees -/

namespace Piece

/-- The piece as a sink sees it: a tag is a text. -/
def plain : Piece → Piece
  | .tag _ e => .text e.currentTag
  | p => p

theorem shown_plain (p : Piece) : p.plain.shown = p.shown := by cases p <;> rfl

theorem shownText_map_plain (pieces : List Piece) :
    shownText (pieces.map plain) = shownText pieces := by
  rw [shownText, List.map_map]
  exact congrArg String.join (List.map_congr_left fun p _ => p.shown_plain)

end Piece

theorem Delivery.transfer_foldl_plain (s : Sink) (d : Delivery) (pieces : List Piece) :
    ((pieces.map Piece.plain).foldl (accept s) d).transfer =
      (pieces.foldl (accept s) d).transfer := by
  induction pieces generalizing d with
  | nil => rfl
  | cons p pieces ih =>
    rw [List.map_cons, List.foldl_cons, List.foldl_cons, ih]
    exact transfer_foldl_accept (by cases p <;> rfl) pieces

namespace Forest

/-- A node of one forest gives the same output as a node of another one, and any sink gets the same
bytes of it and fails in the same way. -/
def RendersAs (f : Forest) (h : Handle) (g : Forest) (n : Handle) : Prop :=
  ∀ layout env, f.output h layout env = g.output n layout env ∧ ∀ s,
    (f.render h layout env s).taken = (g.render n layout env s).taken ∧
      (f.render h layout env s).failure = (g.render n layout env s).failure

/-- It is enough that a sink sees the same pieces. -/
theorem rendersAs_of_pieces {f g : Forest} {h n : Handle}
    (hpieces : ∀ layout env, ∃ ps qs, f.pieces h layout env = .ok ps ∧
      g.pieces n layout env = .ok qs ∧ ps.map Piece.plain = qs.map Piece.plain) :
    f.RendersAs h g n := by
  intro layout env
  obtain ⟨ps, qs, hps, hqs, hplain⟩ := hpieces layout env
  have htext : shownText ps = shownText qs := by
    rw [← Piece.shownText_map_plain, hplain, Piece.shownText_map_plain]
  refine ⟨?_, fun s => ?_⟩
  · rw [output, output, hps, hqs]
    exact congrArg Except.ok htext
  · have htransfer : (deliver s ps).transfer = (deliver s qs).transfer := by
      rw [deliver, deliver, ← Delivery.transfer_foldl_plain, hplain, Delivery.transfer_foldl_plain]
    simp only [render, hps, hqs, htransfer, and_self]

end Forest

/-! ## Nodes on their own -/

namespace Content

/-- The tokens of a node that is visible and has no children. -/
def bareTokens (env : Option Environment) (h : Handle) (c : Content) : List Token :=
  c.openToken env h :: c.stopToken?.toList

theorem rememberTag_rememberTag (c : Content) : c.rememberTag.rememberTag = c.rememberTag := by
  cases c <;> rfl

/-- A sink sees neither the handle of a node nor whether its tag is remembered. -/
theorem plain_bareTokens_rememberTag (c : Content) (layout : Layout) (env : Option Environment)
    (h n : Handle) :
    (layout.pieces (c.rememberTag.bareTokens env h)).map Piece.plain =
      (layout.pieces (c.bareTokens env n)).map Piece.plain := by
  cases layout <;> cases c <;> rfl

end Content

namespace Forest

variable {f f' : Forest} {k : Kinship} {n h : Handle} {c : Cell}

/-- A visible node without children has its own tokens and no more. -/
theorem tokens_of_bare (hf : Reachable f) (hc : f.cell? n = some c) (hshown : c.hidden = false)
    (hchildren : f.children n = []) (env : Option Environment) :
    f.tokens n env = .ok (c.content.bareTokens env n) := by
  obtain ⟨k, hw⟩ := hf.wellFormed
  have hbelow := hw.shows.grows_grovesBelow ⟨c, hc⟩
  rw [← hw.shows.children_eq ⟨c, hc⟩, hchildren] at hbelow
  rw [hf.tokens_eq ⟨c, hc⟩, hw.shows.grove_eq hc, hshown, hbelow.unique .nil]
  simp [Grove.tokens, Content.bareTokens]

/-- Visible nodes without children are rendered alike if one holds what the other does with its tag
remembered, wherever they stand. -/
theorem rendersAs_of_bare {g : Forest} {d : Cell} (hf : Reachable f) (hg : Reachable g)
    (hd : f.cell? h = some d) (hc : g.cell? n = some c)
    (hcontent : d.content = c.content.rememberTag) (hd' : d.hidden = false) (hc' : c.hidden = false)
    (hrow : f.children h = []) (hrow' : g.children n = []) : f.RendersAs h g n := by
  refine rendersAs_of_pieces fun layout env => ⟨_, _, ?_, ?_,
    c.content.plain_bareTokens_rememberTag layout env h n⟩
  · rw [pieces, live_eq_ok_iff.mpr hd, tokens_of_bare hf hd hd' hrow, hcontent]
    rfl
  · rw [pieces, live_eq_ok_iff.mpr hc, tokens_of_bare hg hc hc' hrow']
    rfl

/-- A node whose children are taken away holds what it held. -/
theorem exists_cleared (hf : Reachable f) (hc : f.cell? n = some c) :
    ∃ g d, f.removeChildren n = .ok g ∧ Reachable g ∧ g.cell? n = some d ∧
      d.content = c.content ∧ g.children n = [] := by
  obtain ⟨k, hw⟩ := hf.wellFormed
  obtain ⟨g, hremove⟩ : ∃ g, f.removeChildren n = .ok g :=
    ⟨_, removeChildren_eq_ok_iff.mpr ⟨⟨c, hc⟩, rfl⟩⟩
  obtain ⟨hrows, hfacts⟩ := (hw.removeChildren_rearranges hremove).1
  obtain ⟨d, hd, hcontent, -⟩ := exists_cell?_of_facts (congrFun hfacts n) hc
  have hforest : (f.exec (.removeChildren n)).forest = g := by
    rw [exec, hremove]
    rfl
  refine ⟨g, d, hremove, hforest ▸ hf.exec _, hd, hcontent, ?_⟩
  have hrow := congrFun hrows n
  rw [Rows.clear, if_pos rfl, rows, rows, hd, hc] at hrow
  exact Option.some.inj hrow

/-- The forest in which the children of a node were taken away from it, and then it was shown. -/
def bared (f : Forest) (n : Handle) : Forest := f.run [.removeChildren n, .setHidden n false]

/-- Then the node holds what it held, is visible and has no children. -/
theorem exists_cell?_bared (hf : Reachable f) (hc : f.cell? n = some c) :
    ∃ d, (f.bared n).cell? n = some d ∧ d.content = c.content ∧ d.hidden = false ∧
      (f.bared n).children n = [] := by
  obtain ⟨g, d, hremove, hg, hd, hcontent, hrow⟩ := exists_cleared hf hc
  obtain ⟨k, hw⟩ := hg.wellFormed
  have hset : g.setHidden n false = .ok (g.update n fun c => { c with hidden := false }) :=
    setHidden_eq_ok_iff.mpr ⟨⟨d, hd⟩, rfl⟩
  have hbared : f.bared n = g.update n fun c => { c with hidden := false } := by
    simp only [bared, run, List.foldl_cons, List.foldl_nil, exec, hremove, hset, Outcome.ofChange]
  have hshown : (g.update n fun c => { c with hidden := false }).cell? n =
      some { d with hidden := false } := by
    rw [cell?_update, if_pos rfl, hd]
    rfl
  have hshows : (g.update n fun c => { c with hidden := false }).Shows k :=
    hw.shows.update n fun _ => rfl
  rw [hbared]
  refine ⟨_, hshown, hcontent, rfl, ?_⟩
  rw [hshows.children_eq ⟨_, hshown⟩, ← hw.shows.children_eq ⟨d, hd⟩, hrow]

end Forest

/-! ## What a copy is -/

/-- The same content with its tag remembered: an element has the same name and both groups of
attributes, anything else is the same. -/
structure Content.Remembering (c c' : Content) : Prop where
  kind_eq : c'.kind = c.kind
  element : ∀ e, c.element? = some e → ∃ e', c'.element? = some e' ∧ e'.name = e.name ∧
    e'.known = e.known ∧ e'.custom = e.custom ∧ e'.cachedTag = some e.compactTag
  other : c.element? = none → c' = c

theorem Content.TagCurrent.remembering {c : Content} (hc : c.TagCurrent) :
    c.Remembering c.rememberTag where
  kind_eq := by cases c <;> rfl
  element e he := by
    refine ⟨e.rememberTag, ?_, rfl, rfl, rfl, congrArg some (hc e he).currentTag_eq⟩
    rw [rememberTag, he]
    exact element?_withElement he
  other hnone := by rw [rememberTag, hnone]

namespace Forest

variable {f f' : Forest} {k : Kinship} {n h : Handle} {c : Cell}

/-- `f'` is `f` with a copy `h` of the node `n`, which held `c`: both hold `content` now. The copy
is visible and stands alone, in the first waiting slot, or in a new one if none waits. -/
structure CopiedTo (f f' : Forest) (n : Handle) (c : Cell) (h : Handle) (content : Content) :
    Prop where
  is_new : ¬ f.Known h
  copy_eq : f'.cell? h = some { content, hidden := false, links := {} }
  childless : f'.children h = []
  source_eq : f'.cell? n = some { c with content }
  others_eq : ∀ x, x ≠ n → x ≠ h → f'.cell? x = f.cell? x
  stampAt_eq : ∀ i, f'.stampAt i = f.stampAt i
  slot_eq : h.slot = f.free.headD f.size
  size_eq : f'.size = f.size + if f.free = [] then 1 else 0
  free_eq : f'.free = f.free.tail

theorem stampAt_place (f : Forest) (c : Cell) (i : Nat) :
    (f.place c).2.stampAt i = f.stampAt i := by
  unfold place
  cases f.free with
  | nil =>
    simp only [stampAt, Array.getElem?_push]
    split
    · next e => simp [e]
    · rfl
  | cons j rest =>
    simp only [stampAt, Array.getElem?_modify]
    split
    · next e =>
      subst e
      cases f.slots[j]? <;> rfl
    · rfl

/-- The source remembers its tag, and then a node comes that holds the same. -/
theorem copiedTo_of_copy (hw : f.WellFormed k) (hc : f.cell? n = some c)
    (hcopy : f.copy n = .ok (h, f')) : f.CopiedTo f' n c h c.content.rememberTag := by
  have hanswer : (f.exec (.copy n)).answer = .ok (.node h) := by
    rw [exec, hcopy]
    rfl
  have hnew := (exec_node hw.queue hanswer).1
  obtain ⟨hslot, hsize, hfree⟩ := exec_made (Outcome.made?_eq_some_iff.mpr hanswer)
  rw [exec, hcopy] at hsize hfree
  obtain ⟨d, hd, hmade⟩ := copy_eq_ok_iff.mp hcopy
  obtain rfl : c = d := Option.some.inj (hc.symm.trans hd)
  have hcell := cell?_place (hw.rememberTag n).queue { content := c.content.rememberTag }
  have hstamp := (f.rememberTag n).stampAt_place { content := c.content.rememberTag }
  rw [← hmade] at hcell hstamp
  have hcopied : f'.cell? h = some { content := c.content.rememberTag } :=
    (hcell h).trans (if_pos rfl)
  refine ⟨hnew, hcopied, ?_, ?_, fun x hxn hxh => ?_, fun i => ?_, hslot, hsize, hfree⟩
  · rw [children, firstChild?, links, (occupant?_eq_of_cell? hcopied).1]
    exact chase_none _ _
  · have hne : n ≠ h := fun e => hnew (.inl ⟨c, e ▸ hc⟩)
    rw [hcell, if_neg hne, rememberTag, cell?_update, if_pos rfl, hc]
    rfl
  · rw [hcell, if_neg hxh, rememberTag, cell?_update, if_neg hxn]
  · exact (hstamp i).trans ((SameSlots.update f n _).stampAt_eq i)

end Forest

/-- **A copy has what its source has of its own, and nothing else changes.** Whatever the node is,
hidden or not, wherever it stands and whether it remembers its tag or not, the copy is a new node
that is visible and stands alone. It is rendered as the source would be without its children and
shown, in the forest before the copy or in the one with it. -/
theorem Reachable.copy_exact {f : Forest} (hf : Reachable f) {n : Handle} {c : Cell}
    (hc : f.cell? n = some c) :
    ∃ h f' content, f.copy n = .ok (h, f') ∧ (f.exec (.copy n)).answer = .ok (.node h) ∧
      (f.exec (.copy n)).forest = f' ∧ c.content.Remembering content ∧
      f.CopiedTo f' n c h content ∧ f'.RendersAs h (f.bared n) n ∧
      f'.RendersAs h (f'.bared n) n := by
  obtain ⟨k, hw⟩ := hf.wellFormed
  obtain ⟨⟨h, f'⟩, hcopy⟩ : ∃ made, f.copy n = .ok made :=
    ⟨_, Forest.copy_eq_ok_iff.mpr ⟨c, hc, rfl⟩⟩
  have hcopied := Forest.copiedTo_of_copy hw hc hcopy
  have hforest : (f.exec (.copy n)).forest = f' := by
    rw [Forest.exec, hcopy]
    rfl
  have hf' : Reachable f' := hforest ▸ hf.exec (.copy n)
  refine ⟨h, f', _, hcopy, ?_, hforest, (hf.tagCurrent hc).remembering, hcopied, ?_, ?_⟩
  · rw [Forest.exec, hcopy]
    rfl
  · obtain ⟨d, hd, hcontent, hshown, hrow⟩ := Forest.exists_cell?_bared hf hc
    exact Forest.rendersAs_of_bare hf' (hf.run _) hcopied.copy_eq hd (by rw [hcontent]) rfl hshown
      hcopied.childless hrow
  · obtain ⟨d, hd, hcontent, hshown, hrow⟩ := Forest.exists_cell?_bared hf' hcopied.source_eq
    exact Forest.rendersAs_of_bare hf' (hf'.run _) hcopied.copy_eq hd
      (by rw [hcontent, Content.rememberTag_rememberTag]) rfl hshown hcopied.childless hrow

/-- A hidden item with a text in it, with an attribute of either group under one name; the copy uses
the slot of a comment that is gone. -/
theorem copy_exact_of_hidden_item :
    let f := Forest.empty.run [.create (.element .ul), .appendNew ⟨0, 0⟩ (.element .li),
      .editAttributes ⟨1, 0⟩ (.set .id "a"), .editAttributes ⟨1, 0⟩ (.setCustom "id" "<"),
      .appendNew ⟨1, 0⟩ (.text "b"), .create .comment, .remove ⟨3, 0⟩, .setHidden ⟨1, 0⟩ true]
    let f' := (f.exec (.copy ⟨1, 0⟩)).forest
    ∃ c content, f.cell? ⟨1, 0⟩ = some c ∧ c.hidden = true ∧ f.children ⟨1, 0⟩ = [⟨2, 0⟩] ∧
      (f.exec (.copy ⟨1, 0⟩)).answer = .ok (.node ⟨3, 1⟩) ∧ c.content.Remembering content ∧
      f.CopiedTo f' ⟨1, 0⟩ c ⟨3, 1⟩ content ∧
      f'.RendersAs ⟨3, 1⟩ (f.bared ⟨1, 0⟩) ⟨1, 0⟩ ∧ f'.RendersAs ⟨3, 1⟩ (f'.bared ⟨1, 0⟩) ⟨1, 0⟩ ∧
      (f.bared ⟨1, 0⟩).output ⟨1, 0⟩ .compact none = .ok "<li id=\"a\" id=\"&lt;\"></li>" := by
  intro f f'
  obtain ⟨c, hc⟩ : ∃ c, f.cell? ⟨1, 0⟩ = some c := ⟨_, rfl⟩
  have hhidden : (f.cell? ⟨1, 0⟩).map (·.hidden) = some true := by decide
  rw [hc] at hhidden
  have hanswer : (f.exec (.copy ⟨1, 0⟩)).answer = .ok (.node ⟨3, 1⟩) := by decide
  obtain ⟨h, g, content, -, hnode, hforest, hcontent, hcopied, hbefore, hafter⟩ :=
    (Reachable.empty.run _ : Reachable f).copy_exact hc
  obtain rfl : f' = g := hforest
  obtain rfl : ⟨3, 1⟩ = h := Answer.node.inj (Except.ok.inj (hanswer.symm.trans hnode))
  exact ⟨c, content, hc, Option.some.inj hhidden, by decide, hanswer, hcontent, hcopied, hbefore,
    hafter, by decide⟩

end Markup

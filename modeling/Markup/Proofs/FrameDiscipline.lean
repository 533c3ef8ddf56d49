import Markup.Proofs.OpenFrames

/-!
# Whose frames are open

At every token of a pretty rendering the open frames are those of the nodes that were started and
not ended yet, one for each, and these nodes are a way up to the root of the rendering. So the frame
that the end of a node takes off is always its own, there is one whenever one is asked for, and in
the end none is left.

* `Pretty.Stands`: how the frames stand behind some tokens; `Pretty.Stands.pass`: one more token
  keeps it; `Pretty.Stands.after`: so it holds behind all that were passed.
* `Pretty.Disciplined`: what becomes of the frames in a rendering.
* `Reachable.frames_disciplined`: every rendering is so, wherever it ends.
-/

namespace Markup

namespace Pretty

open Forest

variable {f : Forest} {k : Kinship} {env : Option Environment} {r : Handle} {unit : Nat}

/-- The frame of a node: marked as that of a fragment if it is one, and without a child if it is a
void element. -/
structure IsFrameOf (f : Forest) (x : Handle) (fr : Frame) : Prop where
  isFragment_iff : fr.isFragment = true ↔ (f.cell? x).map (·.content) = some .fragment
  void : ∀ e, f.element? x = some e → e.isVoid = true → fr.hasChildren = false

/-- How the frames stand behind the tokens that were passed. -/
structure Stands (f : Forest) (r : Handle) (passed : List PlacedToken) (o : Opened) : Prop where
  frames : List.Forall₂ (IsFrameOf f) o.owners o.stack
  /-- The owners are the nodes that were started and not ended, as far as they have others
  inside. -/
  mem_owners : ∀ x, x ∈ o.owners ↔ f.isOpened x = true ∧
    .start x ∈ passed.map PlacedToken.edge ∧ .stop x ∉ passed.map PlacedToken.edge
  nodup : o.owners.Nodup
  wayUp : f.WayUp r o.owners
  visible : ∀ x ∈ o.owners, f.VisibleFrom r x
  pending : PendingInnermost o.stack

theorem IsFrameOf.grown {x : Handle} {fr fr' : Frame} (h : IsFrameOf f x fr) (hg : fr.Grown fr')
    (hvoid : ∀ e, f.element? x = some e → e.isVoid = false) : IsFrameOf f x fr' := by
  rcases hg with rfl | rfl
  · exact h
  · refine ⟨h.isFragment_iff, fun e he hv => ?_⟩
    rw [hvoid e he] at hv
    cases hv

/-- Frames stay those of nodes that are not void elements when some of them get a child. -/
theorem isFrameOf_grown {owners : List Handle} {stack stack' : List Frame}
    (h : List.Forall₂ (IsFrameOf f) owners stack) (hg : List.Forall₂ Frame.Grown stack stack')
    (hvoid : ∀ x ∈ owners, ∀ e, f.element? x = some e → e.isVoid = false) :
    List.Forall₂ (IsFrameOf f) owners stack' := by
  induction h generalizing stack' with
  | nil => cases hg; exact .nil
  | @cons x fr owners stack hx _ ih =>
    cases hg with
    | cons hfr hrest =>
      exact .cons (hx.grown hfr (hvoid x List.mem_cons_self))
        (ih hrest fun y hy => hvoid y (List.mem_cons_of_mem x hy))

namespace Stands

variable {passed left : List PlacedToken} {o : Opened} {x : Handle} {c : Cell}

theorem length_eq (h : Stands f r passed o) : o.stack.length = o.owners.length :=
  h.frames.length_eq.symm

theorem lives (h : Stands f r passed o) {x : Handle} (hx : x ∈ o.owners) : f.Lives x :=
  lives_of_isOpened ((h.mem_owners x).mp hx).1

/-- Where a node starts, no open node is a void element. -/
theorem not_void (h : Stands f r passed o) (hf : Reachable f) (hw : f.WellFormed k)
    (hx : f.Lives x) (hup : f.WayUp r (x :: o.owners)) :
    ∀ y ∈ o.owners, ∀ e, f.element? y = some e → e.isVoid = false := by
  have hlives : ∀ y ∈ x :: o.owners, f.Lives y := by
    intro y hy
    rcases List.mem_cons.mp hy with rfl | hy
    · exact hx
    · exact h.lives hy
  exact fun y hy e he => (hup.takesChildren hw hlives y hy).isVoid_eq hf he

/-- Behind the start of a node that has others inside. -/
theorem opens (h : Stands f r passed o) (hf : Reachable f) (hw : f.WellFormed k)
    (hc : f.cell? x = some c) (hopened : c.content.isOpened = true)
    (hup : f.WayUp r (x :: o.owners)) (hvisible : f.VisibleFrom r x)
    (hstart : .start x ∉ passed.map PlacedToken.edge)
    (hstop : .stop x ∉ passed.map PlacedToken.edge) (unit : Nat) (token : Token) :
    Stands f r (passed ++ [⟨.start x, token⟩])
      ⟨newFrame unit c.content o.stack :: around c.content o.stack, x :: o.owners⟩ where
  frames := by
    refine .cons ⟨?_, fun _ _ _ => rfl⟩
      (isFrameOf_grown h.frames (grown_around _ _) (h.not_void hf hw ⟨c, hc⟩ hup))
    simp [newFrame, hc]
  mem_owners y := by
    have hx : f.isOpened x = true := (isOpened_of_cell? hc).trans hopened
    by_cases hy : y = x
    · simp [hy, hx, hstop]
    · simp [hy, h.mem_owners y]
  nodup := List.nodup_cons.mpr ⟨fun hx => hstart ((h.mem_owners x).mp hx).2.1, h.nodup⟩
  wayUp := hup
  visible y hy := by
    rcases List.mem_cons.mp hy with rfl | hy
    · exact hvisible
    · exact h.visible y hy
  pending := h.pending.cons_around unit c.content

/-- Behind a leaf. -/
theorem leaf (h : Stands f r passed o) (hf : Reachable f) (hw : f.WellFormed k)
    (hc : f.cell? x = some c) (hleaf : c.content.isOpened = false)
    (hup : f.WayUp r (x :: o.owners)) (token : Token) :
    Stands f r (passed ++ [⟨.start x, token⟩]) ⟨(announce o.stack).1, o.owners⟩ where
  frames := isFrameOf_grown h.frames (grown_announce _) (h.not_void hf hw ⟨c, hc⟩ hup)
  mem_owners y := by
    have hx : f.isOpened x = false := (isOpened_of_cell? hc).trans hleaf
    by_cases hy : y = x
    · simp [hy, hx, h.mem_owners x]
    · simp [hy, h.mem_owners y]
  nodup := h.nodup
  wayUp := h.wayUp
  visible := h.visible
  pending := pendingInnermost_of_settled h.pending.announce

/-- Behind the end of the innermost node. -/
theorem closes {fr : Frame} {stack : List Frame} {owners : List Handle}
    (h : Stands f r passed ⟨fr :: stack, x :: owners⟩) (token : Token) :
    Stands f r (passed ++ [⟨.stop x, token⟩]) ⟨stack, owners⟩ where
  frames := by
    cases h.frames with
    | cons _ hrest => exact hrest
  mem_owners y := by
    have hmem := h.mem_owners y
    have hx : x ∉ owners := (List.nodup_cons.mp h.nodup).1
    by_cases hy : y = x
    · simp [hy, hx]
    · simpa [hy] using hmem
  nodup := (List.nodup_cons.mp h.nodup).2
  wayUp := h.wayUp.tail
  visible y hy := h.visible y (List.mem_cons_of_mem x hy)
  pending := h.pending.tail

theorem nil (f : Forest) (r : Handle) : Stands f r [] {} where
  frames := .nil
  mem_owners x := by simp
  nodup := List.nodup_nil
  wayUp := trivial
  visible _ hx := absurd hx List.not_mem_nil
  pending _ hfr := absurd hfr List.not_mem_nil

/-- **One more token** keeps it, and does to the frames what it may do. -/
theorem pass (h : Stands f r passed o) (hf : Reachable f) (hw : f.WellFormed k) {p : PlacedToken}
    (hfinish : f.Finishes env r o.owners (p :: left))
    (hnodup : ((passed ++ p :: left).map PlacedToken.edge).Nodup)
    (hvisible : f.VisibleFrom r p.edge.node) (unit : Nat) :
    Stands f r (passed ++ [p]) (o.pass unit p) ∧ f.Finishes env r (o.pass unit p).owners left ∧
      Opened.Turn f p o (o.pass unit p) := by
  have hlength := h.length_eq
  rw [List.map_append, List.map_cons] at hnodup
  -- no edge gives two tokens, so neither this one nor those ahead were passed
  have hfresh : p.edge ∉ passed.map PlacedToken.edge := fun hm =>
    List.disjoint_of_nodup_append hnodup hm List.mem_cons_self
  obtain ⟨stack, owners⟩ := o
  cases hfinish with
  | @opens x c _ _ hc hopened hup hleft =>
    have hstop : .stop x ∉ passed.map PlacedToken.edge := fun hm =>
      List.disjoint_of_nodup_append hnodup hm
        (List.mem_cons_of_mem _ (hleft.stop_mem x List.mem_cons_self))
    rw [Opened.pass_openToken hlength hopened]
    exact ⟨h.opens hf hw hc hopened hup hvisible hfresh hstop unit _, hleft,
      .opens (c.content.isStart_openToken env x) ((isOpened_of_cell? hc).trans hopened) rfl
        (grown_around _ _)⟩
  | @leaf x c _ _ hc hleaf hup hleft =>
    rw [Opened.pass_leaf hlength hleaf]
    exact ⟨h.leaf hf hw hc hleaf hup _, hleft,
      .leaf (c.content.isStart_openToken env x) ((isOpened_of_cell? hc).trans hleaf)
        (grown_announce _)⟩
  | @closes x c token _ _ hc htoken hleft =>
    obtain ⟨fr, stack, rfl⟩ := List.exists_cons_of_length_eq_add_one hlength
    rw [Opened.pass_stopToken htoken (Nat.succ.inj hlength)]
    exact ⟨h.closes token, hleft, .closes (Content.isStart_stopToken? htoken)⟩

/-- So it holds behind all tokens that were passed. -/
theorem after {placed : List PlacedToken} (hf : Reachable f) (hw : f.WellFormed k)
    (hr : f.Lives r) (hplaced : f.Places r env placed) (hfinish : f.Finishes env r [] placed)
    (unit : Nat) (h : placed = passed ++ left) :
    Stands f r passed (Opened.after unit passed) ∧
      f.Finishes env r (Opened.after unit passed).owners left := by
  -- from the back: what is ahead grows by the last token that was passed
  induction passed using List.reverseRecOn generalizing left with
  | nil =>
    rw [List.nil_append] at h
    exact ⟨.nil f r, h ▸ hfinish⟩
  | append_singleton passed p ih =>
    rw [List.append_assoc, List.singleton_append] at h
    obtain ⟨hstands, hnext⟩ := ih h
    have hmem : p ∈ placed := h ▸ List.mem_append_right passed List.mem_cons_self
    obtain ⟨hstands, hnext, -⟩ := hstands.pass hf hw hnext (h ▸ hplaced.nodup hw.shows hr)
      (hplaced.visibleFrom hw.shows hr hmem) unit
    rw [Opened.after_concat]
    exact ⟨hstands, hnext⟩

end Stands

/-! ## Renderings -/

/-- What becomes of the frames while the tokens are turned into pieces. At every token they are
those of the open nodes; it puts on the frame of its own node, or takes that off, or does neither. A
node that starts is announced by one new line or by nothing, and in the end no node is open. -/
structure Disciplined (f : Forest) (r : Handle) (unit : Nat) (placed : List PlacedToken) :
    Prop where
  stands : ∀ passed left, placed = passed ++ left → Stands f r passed (Opened.after unit passed)
  turn : ∀ passed p left, placed = passed ++ p :: left →
    Opened.Turn f p (Opened.after unit passed) (Opened.after unit (passed ++ [p]))
  announced : ∀ passed p left, placed = passed ++ p :: left → p.token.isStart = true →
    p.token ≠ .openFragment → ∃ inner,
      (step unit (Opened.after unit passed).stack p.token).2 =
        (if (Opened.after unit passed).stack.all Frame.isPending then [] else [.text "\n"]) ++
          .spaces (childIndentation unit (Opened.after unit passed).stack) :: inner
  ended : Opened.after unit placed = {}

theorem disciplined_of_finishes {placed : List PlacedToken} (hf : Reachable f)
    (hw : f.WellFormed k) (hr : f.Lives r) (hplaced : f.Places r env placed)
    (hfinish : f.Finishes env r [] placed) (unit : Nat) : Disciplined f r unit placed where
  stands passed left h := (Stands.after hf hw hr hplaced hfinish unit h).1
  turn passed p left h := by
    obtain ⟨hstands, hnext⟩ := Stands.after hf hw hr hplaced hfinish unit h
    have hmem : p ∈ placed := h ▸ List.mem_append_right passed List.mem_cons_self
    rw [Opened.after_concat]
    exact (hstands.pass hf hw hnext (h ▸ hplaced.nodup hw.shows hr)
      (hplaced.visibleFrom hw.shows hr hmem) unit).2.2
  announced passed p left _ hstart hne := by
    rw [← announce_pieces]
    exact step_of_isStart hstart hne
  ended := by
    obtain ⟨hstands, hnext⟩ :=
      Stands.after hf hw hr hplaced hfinish unit (List.append_nil placed).symm
    have hframes := hstands.frames
    generalize Opened.after unit placed = o at hnext hframes
    obtain ⟨stack, owners⟩ := o
    obtain rfl : owners = [] := hnext.eq_nil
    cases hframes
    rfl

namespace Progress

variable {s : Sink} {placed : List PlacedToken} {p : Progress}

/-- A rendering on its way has the frames of the tokens that it came past. -/
theorem exists_passed (h : Run s unit { tokens := placed.map PlacedToken.token } p) :
    ∃ passed left, placed = passed ++ left ∧ p.tokens = left.map PlacedToken.token ∧
      p.stack = (Opened.after unit passed).stack := by
  induction h with
  | refl => exact ⟨[], placed, rfl, rfl, rfl⟩
  | tail _ hstep ih =>
    obtain ⟨passed, left, hplaced, htokens, hstack⟩ := ih
    cases hstep with
    | call _ => exact ⟨passed, left, hplaced, htokens, hstack⟩
    | offer _ => exact ⟨passed, left, hplaced, htokens, hstack⟩
    | token _ =>
      obtain ⟨q, left, rfl, rfl, rfl⟩ := List.map_eq_cons_iff.mp htokens.symm
      refine ⟨passed ++ [q], left, by rw [hplaced, List.append_cons], rfl, ?_⟩
      rw [Opened.after_concat]
      exact congrArg (fun stack => (step unit stack q.token).1) hstack

end Progress

end Pretty

open Pretty

/-- **Every frame is taken off by the node that put it on.** Wherever a pretty rendering is, its
frames are those of the tokens that it came past, and these are the frames of the open nodes, one
for each, nested, with the pending ones innermost. A token that ends a node finds its frame in
front. If the rendering succeeds, no frame is left. A removed node has no token to begin with. -/
theorem Reachable.frames_disciplined {f : Forest} (hf : Reachable f) (r : Handle)
    (env : Option Environment) (unit : Nat) (s : Sink) :
    (¬ f.Lives r →
      f.render r (.pretty unit) env s = { forest := f, failure := some (.removed r) }) ∧
    (f.Lives r → ∃ placed, f.Places r env placed ∧ Disciplined f r unit placed ∧
      (∀ p, Progress.Run s unit { tokens := placed.map PlacedToken.token } p →
        ∃ passed left, placed = passed ++ left ∧ p.tokens = left.map PlacedToken.token ∧
          p.stack = (Opened.after unit passed).stack ∧
          ∀ token tokens, p.tokens = token :: tokens → token.isStart = false → p.stack ≠ []) ∧
      (∃ last, Progress.Run s unit { tokens := placed.map PlacedToken.token } last ∧
        Progress.Last s unit last) ∧
      ∀ last, Progress.Run s unit { tokens := placed.map PlacedToken.token } last →
        Progress.Last s unit last →
        (f.render r (.pretty unit) env s).taken = last.transfer.taken ∧
        (f.render r (.pretty unit) env s).failure =
          last.transfer.failure.map (.unwritten last.transfer.taken.size) ∧
        ((f.render r (.pretty unit) env s).failure = none →
          last.tokens = [] ∧ last.stack = [])) := by
  refine ⟨fun hr => ?_, fun hr => ?_⟩
  · rw [Forest.render, Forest.pieces,
      Forest.live_of_removed (Forest.isRemoved_eq_true_iff.mpr hr)]
    rfl
  · obtain ⟨k, hw⟩ := hf.wellFormed
    have hplaced := hf.places hr env
    have hdisciplined := disciplined_of_finishes hf hw hr hplaced (hw.finishes hr) unit
    refine ⟨_, hplaced, hdisciplined, fun p hp => ?_, Progress.exists_last s unit _,
      fun last hrun hlast => ?_⟩
    · obtain ⟨passed, left, hsplit, htokens, hstack⟩ := Progress.exists_passed hp
      refine ⟨passed, left, hsplit, htokens, hstack, fun token tokens h hstop => ?_⟩
      obtain ⟨q, left, rfl, rfl, -⟩ := List.map_eq_cons_iff.mp (htokens.symm.trans h)
      rw [hstack]
      exact (hdisciplined.turn passed q left hsplit).stack_ne_nil hstop
    · obtain ⟨passed, left, hsplit, htokens, hstack⟩ := Progress.exists_passed hrun
      rw [Grove.map_token_placedTokens] at hrun
      obtain ⟨htaken, hfailure⟩ := hf.render_of_last hr hrun hlast
      refine ⟨htaken, hfailure, fun hsuccess => ?_⟩
      rw [hfailure, Option.map_eq_none_iff] at hsuccess
      obtain ⟨-, -, hnone⟩ := hlast.cases.resolve_left (by simp [hsuccess])
      obtain rfl := List.map_eq_nil_iff.mp (htokens.symm.trans hnone)
      rw [List.append_nil] at hsplit
      rw [hstack, ← hsplit, hdisciplined.ended]
      exact ⟨hnone, rfl⟩

/-- A list with a fragment in a fragment, a void element and a comment. The inner fragment leaves
nothing behind, and the image settles the outer one and the list. -/
theorem frames_disciplined_of_fragments :
    let f := Forest.empty.run [.create (.element .ul), .appendNew ⟨0, 0⟩ .fragment,
      .appendNew ⟨1, 0⟩ .fragment, .appendNew ⟨1, 0⟩ (.element .img), .appendNew ⟨0, 0⟩ .comment,
      .appendNew ⟨4, 0⟩ (.text "a"), .appendNew ⟨0, 0⟩ .comment, .setHidden ⟨6, 0⟩ true,
      .create .fragment, .remove ⟨7, 0⟩]
    let placed : List PlacedToken := [⟨.start ⟨0, 0⟩, .openElement ⟨0, 0⟩ (.ofName .ul)⟩,
      ⟨.start ⟨1, 0⟩, .openFragment⟩, ⟨.start ⟨2, 0⟩, .openFragment⟩,
      ⟨.stop ⟨2, 0⟩, .closeFragment⟩, ⟨.start ⟨3, 0⟩, .openElement ⟨3, 0⟩ (.ofName .img)⟩,
      ⟨.stop ⟨3, 0⟩, .closeElement (.ofName .img)⟩, ⟨.stop ⟨1, 0⟩, .closeFragment⟩,
      ⟨.start ⟨4, 0⟩, .openComment⟩, ⟨.start ⟨5, 0⟩, .leaf ["a"]⟩, ⟨.stop ⟨4, 0⟩, .closeComment⟩,
      ⟨.stop ⟨0, 0⟩, .closeElement (.ofName .ul)⟩]
    f.Lives ⟨0, 0⟩ ∧ f.Places ⟨0, 0⟩ none placed ∧ Disciplined f ⟨0, 0⟩ 2 placed ∧
      Opened.after 2 (placed.take 3) =
        ⟨[⟨2, true, false⟩, ⟨2, true, false⟩, ⟨0, false, false⟩], [⟨2, 0⟩, ⟨1, 0⟩, ⟨0, 0⟩]⟩ ∧
      Opened.after 2 (placed.take 5) =
        ⟨[⟨2, false, false⟩, ⟨2, true, true⟩, ⟨0, false, true⟩], [⟨3, 0⟩, ⟨1, 0⟩, ⟨0, 0⟩]⟩ ∧
      (∃ last, Progress.Run .unlimited 2 { tokens := placed.map PlacedToken.token } last ∧
        last.tokens = [] ∧ last.stack = []) ∧
      ¬ f.Lives ⟨7, 0⟩ ∧ f.render ⟨7, 0⟩ (.pretty 2) none .unlimited =
        { forest := f, failure := some (.removed ⟨7, 0⟩) } := by
  intro f placed
  have hf : Reachable f := Reachable.empty.run _
  have hlives : f.Lives ⟨0, 0⟩ := ⟨_, rfl⟩
  have hremoved : ¬ f.Lives ⟨7, 0⟩ := Forest.isRemoved_eq_true_iff.mp (by decide)
  have hplaces : f.Places ⟨0, 0⟩ none placed := by
    have hgrove : (f.grove ⟨0, 0⟩).placedTokens none = placed := by decide
    exact hgrove ▸ hf.places hlives none
  obtain ⟨_, hplaced, hdisciplined, -, ⟨last, hrun, hlast⟩, hend⟩ :=
    (hf.frames_disciplined ⟨0, 0⟩ none 2 .unlimited).2 hlives
  obtain rfl := hplaced.unique hplaces
  have hsuccess : (f.render ⟨0, 0⟩ (.pretty 2) none .unlimited).failure = none := by
    have houtput : f.output ⟨0, 0⟩ (.pretty 2) none =
        .ok "<ul>\n  <img />\n  <!--\n    a\n  -->\n</ul>" := by decide
    have hanswer := (hf.render_without_limit hlives houtput (s := .unlimited) rfl nofun).1
    rw [Forest.exec, Outcome.ofRendering] at hanswer
    cases hfailure : (f.render ⟨0, 0⟩ (.pretty 2) none .unlimited).failure with
    | none => rfl
    | some fault => simp [hfailure] at hanswer
  exact ⟨hlives, hplaces, hdisciplined, rfl, rfl,
    ⟨last, hrun, (hend last hrun hlast).2.2 hsuccess⟩, hremoved,
    (hf.frames_disciplined ⟨7, 0⟩ none 2 .unlimited).1 hremoved⟩

end Markup

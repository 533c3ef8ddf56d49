import Markup.Proofs.CompactText
import Markup.Proofs.TagPlaces

/-!
# What stands in front of a node

In the compact output of a node everybody who is visible below it has a place, behind what is
written where the nodes above start and behind the siblings in front. The open tags among the pieces
of the output are those of the visible elements, each once, in the order in which the nodes are
listed.

* `Forest.FrontOf`: the text in front of a visible node, by recursion from the top.
* `Forest.VisibleFrom`: nobody is hidden from the top down to the node; such a node has a front, and
  only one (`Forest.exists_frontOf_iff`, `Forest.FrontOf.unique`).
* `Forest.mem_tagPlaces_iff`: the places of open tags in compact output.
* `Grove.handles_tagPlaces_sublist`: they are in order.
-/

namespace Markup

open Markup.Compact

/-! ## Where a node starts -/

namespace Content

/-- What compact output writes where a node starts. -/
def opening (env : Option Environment) : Content → String
  | .fragment => ""
  | .document root => doctype ++ root.compactTag
  | .element e => e.compactTag
  | .comment => "<!-- "
  | .text t => t.markup
  | .template t => t.expand env

/-- What is written in front of the open tag of a node: a document starts with a doctype. -/
def lead : Content → String
  | .document _ => doctype
  | _ => ""

/-- The opening is what the first token of a node shows. -/
theorem shownText_openToken {c : Content} (htag : c.TagCurrent) (env : Option Environment)
    (h : Handle) : shownText (tokenPieces (c.openToken env h)) = c.opening env := by
  cases c with
  | document root =>
    simp [openToken, tokenPieces, opening, Piece.shown, (htag root rfl).currentTag_eq]
  | element e => simp [openToken, tokenPieces, opening, Piece.shown, (htag e rfl).currentTag_eq]
  | template t => simp [openToken, tokenPieces, opening, Template.expand_eq]
  | _ => simp [openToken, tokenPieces, opening]

theorem tagPlaces_openToken (c : Content) (env : Option Environment) (h : Handle) (front : String) :
    tagPlaces front (tokenPieces (c.openToken env h)) =
      (c.element?.map fun e => ⟨front ++ c.lead, h, e⟩).toList := by
  cases c <;> simp [openToken, tokenPieces, element?, lead, tagPlaces, Piece.place?]

theorem tagPlaces_stopToken (c : Content) (front : String) :
    tagPlaces front (pieces c.stopToken?.toList) = [] := by
  cases c <;> simp [stopToken?, pieces_nil, pieces_cons, tokenPieces]

end Content

/-! ## The places of open tags in trees -/

namespace Grove

/-- The pieces of compact output of trees. -/
def compactPieces (env : Option Environment) (g : Grove) : List Piece := pieces (g.tokens env)

theorem compactPieces_nil (env : Option Environment) : nil.compactPieces env = [] := rfl

/-- A tree that is not hidden is what is between the first piece of its node and the last. -/
theorem compactPieces_tree (env : Option Environment) (h : Handle) (content : Content)
    (hidden : Bool) (below rest : Grove) :
    (tree h content hidden below rest).compactPieces env =
      (if hidden then []
        else tokenPieces (content.openToken env h) ++
          (below.compactPieces env ++ pieces content.stopToken?.toList)) ++
        rest.compactPieces env := by
  rw [compactPieces, tokens, pieces_append]
  cases hidden with
  | true => rfl
  | false =>
    rw [if_neg Bool.false_ne_true, if_neg Bool.false_ne_true, pieces_cons, pieces_append]
    rfl

/-- Open tags come in the order of the nodes, and none comes twice. -/
theorem handles_tagPlaces_sublist (env : Option Environment) (g : Grove) (front : String) :
    ((tagPlaces front (g.compactPieces env)).map (·.handle)).Sublist g.handles := by
  induction g generalizing front with
  | nil => exact .slnil
  | tree h content hidden below rest ihb ihr =>
    rw [compactPieces_tree, tagPlaces_append, List.map_append, handles]
    refine .append ?_ (ihr _)
    cases hidden with
    | true => exact List.nil_sublist _
    | false =>
      have hown : ((content.element?.map fun e =>
          (⟨front ++ content.lead, h, e⟩ : TagPlace)).toList.map (·.handle)).Sublist [h] := by
        cases content.element? with
        | none => exact List.nil_sublist [h]
        | some e => exact .refl [h]
      rw [if_neg Bool.false_ne_true, tagPlaces_append, tagPlaces_append,
        Content.tagPlaces_openToken, Content.tagPlaces_stopToken, List.append_nil, List.map_append]
      exact hown.append (ihb _)

end Grove

namespace Forest

variable {f : Forest} {k : Kinship} {env : Option Environment} {r x : Handle} {front : String}

/-! ## Fronts -/

/-- The text in front of a node in the compact output of `r`, where nobody is hidden from `r` down
to the node: what is written where the nodes above start, each behind its siblings in front. -/
inductive FrontOf (f : Forest) (env : Option Environment) (r : Handle) :
    Handle → String → Prop where
  | root (hvisible : f.isHidden r = false) : FrontOf f env r r ""
  | child {p x : Handle} {c : Cell} {front : String} {before behind : List Handle}
      (hp : FrontOf f env r p front) (hc : f.cell? p = some c)
      (hrow : f.children p = before ++ x :: behind) (hvisible : f.isHidden x = false) :
      FrontOf f env r x
        (front ++ c.content.opening env ++ String.join (before.map (f.compactText env)))

/-- The node is `r` or below it, and nobody is hidden from `r` down to the node. -/
def VisibleFrom (f : Forest) (r x : Handle) : Prop :=
  (x = r ∨ f.Above r x) ∧
    ∀ y, (y = r ∨ f.Above r y) → (y = x ∨ f.Above y x) → f.isHidden y = false

theorem FrontOf.not_hidden (h : f.FrontOf env r x front) {c : Cell} (hc : f.cell? x = some c) :
    c.hidden = false := by
  have hvisible : f.isHidden x = false := by cases h <;> assumption
  rwa [isHidden_of_cell? hc] at hvisible

/-- The parent of a node with siblings in front and behind. -/
theorem Shows.parent_of_row (hs : f.Shows k) {p : Handle} {c : Cell} {before behind : List Handle}
    (hc : f.cell? p = some c) (hrow : f.children p = before ++ x :: behind) :
    k.parent x = some p := by
  rw [hs.children_eq ⟨c, hc⟩] at hrow
  exact hs.lawful.mem_children.mp (hrow ▸ List.mem_append_right before List.mem_cons_self)

theorem FrontOf.lives (h : f.FrontOf env r x front) (hs : f.Shows k) (hr : f.Lives r) :
    f.Lives x := by
  cases h with
  | root => exact hr
  | @child p _ c _ before behind hp hc hrow =>
    exact hs.lives_of_mem_children (hs.lawful.mem_children.mpr (hs.parent_of_row hc hrow))

/-- A node that is not hidden is visible from itself. -/
theorem VisibleFrom.root (hs : f.Shows k) (hvisible : f.isHidden r = false) :
    f.VisibleFrom r r := by
  rw [VisibleFrom, hs.above_eq]
  refine ⟨.inl rfl, fun y hbelow habove => ?_⟩
  rcases hbelow with rfl | hbelow
  · exact hvisible
  · rcases habove with rfl | habove
    · exact hvisible
    · exact absurd (hbelow.trans habove) (hs.lawful.not_above_self r)

/-- A child that is not hidden is visible where its parent is. -/
theorem VisibleFrom.child {p : Handle} (hp : f.VisibleFrom r p) (hs : f.Shows k)
    (hparent : k.parent x = some p) (hvisible : f.isHidden x = false) : f.VisibleFrom r x := by
  rw [VisibleFrom, hs.above_eq] at hp ⊢
  refine ⟨.inr ?_, fun y hbelow habove => ?_⟩
  · rcases hp.1 with rfl | hbelow
    · exact .single hparent
    · exact .tail hbelow hparent
  · rcases habove with rfl | habove
    · exact hvisible
    · obtain ⟨q, hyq, hq⟩ := Relation.TransGen.tail'_iff.mp habove
      obtain rfl : p = q := Option.some.inj (hparent.symm.trans hq)
      exact hp.2 y hbelow ((Relation.reflTransGen_iff_eq_or_transGen.mp hyq).imp_left Eq.symm)

/-- A front leads through visible nodes only. -/
theorem FrontOf.visibleFrom (h : f.FrontOf env r x front) (hs : f.Shows k) :
    f.VisibleFrom r x := by
  induction h with
  | root hvisible => exact .root hs hvisible
  | child _ hc hrow hvisible ih => exact ih.child hs (hs.parent_of_row hc hrow) hvisible

/-- The nodes with a front are those that are visible. -/
theorem exists_frontOf_iff (hs : f.Shows k) (hr : f.Lives r) :
    (∃ front, f.FrontOf env r x front) ↔ f.VisibleFrom r x := by
  refine ⟨fun ⟨front, h⟩ => h.visibleFrom hs, fun h => ?_⟩
  rw [VisibleFrom, hs.above_eq] at h
  obtain ⟨hbelow, hvisible⟩ := h
  have hpath : Relation.ReflTransGen (fun p x => k.parent x = some p) r x :=
    Relation.reflTransGen_iff_eq_or_transGen.mpr hbelow
  clear hbelow
  induction hpath with
  | refl => exact ⟨"", .root (hvisible r (.inl rfl) (.inl rfl))⟩
  | @tail p x hpath hparent ih =>
    obtain ⟨front, hp⟩ := ih fun y hy hyp => hvisible y hy <| .inr <| by
      rcases hyp with rfl | hyp
      · exact .single hparent
      · exact .tail hyp hparent
    obtain ⟨c, hc⟩ := hp.lives hs hr
    obtain ⟨before, behind, hrow⟩ := List.append_of_mem (hs.lawful.mem_children.mpr hparent)
    rw [← hs.children_eq ⟨c, hc⟩] at hrow
    have hbelow := Relation.reflTransGen_iff_eq_or_transGen.mp (hpath.tail hparent)
    exact ⟨_, hp.child hc hrow (hvisible x hbelow (.inl rfl))⟩

/-- No node has two fronts. -/
theorem FrontOf.unique (hs : f.Shows k) (h : f.FrontOf env r x front) {front' : String}
    (h' : f.FrontOf env r x front') : front = front' := by
  -- going down from `r` one never comes back to it
  have hroot : ∀ {p c front before behind}, f.FrontOf env r p front → f.cell? p = some c →
      f.children p ≠ before ++ r :: behind := by
    intro p c front before behind hp hc hrow
    have hparent := hs.parent_of_row hc hrow
    obtain ⟨hbelow, -⟩ := hp.visibleFrom hs
    rw [hs.above_eq] at hbelow
    rcases hbelow with rfl | hbelow
    · exact hs.lawful.not_above_self p (.single hparent)
    · exact hs.lawful.not_above_self r (.tail hbelow hparent)
  induction h generalizing front' with
  | root =>
    cases h' with
    | root => rfl
    | child hp hc hrow => exact absurd hrow (hroot hp hc)
  | @child p x c front before behind hp hc hrow _ ih =>
    cases h' with
    | root => exact absurd hrow (hroot hp hc)
    | @child p' _ c' front' before' behind' hp' hc' hrow' =>
      obtain rfl : p = p' := Option.some.inj
        ((hs.parent_of_row hc hrow).symm.trans (hs.parent_of_row hc' hrow'))
      obtain rfl : c = c' := Option.some.inj (hc.symm.trans hc')
      obtain rfl := ih hp'
      have hn := hs.lawful.nodup p
      rw [← hs.children_eq ⟨c, hc⟩, hrow, List.nodup_middle, List.nodup_cons, List.mem_append,
        not_or] at hn
      rw [hrow] at hrow'
      obtain ⟨rfl, -, -⟩ := (List.append_cons_inj_of_notMem hn.1.1 hn.1.2).mp hrow'
      rfl

/-! ## Fronts and pieces -/

/-- Trees are the tree of the first node and the others. -/
theorem Grows.compactPieces_cons (hs : f.Shows k) (env : Option Environment) {row : List Handle}
    {g : Grove} (hg : f.Grows k (x :: row) g) :
    ∃ rest, f.Grows k row rest ∧
      g.compactPieces env = (f.grove x).compactPieces env ++ rest.compactPieces env := by
  cases hg with
  | @tree _ c _ below rest hc hbelow hrest =>
    obtain rfl := hbelow.unique (hs.grows_grovesBelow ⟨c, hc⟩)
    refine ⟨rest, hrest, ?_⟩
    rw [hs.grove_eq hc, Grove.compactPieces_tree, Grove.compactPieces_tree, Grove.compactPieces_nil,
      List.append_nil]

/-- The pieces of compact output are those of the tree of the node. -/
theorem pieces_eq_compactPieces (hf : Reachable f) (hr : f.Lives r) (env : Option Environment) :
    f.pieces r .compact env = .ok ((f.grove r).compactPieces env) :=
  hf.pieces_eq hr .compact env

/-- The pieces of a tree show its compact text. -/
theorem shownText_compactPieces (hf : Reachable f) (hw : f.WellFormed k)
    (env : Option Environment) (hx : f.Lives x) :
    shownText ((f.grove x).compactPieces env) = f.compactText env x :=
  (hw.shows.grows_grove hx).shownText_pieces hf hw env

/-- In front of a tree in a row are the trees of the siblings in front. -/
theorem Grows.exists_compactPieces (hf : Reachable f) (hw : f.WellFormed k)
    (env : Option Environment) {before behind : List Handle} {g : Grove}
    (hg : f.Grows k (before ++ x :: behind) g) :
    ∃ a b, g.compactPieces env = a ++ (f.grove x).compactPieces env ++ b ∧
      shownText a = String.join (before.map (f.compactText env)) := by
  induction before generalizing g with
  | nil =>
    obtain ⟨rest, -, hpieces⟩ := hg.compactPieces_cons hw.shows env
    exact ⟨[], rest.compactPieces env, hpieces, rfl⟩
  | cons y before ih =>
    have hy : f.Lives y := by
      cases hg with
      | tree hc _ _ => exact ⟨_, hc⟩
    obtain ⟨rest, hrest, hpieces⟩ := hg.compactPieces_cons hw.shows env
    obtain ⟨a, b, hpieces', hshown⟩ := ih hrest
    refine ⟨(f.grove y).compactPieces env ++ a, b, ?_, ?_⟩
    · rw [hpieces, hpieces']
      simp only [List.append_assoc]
    · rw [shownText_append, shownText_compactPieces hf hw env hy, hshown, List.map_cons,
        String.join_cons]

/-- The output has the front of a node and then the node. -/
theorem FrontOf.exists_compactPieces (h : f.FrontOf env r x front) (hf : Reachable f)
    (hw : f.WellFormed k) :
    ∃ a b, (f.grove r).compactPieces env = a ++ (f.grove x).compactPieces env ++ b ∧
      shownText a = front := by
  induction h with
  | root => exact ⟨[], [], by simp, rfl⟩
  | @child p x c front before behind hp hc hrow hvisible ih =>
    obtain ⟨a, b, hpieces, hshown⟩ := ih
    have hbelow := hw.shows.grows_grovesBelow ⟨c, hc⟩
    rw [← hw.shows.children_eq ⟨c, hc⟩, hrow] at hbelow
    obtain ⟨a', b', hpieces', hshown'⟩ := hbelow.exists_compactPieces hf hw env
    refine ⟨a ++ (tokenPieces (c.content.openToken env p) ++ a'),
      b' ++ Compact.pieces c.content.stopToken?.toList ++ b, ?_, ?_⟩
    · rw [hpieces, hw.shows.grove_eq hc, Grove.compactPieces_tree, hp.not_hidden hc,
        if_neg Bool.false_ne_true, hpieces']
      simp only [Grove.compactPieces_nil, List.append_assoc, List.append_nil]
    · rw [shownText_append, shownText_append, hshown, hshown',
        Content.shownText_openToken (hf.tagCurrent hc), String.append_assoc]

/-- The open tags in the trees of a row are those of visible elements, if the nodes in the row have
their fronts. -/
theorem Grows.frontOf_of_mem (hf : Reachable f) (hw : f.WellFormed k) {row : List Handle}
    {g : Grove} (hg : f.Grows k row g)
    (hrow : ∀ before y behind, row = before ++ y :: behind → f.isHidden y = false →
      f.FrontOf env r y (front ++ String.join (before.map (f.compactText env))))
    {p : TagPlace} (hp : p ∈ tagPlaces front (g.compactPieces env)) :
    ∃ c text, f.cell? p.handle = some c ∧ c.content.element? = some p.element ∧
      f.FrontOf env r p.handle text ∧ p.front = text ++ c.content.lead := by
  induction hg generalizing front with
  | nil => cases hp
  | @tree h c row below rest hc hbelow hrest ihb ihr =>
    obtain ⟨_, hrest', hpieces⟩ := (Grows.tree hc hbelow hrest).compactPieces_cons hw.shows env
    obtain rfl := hrest'.unique hrest
    rw [hpieces, tagPlaces_append, shownText_compactPieces hf hw env ⟨c, hc⟩] at hp
    -- tags below `h` stand behind its opening, those in the other trees behind all of its text
    rcases List.mem_append.mp hp with hp | hp
    · obtain rfl := hbelow.unique (hw.shows.grows_grovesBelow ⟨c, hc⟩)
      rw [hw.shows.grove_eq hc, Grove.compactPieces_tree, Grove.compactPieces_nil,
        List.append_nil] at hp
      cases hhidden : c.hidden with
      | true =>
        rw [hhidden] at hp
        cases hp
      | false =>
        have hvisible : f.isHidden h = false := (isHidden_of_cell? hc).trans hhidden
        have hfront : f.FrontOf env r h front := by
          have hfront := hrow [] h row rfl hvisible
          rwa [List.map_nil, String.join_nil, String.append_empty] at hfront
        rw [hhidden, if_neg Bool.false_ne_true, tagPlaces_append, tagPlaces_append,
          Content.tagPlaces_openToken, Content.tagPlaces_stopToken, List.append_nil,
          Content.shownText_openToken (hf.tagCurrent hc)] at hp
        rcases List.mem_append.mp hp with hp | hp
        · obtain ⟨e, he, rfl⟩ := Option.map_eq_some_iff.mp (Option.mem_toList.mp hp)
          exact ⟨c, front, hc, he, hfront, rfl⟩
        · refine ihb (fun before y behind hchildren hy => ?_) hp
          rw [← hw.shows.children_eq ⟨c, hc⟩] at hchildren
          exact hfront.child hc hchildren hy
    · refine ihr (fun before y behind hrow' hy => ?_) hp
      have hfront := hrow (h :: before) y behind (congrArg (h :: ·) hrow') hy
      rwa [List.map_cons, String.join_cons, ← String.append_assoc] at hfront

/-- The open tags in the compact output of a node are those of the visible elements, each behind
its front and what leads it. -/
theorem mem_tagPlaces_iff (hf : Reachable f) (hw : f.WellFormed k) (hr : f.Lives r)
    {p : TagPlace} :
    p ∈ tagPlaces "" ((f.grove r).compactPieces env) ↔
      ∃ c front, f.cell? p.handle = some c ∧ c.content.element? = some p.element ∧
        f.FrontOf env r p.handle front ∧ p.front = front ++ c.content.lead := by
  constructor
  · intro hp
    refine (hw.shows.grows_grove hr).frontOf_of_mem hf hw (fun before y behind h hy => ?_) hp
    have hnil : before = [] := by
      cases before with
      | nil => rfl
      | cons z before => simp at h
    subst hnil
    obtain rfl : r = y := List.cons.inj h |>.1
    exact .root hy
  · rintro ⟨c, front, hc, he, hfront, hp⟩
    obtain ⟨a, b, hpieces, hshown⟩ := hfront.exists_compactPieces hf hw
    rw [hpieces, tagPlaces_append, tagPlaces_append, hw.shows.grove_eq hc, Grove.compactPieces_tree,
      hfront.not_hidden hc, if_neg Bool.false_ne_true, tagPlaces_append, tagPlaces_append,
      Content.tagPlaces_openToken, he, hshown, String.empty_append, ← hp]
    simp

end Forest

end Markup

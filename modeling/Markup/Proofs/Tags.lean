import Markup.Proofs.Contents

/-!
# Remembered tags

An element may remember its open tag, and compact output writes the remembered tag without a look
at the attributes. So an edit that changes an attribute must forget the tag, and a copy must be
given the right one. A tag is current when it is the one that the attributes give now.

* `Reachable.tagCurrent`: in a reachable forest every remembered tag is current.
* `Reachable.output_forgetTags`: so compact output is the same when all tags are forgotten first.
* `Forest.output_pretty_forgetTags`: pretty output never reads them.
-/

namespace Markup

namespace Element

/-- The remembered tag, if there is one, is what the attributes give now. -/
def TagCurrent (e : Element) : Prop := ∀ t, e.cachedTag = some t → t = e.compactTag

theorem TagCurrent.of_none {e : Element} (h : e.cachedTag = none) : e.TagCurrent := by
  intro t ht
  rw [h] at ht
  cases ht

theorem TagCurrent.currentTag_eq {e : Element} (he : e.TagCurrent) :
    e.currentTag = e.compactTag := by
  unfold currentTag
  cases ht : e.cachedTag with
  | none => rfl
  | some t => exact he t ht

/-- An edit either forgets the tag or changes nothing. -/
theorem TagCurrent.edit {e : Element} (he : e.TagCurrent) (c : AttributeEdit) :
    (e.edit c).TagCurrent := by
  rcases e.cachedTag_edit c with hnone | heq
  · exact .of_none hnone
  · rw [heq]
    exact he

theorem TagCurrent.rememberTag {e : Element} (he : e.TagCurrent) : e.rememberTag.TagCurrent := by
  intro t ht
  cases ht
  exact he.currentTag_eq

end Element

namespace Content

/-- The remembered tag of the element in a node, if there is one, is current. -/
def TagCurrent (c : Content) : Prop := ∀ e, c.element? = some e → e.TagCurrent

theorem tagCurrent_seed (seed : Seed) : seed.content.TagCurrent := by
  intro e he
  cases seed <;> cases he <;> exact .of_none rfl

theorem element?_withElement {c : Content} {e e' : Element} (he : c.element? = some e) :
    (c.withElement e').element? = some e' := by
  cases c <;> first | rfl | cases he

/-- What may happen to the content of a node keeps the tag current. -/
theorem TagCurrent.edited {c c' : Content} (hc : c.TagCurrent) (h : c.Edited c') :
    c'.TagCurrent := by
  cases h with
  | attributes edit hedit =>
    obtain ⟨e, he, rfl⟩ := Option.map_eq_some_iff.mp hedit
    intro d hd
    rw [element?_withElement he] at hd
    cases hd
    exact (hc e he).edit edit
  | text edit hedit =>
    unfold edit? at hedit
    split at hedit <;> cases hedit <;> exact fun _ h => nomatch h
  | remembered =>
    unfold rememberTag
    split
    · next e he =>
      intro d hd
      rw [element?_withElement he] at hd
      cases hd
      exact (hc e he).rememberTag
    · exact hc

/-- The node without a remembered tag. -/
def forgetTag (c : Content) : Content :=
  match c.element? with
  | some e => c.withElement e.forgetTag
  | none => c

theorem forgetTag_rememberTag (c : Content) : c.rememberTag.forgetTag = c.forgetTag := by
  cases c <;> rfl

end Content

/-- A remembered tag is the one that name and attributes of the element give now. -/
theorem Reachable.tagCurrent {f : Forest} (hf : Reachable f) {h : Handle} {c : Cell}
    (hc : f.cell? h = some c) : c.content.TagCurrent :=
  hf.content Content.tagCurrent_seed (fun _ _ hP hedited => hP.edited hedited) hc

/-! ## Forgetting the tags of a forest -/

namespace Forest

/-- The forest with no tag remembered. -/
def forgetTags (f : Forest) : Forest where
  slots := f.slots.map fun s =>
    { s with cell := s.cell.map fun c => { c with content := c.content.forgetTag } }
  free := f.free

variable (f : Forest)

theorem cell?_forgetTags (h : Handle) :
    f.forgetTags.cell? h =
      (f.cell? h).map fun c => { c with content := c.content.forgetTag } := by
  unfold cell? forgetTags
  rw [Array.getElem?_map]
  cases f.slots[h.slot]? with
  | none => rfl
  | some s =>
    simp only [Option.map_some, Option.bind_some]
    split <;> rfl

/-- An element is the same but for the tag. -/
theorem element?_forgetTags (h : Handle) :
    f.forgetTags.element? h = (f.element? h).map Element.forgetTag := by
  rw [element?, element?, cell?_forgetTags]
  cases f.cell? h with
  | none => rfl
  | some c =>
    cases hc : c.content <;>
      simp [hc, Content.forgetTag, Content.element?, Content.withElement]

theorem occupant?_forgetTags (h : Handle) :
    f.forgetTags.occupant? h =
      (f.occupant? h).map fun c => { c with content := c.content.forgetTag } := by
  unfold occupant? forgetTags
  rw [Array.getElem?_map]
  cases f.slots[h.slot]? <;> rfl

theorem links_forgetTags : f.forgetTags.links = f.links := by
  funext h
  rw [links, links, occupant?_forgetTags]
  cases f.occupant? h <;> rfl

/-- A walk follows links, and the links stay. -/
theorem walk_forgetTags (h : Handle) : f.forgetTags.walk h = f.walk h := by
  have hnext : f.forgetTags.nextEdge? h = f.nextEdge? h := by
    funext e
    cases e <;> simp only [nextEdge?, firstChild?, nextSibling?, parent?, links_forgetTags]
  have hfrom : ∀ n e, f.forgetTags.walkFrom h n e = f.walkFrom h n e := by
    intro n
    induction n with
    | zero => intro e; rfl
    | succ n ih =>
      intro e
      simp only [walkFrom, hnext, ih]
  have hsize : f.forgetTags.size = f.size := Array.size_map
  rw [walk, walk, hfrom, hsize]

theorem visibleEdges_forgetTags (inside : Option Handle) (edges : List Edge) :
    f.forgetTags.visibleEdges inside edges = f.visibleEdges inside edges := by
  induction edges generalizing inside with
  | nil => cases inside <;> rfl
  | cons e edges ih =>
    cases inside with
    | some h => cases e <;> simp only [visibleEdges, ih]
    | none =>
      cases e with
      | stop h => simp only [visibleEdges, ih]
      | start h =>
        simp only [visibleEdges, held, occupant?_forgetTags, ih]
        cases f.occupant? h <;> rfl

theorem traverse_forgetTags (h : Handle) : f.forgetTags.traverse h = f.traverse h := by
  have hremoved : f.forgetTags.isRemoved h = f.isRemoved h := by
    rw [isRemoved, isRemoved, cell?_forgetTags, Option.isNone_map]
  rw [traverse, traverse, hremoved, walk_forgetTags, visibleEdges_forgetTags]

end Forest

/-! ## Compact output -/

/-- The texts of compact output for some tokens. -/
def compactTexts (tokens : List Token) : List String := (Compact.pieces tokens).map Piece.shown

theorem compactTexts_flatten (tokens : List (List Token)) :
    compactTexts tokens.flatten = (tokens.map compactTexts).flatten := by
  induction tokens with
  | nil => rfl
  | cons ts rest ih =>
    rw [List.flatten_cons, List.map_cons, List.flatten_cons, ← ih]
    simp [compactTexts, Compact.pieces]

/-- The text of an open tag does not change when it is forgotten. -/
theorem currentTag_forgetTag {e : Element} (he : e.TagCurrent) :
    e.forgetTag.currentTag = e.currentTag := by
  rw [he.currentTag_eq]
  rfl

theorem startToken_forgetTag {c : Content} (hc : c.TagCurrent) (env : Option Environment)
    (h : Handle) :
    (c.forgetTag.startToken env h).map (fun t => compactTexts [t]) =
      (c.startToken env h).map fun t => compactTexts [t] := by
  cases c with
  | document e =>
    have htexts : compactTexts [.openDocument h e.forgetTag] = compactTexts [.openDocument h e] :=
      congrArg (fun tag => [doctype, tag]) (currentTag_forgetTag (hc e rfl))
    exact congrArg Except.ok htexts
  | element e =>
    have htexts : compactTexts [.openElement h e.forgetTag] = compactTexts [.openElement h e] :=
      congrArg (fun tag => [tag]) (currentTag_forgetTag (hc e rfl))
    exact congrArg Except.ok htexts
  | _ => rfl

theorem stopToken?_forgetTag (c : Content) :
    compactTexts c.forgetTag.stopToken?.toList = compactTexts c.stopToken?.toList := by
  cases c <;> rfl

theorem mapM_map {α β γ : Type} (g : α → Except Fault β) (m : β → γ) (l : List α) :
    (l.mapM g).map (List.map m) = l.mapM fun a => (g a).map m := by
  induction l with
  | nil => rfl
  | cons a l ih =>
    rw [List.mapM_cons, List.mapM_cons, ← ih]
    cases g a with
    | error fault => rfl
    | ok b => cases l.mapM g <;> rfl

namespace Forest

/-- Compact output, edge by edge. -/
theorem output_compact (f : Forest) (h : Handle) (env : Option Environment) :
    f.output h .compact env =
      (f.live h).bind fun _ => (f.traverse h).bind fun edges =>
        (edges.mapM fun e => (f.edgeTokens env e).map compactTexts).map fun texts =>
          String.join texts.flatten := by
  simp only [output, pieces, tokens, ← mapM_map]
  cases f.live h with
  | error fault => rfl
  | ok c =>
    cases f.traverse h with
    | error fault => rfl
    | ok edges =>
      cases hm : edges.mapM (f.edgeTokens env) with
      | error fault => simp [hm, bind, Except.bind, Except.map]
      | ok tokens =>
        have := compactTexts_flatten tokens
        simp_all [bind, Except.bind, Except.map, Layout.pieces, compactTexts, pure, Except.pure]

/-- An edge shows the same when no tag is remembered, if the tag that is remembered is current. -/
theorem edgeTokens_forgetTags {f : Forest}
    (hf : ∀ h c, f.occupant? h = some c → c.content.TagCurrent) (env : Option Environment)
    (e : Edge) :
    (f.forgetTags.edgeTokens env e).map compactTexts =
      (f.edgeTokens env e).map compactTexts := by
  cases e with
  | stop h =>
    simp only [edgeTokens, held, occupant?_forgetTags]
    cases ho : f.occupant? h with
    | none => rfl
    | some c => exact congrArg Except.ok (stopToken?_forgetTag c.content)
  | start h =>
    simp only [edgeTokens, held, occupant?_forgetTags]
    cases ho : f.occupant? h with
    | none => rfl
    | some c =>
      have hsingle : ∀ x : Except Fault Token,
          (do return [← x]).map compactTexts = x.map fun t => compactTexts [t] := by
        intro x
        cases x <;> rfl
      exact (hsingle _).trans
        ((startToken_forgetTag (hf h c ho) env h).trans (hsingle _).symm)

end Forest

/-- Compact output is the same when all tags are forgotten first. -/
theorem Reachable.output_forgetTags {f : Forest} (hf : Reachable f) (h : Handle)
    (env : Option Environment) :
    f.forgetTags.output h .compact env = f.output h .compact env := by
  have hcurrent : ∀ h c, f.occupant? h = some c → c.content.TagCurrent := by
    intro h c hc
    exact hf.tagCurrent (Forest.cell?_occupant hc)
  have hedges : (fun e => (f.forgetTags.edgeTokens env e).map compactTexts) =
      fun e => (f.edgeTokens env e).map compactTexts := by
    funext e
    exact Forest.edgeTokens_forgetTags hcurrent env e
  rw [Forest.output_compact, Forest.output_compact, f.traverse_forgetTags, hedges]
  simp only [Forest.live, f.cell?_forgetTags]
  cases f.cell? h <;> rfl

/-! ## Pretty output -/

/-- The token without a remembered tag. -/
def Token.forgetTag : Token → Token
  | .openDocument h root => .openDocument h root.forgetTag
  | .closeDocument root => .closeDocument root.forgetTag
  | .openElement h e => .openElement h e.forgetTag
  | .closeElement e => .closeElement e.forgetTag
  | token => token

namespace Pretty

/-- Pretty output takes no notice of remembered tags. -/
theorem step_forgetTag (unit : Nat) (stack : List Frame) (token : Token) :
    step unit stack token.forgetTag = step unit stack token := by
  cases token <;> rfl

theorem piecesFrom_forgetTag (unit : Nat) (stack : List Frame) (tokens : List Token) :
    piecesFrom unit stack (tokens.map Token.forgetTag) = piecesFrom unit stack tokens := by
  induction tokens generalizing stack with
  | nil => rfl
  | cons token tokens ih => rw [List.map_cons, piecesFrom, piecesFrom, step_forgetTag, ih]

end Pretty

namespace Content

theorem startToken_forgetTag_eq (c : Content) (env : Option Environment) (h : Handle) :
    c.forgetTag.startToken env h = (c.startToken env h).map Token.forgetTag := by
  cases c with
  | template t =>
    simp only [forgetTag, element?, startToken]
    cases t.portions? env <;> rfl
  | _ => rfl

theorem stopToken?_forgetTag_eq (c : Content) :
    c.forgetTag.stopToken? = c.stopToken?.map Token.forgetTag := by
  cases c <;> rfl

end Content

namespace Forest

theorem edgeTokens_forgetTags_eq (f : Forest) (env : Option Environment) (e : Edge) :
    f.forgetTags.edgeTokens env e = (f.edgeTokens env e).map (List.map Token.forgetTag) := by
  cases e with
  | stop h =>
    simp only [edgeTokens, held, occupant?_forgetTags]
    cases f.occupant? h with
    | none => rfl
    | some c =>
      simp only [Option.map_some, bind, Except.bind, c.content.stopToken?_forgetTag_eq]
      cases c.content.stopToken? <;> rfl
  | start h =>
    simp only [edgeTokens, held, occupant?_forgetTags]
    cases f.occupant? h with
    | none => rfl
    | some c =>
      simp only [Option.map_some, bind, Except.bind, c.content.startToken_forgetTag_eq]
      cases c.content.startToken env h <;> rfl

theorem tokens_forgetTags (f : Forest) (h : Handle) (env : Option Environment) :
    f.forgetTags.tokens h env = (f.tokens h env).map (List.map Token.forgetTag) := by
  have hedges : f.forgetTags.edgeTokens env =
      fun e => (f.edgeTokens env e).map (List.map Token.forgetTag) :=
    funext (f.edgeTokens_forgetTags_eq env)
  rw [tokens, tokens, traverse_forgetTags, hedges]
  simp only [← mapM_map]
  cases f.traverse h with
  | error fault => rfl
  | ok edges =>
    simp only [bind, Except.bind]
    cases edges.mapM (f.edgeTokens env) with
    | error fault => rfl
    | ok tokens => exact congrArg Except.ok (List.map_flatten ..).symm

theorem output_pretty_forgetTags (f : Forest) (h : Handle) (unit : Nat) (env : Option Environment) :
    f.forgetTags.output h (.pretty unit) env = f.output h (.pretty unit) env := by
  rw [output, output, pieces, pieces, live, live, cell?_forgetTags, tokens_forgetTags]
  cases f.cell? h with
  | none => rfl
  | some c =>
    cases f.tokens h env with
    | error fault => rfl
    | ok tokens =>
      have hpieces := Pretty.piecesFrom_forgetTag unit [] tokens
      exact congrArg (fun pieces => Except.ok (String.join (pieces.map Piece.shown))) hpieces

end Forest

/-- **In a reachable forest every remembered tag is current**, so compact output does not depend on
what is remembered. -/
theorem Reachable.tags_coherent {f : Forest} (hf : Reachable f) :
    (∀ h e t, f.element? h = some e → e.cachedTag = some t → t = e.compactTag) ∧
      ∀ h env, f.output h .compact env = f.forgetTags.output h .compact env := by
  constructor
  · intro h e t he ht
    obtain ⟨c, hc, he⟩ := Option.bind_eq_some_iff.mp he
    exact hf.tagCurrent hc e he t ht
  · intro h env
    exact (hf.output_forgetTags h env).symm

/-- A link is copied and so remembers its tag; a new address makes it forget. -/
theorem tags_coherent_of_copy :
    let f := Forest.empty.run [.create (.element .a), .editAttributes ⟨0, 0⟩ (.set .href "x"),
      .copy ⟨0, 0⟩, .editElement ⟨0, 0⟩ (.set .href "y")]
    (f.element? ⟨0, 0⟩).bind (·.cachedTag) = none ∧
      (f.element? ⟨1, 0⟩).bind (·.cachedTag) = some "<a href=\"x\">" ∧
      (∀ h e t, f.element? h = some e → e.cachedTag = some t → t = e.compactTag) ∧
        ∀ h env, f.output h .compact env = f.forgetTags.output h .compact env :=
  ⟨by decide, by decide, (Reachable.empty.run _).tags_coherent⟩

end Markup

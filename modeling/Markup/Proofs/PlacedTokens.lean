import Markup.Proofs.VisibleWalk

/-!
# Tokens in their places

A token comes from an edge of the walk through what is visible. A start edge always gives one, a
stop edge only if the node is one that has others inside: leaves end without a token. Here every
token is kept together with its edge, so that one can tell whose token it is; most tokens do not
say.

* `Grove.placedTokens`: the tokens of trees with their edges, by recursion.
* `Forest.Places`: the tokens of a node, each with the edge that gives it; `Reachable.places`: those
  of its tree are, and `Forest.Places.unique`: there is no other way.
-/

namespace Markup

/-- A token, and the edge that gives it. -/
structure PlacedToken where
  edge : Edge
  token : Token
deriving DecidableEq

theorem PlacedToken.eq_of_map_eq {a b : List PlacedToken}
    (hedges : a.map PlacedToken.edge = b.map PlacedToken.edge)
    (htokens : a.map PlacedToken.token = b.map PlacedToken.token) : a = b := by
  have hzip (l : List PlacedToken) :
      l = List.zipWith PlacedToken.mk (l.map PlacedToken.edge) (l.map PlacedToken.token) := by
    simp
  rw [hzip a, hzip b, hedges, htokens]

namespace Content

/-- Whether the node is one that has others inside: a fragment, a document, an element, be it a void
one, or a comment. -/
def isOpened : Content → Bool
  | .fragment | .document _ | .element _ | .comment => true
  | .text _ | .template _ => false

theorem isSome_stopToken? (c : Content) : c.stopToken?.isSome = c.isOpened := by
  cases c <;> rfl

theorem exists_stopToken? {c : Content} (h : c.isOpened = true) : ∃ t, c.stopToken? = some t :=
  Option.isSome_iff_exists.mp (c.isSome_stopToken?.trans h)

theorem stopToken?_of_leaf {c : Content} (h : c.isOpened = false) : c.stopToken? = none :=
  Option.isNone_iff_eq_none.mp (Option.isSome_eq_false_iff.mp (c.isSome_stopToken?.trans h))

theorem acceptsChildren_of_leaf {c : Content} (h : c.isOpened = false) :
    c.acceptsChildren = false := by
  cases c <;> first | rfl | cases h

end Content

/-- The tokens of trees, each with its edge. -/
def Grove.placedTokens (env : Option Environment) : Grove → List PlacedToken
  | nil => []
  | tree h content hidden below rest =>
    (if hidden then []
      else ⟨.start h, content.openToken env h⟩ ::
        (below.placedTokens env ++ content.stopToken?.toList.map (⟨.stop h, ·⟩))) ++
      rest.placedTokens env

theorem Grove.map_token_placedTokens (env : Option Environment) (g : Grove) :
    (g.placedTokens env).map PlacedToken.token = g.tokens env := by
  induction g with
  | nil => rfl
  | tree h content hidden below rest ihb ihr =>
    rw [placedTokens, tokens, List.map_append, ihr]
    cases hidden with
    | true => rfl
    | false => simp [ihb, Function.comp_def]

namespace Forest

/-- Whether the node is one that has others inside. -/
def isOpened (f : Forest) (h : Handle) : Bool := (f.cell? h).any (·.content.isOpened)

/-- Whether an edge gives a token. -/
def givesToken (f : Forest) : Edge → Bool
  | .start _ => true
  | .stop h => f.isOpened h

/-- The tokens of the visible part of a node, each with the edge of the walk that gives it. -/
structure Places (f : Forest) (h : Handle) (env : Option Environment)
    (placed : List PlacedToken) : Prop where
  tokens_eq : f.tokens h env = .ok (placed.map PlacedToken.token)
  exists_edges : ∃ edges, f.traverse h = .ok edges ∧
    placed.map PlacedToken.edge = edges.filter f.givesToken
  edgeTokens_eq : ∀ p ∈ placed, f.edgeTokens env p.edge = .ok [p.token]

variable {f : Forest} {k : Kinship} {env : Option Environment}

theorem isOpened_of_cell? {h : Handle} {c : Cell} (hc : f.cell? h = some c) :
    f.isOpened h = c.content.isOpened := by
  rw [isOpened, hc, Option.any_some]

theorem lives_of_isOpened {h : Handle} (hh : f.isOpened h = true) : f.Lives h := by
  obtain ⟨c, hc, -⟩ := (Option.any_eq_true _ _).mp hh
  exact ⟨c, hc⟩

theorem Grows.map_edge_placedTokens (env : Option Environment) {row : List Handle} {g : Grove}
    (hg : f.Grows k row g) :
    (g.placedTokens env).map PlacedToken.edge = g.visibleEdges.filter f.givesToken := by
  induction hg with
  | nil => rfl
  | @tree h c row below rest hc _ _ ihb ihr =>
    rw [Grove.placedTokens, Grove.visibleEdges, List.map_append, List.filter_append, ihr]
    cases c.hidden with
    | true => rfl
    | false =>
      have hopened := (isOpened_of_cell? hc).trans c.content.isSome_stopToken?.symm
      cases hstop : c.content.stopToken? <;>
        simp [List.filter_cons, ihb, givesToken, hopened, hstop]

/-- Every token comes from the edge that it is listed with. -/
theorem Grows.edgeTokens_eq
    (hf : ∀ {h c t}, f.cell? h = some c → c.content = .template t → t.spans = Markup.spans t.text)
    (env : Option Environment) {row : List Handle} {g : Grove} (hg : f.Grows k row g) :
    ∀ p ∈ g.placedTokens env, f.edgeTokens env p.edge = .ok [p.token] := by
  induction hg with
  | nil => exact fun _ h => absurd h List.not_mem_nil
  | @tree h c row below rest hc _ _ ihb ihr =>
    intro p hp
    rw [Grove.placedTokens, List.mem_append] at hp
    rcases hp with hp | hp
    · cases hhidden : c.hidden with
      | true => simp [hhidden] at hp
      | false =>
        have hheld : f.held h = .ok c := by rw [held, (occupant?_eq_of_cell? hc).1]
        simp only [hhidden, Bool.false_eq_true, if_false, List.mem_cons, List.mem_append,
          List.mem_map, Option.mem_toList] at hp
        rcases hp with rfl | hp | ⟨t, ht, rfl⟩
        · rw [edgeTokens, hheld]
          simp only [bind, Except.bind, Content.startToken_eq (fun t => hf hc)]
          rfl
        · exact ihb p hp
        · rw [edgeTokens, hheld]
          simp only [bind, Except.bind, ht]
          rfl
    · exact ihr p hp

end Forest

/-- The tokens of a node are those of its tree, each with its edge. -/
theorem Reachable.places {f : Forest} (hf : Reachable f) {h : Handle} (hh : f.Lives h)
    (env : Option Environment) : f.Places h env ((f.grove h).placedTokens env) := by
  obtain ⟨k, hw⟩ := hf.wellFormed
  have hg := hw.shows.grows_grove hh
  refine ⟨?_, ⟨_, hw.shows.traverse_eq hh, hg.map_edge_placedTokens env⟩,
    hg.edgeTokens_eq hf.spans_eq env⟩
  rw [Grove.map_token_placedTokens, hf.tokens_eq hh]

namespace Forest.Places

variable {f : Forest} {k : Kinship} {env : Option Environment} {h : Handle}
  {placed : List PlacedToken}

/-- There is only one way to place them. -/
theorem unique (hp : f.Places h env placed) {placed' : List PlacedToken}
    (hp' : f.Places h env placed') : placed = placed' := by
  obtain ⟨edges, htraverse, hedges⟩ := hp.exists_edges
  obtain ⟨edges', htraverse', hedges'⟩ := hp'.exists_edges
  rw [htraverse] at htraverse'
  cases htraverse'
  exact PlacedToken.eq_of_map_eq (hedges.trans hedges'.symm)
    (Except.ok.inj (hp.tokens_eq.symm.trans hp'.tokens_eq))

/-- The edges are edges of the tree. -/
theorem edges_sublist (hp : f.Places h env placed) (hs : f.Shows k) (hh : f.Lives h) :
    (placed.map PlacedToken.edge).Sublist (f.grove h).visibleEdges := by
  obtain ⟨edges, htraverse, hedges⟩ := hp.exists_edges
  rw [hs.traverse_eq hh] at htraverse
  cases htraverse
  rw [hedges]
  exact List.filter_sublist

/-- No edge gives two tokens. -/
theorem nodup (hp : f.Places h env placed) (hs : f.Shows k) (hh : f.Lives h) :
    (placed.map PlacedToken.edge).Nodup :=
  (hs.nodup_visibleEdges hh).sublist (hp.edges_sublist hs hh)

/-- Every token belongs to a visible node. -/
theorem visibleFrom (hp : f.Places h env placed) (hs : f.Shows k) (hh : f.Lives h)
    {p : PlacedToken} (hm : p ∈ placed) : f.VisibleFrom h p.edge.node :=
  (hs.mem_visibleEdges_iff hh).mp ((hp.edges_sublist hs hh).mem (List.mem_map_of_mem hm))

end Forest.Places

end Markup

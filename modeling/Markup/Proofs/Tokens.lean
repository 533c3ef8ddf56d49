import Markup.Proofs.Expansion
import Markup.Proofs.Invariant

/-!
# The tokens of a tree

In a reachable forest a rendering never fails for the sake of the forest: the visible edges of the
tree of a node give one token after the other, as a recursion on the tree says.

* `Grove.tokens`: the tokens of trees, by recursion.
* `Reachable.tokens_eq`: the tokens of a node are those of its tree.
-/

namespace Markup

namespace Content

/-- The token where a node starts. A template that cannot be expanded counts as empty. -/
def openToken (env : Option Environment) (h : Handle) : Content → Token
  | .fragment => .openFragment
  | .document root => .openDocument h root
  | .element e => .openElement h e
  | .comment => .openComment
  | .text t => .leaf [t.markup]
  | .template t => .leaf ((t.portions? env).getD [])

/-- A template with the references of its text is expanded. -/
theorem startToken_eq {c : Content} (hc : ∀ t, c = .template t → t.spans = Markup.spans t.text)
    (env : Option Environment) (h : Handle) : c.startToken env h = .ok (c.openToken env h) := by
  cases c with
  | template t =>
    rw [startToken, openToken, Template.portions?_eq (hc t rfl) env]
    rfl
  | _ => rfl

end Content

/-- The tokens of trees, one tree behind the other. -/
def Grove.tokens (env : Option Environment) : Grove → List Token
  | nil => []
  | tree h content hidden below rest =>
    (if hidden then []
      else content.openToken env h :: (below.tokens env ++ content.stopToken?.toList)) ++
      rest.tokens env

theorem mapM_flatten_append {α β : Type} {g : α → Except Fault (List β)} {l m : List α}
    {a b : List β} (hl : (l.mapM g).map List.flatten = .ok a)
    (hm : (m.mapM g).map List.flatten = .ok b) :
    ((l ++ m).mapM g).map List.flatten = .ok (a ++ b) := by
  rw [List.mapM_append]
  cases h : l.mapM g with
  | error fault => rw [h] at hl; cases hl
  | ok x =>
    cases h' : m.mapM g with
    | error fault => rw [h'] at hm; cases hm
    | ok y =>
      rw [h] at hl
      rw [h'] at hm
      cases hl
      cases hm
      simp [bind, Except.bind, pure, Except.pure, Except.map]

theorem mapM_flatten_singleton {α β : Type} {g : α → Except Fault (List β)} {x : α} {a : List β}
    (h : g x = .ok a) : ([x].mapM g).map List.flatten = .ok a := by
  rw [List.mapM_cons, h]
  simp [bind, Except.bind, pure, Except.pure, Except.map]

namespace Forest

variable {f : Forest} {k : Kinship}

/-- The visible edges of a grove give its tokens. -/
theorem Grows.mapM_edgeTokens
    (hf : ∀ {h c t}, f.cell? h = some c → c.content = .template t → t.spans = Markup.spans t.text)
    (env : Option Environment) {row : List Handle} {g : Grove} (hg : f.Grows k row g) :
    (g.visibleEdges.mapM (f.edgeTokens env)).map List.flatten = .ok (g.tokens env) := by
  induction hg with
  | nil => rfl
  | @tree h c row below rest hc _ _ ihb ihr =>
    have hheld : f.held h = .ok c := by rw [held, (occupant?_eq_of_cell? hc).1]
    have hstart : f.edgeTokens env (.start h) = .ok [c.content.openToken env h] := by
      rw [edgeTokens, hheld]
      simp only [bind, Except.bind, Content.startToken_eq (fun t => hf hc)]
      rfl
    have hstop : f.edgeTokens env (.stop h) = .ok c.content.stopToken?.toList := by
      rw [edgeTokens, hheld]
      rfl
    rw [Grove.visibleEdges, Grove.tokens]
    refine mapM_flatten_append ?_ ihr
    cases c.hidden with
    | true => rfl
    | false =>
      exact mapM_flatten_append (mapM_flatten_append (mapM_flatten_singleton hstart) ihb)
        (mapM_flatten_singleton hstop)

end Forest

/-- The tokens of a node are those of its tree. -/
theorem Reachable.tokens_eq {f : Forest} (hf : Reachable f) {h : Handle} (hh : f.Lives h)
    (env : Option Environment) : f.tokens h env = .ok ((f.grove h).tokens env) := by
  obtain ⟨k, hw⟩ := hf.wellFormed
  have htokens := (hw.shows.grows_grove hh).mapM_edgeTokens hf.spans_eq env
  rw [Forest.tokens, hw.shows.traverse_eq hh]
  cases hm : (f.grove h).visibleEdges.mapM (f.edgeTokens env) with
  | error fault => rw [hm] at htokens; cases htokens
  | ok tokens =>
    rw [hm] at htokens
    simp only [bind, Except.bind, hm]
    exact htokens

/-- The pieces of a node are those of the tokens of its tree. -/
theorem Reachable.pieces_eq {f : Forest} (hf : Reachable f) {h : Handle} (hh : f.Lives h)
    (layout : Layout) (env : Option Environment) :
    f.pieces h layout env = .ok (layout.pieces ((f.grove h).tokens env)) := by
  obtain ⟨c, hc⟩ := id hh
  rw [Forest.pieces, Forest.live, hc, hf.tokens_eq hh]
  rfl

end Markup

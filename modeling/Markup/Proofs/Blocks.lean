import Markup.Proofs.Frames
import Markup.Proofs.Tokens

/-!
# Pretty output by recursion

Pretty output is written token by token, and a fragment is announced only when something visible
starts in it. The result has a plain recursive definition. The items of a node are the nodes that
stand in its place: none for a hidden node, those of its children for a fragment, and the node
itself otherwise. An item is a block of lines, around the blocks of the items inside.

* `Content.block`: the block of a node around the blocks inside.
* `Forest.LaysOut`: items and blocks follow the recursion.
* `Reachable.output_pretty`: the pretty output of a node is the blocks of its items, by lines.
-/

namespace Markup

/-- So many spaces. -/
def spaces (count : Nat) : String := (Piece.spaces count).shown

/-- The blocks inside a node at indentation `i`, and the beginning of the line of its end. -/
def enclosed (i : Nat) (inner : List String) : String :=
  if inner.isEmpty then "" else String.join (inner.map ("\n" ++ ·)) ++ "\n" ++ spaces i

/-- The block of an element at indentation `i`. -/
def Element.block (e : Element) (i : Nat) (inner : List String) : String :=
  spaces i ++ e.sortedTag ++
    if e.isVoid then "" else enclosed i inner ++ "</" ++ e.name.spelling ++ ">"

/-- The block of a node at indentation `i`, around the blocks of the items inside. A fragment has
none of its own. -/
def Content.block (env : Option Environment) (i : Nat) (inner : List String) : Content → String
  | .fragment => ""
  | .document root => spaces i ++ doctype ++ "\n" ++ root.block i inner
  | .element e => e.block i inner
  | .comment =>
    spaces i ++ "<!--" ++ if inner.isEmpty then " -->" else enclosed i inner ++ "-->"
  | .text t => spaces i ++ t.markup
  | .template t => spaces i ++ t.expand env

namespace Grove

/-- The nodes that stand in the place of the trees. -/
def items : Grove → List Handle
  | nil => []
  | tree h content hidden below rest =>
    (if hidden then [] else if content = .fragment then below.items else [h]) ++ rest.items

/-- The blocks of these nodes at indentation `i`. -/
def blocks (env : Option Environment) (unit : Nat) : Grove → Nat → List String
  | nil, _ => []
  | tree _ content hidden below rest, i =>
    (if hidden then []
      else if content = .fragment then below.blocks env unit i
      else [content.block env i (below.blocks env unit (i + unit))]) ++ rest.blocks env unit i

theorem tokens_tree (env : Option Environment) (h : Handle) (content : Content) (hidden : Bool)
    (below rest : Grove) :
    (tree h content hidden below rest).tokens env =
      (tree h content hidden below nil).tokens env ++ rest.tokens env := by
  simp [tokens]

theorem blocks_tree (env : Option Environment) (unit : Nat) (h : Handle) (content : Content)
    (hidden : Bool) (below rest : Grove) (i : Nat) :
    (tree h content hidden below rest).blocks env unit i =
      (tree h content hidden below nil).blocks env unit i ++ rest.blocks env unit i := by
  simp [blocks]

end Grove

/-! ## What the tokens of a tree write -/

namespace Pretty

variable {unit : Nat} {stack : List Frame}

/-- What is written where an element ends. -/
def closing (e : Element) (fr : Frame) : List Piece :=
  (if fr.hasChildren && !e.isVoid then [.text "\n", .spaces fr.indentation] else []) ++ closeTag e

theorem step_openDocument (h : Handle) (e : Element) :
    step unit stack (.openDocument h e) = openNode unit stack fun i =>
      [.text doctype, .text "\n", .spaces i, .text e.sortedTag] := rfl

theorem step_openElement (h : Handle) (e : Element) :
    step unit stack (.openElement h e) = openNode unit stack fun _ => [.text e.sortedTag] := rfl

theorem step_openComment :
    step unit stack .openComment = openNode unit stack fun _ => [.text "<!--"] := rfl

theorem step_closeComment (fr : Frame) :
    step unit (fr :: stack) .closeComment = (stack,
      if fr.hasChildren then [.text "\n", .spaces fr.indentation, .text "-->"]
      else [.text " -->"]) := rfl

theorem step_closeDocument (fr : Frame) (e : Element) :
    step unit (fr :: stack) (.closeDocument e) = (stack, closing e fr) := rfl

theorem step_closeElement (fr : Frame) (e : Element) :
    step unit (fr :: stack) (.closeElement e) = (stack, closing e fr) := rfl

/-- The end of an element behind what is inside; a void element has nothing inside. -/
theorem shownText_closing {e : Element} {texts : List String}
    (hvoid : e.isVoid = true → texts = []) (i : Nat) :
    String.join (texts.map ("\n" ++ ·)) ++
        shownText (closing e
          { indentation := i, isFragment := false, hasChildren := !texts.isEmpty }) =
      if e.isVoid then "" else enclosed i texts ++ "</" ++ e.name.spelling ++ ">" := by
  cases hv : e.isVoid with
  | true => simp [hvoid hv, closing, closeTag, hv]
  | false =>
    by_cases ht : texts = []
    · simp [ht, closing, closeTag, hv, enclosed, String.append_assoc]
    · simp [ht, closing, closeTag, hv, enclosed, spaces, String.append_assoc]

/-- What the frame of a node with others inside looks like when it is opened. -/
def nodeFrame (unit : Nat) (stack : List Frame) : Frame where
  indentation := childIndentation unit stack
  isFragment := false

variable {tokens : List Token} {texts : List String}

theorem writes_document {root : Element} (hvoid : root.isVoid = true → texts = [])
    (h : Writes unit (nodeFrame unit stack :: (announce stack).1) tokens texts)
    (env : Option Environment) (x : Handle) :
    Writes unit stack (.openDocument x root :: (tokens ++ [.closeDocument root]))
      [(Content.document root).block env (childIndentation unit stack) texts] := by
  have hwrites := writes_node (step_openDocument x root)
    (fun fr _ => step_closeDocument fr root) h
  rw [shownText_closing hvoid] at hwrites
  simpa [Content.block, Element.block, spaces, String.append_assoc] using hwrites

theorem writes_element {e : Element} (hvoid : e.isVoid = true → texts = [])
    (h : Writes unit (nodeFrame unit stack :: (announce stack).1) tokens texts)
    (env : Option Environment) (x : Handle) :
    Writes unit stack (.openElement x e :: (tokens ++ [.closeElement e]))
      [(Content.element e).block env (childIndentation unit stack) texts] := by
  have hwrites := writes_node (step_openElement x e) (fun fr _ => step_closeElement fr e) h
  rw [shownText_closing hvoid] at hwrites
  simpa [Content.block, Element.block, spaces, String.append_assoc] using hwrites

theorem writes_comment (h : Writes unit (nodeFrame unit stack :: (announce stack).1) tokens texts)
    (env : Option Environment) :
    Writes unit stack (.openComment :: (tokens ++ [.closeComment]))
      [Content.comment.block env (childIndentation unit stack) texts] := by
  have hwrites := writes_node step_openComment (fun fr _ => step_closeComment fr) h
  by_cases ht : texts = []
  · simpa [ht, Content.block, spaces, String.append_assoc] using hwrites
  · simpa [ht, Content.block, enclosed, spaces, String.append_assoc] using hwrites

theorem writes_text (unit : Nat) (stack : List Frame) (env : Option Environment) (t : Text) :
    Writes unit stack [.leaf [t.markup]]
      [(Content.text t).block env (childIndentation unit stack) []] := by
  have hwrites := writes_leaf unit stack [t.markup]
  rwa [String.join_cons, String.join_nil, String.append_empty] at hwrites

theorem writes_template (unit : Nat) (stack : List Frame) (env : Option Environment)
    (t : Template) :
    Writes unit stack [.leaf ((t.portions? env).getD [])]
      [(Content.template t).block env (childIndentation unit stack) []] := by
  have hwrites := writes_leaf unit stack ((t.portions? env).getD [])
  rwa [← Template.expand_eq] at hwrites

end Pretty

namespace Grove

open Pretty

variable {env : Option Environment} {unit : Nat}

/-- One tree writes its blocks, in front of anything and with any frames open. -/
theorem writes_tree {h : Handle} {content : Content} {hidden : Bool} {below : Grove}
    (hleaf : content.acceptsChildren = false → below = .nil)
    (hroot : ∀ root, content = .document root → root.isVoid = false)
    (hbelow : ∀ stack, stack ≠ [] → Writes unit stack (below.tokens env)
      (below.blocks env unit (childIndentation unit stack)))
    (stack : List Frame) :
    Writes unit stack ((tree h content hidden below nil).tokens env)
      ((tree h content hidden below nil).blocks env unit (childIndentation unit stack)) := by
  simp only [tokens, blocks, List.append_nil]
  have hinner := hbelow (nodeFrame unit stack :: (announce stack).1) (List.cons_ne_nil _ _)
  cases hidden with
  | true => exact writes_nil unit stack
  | false =>
    cases content with
    | fragment => exact writes_fragment (hbelow _ (List.cons_ne_nil _ _))
    | document root =>
      refine writes_document (fun hvoid => ?_) hinner env h
      rw [hroot root rfl] at hvoid
      cases hvoid
    | element e =>
      refine writes_element (fun hvoid => ?_) hinner env h
      rw [hleaf (by simp [Content.acceptsChildren, hvoid])]
      rfl
    | comment => exact writes_comment hinner env
    | text t =>
      rw [hleaf rfl]
      exact writes_text unit stack env t
    | template t =>
      rw [hleaf rfl]
      exact writes_template unit stack env t

end Grove

namespace Forest

open Pretty

variable {f : Forest} {k : Kinship}

/-- The tree of a node writes its blocks if those below do. -/
theorem WellFormed.writes_tree (hf : Reachable f) (hw : f.WellFormed k)
    {env : Option Environment} {unit : Nat} {h : Handle} {c : Cell} {below : Grove}
    (hc : f.cell? h = some c) (hg : f.Grows k (k.children h) below)
    (hbelow : ∀ stack, stack ≠ [] → Writes unit stack (below.tokens env)
      (below.blocks env unit (childIndentation unit stack))) (stack : List Frame) :
    Writes unit stack ((Grove.tree h c.content c.hidden below .nil).tokens env)
      ((Grove.tree h c.content c.hidden below .nil).blocks env unit
        (childIndentation unit stack)) := by
  exact Grove.writes_tree (fun ha => hw.eq_nil_of_grows hc ha hg)
    (fun root hroot => hf.isVoid_of_document hc hroot) hbelow stack

/-- The trees of a row write their blocks as children of the innermost open frame. -/
theorem Grows.writes (hf : Reachable f) (hw : f.WellFormed k) (env : Option Environment)
    (unit : Nat) {row : List Handle} {g : Grove} (hg : f.Grows k row g) (stack : List Frame)
    (hstack : stack ≠ []) :
    Writes unit stack (g.tokens env) (g.blocks env unit (childIndentation unit stack)) := by
  induction hg generalizing stack with
  | nil => exact writes_nil unit stack
  | @tree h c row below rest hc hbelow hrest ihb ihr =>
    have htree := hw.writes_tree hf hc hbelow ihb stack
    have hrow : ∀ texts, Writes unit (settled stack texts) (rest.tokens env)
        (rest.blocks env unit (childIndentation unit stack)) := by
      intro texts
      have hsettled := ihr (settled stack texts) (settled_ne_nil hstack texts)
      rwa [childIndentation_settled] at hsettled
    rw [Grove.tokens_tree, Grove.blocks_tree]
    exact htree.append hstack (hrow _)

/-- The pretty pieces of a node show its blocks, one on a line behind the other. -/
theorem textFrom_grove (hf : Reachable f) (env : Option Environment) (unit : Nat) {h : Handle}
    (hh : f.Lives h) :
    textFrom unit [] ((f.grove h).tokens env) =
      "\n".intercalate ((f.grove h).blocks env unit 0) := by
  obtain ⟨k, hw⟩ := hf.wellFormed
  obtain ⟨c, hc⟩ := id hh
  have hbelow := hw.shows.grows_grovesBelow hh
  have htree := hw.writes_tree hf hc hbelow (hbelow.writes hf hw env unit) [] []
  rw [List.append_nil, ← hw.shows.grove_eq hc] at htree
  rw [htree]
  by_cases hb : (f.grove h).blocks env unit 0 = []
  · simp [childIndentation, hb, rowText, textFrom, piecesFrom]
  · simp [childIndentation, hb, rowText, textFrom, piecesFrom, announce]

/-! ## The recursion on the forest -/

/-- The nodes that stand in the place of a node. -/
def items (f : Forest) (h : Handle) : List Handle := (f.grove h).items

/-- The block of a node at indentation `i`. -/
def block (f : Forest) (env : Option Environment) (unit : Nat) (h : Handle) (i : Nat) : String :=
  match f.cell? h with
  | some c => c.content.block env i ((f.grovesBelow h).blocks env unit (i + unit))
  | none => ""

/-- Items and blocks are what the nodes say, by recursion on the children: a hidden node has no
item, a fragment those of its children, and any other node itself. The blocks inside stand one unit
deeper. -/
structure LaysOut (f : Forest) (env : Option Environment) (unit : Nat)
    (items : Handle → List Handle) (block : Handle → Nat → String) : Prop where
  items_eq : ∀ {h c}, f.cell? h = some c → items h =
    if c.hidden then [] else if c.content = .fragment then (f.children h).flatMap items else [h]
  block_eq : ∀ {h c}, f.cell? h = some c → ∀ i, block h i =
    c.content.block env i (((f.children h).flatMap items).map (block · (i + unit)))

theorem Grows.items_eq (hs : f.Shows k) {row : List Handle} {g : Grove} (hg : f.Grows k row g) :
    g.items = row.flatMap f.items := by
  induction hg with
  | nil => rfl
  | @tree h c row below rest hc hbelow _ _ ihr =>
    have heq := hbelow.unique (hs.grows_grovesBelow ⟨c, hc⟩)
    subst heq
    rw [List.flatMap_cons, items, hs.grove_eq hc, Grove.items, ihr]
    simp [Grove.items]

theorem Grows.blocks_eq (hs : f.Shows k) (env : Option Environment) (unit : Nat)
    {row : List Handle} {g : Grove} (hg : f.Grows k row g) (i : Nat) :
    g.blocks env unit i = g.items.map (f.block env unit · i) := by
  induction hg with
  | nil => rfl
  | @tree h c row below rest hc hbelow _ ihb ihr =>
    have heq := hbelow.unique (hs.grows_grovesBelow ⟨c, hc⟩)
    subst heq
    have hblock : f.block env unit h i =
        c.content.block env i ((f.grovesBelow h).blocks env unit (i + unit)) := by
      rw [block, hc]
    rw [Grove.blocks, Grove.items, List.map_append, ihr]
    congr 1
    cases c.hidden with
    | true => rfl
    | false =>
      by_cases hfragment : c.content = .fragment
      · simpa [hfragment] using ihb
      · simp [hfragment, hblock]

theorem WellFormed.laysOut (hw : f.WellFormed k) (env : Option Environment) (unit : Nat) :
    f.LaysOut env unit f.items (f.block env unit) where
  items_eq {h c} hc := by
    have hitems := (hw.shows.grows_grovesBelow ⟨c, hc⟩).items_eq hw.shows
    rw [← hw.shows.children_eq ⟨c, hc⟩] at hitems
    rw [← hitems, items, hw.shows.grove_eq hc, Grove.items]
    simp [Grove.items]
  block_eq {h c} hc i := by
    have hbelow := hw.shows.grows_grovesBelow ⟨c, hc⟩
    have hitems := hbelow.items_eq hw.shows
    rw [← hw.shows.children_eq ⟨c, hc⟩] at hitems
    rw [block, hc, ← hitems, ← hbelow.blocks_eq hw.shows]

end Forest

/-- **Pretty output follows the recursion**: it is the blocks of the items of a node, one on a line
behind the other. -/
theorem Reachable.output_pretty {f : Forest} (hf : Reachable f) (env : Option Environment)
    (unit : Nat) :
    f.LaysOut env unit f.items (f.block env unit) ∧
      ∀ r, f.Lives r → f.output r (.pretty unit) env =
        .ok ("\n".intercalate ((f.items r).map (f.block env unit · 0))) := by
  obtain ⟨k, hw⟩ := hf.wellFormed
  refine ⟨hw.laysOut env unit, fun r hr => ?_⟩
  have hblocks := (hw.shows.grows_grove hr).blocks_eq hw.shows env unit 0
  rw [Forest.items, ← hblocks, ← Forest.textFrom_grove hf env unit hr, Forest.output,
    hf.pieces_eq hr]
  rfl

/-- A fragment in a fragment leaves no line, and the text beside it stands one unit deeper. -/
theorem output_pretty_of_fragments :
    let f := Forest.empty.run [.create (.element .div), .appendNew ⟨0, 0⟩ .fragment,
      .appendNew ⟨1, 0⟩ .fragment, .appendNew ⟨0, 0⟩ (.text "a")]
    f.Lives ⟨0, 0⟩ ∧ f.LaysOut none 2 f.items (f.block none 2) ∧
      f.output ⟨0, 0⟩ (.pretty 2) none =
        .ok ("\n".intercalate ((f.items ⟨0, 0⟩).map (f.block none 2 · 0))) ∧
      f.output ⟨0, 0⟩ (.pretty 2) none = .ok "<div>\n  a\n</div>" := by
  intro f
  have hlives : f.Lives ⟨0, 0⟩ := ⟨_, rfl⟩
  have houtput := (Reachable.empty.run _ : Reachable f).output_pretty none 2
  refine ⟨hlives, houtput.1, houtput.2 _ hlives, ?_⟩
  decide

end Markup

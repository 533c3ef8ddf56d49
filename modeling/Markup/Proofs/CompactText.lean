import Markup.Proofs.Delivery
import Markup.Proofs.Subtrees
import Markup.Proofs.Tags

/-!
# Compact output by recursion

Compact output is written token by token along a walk, open tags are those that elements remember,
and hidden nodes are skipped from edge to edge. The result has a plain recursive definition: nothing
for a hidden node, and for any other one its own text around the texts of its children, side by
side.

* `Element.Lists`: the attributes of an open tag, each once and in order.
* `Content.compactText`: the text of a node around the texts of its children.
* `Forest.ReadsAs`: a text for every node that follows the recursion.
* `Reachable.compact_recursion`: there is one such text, and compact output is that text.
-/

namespace Markup

/-! ## Open tags -/

namespace Element

/-- The attributes of an element in their order: the known ones, by ordinal, and the custom ones, by
key. They are apart: a custom attribute that is spelled like a known one is in the second list, next
to the known one in the first. -/
structure Lists (e : Element) (known : List (AttributeName × String))
    (custom : List (String × String)) : Prop where
  mem_known : ∀ {a value}, (a, value) ∈ known ↔ e.attribute? a = some value
  known_sorted : known.Pairwise fun x y => x.1.ordinal < y.1.ordinal
  mem_custom : ∀ {key value}, (key, value) ∈ custom ↔ e.custom? key = some value
  custom_sorted : custom.Pairwise fun x y => x.1 < y.1

theorem lists_toList (e : Element) : e.Lists e.known.toList e.custom.toList where
  mem_known := Std.ExtTreeMap.mem_toList_iff_getElem?_eq_some
  known_sorted := by
    refine (Std.ExtTreeMap.ordered_keys_toList (t := e.known)).imp fun {x y} h => ?_
    exact Nat.compare_eq_lt.mp h
  mem_custom := Std.ExtTreeMap.mem_toList_iff_getElem?_eq_some
  custom_sorted := by
    refine (Std.ExtTreeMap.ordered_keys_toList (t := e.custom)).imp fun {x y} h => ?_
    exact compareOfLessAndEq_eq_lt.mp h

/-- The open tag with the given attributes, each with its value escaped. -/
def openTag (e : Element) (known : List (AttributeName × String))
    (custom : List (String × String)) : String :=
  "<" ++ e.name.spelling ++
    String.join (known.map fun pair => attributeText (pair.1.spelling, pair.2)) ++
    String.join (custom.map attributeText) ++ if e.isVoid then " />" else ">"

/-- The compact tag has all attributes in their order. -/
theorem exists_lists_compactTag (e : Element) :
    ∃ known custom, e.Lists known custom ∧ e.compactTag = e.openTag known custom := by
  refine ⟨_, _, e.lists_toList, ?_⟩
  rw [compactTag, tagWith, compactPairs, knownPairs, List.map_append, List.map_map,
    String.join_append]
  simp only [openTag, String.append_assoc]
  rfl

/-- The compact text of an element around the text inside. A void element has its open tag alone. -/
def compactText (e : Element) (inner : String) : String :=
  e.compactTag ++ if e.isVoid then "" else inner ++ "</" ++ e.name.spelling ++ ">"

end Element

/-! ## The recursion -/

/-- The compact text of a node around the text inside. -/
def Content.compactText (env : Option Environment) (inner : String) : Content → String
  | .fragment => inner
  | .document root => doctype ++ root.compactText inner
  | .element e => e.compactText inner
  | .comment => "<!-- " ++ inner ++ " -->"
  | .text t => t.markup
  | .template t => t.expand env

/-- The compact text of trees, one behind the other. -/
def Grove.compactText (env : Option Environment) : Grove → String
  | nil => ""
  | tree _ content hidden below rest =>
    (if hidden then "" else content.compactText env (below.compactText env)) ++
      rest.compactText env

namespace Forest

/-- The compact text of a node. -/
def compactText (f : Forest) (env : Option Environment) (h : Handle) : String :=
  (f.grove h).compactText env

/-- Every node has a text by recursion on its children: none if it is hidden, and else its own
around theirs. -/
def ReadsAs (f : Forest) (env : Option Environment) (text : Handle → String) : Prop :=
  ∀ {h c}, f.cell? h = some c → text h =
    if c.hidden then ""
    else c.content.compactText env (String.join ((f.children h).map text))

variable {f : Forest} {k : Kinship} {env : Option Environment} {row : List Handle} {g : Grove}

theorem Shows.compactText_eq (hs : f.Shows k) (env : Option Environment) {h : Handle} {c : Cell}
    (hc : f.cell? h = some c) :
    f.compactText env h =
      if c.hidden then "" else c.content.compactText env ((f.grovesBelow h).compactText env) := by
  rw [compactText, hs.grove_eq hc, Grove.compactText, Grove.compactText, String.append_empty]

/-- Trees have the texts of their roots. -/
theorem Grows.join_compactText (hs : f.Shows k) (env : Option Environment)
    (hg : f.Grows k row g) : g.compactText env = String.join (row.map (f.compactText env)) := by
  induction hg with
  | nil => rfl
  | @tree h c row below rest hc hbelow _ _ ihr =>
    obtain rfl := hbelow.unique (hs.grows_grovesBelow ⟨c, hc⟩)
    rw [List.map_cons, String.join_cons, hs.compactText_eq env hc, Grove.compactText, ihr]

theorem Shows.readsAs (hs : f.Shows k) (env : Option Environment) :
    f.ReadsAs env (f.compactText env) := by
  intro h c hc
  have hbelow := (hs.grows_grovesBelow ⟨c, hc⟩).join_compactText hs env
  rw [← hs.children_eq ⟨c, hc⟩] at hbelow
  rw [hs.compactText_eq env hc, hbelow]

/-- A text that follows the recursion is that of the trees. -/
theorem ReadsAs.join_eq {text : Handle → String} (htext : f.ReadsAs env text) (hs : f.Shows k)
    (hg : f.Grows k row g) : String.join (row.map text) = g.compactText env := by
  induction hg with
  | nil => rfl
  | @tree h c row below rest hc _ _ ihb ihr =>
    rw [List.map_cons, String.join_cons, htext hc, hs.children_eq ⟨c, hc⟩, ihb, ihr,
      Grove.compactText]

theorem ReadsAs.eq_compactText {text : Handle → String} (htext : f.ReadsAs env text)
    (hs : f.Shows k) {h : Handle} (hh : f.Lives h) : text h = f.compactText env h := by
  have hjoin := htext.join_eq hs (hs.grows_grove hh)
  rwa [List.map_singleton, String.join_cons, String.join_nil, String.append_empty] at hjoin

end Forest

/-! ## What the tokens of a tree show -/

namespace Compact

theorem pieces_nil : pieces [] = [] := rfl

theorem pieces_cons (t : Token) (tokens : List Token) :
    pieces (t :: tokens) = tokenPieces t ++ pieces tokens := List.flatMap_cons

theorem pieces_append (a b : List Token) : pieces (a ++ b) = pieces a ++ pieces b :=
  List.flatMap_append

end Compact

open Markup.Compact

theorem shownText_closeTag (e : Element) :
    shownText (closeTag e) = if e.isVoid then "" else "</" ++ e.name.spelling ++ ">" := by
  unfold closeTag
  split <;> simp [String.append_assoc]

/-- An element is shown as its compact text if its tag is current and nothing is inside of a void
one. -/
theorem Element.TagCurrent.shown_compactText {e : Element} (he : e.TagCurrent) {inner : String}
    (hvoid : e.isVoid = true → inner = "") (h : Handle) :
    (Piece.tag h e).shown ++ (inner ++ shownText (closeTag e)) = e.compactText inner := by
  rw [Piece.shown, he.currentTag_eq, shownText_closeTag, Element.compactText]
  cases hv : e.isVoid with
  | true => simp [hvoid hv]
  | false => simp [String.append_assoc]

/-- A node shows its text around what is shown inside, if its tag is current and nothing is inside
of what takes no children. -/
theorem Content.shownText_tokens {c : Content} {tokens : List Token} (htag : c.TagCurrent)
    (hleaf : c.acceptsChildren = false → tokens = [])
    (hroot : ∀ root, c = .document root → root.isVoid = false) (env : Option Environment)
    (h : Handle) :
    shownText (pieces (c.openToken env h :: (tokens ++ c.stopToken?.toList))) =
      c.compactText env (shownText (pieces tokens)) := by
  rw [pieces_cons, pieces_append, shownText_append, shownText_append]
  cases c with
  | fragment => simp [openToken, stopToken?, pieces_cons, pieces_nil, tokenPieces, compactText]
  | document root =>
    have hinner : root.isVoid = true → shownText (pieces tokens) = "" := by
      intro hvoid
      rw [hroot root rfl] at hvoid
      cases hvoid
    have helement := (htag root rfl).shown_compactText hinner h
    simp [openToken, stopToken?, pieces_cons, pieces_nil, tokenPieces, compactText, ← helement,
      String.append_assoc]
  | element e =>
    have hinner : e.isVoid = true → shownText (pieces tokens) = "" := by
      intro hvoid
      rw [hleaf (by simp [acceptsChildren, hvoid])]
      rfl
    have helement := (htag e rfl).shown_compactText hinner h
    simp [openToken, stopToken?, pieces_cons, pieces_nil, tokenPieces, compactText, ← helement]
  | comment =>
    simp [openToken, stopToken?, pieces_cons, pieces_nil, tokenPieces, compactText,
      String.append_assoc]
  | text t =>
    rw [hleaf rfl]
    simp [openToken, stopToken?, pieces_nil, tokenPieces, compactText]
  | template t =>
    rw [hleaf rfl]
    simp [openToken, stopToken?, pieces_nil, tokenPieces, compactText, Template.expand_eq]

/-- The tokens of trees show their compact text. -/
theorem Forest.Grows.shownText_pieces {f : Forest} {k : Kinship} {row : List Handle} {g : Grove}
    (hf : Reachable f) (hw : f.WellFormed k) (env : Option Environment) (hg : f.Grows k row g) :
    shownText (Compact.pieces (g.tokens env)) = g.compactText env := by
  induction hg with
  | nil => rfl
  | @tree h c row below rest hc hbelow _ ihb ihr =>
    have hleaf : c.content.acceptsChildren = false → below.tokens env = [] := by
      intro ha
      rw [hw.eq_nil_of_grows hc ha hbelow]
      rfl
    have hroot : ∀ root, c.content = .document root → root.isVoid = false := fun _ hroot =>
      hf.isVoid_of_document hc hroot
    rw [Grove.tokens, Grove.compactText, pieces_append, shownText_append, ihr]
    congr 1
    cases c.hidden with
    | true => rfl
    | false => exact ihb ▸ Content.shownText_tokens (hf.tagCurrent hc) hleaf hroot env h

/-- The compact output of a node is its compact text. -/
theorem Reachable.output_compactText {f : Forest} (hf : Reachable f) (env : Option Environment)
    {h : Handle} (hh : f.Lives h) : f.output h .compact env = .ok (f.compactText env h) := by
  obtain ⟨k, hw⟩ := hf.wellFormed
  have hgrove := hw.shows.grows_grove hh
  rw [hf.output_of_grows hw.shows hgrove, Layout.pieces, hgrove.shownText_pieces hf hw,
    Forest.compactText]

/-- **Compact output follows the recursion**, and no other text does: a node is written as its own
text around those of its children, whatever tags are remembered and whoever above it is hidden. -/
theorem Reachable.compact_recursion {f : Forest} (hf : Reachable f) (env : Option Environment) :
    f.ReadsAs env (f.compactText env) ∧
      (∀ h e, f.element? h = some e →
        ∃ known custom, e.Lists known custom ∧ e.compactTag = e.openTag known custom) ∧
      (∀ h t, (f.cell? h).bind (·.content.template?) = some t →
        t.expand? env = some (t.expand env)) ∧
      ∀ text, f.ReadsAs env text → ∀ r, f.Lives r →
        f.output r .compact env = .ok (text r) ∧
        (∀ s : Sink, s.limit = none → s.perCall ≠ some 0 →
          (f.exec (.render r .compact env s)).answer = .ok (.written (utf8 (text r)).length) ∧
          (f.exec (.render r .compact env s)).taken.toList = utf8 (text r)) ∧
        ∀ a hidden, f.Above a r → ∃ f', f.setHidden a hidden = .ok f' ∧
          f'.output r .compact env = .ok (text r) := by
  obtain ⟨k, hw⟩ := hf.wellFormed
  refine ⟨hw.shows.readsAs env, fun h e _ => e.exists_lists_compactTag,
    fun h t ht => hf.expand?_eq ht env, fun text htext r hr => ?_⟩
  have houtput : f.output r .compact env = .ok (text r) := by
    rw [hf.output_compactText env hr, htext.eq_compactText hw.shows hr]
  refine ⟨houtput, fun s hlimit hwilling => ?_, fun a hidden habove => ?_⟩
  · exact hf.render_without_limit hr houtput hlimit hwilling
  · obtain ⟨f', hmark, hsame⟩ := hf.output_of_hidden_above habove hidden
    exact ⟨f', hmark, (hsame .compact env).trans houtput⟩

/-- A block that remembers its tag, with a custom attribute spelled like a known one, a void
element, a comment around a template and a hidden text. -/
theorem compact_recursion_of_block :
    let f := Forest.empty.run [.create (.element .div), .editAttributes ⟨0, 0⟩ (.set .id "a"),
      .editAttributes ⟨0, 0⟩ (.setCustom "id" "<"), .appendNew ⟨0, 0⟩ (.element .br),
      .appendNew ⟨0, 0⟩ .comment, .appendNew ⟨2, 0⟩ (.template "$x"), .appendNew ⟨0, 0⟩ (.text "b"),
      .setHidden ⟨4, 0⟩ true, .copy ⟨0, 0⟩]
    let env := some (Environment.empty.insert "x" ">")
    let text := "<div id=\"a\" id=\"&lt;\"><br /><!-- &gt; --></div>"
    f.Lives ⟨0, 0⟩ ∧ f.Lives ⟨2, 0⟩ ∧ f.Above ⟨0, 0⟩ ⟨2, 0⟩ ∧ f.ReadsAs env (f.compactText env) ∧
      f.output ⟨0, 0⟩ .compact env = .ok text ∧
      (f.exec (.render ⟨0, 0⟩ .compact env .unlimited)).taken.toList = utf8 text ∧
      ∃ f', f.setHidden ⟨0, 0⟩ true = .ok f' ∧
        f'.output ⟨2, 0⟩ .compact env = .ok "<!-- &gt; -->" := by
  intro f env text
  have hblock : f.Lives ⟨0, 0⟩ := ⟨_, rfl⟩
  have hcomment : f.Lives ⟨2, 0⟩ := ⟨_, rfl⟩
  have habove : f.Above ⟨0, 0⟩ ⟨2, 0⟩ := .single ⟨hcomment, rfl⟩
  obtain ⟨hreads, -, -, hwritten⟩ := (Reachable.empty.run _ : Reachable f).compact_recursion env
  obtain ⟨houtput, hsink, -⟩ := hwritten _ hreads _ hblock
  obtain ⟨hinner, -, hhidden⟩ := hwritten _ hreads _ hcomment
  have htext : f.output ⟨0, 0⟩ .compact env = .ok text := by decide
  have hshown : f.output ⟨2, 0⟩ .compact env = .ok "<!-- &gt; -->" := by decide
  rw [Except.ok.inj (houtput.symm.trans htext)] at hsink
  rw [Except.ok.inj (hinner.symm.trans hshown)] at hhidden
  exact ⟨hblock, hcomment, habove, hreads, htext, (hsink .unlimited rfl nofun).2,
    hhidden ⟨0, 0⟩ true habove⟩

end Markup

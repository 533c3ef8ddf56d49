import Markup.Proofs.Indentation
import Markup.Proofs.PlacedTokens

/-!
# Open frames

A pretty rendering never looks whose frame it takes off: a token that ends a node takes the
innermost one. To say whose a frame is, the node at whose start it was put on is kept beside it. And
what lies ahead of a rendering is said by the nodes that are open: the tokens of a tree end them one
after the other, the innermost first.

* `Pretty.announce_pieces`: a node that starts is announced by one new line or by nothing.
* `Pretty.PendingInnermost`: the fragments in which nothing was written yet are the innermost nodes.
* `Pretty.Opened`: the open frames with their owners; `Pretty.Opened.Turn`: what a token may do to
  them.
* `Forest.WayUp`: nodes on the way up to a root; `Forest.Finishes`: tokens that end such nodes;
  `Forest.WellFormed.finishes`: the tokens of a node do.
-/

namespace Markup

namespace Content

theorem isStart_openToken (c : Content) (env : Option Environment) (x : Handle) :
    (c.openToken env x).isStart = true := by
  cases c <;> rfl

theorem isStart_stopToken? {c : Content} {token : Token} (h : c.stopToken? = some token) :
    token.isStart = false := by
  cases c <;> cases h <;> rfl

end Content

namespace Pretty

variable {unit : Nat} {stack : List Frame} {env : Option Environment}

/-! ## What a token does to the frames -/

/-- A frame stays what it is, but for a child that it may have now. -/
def Frame.Grown (fr fr' : Frame) : Prop := fr' = fr ∨ fr' = fr.withChild

theorem grown_refl (stack : List Frame) : List.Forall₂ Frame.Grown stack stack :=
  List.forall₂_same.mpr fun _ _ => .inl rfl

theorem announce_cons (fr : Frame) (stack : List Frame) :
    (announce (fr :: stack)).1 =
      fr.withChild :: if fr.isPending then (announce stack).1 else stack := by
  simp only [announce]
  split <;> rfl

theorem grown_announce (stack : List Frame) :
    List.Forall₂ Frame.Grown stack (announce stack).1 := by
  induction stack with
  | nil => exact .nil
  | cons fr stack ih =>
    rw [announce_cons]
    refine .cons (.inr rfl) ?_
    split
    · exact ih
    · exact grown_refl stack

/-- In front of a node that starts there is a new line, once, unless all open nodes are fragments in
which nothing was written yet. -/
theorem announce_pieces (stack : List Frame) :
    (announce stack).2 = if stack.all Frame.isPending then [] else [.text "\n"] := by
  induction stack with
  | nil => rfl
  | cons fr stack ih => cases hp : fr.isPending <;> simp [announce, Frame.separator, hp, ih]

/-- The frames around a node that starts. A fragment is not announced. -/
def around (c : Content) (stack : List Frame) : List Frame :=
  if c = .fragment then stack else (announce stack).1

theorem grown_around (c : Content) (stack : List Frame) :
    List.Forall₂ Frame.Grown stack (around c stack) := by
  unfold around
  split
  · exact grown_refl stack
  · exact grown_announce stack

/-- The frame of a node that starts. -/
def newFrame (unit : Nat) (c : Content) (stack : List Frame) : Frame where
  indentation := childIndentation unit stack
  isFragment := c = .fragment

/-- A node that has others inside puts its frame on. -/
theorem step_openToken {c : Content} (hc : c.isOpened = true) (x : Handle) :
    (step unit stack (c.openToken env x)).1 = newFrame unit c stack :: around c stack := by
  cases c with
  | fragment => rfl
  | document | element | comment =>
    simp [Content.openToken, step, openNode, newFrame, around, childIndentation_announce]
  | text | template => cases hc

/-- A leaf puts none on. -/
theorem step_openToken_leaf {c : Content} (hc : c.isOpened = false) (x : Handle) :
    (step unit stack (c.openToken env x)).1 = (announce stack).1 := by
  cases c with
  | text | template => rfl
  | _ => cases hc

/-- The end of a node takes the innermost frame off. -/
theorem step_stopToken? {c : Content} {token : Token} (h : c.stopToken? = some token)
    (fr : Frame) (stack : List Frame) : (step unit (fr :: stack) token).1 = stack := by
  cases c <;> cases h <;> rfl

/-- What is written where a node starts: what announces it, its indentation, and its own. -/
theorem step_of_isStart {token : Token} (h : token.isStart = true) (hne : token ≠ .openFragment) :
    ∃ inner, (step unit stack token).2 =
      (announce stack).2 ++ .spaces (childIndentation unit stack) :: inner := by
  cases token with
  | openFragment => exact absurd rfl hne
  | openDocument | openElement | openComment | leaf =>
    simp only [step, openNode, childIndentation_announce]
    exact ⟨_, rfl⟩
  | _ => cases h

/-! ## Pending frames -/

/-- The pending frames are the innermost ones: from the first that is not pending on, none is. -/
def PendingInnermost (stack : List Frame) : Prop :=
  ∀ fr ∈ stack.dropWhile Frame.isPending, fr.isPending = false

theorem pendingInnermost_of_settled (h : ∀ fr ∈ stack, fr.isPending = false) :
    PendingInnermost stack :=
  fun fr hfr => h fr ((List.dropWhile_sublist _).mem hfr)

/-- The start of a node settles all frames around it. -/
theorem PendingInnermost.announce (h : PendingInnermost stack) :
    ∀ fr ∈ (announce stack).1, fr.isPending = false := by
  induction stack with
  | nil => exact fun _ hfr => absurd hfr List.not_mem_nil
  | cons fr stack ih =>
    rw [PendingInnermost, List.dropWhile_cons] at h
    intro fr' hfr'
    rw [announce_cons, List.mem_cons] at hfr'
    rcases hfr' with rfl | hfr'
    · simp [Frame.isPending, Frame.withChild]
    · split at hfr'
      · next hp => exact ih (by rwa [if_pos hp] at h) fr' hfr'
      · next hp =>
        rw [if_neg hp] at h
        exact h fr' (List.mem_cons_of_mem fr hfr')

/-- So the pending frames remain the innermost ones when a frame is put on. -/
theorem PendingInnermost.cons_around (h : PendingInnermost stack) (unit : Nat) (c : Content) :
    PendingInnermost (newFrame unit c stack :: around c stack) := by
  by_cases hc : c = .fragment
  · have hp : (newFrame unit c stack).isPending = true := by simp [Frame.isPending, newFrame, hc]
    rwa [around, if_pos hc, PendingInnermost, List.dropWhile_cons, if_pos hp]
  · rw [around, if_neg hc]
    refine pendingInnermost_of_settled fun fr hfr => ?_
    rcases List.mem_cons.mp hfr with rfl | hfr
    · simp [Frame.isPending, newFrame, hc]
    · exact h.announce fr hfr

/-- And when one is taken off. -/
theorem PendingInnermost.tail {fr : Frame} (h : PendingInnermost (fr :: stack)) :
    PendingInnermost stack := by
  rw [PendingInnermost, List.dropWhile_cons] at h
  split at h
  · exact h
  · exact pendingInnermost_of_settled fun fr' hfr' => h fr' (List.mem_cons_of_mem fr hfr')

/-! ## Whose frames they are -/

/-- The open frames, and the nodes at whose start they were put on, both innermost first. -/
structure Opened where
  stack : List Frame := []
  owners : List Handle := []

namespace Opened

/-- One more token. Counted from the outermost, a frame that was there before keeps its owner, and
one that is new belongs to the node of the token. -/
def pass (unit : Nat) (o : Opened) (p : PlacedToken) : Opened where
  stack := (step unit o.stack p.token).1
  owners := (p.edge.node :: o.owners).drop
    (o.owners.length + 1 - (step unit o.stack p.token).1.length)

/-- The frames behind tokens. -/
def after (unit : Nat) (passed : List PlacedToken) : Opened := passed.foldl (pass unit) {}

theorem after_concat (unit : Nat) (passed : List PlacedToken) (p : PlacedToken) :
    after unit (passed ++ [p]) = (after unit passed).pass unit p := List.foldl_concat ..

variable {o : Opened} {x : Handle} {c : Content}

theorem pass_openToken (hlength : o.stack.length = o.owners.length) (hc : c.isOpened = true) :
    o.pass unit ⟨.start x, c.openToken env x⟩ =
      ⟨newFrame unit c o.stack :: around c o.stack, x :: o.owners⟩ := by
  have haround := (grown_around c o.stack).length_eq
  simp [pass, step_openToken hc, ← haround, hlength, Edge.node]

theorem pass_leaf (hlength : o.stack.length = o.owners.length) (hc : c.isOpened = false) :
    o.pass unit ⟨.start x, c.openToken env x⟩ = ⟨(announce o.stack).1, o.owners⟩ := by
  simp [pass, step_openToken_leaf hc, length_announce, hlength]

theorem pass_stopToken {token : Token} (htoken : c.stopToken? = some token) {fr : Frame}
    {stack : List Frame} {owners : List Handle} (hlength : stack.length = owners.length) :
    Opened.pass unit ⟨fr :: stack, x :: owners⟩ ⟨.stop x, token⟩ = ⟨stack, owners⟩ := by
  have htwo : (x :: owners).length + 1 - stack.length = 2 := by
    rw [List.length_cons, hlength]
    omega
  simp only [pass, step_stopToken? htoken, htwo]
  rfl

/-- What a token may do to the open frames. The end of a node takes off the innermost one, and that
is its own. -/
inductive Turn (f : Forest) : PlacedToken → Opened → Opened → Prop where
  | opens {x token o fr stack} (htoken : token.isStart = true) (hopened : f.isOpened x = true)
    (hnew : fr.hasChildren = false) (hstack : List.Forall₂ Frame.Grown o.stack stack) :
    Turn f ⟨.start x, token⟩ o ⟨fr :: stack, x :: o.owners⟩
  | leaf {x token o stack} (htoken : token.isStart = true) (hleaf : f.isOpened x = false)
    (hstack : List.Forall₂ Frame.Grown o.stack stack) :
    Turn f ⟨.start x, token⟩ o ⟨stack, o.owners⟩
  | closes {x token fr stack owners} (htoken : token.isStart = false) :
    Turn f ⟨.stop x, token⟩ ⟨fr :: stack, x :: owners⟩ ⟨stack, owners⟩

/-- Where a node ends there is a frame. -/
theorem Turn.stack_ne_nil {f : Forest} {p : PlacedToken} {o' : Opened} (h : Turn f p o o')
    (hstop : p.token.isStart = false) : o.stack ≠ [] := by
  cases h with
  | opens htoken => cases htoken.symm.trans hstop
  | leaf htoken => cases htoken.symm.trans hstop
  | closes => exact List.cons_ne_nil _ _

end Opened

end Pretty

/-! ## Tokens that end the open nodes -/

namespace Forest

open Pretty

variable {f : Forest} {k : Kinship} {env : Option Environment} {r : Handle}

/-- A way up to `r`: every node is a child of the one behind it, and the last one is `r`. -/
def WayUp (f : Forest) (r : Handle) : List Handle → Prop
  | [] => True
  | [x] => x = r
  | x :: p :: nodes => f.parent? x = some p ∧ f.WayUp r (p :: nodes)

theorem WayUp.tail {x : Handle} {nodes : List Handle} (h : f.WayUp r (x :: nodes)) :
    f.WayUp r nodes := by
  cases nodes with
  | nil => trivial
  | cons p nodes => exact h.2

/-- Everybody on a way up takes children, except perhaps the first one. -/
theorem WayUp.takesChildren (hw : f.WellFormed k) {x : Handle} {nodes : List Handle}
    (h : f.WayUp r (x :: nodes)) (hlives : ∀ y ∈ x :: nodes, f.Lives y) :
    ∀ p ∈ nodes, f.TakesChildren p := by
  induction nodes generalizing x with
  | nil => exact fun _ hp => absurd hp List.not_mem_nil
  | cons p nodes ih =>
    intro q hq
    rcases List.mem_cons.mp hq with rfl | hq
    · obtain ⟨c, hc⟩ := hlives q (List.mem_cons_of_mem x List.mem_cons_self)
      have hchild : x ∈ k.children q := hw.shows.lawful.mem_children.mpr
        (hw.shows.parent_iff.mp ⟨hlives x List.mem_cons_self, h.1⟩)
      refine ⟨c, hc, ?_⟩
      by_contra ha
      rw [hw.childless hc (Bool.not_eq_true _ ▸ ha)] at hchild
      exact List.not_mem_nil hchild
    · exact ih h.2 (fun y hy => hlives y (List.mem_cons_of_mem x hy)) q hq

theorem TakesChildren.isVoid_eq (hf : Reachable f) {x : Handle} (h : f.TakesChildren x)
    {e : Element} (he : f.element? x = some e) : e.isVoid = false := by
  obtain ⟨c, hc, ha⟩ := h
  rw [element?, hc, Option.bind_some] at he
  cases hcontent : c.content with
  | document root =>
    rw [hcontent] at he
    cases he
    exact hf.isVoid_of_document hc hcontent
  | element e' =>
    rw [hcontent] at he ha
    cases he
    simpa [Content.acceptsChildren] using ha
  | _ =>
    rw [hcontent] at he
    cases he

/-- The tokens end the open nodes, the innermost first. Before a node ends, other nodes may start
and end in it. -/
inductive Finishes (f : Forest) (env : Option Environment) (r : Handle) :
    List Handle → List PlacedToken → Prop where
  | nil : Finishes f env r [] []
  | opens {x c nodes left} (hc : f.cell? x = some c) (hopened : c.content.isOpened = true)
    (hup : f.WayUp r (x :: nodes)) (hleft : Finishes f env r (x :: nodes) left) :
    Finishes f env r nodes (⟨.start x, c.content.openToken env x⟩ :: left)
  | leaf {x c nodes left} (hc : f.cell? x = some c) (hleaf : c.content.isOpened = false)
    (hup : f.WayUp r (x :: nodes)) (hleft : Finishes f env r nodes left) :
    Finishes f env r nodes (⟨.start x, c.content.openToken env x⟩ :: left)
  | closes {x c token nodes left} (hc : f.cell? x = some c)
    (htoken : c.content.stopToken? = some token) (hleft : Finishes f env r nodes left) :
    Finishes f env r (x :: nodes) (⟨.stop x, token⟩ :: left)

/-- The trees of a row may stand in front of the end of the innermost node, if they are below it. -/
theorem Grows.finishes (hw : f.WellFormed k) {row : List Handle} {g : Grove}
    (hg : f.Grows k row g) {nodes : List Handle} {left : List PlacedToken}
    (hup : ∀ x ∈ row, f.WayUp r (x :: nodes)) (hleft : f.Finishes env r nodes left) :
    f.Finishes env r nodes (g.placedTokens env ++ left) := by
  induction hg generalizing nodes left with
  | nil => exact hleft
  | @tree x c row below rest hc hbelow _ ihb ihr =>
    have hrest := ihr (fun y hy => hup y (List.mem_cons_of_mem x hy)) hleft
    have hx := hup x List.mem_cons_self
    rw [Grove.placedTokens, List.append_assoc]
    cases hhidden : c.hidden with
    | true => simpa [hhidden] using hrest
    | false =>
      cases hopened : c.content.isOpened with
      | true =>
        obtain ⟨token, htoken⟩ := Content.exists_stopToken? hopened
        have hinside : ∀ y ∈ k.children x, f.WayUp r (y :: x :: nodes) := fun y hy =>
          ⟨(hw.shows.parent_iff.mpr (hw.shows.lawful.mem_children.mp hy)).2, hx⟩
        have hnode := Finishes.opens hc hopened hx (ihb hinside (.closes hc htoken hrest))
        simpa [hhidden, htoken] using hnode
      | false =>
        -- nothing can stand between the edges of a leaf
        have hnil : below = .nil :=
          hw.eq_nil_of_grows hc (Content.acceptsChildren_of_leaf hopened) hbelow
        simpa [hhidden, hnil, Grove.placedTokens, Content.stopToken?_of_leaf hopened] using
          Finishes.leaf hc hopened hx hrest

/-- The tokens of a node start and end it. -/
theorem WellFormed.finishes (hw : f.WellFormed k) (hr : f.Lives r) :
    f.Finishes env r [] ((f.grove r).placedTokens env) := by
  have hup : ∀ x ∈ [r], f.WayUp r [x] := fun x hx => List.mem_singleton.mp hx
  simpa using (hw.shows.grows_grove hr).finishes hw hup .nil

/-- Every open node is ended. -/
theorem Finishes.stop_mem {nodes : List Handle} {left : List PlacedToken}
    (h : f.Finishes env r nodes left) : ∀ x ∈ nodes, .stop x ∈ left.map PlacedToken.edge := by
  induction h with
  | nil => exact fun _ hx => absurd hx List.not_mem_nil
  | opens _ _ _ _ ih => exact fun x hx => .tail _ (ih x (List.mem_cons_of_mem _ hx))
  | leaf _ _ _ _ ih => exact fun x hx => .tail _ (ih x hx)
  | closes _ _ _ ih =>
    intro x hx
    rcases List.mem_cons.mp hx with rfl | hx
    · exact List.mem_cons_self
    · exact .tail _ (ih x hx)

theorem Finishes.eq_nil {nodes : List Handle} (h : f.Finishes env r nodes []) : nodes = [] :=
  List.eq_nil_iff_forall_not_mem.mpr fun x hx => List.not_mem_nil (h.stop_mem x hx)

end Forest

end Markup

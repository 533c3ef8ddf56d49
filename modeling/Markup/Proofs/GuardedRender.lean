import Markup.Proofs.Frames
import Markup.Proofs.GuardedText
import Markup.Proofs.GuardedWalk
import Markup.Proofs.TagPlaces
import Markup.Proofs.Tokens
import Mathlib.Algebra.Group.Nat.Defs

/-!
# Guarded rendering

A rendering reads the slots of the nodes that the traversal passes, cuts the texts of templates, and
counts: the bytes that the sink took (`write_str`), and in pretty output the indentation
(`child_indentation`), which grows with the depth and is counted before it is written. A sink that
takes less than half of what can be counted ends the rendering in time: what an open node is
indented by was written, and one unit more can be counted.

* `Guarded.tokens_eq`: the tokens of a node are read without a trap.
* `Guarded.deliver_eq`: the bytes that a sink takes can be counted if those that it takes in the end
  can.
* `Pretty.Frame.Fits`: the indentations that can be counted, kept by every token.
* `Guarded.render_eq`: a rendering into a sink that takes less than `2 ^ 63` bytes is not trapped.
-/

namespace Markup

namespace Guarded

variable {f : Forest} {k : Kinship} {h : Handle} {env : Option Environment}

/-! ## Tokens -/

/-- The token where a node starts. -/
def startToken (env : Option Environment) (h : Handle) : Content → Guarded Token
  | .fragment => return .openFragment
  | .document root => return .openDocument h root
  | .element e => return .openElement h e
  | .comment => return .openComment
  | .text t => return .leaf [t.markup]
  | .template t => do return .leaf (← portions t env)

/-- The tokens of one edge of a walk. -/
def edgeTokens (f : Forest) (env : Option Environment) : Edge → Guarded (List Token)
  | .start h => do return [← startToken env h (← data f h).content]
  | .stop h => do return (← data f h).content.stopToken?.toList

/-- The tokens of the visible part of a node. -/
def tokens (f : Forest) (h : Handle) (env : Option Environment) : Guarded (List Token) := do
  return (← (← traverse f h).mapM (edgeTokens f env)).flatten

theorem startToken_eq {c : Content} {token : Token}
    (ht : ∀ t, c = .template t → t.spans = Markup.spans t.text)
    (h' : c.startToken env h = .ok token) : startToken env h c = .ok token := by
  cases c with
  | template t =>
    obtain ⟨result, hresult, hportions⟩ := portions_eq (ht t rfl) env
    rw [Content.startToken, hresult] at h'
    cases h'
    exact bind_of_ok hportions _
  | _ =>
    cases h'
    rfl

/-- Where the reading of slots gives tokens, the guard before it lets it pass. -/
theorem edgeTokens_eq (hf : Reachable f) {e : Edge} {ts : List Token}
    (h : f.edgeTokens env e = .ok ts) : edgeTokens f env e = .ok ts := by
  cases e with
  | stop x =>
    obtain ⟨c, hc, hts⟩ := bind_eq_ok_iff.mp h
    cases hts
    exact bind_of_ok (data_of_held hc) _
  | start x =>
    obtain ⟨c, hc, h⟩ := bind_eq_ok_iff.mp h
    obtain ⟨token, htoken, hts⟩ := bind_eq_ok_iff.mp h
    cases hts
    have hspans : ∀ t, c.content = .template t → t.spans = Markup.spans t.text :=
      fun t => hf.spans_eq (Forest.cell?_occupant (occupant?_of_held hc))
    rw [edgeTokens, bind_of_ok (data_of_held hc), bind_of_ok (startToken_eq hspans htoken)]
    rfl

/-- One step after another, with a guard at each that lets it pass. -/
theorem mapM_eq {α β : Type} {g : α → Guarded β} {g' : α → Except Fault β}
    (hg : ∀ x b, g' x = .ok b → g x = .ok b) {l : List α} {bs : List β} (h : l.mapM g' = .ok bs) :
    l.mapM g = .ok bs := by
  induction l generalizing bs with
  | nil =>
    cases h
    rfl
  | cons x l ih =>
    rw [List.mapM_cons] at h ⊢
    obtain ⟨b, hb, h⟩ := bind_eq_ok_iff.mp h
    obtain ⟨rest, hrest, h⟩ := bind_eq_ok_iff.mp h
    cases h
    rw [bind_of_ok (hg x b hb), bind_of_ok (ih hrest)]
    rfl

/-- The tokens of a node are read without a trap. -/
theorem tokens_eq (hf : Reachable f) (hh : f.Lives h) (env : Option Environment) :
    tokens f h env = .ok ((f.grove h).tokens env) := by
  obtain ⟨k, hw⟩ := hf.wellFormed
  obtain ⟨edges, hedges, htraverse⟩ := traverse_eq hw.shows (.inl hh)
  have htokens := hf.tokens_eq hh env
  rw [Forest.tokens] at htokens
  obtain ⟨edges', hedges', htokens⟩ := bind_eq_ok_iff.mp htokens
  obtain ⟨ts, hts, hflat⟩ := bind_eq_ok_iff.mp htokens
  cases hedges.symm.trans hedges'
  rw [tokens, bind_of_ok htraverse, bind_of_ok (mapM_eq (fun _ _ => edgeTokens_eq hf) hts)]
  exact congrArg Except.ok (Except.ok.inj hflat)

/-! ## Counting bytes -/

/-- The sum of two numbers, if it takes no more than 64 bits. -/
def add (a b : Nat) : Guarded Nat := if a + b < 2 ^ 64 then return a + b else throw .overflow

theorem add_eq {a b : Nat} (h : a + b < 2 ^ 64) : add a b = .ok (a + b) := if_pos h

/-- Delivers one more piece, and counts what the sink took of it. -/
def accept (s : Sink) (d : Delivery) (p : Piece) : Guarded Delivery := do
  let next := d.accept s p
  let _ ← add d.transfer.taken.size (next.transfer.taken.size - d.transfer.taken.size)
  return next

/-- Delivers pieces in order until the sink fails. -/
def deliver (s : Sink) : Delivery → List Piece → Guarded Delivery
  | d, [] => return d
  | d, p :: pieces => do
    if d.hasFailed then return d
    deliver s (← accept s d p) pieces

end Guarded

/-- What a sink took remains with it. -/
theorem Transfer.Sends.size_le {t t' : Transfer} {n : Nat} (h : t.Sends n t') :
    t.taken.size ≤ t'.taken.size := by
  cases hfirst : t.failure with
  | some cause => rw [h.ended (hfirst ▸ rfl)]
  | none =>
    cases hlast : t'.failure with
    | none => exact h.complete hfirst hlast ▸ Nat.le_add_right _ _
    | some cause => exact (h.short hfirst (hlast ▸ rfl)).1

namespace Delivery

variable {s : Sink} {d : Delivery}

/-- A sink that failed is left alone. -/
theorem accept_of_hasFailed (hd : d.hasFailed = true) (p : Piece) : d.accept s p = d := by
  have hwrite : ∀ bytes, s.write d.transfer bytes = d.transfer := s.write_of_failure hd
  cases p with
  | text text => rw [accept, hwrite]
  | spaces count =>
    have hspaces : s.writeSpaces d.transfer count = d.transfer := by
      rw [Sink.writeSpaces, if_pos (.inr hd)]
    rw [accept, hspaces]
  | tag h e =>
    rw [accept, hwrite, hd]
    rfl

theorem foldl_accept_of_hasFailed (hd : d.hasFailed = true) (pieces : List Piece) :
    pieces.foldl (accept s) d = d := by
  induction pieces with
  | nil => rfl
  | cons p pieces ih => rw [List.foldl_cons, accept_of_hasFailed hd, ih]

end Delivery

namespace Guarded

variable {s : Sink} {d : Delivery}

theorem accept_eq {p : Piece} (h : (d.accept s p).transfer.taken.size < 2 ^ 64) :
    accept s d p = .ok (d.accept s p) := by
  have hle := (Delivery.sends_accept s d p).size_le
  exact bind_of_ok (add_eq (by omega)) _

/-- The bytes that a sink takes can be counted if those that it takes in the end can. -/
theorem deliver_eq {pieces : List Piece}
    (h : (pieces.foldl (Delivery.accept s) d).transfer.taken.size < 2 ^ 64) :
    deliver s d pieces = .ok (pieces.foldl (Delivery.accept s) d) := by
  induction pieces generalizing d with
  | nil => rfl
  | cons p pieces ih =>
    cases hd : d.hasFailed with
    | true =>
      rw [Delivery.foldl_accept_of_hasFailed hd, deliver, hd]
      rfl
    | false =>
      have hle := (Delivery.sends_foldl s (d.accept s p) pieces).size_le
      rw [List.foldl_cons] at h
      rw [deliver, hd, List.foldl_cons]
      exact (bind_of_ok (accept_eq (Nat.lt_of_le_of_lt hle h)) _).trans (ih h)

end Guarded

/-! ## Counting indentation -/

namespace Pretty

variable {unit count count' : Nat} {stack : List Frame} {fr : Frame}

/-- What can be said of an open node when the sink took `count` bytes. -/
structure Frame.Fits (unit count : Nat) (fr : Frame) : Prop where
  steps : fr.indentation = 0 ∨ unit ≤ fr.indentation
  countable : fr.indentation < 2 ^ 64
  /-- If it has a line of its own, its indentation was written. -/
  written : fr.isFragment = false → fr.indentation ≤ count

theorem Frame.Fits.withChild (h : fr.Fits unit count) : fr.withChild.Fits unit count :=
  ⟨h.steps, h.countable, h.written⟩

theorem Frame.Fits.mono (h : fr.Fits unit count) (hle : count ≤ count') : fr.Fits unit count' :=
  ⟨h.steps, h.countable, fun hline => (h.written hline).trans hle⟩

/-- A child of the innermost open node has an indentation that can be counted. -/
theorem childIndentation_fits (hstack : ∀ fr ∈ stack, fr.Fits unit count) (hcount : count < 2 ^ 63)
    (hunit : unit < 2 ^ 64) :
    (childIndentation unit stack = 0 ∨ unit ≤ childIndentation unit stack) ∧
      childIndentation unit stack < 2 ^ 64 := by
  cases stack with
  | nil => exact ⟨.inl rfl, by simp [childIndentation]⟩
  | cons fr stack =>
    obtain ⟨hsteps, hcountable, hwritten⟩ := hstack fr List.mem_cons_self
    rw [childIndentation]
    cases hline : fr.isFragment with
    | true => exact ⟨hsteps, hcountable⟩
    | false =>
      -- what is indented at all is indented by more than a unit, and less than half of the numbers
      have hle := hwritten hline
      simp only [Bool.false_eq_true, if_false]
      omega

theorem announce_fits (hstack : ∀ fr ∈ stack, fr.Fits unit count) :
    ∀ fr ∈ (announce stack).1, fr.Fits unit count := by
  induction stack with
  | nil => exact hstack
  | cons fr rest ih =>
    obtain ⟨hfr, hrest⟩ := List.forall_mem_cons.mp hstack
    simp only [announce]
    refine List.forall_mem_cons.mpr ⟨hfr.withChild, ?_⟩
    split
    · exact ih hrest
    · exact hrest

theorem pop_fits (hstack : ∀ fr ∈ stack, fr.Fits unit count) :
    ∀ fr ∈ (pop stack).2, fr.Fits unit count := by
  cases stack with
  | nil => exact hstack
  | cons fr rest => exact (List.forall_mem_cons.mp hstack).2

theorem le_length_of_mem_spaces {pieces : List Piece} {n : Nat} (h : .spaces n ∈ pieces) :
    n ≤ (utf8 (shownText pieces)).length := by
  induction pieces with
  | nil => cases h
  | cons p pieces ih =>
    rw [shownText_cons, utf8_append, List.length_append]
    rcases List.mem_cons.mp h with rfl | h
    · rw [utf8_spaces, List.length_replicate]
      exact Nat.le_add_right _ _
    · exact (ih h).trans (Nat.le_add_left _ _)

/-- A node that starts writes its indentation. -/
theorem openNode_fits (hstack : ∀ fr ∈ stack, fr.Fits unit count) (hcount : count < 2 ^ 63)
    (hunit : unit < 2 ^ 64) {inner : Nat → List Piece}
    (hle : count + (utf8 (shownText (openNode unit stack inner).2)).length ≤ count') :
    ∀ fr ∈ (openNode unit stack inner).1, fr.Fits unit count' := by
  have hspaces : Piece.spaces (childIndentation unit stack) ∈ (openNode unit stack inner).2 := by
    simp [openNode, childIndentation_announce]
  have hlength := le_length_of_mem_spaces hspaces
  obtain ⟨hsteps, hcountable⟩ := childIndentation_fits hstack hcount hunit
  simp only [openNode, childIndentation_announce]
  refine List.forall_mem_cons.mpr ⟨⟨hsteps, hcountable, fun _ => ?_⟩, fun fr hfr => ?_⟩
  · exact (hlength.trans (Nat.le_add_left _ _)).trans hle
  · exact (announce_fits hstack fr hfr).mono ((Nat.le_add_right _ _).trans hle)

/-- Every token keeps the indentations countable, once its pieces are written. -/
theorem step_fits (hstack : ∀ fr ∈ stack, fr.Fits unit count) (hcount : count < 2 ^ 63)
    (hunit : unit < 2 ^ 64) {token : Token}
    (hle : count + (utf8 (shownText (step unit stack token).2)).length ≤ count') :
    ∀ fr ∈ (step unit stack token).1, fr.Fits unit count' := by
  have hmore : count ≤ count' := (Nat.le_add_right _ _).trans hle
  cases token with
  | openDocument h root => exact openNode_fits hstack hcount hunit hle
  | openElement h e => exact openNode_fits hstack hcount hunit hle
  | openComment => exact openNode_fits hstack hcount hunit hle
  | openFragment =>
    obtain ⟨hsteps, hcountable⟩ := childIndentation_fits hstack hcount hunit
    refine List.forall_mem_cons.mpr ⟨⟨hsteps, hcountable, nofun⟩, fun fr hfr => ?_⟩
    exact (hstack fr hfr).mono hmore
  | leaf portions => exact fun fr hfr => (announce_fits hstack fr hfr).mono hmore
  | closeDocument e | closeElement e | closeComment | closeFragment =>
    exact fun fr hfr => (pop_fits hstack fr hfr).mono hmore

end Pretty

namespace Guarded

variable {f : Forest} {h : Handle} {s : Sink} {d : Delivery}

/-- The indentation of a child of the innermost frame. -/
def childIndentation (unit : Nat) : List Pretty.Frame → Guarded Nat
  | [] => return 0
  | fr :: _ => if fr.isFragment then return fr.indentation else add fr.indentation unit

/-- Delivers the pieces of one token after the other, while the given frames are open, until the
sink fails. -/
def deliverPretty (s : Sink) (unit : Nat) :
    List Pretty.Frame → Delivery → List Token → Guarded Delivery
  | _, d, [] => return d
  | stack, d, token :: tokens => do
    if d.hasFailed then return d
    let _ ← childIndentation unit stack
    let next := Pretty.step unit stack token
    deliverPretty s unit next.1 (← deliver s d next.2) tokens

/-- Renders a node into a sink. -/
def render (f : Forest) (h : Handle) (layout : Layout) (env : Option Environment) (s : Sink) :
    Guarded Rendering := do
  if ← isRemoved f h then return { forest := f, failure := some (.removed h) }
  let tokens ← tokens f h env
  let d ←
    match layout with
    | .compact => deliver s {} (Compact.pieces tokens)
    | .pretty unit => deliverPretty s unit [] {} tokens
  return {
    forest := d.rendered.foldl (fun f r => f.rememberTag r.1) f
    taken := d.transfer.taken
    failure := d.transfer.failure.map (.unwritten d.transfer.taken.size)
    log := d.log }

theorem childIndentation_eq {unit : Nat} {stack : List Pretty.Frame}
    (h : Pretty.childIndentation unit stack < 2 ^ 64) :
    childIndentation unit stack = .ok (Pretty.childIndentation unit stack) := by
  cases stack with
  | nil => rfl
  | cons fr stack =>
    rw [Pretty.childIndentation] at h ⊢
    rw [childIndentation]
    split at h
    · next hfragment => rw [if_pos hfragment, if_pos hfragment]; rfl
    · next hline => rw [if_neg hline, if_neg hline, add_eq h]

/-- An indentation that cannot be counted would have to be written first. -/
theorem deliverPretty_eq {unit : Nat} {stack : List Pretty.Frame} {tokens : List Token}
    (hstack : d.hasFailed = false → ∀ fr ∈ stack, fr.Fits unit d.transfer.taken.size)
    (hunit : unit < 2 ^ 64)
    (hbytes :
      ((Pretty.piecesFrom unit stack tokens).foldl (Delivery.accept s) d).transfer.taken.size
        < 2 ^ 63) :
    deliverPretty s unit stack d tokens =
      .ok ((Pretty.piecesFrom unit stack tokens).foldl (Delivery.accept s) d) := by
  induction tokens generalizing stack d with
  | nil => rfl
  | cons token tokens ih =>
    cases hd : d.hasFailed with
    | true =>
      rw [Delivery.foldl_accept_of_hasFailed hd, deliverPretty, hd]
      rfl
    | false =>
      rw [Pretty.piecesFrom, List.foldl_append] at hbytes ⊢
      have hsends := Delivery.sends_foldl s d (Pretty.step unit stack token).2
      have hrest := (Delivery.sends_foldl s
        ((Pretty.step unit stack token).2.foldl (Delivery.accept s) d)
        (Pretty.piecesFrom unit (Pretty.step unit stack token).1 tokens)).size_le
      have hcount : d.transfer.taken.size < 2 ^ 63 :=
        Nat.lt_of_le_of_lt (hsends.size_le.trans hrest) hbytes
      have hchild := (Pretty.childIndentation_fits (hstack hd) hcount hunit).2
      have hdeliver : deliver s d (Pretty.step unit stack token).2 =
          .ok ((Pretty.step unit stack token).2.foldl (Delivery.accept s) d) :=
        deliver_eq (by omega)
      rw [deliverPretty, hd]
      refine (bind_of_ok (childIndentation_eq hchild) _).trans ((bind_of_ok hdeliver _).trans ?_)
      refine ih (fun hopen => ?_) hbytes
      refine Pretty.step_fits (hstack hd) hcount hunit (Nat.le_of_eq ?_)
      rw [Delivery.hasFailed, Option.isSome_eq_false_iff, Option.isNone_iff_eq_none] at hd hopen
      exact (hsends.complete hd hopen).symm

/-- A rendering into a sink that takes less than `2 ^ 63` bytes is not trapped, neither in the slots
and texts that it reads nor in what it counts. -/
theorem render_eq (hf : Reachable f) (hk : f.Known h) {layout : Layout} {env : Option Environment}
    (hbytes : (f.render h layout env s).taken.size < 2 ^ 63)
    (hunit : ∀ unit, layout = .pretty unit → unit < 2 ^ 64) :
    render f h layout env s = .ok (f.render h layout env s) := by
  rw [render, bind_of_ok (isRemoved_eq hk)]
  cases hr : f.isRemoved h with
  | true =>
    rw [Forest.render, Forest.pieces, Forest.live_of_removed hr]
    rfl
  | false =>
    have hh := Forest.isRemoved_eq_false_iff.mp hr
    rw [Forest.render, hf.pieces_eq hh layout env] at hbytes ⊢
    have htokens := tokens_eq hf hh env
    cases layout with
    | compact =>
      have hdeliver : deliver s {} (Compact.pieces ((f.grove h).tokens env)) =
          .ok (Markup.deliver s (Compact.pieces ((f.grove h).tokens env))) :=
        deliver_eq (Nat.lt_trans hbytes (by omega))
      exact (bind_of_ok htokens _).trans (bind_of_ok hdeliver _)
    | pretty unit =>
      have hdeliver : deliverPretty s unit [] {} ((f.grove h).tokens env) =
          .ok (Markup.deliver s (Pretty.pieces unit ((f.grove h).tokens env))) :=
        deliverPretty_eq (fun _ fr hfr => absurd hfr List.not_mem_nil) (hunit unit rfl) hbytes
      exact (bind_of_ok htokens _).trans (bind_of_ok hdeliver _)

end Guarded

end Markup

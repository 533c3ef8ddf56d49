import Markup.Proofs.GuardedRender
import Mathlib.Algebra.GroupWithZero.Nat

/-!
# Pretty output, call by call

Between its start and its end a pretty rendering has bytes on offer, pieces behind them, and tokens
behind those. It makes one step after the other: it calls the sink with the bytes on offer, puts the
next piece on offer, spaces a block at a time, or turns the next token into pieces. It ends when the
sink fails or when nothing is left.

* `Sink.call`: one call; `Sink.write_call`: a write makes one call and goes on.
* `Pretty.Progress`: a rendering on its way; `Pretty.Progress.Step`: the steps.
* `Pretty.Progress.outcome_step`: no step changes what the sink holds in the end.
* `Pretty.Progress.exists_last`, `Pretty.Progress.Last.transfer_eq`: every rendering comes to its
  end, and then the sink holds just that.
* `Reachable.render_of_last`: the end is that of the rendering of a node.
-/

namespace Markup

/-! ## Calls -/

namespace Sink

variable {s : Sink} {t : Transfer}

/-- One call with bytes on offer: the transfer behind it, and the bytes on offer then. A sink that
fails is offered nothing more. -/
def call (s : Sink) (t : Transfer) (byte : UInt8) (bytes : List UInt8) : Transfer × List UInt8 :=
  match s.reply t (bytes.length + 1) with
  | .interrupted => ({ t with calls := t.calls + 1 }, byte :: bytes)
  | .failed cause => ({ t with calls := t.calls + 1, failure := some cause }, [])
  | .took 0 => ({ t with calls := t.calls + 1, failure := some tookNothing }, [])
  | .took (n + 1) =>
    ({ t with calls := t.calls + 1, taken := t.taken.push byte ++ bytes.take n }, bytes.drop n)

/-- A write makes one call and goes on. -/
theorem write_call (ht : t.failure = none) (byte : UInt8) (bytes : List UInt8) :
    s.write t (byte :: bytes) = s.write (s.call t byte bytes).1 (s.call t byte bytes).2 := by
  have hopen : ¬ t.failure.isSome := Option.not_isSome_iff_eq_none.mpr ht
  rw [write, if_neg hopen]
  split
  · next hr => simp only [call, hr]
  · next hr => simp only [call, hr, write_nil]
  · next hr => simp only [call, hr, write_nil]
  · next hr => simp only [call, hr]

/-- The bytes on offer are sent, or are still on offer. -/
theorem sends_call (ht : t.failure = none) (byte : UInt8) (bytes : List UInt8) :
    ∃ n, t.Sends n (s.call t byte bytes).1 ∧
      n + (s.call t byte bytes).2.length = bytes.length + 1 := by
  rw [call]
  split
  · exact ⟨0, .of_success ht ht rfl, Nat.zero_add _⟩
  · exact ⟨_, .of_failure ht (by rfl) (by rfl) bytes.length, rfl⟩
  · exact ⟨_, .of_failure ht (by rfl) (by rfl) bytes.length, rfl⟩
  · next n _ =>
    refine ⟨1 + (bytes.take n).length, .of_success ht ht ?_, ?_⟩
    · simp [← Array.length_toList, Nat.add_comm]
    · simp only [List.length_take, List.length_drop]
      omega

/-- After a call there are fewer bytes on offer, or the next uninterrupted call is nearer. -/
theorem lex_call (s : Sink) (t : Transfer) (byte : UInt8) (bytes : List UInt8) :
    Prod.Lex (· < ·) (· < ·)
      ((s.call t byte bytes).2.length, s.interruptions.gap (s.call t byte bytes).1.calls)
      (bytes.length + 1, s.interruptions.gap t.calls) := by
  rw [call]
  split
  · next hr => exact .right _ (s.interruptions.gap_succ_lt (hits_of_reply hr))
  · exact .left _ _ (Nat.succ_pos _)
  · exact .left _ _ (Nat.succ_pos _)
  · exact .left _ _ (by rw [List.length_drop]; omega)

end Sink

/-! ## Pieces -/

namespace Piece

/-- The bytes of a piece that are offered first. -/
def block : Piece → List UInt8
  | .spaces count => List.replicate (min count Sink.spaceBlock) 0x20
  | p => utf8 p.shown

/-- What is left of a piece behind those. -/
def behind : Piece → List Piece
  | .spaces count => if Sink.spaceBlock < count then [.spaces (count - Sink.spaceBlock)] else []
  | _ => []

/-- How often a piece is offered, at most. -/
def weight : Piece → Nat
  | .spaces count => count + 1
  | _ => 1

theorem length_block (p : Piece) :
    p.block.length + (utf8 (shownText p.behind)).length = (utf8 p.shown).length := by
  cases p with
  | spaces count =>
    rw [block, behind, utf8_spaces, List.length_replicate, List.length_replicate]
    split
    · rw [shownText_cons, shownText_nil, String.append_empty, utf8_spaces, List.length_replicate]
      omega
    · have hnil : (utf8 (shownText [])).length = 0 := rfl
      omega
  | _ => rfl

theorem weight_behind_lt (p : Piece) : (p.behind.map weight).sum < p.weight := by
  cases p with
  | spaces count =>
    rw [behind, weight]
    split
    · simp only [List.map_cons, List.map_nil, List.sum_cons, List.sum_nil, weight, Sink.spaceBlock]
      omega
    · exact Nat.succ_pos count
  | _ => exact Nat.one_pos

end Piece

/-- Spaces are written as their first block and the spaces behind it. -/
theorem Sink.writeSpaces_block (s : Sink) (t : Transfer) (count : Nat) :
    s.writeSpaces (s.write t (Piece.spaces count).block) (count - min count spaceBlock) =
      s.writeSpaces t count := by
  by_cases hend : count = 0 ∨ t.failure.isSome
  · rcases hend with rfl | hfailed
    · simp [Piece.block]
    · rw [s.write_of_failure hfailed, writeSpaces, if_pos (.inr hfailed), writeSpaces,
        if_pos (.inr hfailed)]
  · conv_rhs => rw [writeSpaces, if_neg hend]
    rfl

namespace Delivery

variable {s : Sink}

/-- What a sink takes does not depend on the tags that were rendered before. -/
theorem transfer_foldl_accept {d d' : Delivery} (h : d.transfer = d'.transfer)
    (pieces : List Piece) :
    (pieces.foldl (accept s) d).transfer = (pieces.foldl (accept s) d').transfer := by
  induction pieces generalizing d d' with
  | nil => exact h
  | cons p pieces ih =>
    refine ih ?_
    cases p <;> simp only [accept, h]

/-- A piece is accepted as its first block and what is left behind it. -/
theorem transfer_accept_block (t : Transfer) (p : Piece) :
    (p.behind.foldl (accept s) { transfer := s.write t p.block }).transfer =
      (accept s { transfer := t } p).transfer := by
  cases p with
  | text text => rfl
  | tag h e => rfl
  | spaces count =>
    rw [Piece.behind, accept, ← s.writeSpaces_block]
    split
    · next hlt =>
      rw [Nat.min_eq_right (Nat.le_of_lt hlt)]
      rfl
    · next hle =>
      rw [Nat.min_eq_left (Nat.le_of_not_lt hle), Nat.sub_self, Sink.writeSpaces_zero]
      rfl

end Delivery

/-! ## Steps -/

namespace Pretty

/-- A pretty rendering on its way: the bytes on offer, the pieces behind them that are of the same
token, the nodes that are open behind these pieces, and the tokens that follow. -/
structure Progress where
  transfer : Transfer := {}
  offer : List UInt8 := []
  pieces : List Piece := []
  stack : List Frame := []
  tokens : List Token := []

namespace Progress

variable {s : Sink} {unit : Nat} {p q : Progress}

/-- One step of a rendering: a call of the sink, or the next piece, or the next token. There is none
after a failure. -/
inductive Step (s : Sink) (unit : Nat) : Progress → Progress → Prop where
  | call {t byte bytes pieces stack tokens} (ht : t.failure = none) :
    Step s unit ⟨t, byte :: bytes, pieces, stack, tokens⟩
      ⟨(s.call t byte bytes).1, (s.call t byte bytes).2, pieces, stack, tokens⟩
  | offer {t piece pieces stack tokens} (ht : t.failure = none) :
    Step s unit ⟨t, [], piece :: pieces, stack, tokens⟩
      ⟨t, piece.block, piece.behind ++ pieces, stack, tokens⟩
  | token {t stack token tokens} (ht : t.failure = none) :
    Step s unit ⟨t, [], [], stack, token :: tokens⟩
      ⟨t, [], (step unit stack token).2, (step unit stack token).1, tokens⟩

/-- Steps, one after the other. -/
def Run (s : Sink) (unit : Nat) : Progress → Progress → Prop :=
  Relation.ReflTransGen (Step s unit)

/-- A rendering that came to its end. -/
def Last (s : Sink) (unit : Nat) (p : Progress) : Prop := ∀ q, ¬ Step s unit p q

/-- What the sink holds in the end if the rendering goes on from here. -/
def outcome (s : Sink) (unit : Nat) (p : Progress) : Transfer :=
  ((p.pieces ++ piecesFrom unit p.stack p.tokens).foldl (Delivery.accept s)
    { transfer := s.write p.transfer p.offer }).transfer

/-- No step changes what the sink holds in the end. -/
theorem outcome_step (h : Step s unit p q) : q.outcome s unit = p.outcome s unit := by
  cases h with
  | call ht => rw [outcome, outcome, Sink.write_call ht]
  | @offer t piece pieces stack tokens ht =>
    rw [outcome, outcome, List.append_assoc, List.foldl_append, Sink.write_nil, List.cons_append,
      List.foldl_cons]
    exact Delivery.transfer_foldl_accept (Delivery.transfer_accept_block t piece) _
  | token ht => rw [outcome, outcome, List.nil_append, piecesFrom]

theorem outcome_run (h : Run s unit p q) : q.outcome s unit = p.outcome s unit := by
  induction h with
  | refl => rfl
  | tail _ hstep ih => exact (outcome_step hstep).trans ih

/-- What the sink holds now remains with it. -/
theorem size_le_outcome (s : Sink) (unit : Nat) (p : Progress) :
    p.transfer.taken.size ≤ (p.outcome s unit).taken.size :=
  (Transfer.Sends.write s p.transfer p.offer).size_le.trans
    (Delivery.sends_foldl s { transfer := s.write p.transfer p.offer } _).size_le

/-! ## The end -/

/-- At its end the sink failed, or nothing is left. -/
theorem Last.cases (h : p.Last s unit) :
    p.transfer.failure.isSome ∨ p.offer = [] ∧ p.pieces = [] ∧ p.tokens = [] := by
  obtain ⟨t, offer, pieces, stack, tokens⟩ := p
  cases ht : t.failure with
  | some cause => exact .inl rfl
  | none =>
    match offer, pieces, tokens with
    | _ :: _, _, _ => exact absurd (.call ht) (h _)
    | [], _ :: _, _ => exact absurd (.offer ht) (h _)
    | [], [], _ :: _ => exact absurd (.token ht) (h _)
    | [], [], [] => exact .inr ⟨rfl, rfl, rfl⟩

theorem Last.outcome_eq (h : p.Last s unit) : p.outcome s unit = p.transfer := by
  rcases h.cases with hfailed | ⟨hoffer, hpieces, htokens⟩
  · have hdelivery : Delivery.hasFailed { transfer := p.transfer } = true := hfailed
    rw [outcome, s.write_of_failure hfailed, Delivery.foldl_accept_of_hasFailed hdelivery]
  · rw [outcome, hoffer, hpieces, htokens, Sink.write_nil]
    rfl

/-- How far a rendering is from its end: by the tokens, then by the pieces, then by the bytes on
offer, and last by the calls that are interrupted. -/
noncomputable def distance (s : Sink) (p : Progress) : Nat × Nat × Nat × Nat :=
  (p.tokens.length, (p.pieces.map Piece.weight).sum, p.offer.length,
    s.interruptions.gap p.transfer.calls)

/-- Every step brings the end nearer. -/
theorem distance_step (h : Step s unit p q) :
    (Prod.Lex (· < ·) (Prod.Lex (· < ·) (Prod.Lex (· < ·) (· < ·)))) (q.distance s)
      (p.distance s) := by
  cases h with
  | @call t byte bytes pieces stack tokens ht =>
    exact .right _ (.right _ (s.lex_call t byte bytes))
  | @offer t piece pieces stack tokens ht =>
    refine .right _ (.left _ _ ?_)
    rw [List.map_append, List.sum_append, List.map_cons, List.sum_cons]
    exact Nat.add_lt_add_right piece.weight_behind_lt _
  | token ht => exact .left _ _ (Nat.lt_succ_self _)

theorem wellFounded_step (s : Sink) (unit : Nat) :
    WellFounded fun q p : Progress => Step s unit p q :=
  Subrelation.wf distance_step (InvImage.wf (distance s)
    (inferInstance : WellFoundedRelation (Nat × Nat × Nat × Nat)).wf)

/-- Every rendering comes to its end. -/
theorem exists_last (s : Sink) (unit : Nat) (p : Progress) :
    ∃ q, Run s unit p q ∧ q.Last s unit := by
  induction p using (wellFounded_step s unit).induction with
  | _ p ih =>
    by_cases hend : p.Last s unit
    · exact ⟨p, .refl, hend⟩
    · obtain ⟨next, hstep⟩ := not_forall_not.mp hend
      obtain ⟨q, hrun, hlast⟩ := ih next hstep
      exact ⟨q, .head hstep hrun, hlast⟩

/-- There the sink holds what every state on the way was to leave. -/
theorem Last.transfer_eq (h : q.Last s unit) (hrun : Run s unit p q) :
    q.transfer = p.outcome s unit :=
  h.outcome_eq.symm.trans (outcome_run hrun)

end Progress

end Pretty

open Pretty in
/-- A rendering of the tokens of a node ends as the node is rendered. -/
theorem Reachable.render_of_last {f : Forest} (hf : Reachable f) {h : Handle} (hh : f.Lives h)
    {env : Option Environment} {unit : Nat} {s : Sink} {last : Progress}
    (hrun : Progress.Run s unit { tokens := (f.grove h).tokens env } last)
    (hlast : last.Last s unit) :
    (f.render h (.pretty unit) env s).taken = last.transfer.taken ∧
      (f.render h (.pretty unit) env s).failure =
        last.transfer.failure.map (.unwritten last.transfer.taken.size) := by
  have hdeliver : last.transfer =
      (deliver s (Layout.pieces (.pretty unit) ((f.grove h).tokens env))).transfer := by
    rw [hlast.transfer_eq hrun, Progress.outcome, Sink.write_nil]
    rfl
  rw [Forest.render, hf.pieces_eq hh, hdeliver]
  exact ⟨rfl, rfl⟩

end Markup

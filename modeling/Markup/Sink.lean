/-!
# Sinks

A sink takes bytes. A call offers it some; it may take only a part, be interrupted, or fail. A
sink here is described by how much it takes in all and at a call, by how much less each call
takes, by which calls are interrupted (never all from some call on), and by what it does when it
is full.

`Sink.write` offers bytes until all are taken, as `write_str` of `CountingWriter` does: it repeats
interrupted calls and offers what is left after a short one. No call offers nothing, so a full sink
does no harm until there is another byte to write.

* `Sink.write_nil`: writing nothing makes no call.
* `Sink.write_of_failure`: after a failure nothing is written.
-/

namespace Markup

/-- Which calls are interrupted, by number from 0. -/
structure Interruptions where
  hits : Nat → Bool
  /-- Behind every call there is one that is not. -/
  ends : ∀ n, ∃ m, n ≤ m ∧ hits m = false

namespace Interruptions

/-- No call is interrupted. -/
def never : Interruptions := ⟨fun _ => false, fun n => ⟨n, Nat.le_refl n, rfl⟩⟩

/-- Every `n`-th call is interrupted; none at all if that would be every call. -/
def every (n : Nat) : Interruptions where
  hits k := decide (2 ≤ n ∧ (k + 1) % n = 0)
  ends k := by
    by_cases h : 2 ≤ n ∧ (k + 1) % n = 0
    · refine ⟨k + 1, Nat.le_succ k, decide_eq_false fun h' => ?_⟩
      have h1 : (k + 1 + 1) % n = 1 % n := by rw [Nat.add_mod, h.2]; simp
      rw [h1, Nat.mod_eq_of_lt (by omega)] at h'
      omega
    · exact ⟨k, Nat.le_refl k, decide_eq_false h⟩

theorem exists_gap (i : Interruptions) (n : Nat) :
    ∃ d, i.hits (n + d) = false ∧ ∀ e, e < d → i.hits (n + e) = true := by
  obtain ⟨m, hm, hits⟩ := i.ends n
  obtain ⟨d, rfl⟩ := Nat.exists_eq_add_of_le hm
  clear hm
  induction d using Nat.strongRecOn with
  | _ d ih =>
    by_cases h : ∃ e, e < d ∧ i.hits (n + e) = false
    · obtain ⟨e, he, hits'⟩ := h
      exact ih e he hits'
    · exact ⟨d, hits, fun e he => Bool.not_eq_false _ ▸ fun hf => h ⟨e, he, hf⟩⟩

/-- The number of interrupted calls from a call on, up to the next that is not. -/
noncomputable def gap (i : Interruptions) (n : Nat) : Nat := Classical.choose (i.exists_gap n)

/-- An interrupted call brings the next uninterrupted one nearer. -/
theorem gap_succ_lt (i : Interruptions) {n : Nat} (h : i.hits n = true) :
    i.gap (n + 1) < i.gap n := by
  obtain ⟨h0, h1⟩ := Classical.choose_spec (i.exists_gap n)
  obtain ⟨-, h3⟩ := Classical.choose_spec (i.exists_gap (n + 1))
  change i.hits (n + i.gap n) = false at h0
  change ∀ e, e < i.gap (n + 1) → i.hits (n + 1 + e) = true at h3
  have hpos : i.gap n ≠ 0 := by
    intro hz
    rw [hz, Nat.add_zero, h] at h0
    cases h0
  refine Nat.lt_of_not_le fun hle => ?_
  have := h3 (i.gap n - 1) (by omega)
  rw [show n + 1 + (i.gap n - 1) = n + i.gap n by omega, h0] at this
  cases this

end Interruptions

/-- What a sink does with bytes for which it has no room. -/
inductive WhenFull where
  | refuse (cause : String)
  | takeNothing
deriving DecidableEq, Repr

/-- A place that takes bytes: up to `limit` in all, and up to `perCall` at a call. -/
structure Sink where
  limit : Option Nat := none
  perCall : Option Nat := none
  /-- How many bytes fewer the call of this number takes, from 0; it still takes one if it can. -/
  heldBack : Nat → Nat := fun _ => 0
  whenFull : WhenFull := .takeNothing
  interruptions : Interruptions := .never

/-- The outcome of one call. -/
inductive Reply where
  | took (count : Nat)
  /-- Nothing happened, and the call may be repeated. -/
  | interrupted
  | failed (cause : String)
deriving DecidableEq, Repr

/-- What went into a sink so far. -/
structure Transfer where
  taken : Array UInt8 := #[]
  calls : Nat := 0
  failure : Option String := none
deriving DecidableEq, Repr

namespace Sink

/-- Takes every byte. -/
def unlimited : Sink := {}

/-- The failure of a call that took nothing. -/
def tookNothing : String := "write zero"

/-- The least of a number and a bound, if there is one. -/
def capped (bound : Option Nat) (n : Nat) : Nat :=
  match bound with
  | some b => min b n
  | none => n

/-- How many bytes the call of number `n` takes when there is room for `room`. -/
def portion (s : Sink) (n room : Nat) : Nat :=
  capped s.perCall room - min (s.heldBack n) (capped s.perCall room - 1)

/-- The reply to an offer of `size` bytes. -/
def reply (s : Sink) (t : Transfer) (size : Nat) : Reply :=
  if s.interruptions.hits t.calls then .interrupted
  else
    match capped (s.limit.map (· - t.taken.size)) size, s.whenFull with
    | 0, .refuse cause => .failed cause
    | room, _ => .took (s.portion t.calls room)

theorem hits_of_reply {s : Sink} {t : Transfer} {size : Nat} (h : s.reply t size = .interrupted) :
    s.interruptions.hits t.calls = true := by
  unfold reply at h
  split at h
  · assumption
  · split at h <;> cases h

/-- Offers bytes until all are taken or the sink fails. -/
def write (s : Sink) (t : Transfer) : List UInt8 → Transfer
  | [] => t
  | byte :: bytes =>
    if t.failure.isSome then t
    else
      match hr : s.reply t (bytes.length + 1) with
      | .interrupted =>
        have := s.interruptions.gap_succ_lt (hits_of_reply hr)
        s.write { t with calls := t.calls + 1 } (byte :: bytes)
      | .failed cause => { t with calls := t.calls + 1, failure := some cause }
      | .took 0 => { t with calls := t.calls + 1, failure := some tookNothing }
      | .took (n + 1) =>
        s.write { t with calls := t.calls + 1, taken := t.taken.push byte ++ bytes.take n }
          (bytes.drop n)
termination_by bytes => (bytes.length, s.interruptions.gap t.calls)
decreasing_by
  · exact Prod.Lex.right _ this
  · exact Prod.Lex.left _ _ (by rw [List.length_drop, List.length_cons]; omega)

/-- The longest run of spaces that is offered at once. -/
def spaceBlock : Nat := 32

/-- Writes spaces, a block at a time (`write_indent`). -/
def writeSpaces (s : Sink) (t : Transfer) (count : Nat) : Transfer :=
  if count = 0 ∨ t.failure.isSome then t
  else
    s.writeSpaces (s.write t (List.replicate (min count spaceBlock) 0x20))
      (count - min count spaceBlock)
termination_by count
decreasing_by
  simp only [spaceBlock]
  omega

/-- Writing nothing makes no call. -/
@[simp] theorem write_nil (s : Sink) (t : Transfer) : s.write t [] = t := by
  rw [write]

/-- After a failure nothing is written. -/
theorem write_of_failure (s : Sink) {t : Transfer} (h : t.failure.isSome) (bytes : List UInt8) :
    s.write t bytes = t := by
  cases bytes with
  | nil => exact write_nil s t
  | cons byte bytes => rw [write, if_pos h]

@[simp] theorem writeSpaces_zero (s : Sink) (t : Transfer) : s.writeSpaces t 0 = t := by
  rw [writeSpaces, if_pos (Or.inl rfl)]

end Sink

end Markup

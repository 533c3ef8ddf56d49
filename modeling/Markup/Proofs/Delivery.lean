import Markup.Proofs.Frames
import Markup.Proofs.Tokens

/-!
# What arrives in a sink

A sink takes bytes in portions of its own choice, and its calls may be interrupted. What it holds
in the end is decided by the bytes that were sent and by its limit alone: the bytes up to the
limit, and a failure once there is a byte more than that.

* `Sink.Fed`: a transfer is what the bytes sent so far make of it.
* `Sink.Fed.write`, `Sink.Fed.writeSpaces`, `Sink.Fed.accept`: what one step does.
* `Sink.fed_deliver`: what a whole delivery does.
* `Reachable.render_exact`: a rendering sends exactly the output, and fails exactly at the limit.
-/

namespace Markup

namespace Sink

/-- As long as there is room, the sink takes something at every call that is not interrupted. -/
def Willing (s : Sink) : Prop := s.perCall ≠ some 0

/-- Why a full sink fails. -/
def fullCause (s : Sink) : String :=
  match s.whenFull with
  | .refuse cause => cause
  | .takeNothing => tookNothing

/-- The transfer is what sending these bytes makes of it: the sink has those up to its limit, and it
failed if there were more. -/
structure Fed (s : Sink) (t : Transfer) (sent : List UInt8) : Prop where
  taken_eq : t.taken.toList = sent.take (capped s.limit sent.length)
  failure_eq : t.failure =
    if capped s.limit sent.length < sent.length then some s.fullCause else none

theorem capped_le (bound : Option Nat) (n : Nat) : capped bound n ≤ n := by
  cases bound with
  | none => exact Nat.le_refl n
  | some b => exact Nat.min_le_right b n

theorem portion_le (s : Sink) (n room : Nat) : s.portion n room ≤ room :=
  (Nat.sub_le _ _).trans (capped_le _ _)

theorem portion_pos {s : Sink} (hs : s.Willing) (n : Nat) {room : Nat} (hroom : 0 < room) :
    0 < s.portion n room := by
  have hcapped : 0 < capped s.perCall room := by
    unfold capped
    split
    · next b hb =>
      have hne : b ≠ 0 := fun e => hs (e ▸ hb)
      omega
    · exact hroom
  unfold portion
  omega

/-! ## The replies -/

/-- How many of `size` bytes there is room for. -/
def roomFor (s : Sink) (t : Transfer) (size : Nat) : Nat :=
  capped (s.limit.map (· - t.taken.size)) size

variable {s : Sink} {t : Transfer}

theorem of_reply_failed {size : Nat} {cause : String} (h : s.reply t size = .failed cause) :
    s.roomFor t size = 0 ∧ cause = s.fullCause := by
  unfold reply at h
  split at h
  · cases h
  · split at h
    · next hroom hfull =>
      cases h
      exact ⟨hroom, by rw [fullCause, hfull]⟩
    · cases h

theorem of_reply_took {size n : Nat} (hs : s.Willing) (h : s.reply t size = .took n) :
    n ≤ s.roomFor t size ∧ (n = 0 → s.roomFor t size = 0 ∧ s.fullCause = tookNothing) := by
  unfold reply at h
  split at h
  · cases h
  · split at h
    · cases h
    · next hrefuse =>
      cases h
      refine ⟨portion_le s _ _, fun hzero => ?_⟩
      have hroom : s.roomFor t size = 0 := by
        by_contra hne
        have hpos := portion_pos hs t.calls (Nat.pos_of_ne_zero hne)
        exact absurd hzero (Nat.ne_of_gt hpos)
      refine ⟨hroom, ?_⟩
      unfold fullCause
      split
      · next cause hfull => exact absurd hfull (hrefuse cause hroom)
      · rfl

namespace Fed

variable {sent : List UInt8}

theorem empty (s : Sink) : s.Fed {} [] where
  taken_eq := by simp
  failure_eq := by simp

/-- The number of calls does not count. -/
theorem called (h : s.Fed t sent) (n : Nat) : s.Fed { t with calls := n } sent :=
  ⟨h.taken_eq, h.failure_eq⟩

/-- As long as there was no failure, everything was taken. -/
theorem capped_eq (h : s.Fed t sent) (hnone : t.failure = none) :
    capped s.limit sent.length = sent.length := by
  have hfailure := h.failure_eq
  rw [hnone] at hfailure
  split at hfailure
  · cases hfailure
  · next hlt => exact Nat.le_antisymm (capped_le _ _) (Nat.le_of_not_lt hlt)

theorem size_eq (h : s.Fed t sent) (hnone : t.failure = none) : t.taken.size = sent.length := by
  have htaken := congrArg List.length h.taken_eq
  rwa [h.capped_eq hnone, List.take_length, Array.length_toList] at htaken

/-- The bytes that there is room for are taken. -/
theorem more (h : s.Fed t sent) (hnone : t.failure = none) {size : Nat} {bytes : List UInt8}
    (hfit : bytes.length ≤ s.roomFor t size) {t' : Transfer}
    (htaken : t'.taken.toList = t.taken.toList ++ bytes) (hfailure : t'.failure = none) :
    s.Fed t' (sent ++ bytes) := by
  have hcapped : capped s.limit (sent ++ bytes).length = (sent ++ bytes).length := by
    have hsent := h.capped_eq hnone
    rw [roomFor, h.size_eq hnone] at hfit
    rw [List.length_append]
    cases hlimit : s.limit with
    | none => rfl
    | some limit =>
      rw [hlimit] at hsent hfit
      simp only [capped, Option.map_some] at hsent hfit ⊢
      omega
  constructor
  · rw [htaken, h.taken_eq, h.capped_eq hnone, hcapped, List.take_length, List.take_length]
  · rw [hcapped, if_neg (Nat.lt_irrefl _), hfailure]

/-- Without room the next byte is a failure. -/
theorem overflow (h : s.Fed t sent) (hnone : t.failure = none) {byte : UInt8}
    {bytes : List UInt8} (hroom : s.roomFor t (bytes.length + 1) = 0) {t' : Transfer}
    (htaken : t'.taken = t.taken) (hfailure : t'.failure = some s.fullCause) :
    s.Fed t' (sent ++ byte :: bytes) := by
  have hcapped : capped s.limit (sent ++ byte :: bytes).length = sent.length := by
    have hsent := h.capped_eq hnone
    rw [roomFor, h.size_eq hnone] at hroom
    rw [List.length_append, List.length_cons]
    cases hlimit : s.limit with
    | none =>
      rw [hlimit] at hroom
      cases hroom
    | some limit =>
      rw [hlimit] at hsent hroom
      simp only [capped, Option.map_some] at hsent hroom ⊢
      omega
  constructor
  · rw [htaken, h.taken_eq, h.capped_eq hnone, hcapped, List.take_length, List.take_left]
  · have hlt : sent.length < (sent ++ byte :: bytes).length := by simp
    rw [hcapped, if_pos hlt, hfailure]

/-- After a failure, what is sent makes no difference. -/
theorem afterwards (h : s.Fed t sent) (hsome : t.failure.isSome) (bytes : List UInt8) :
    s.Fed t (sent ++ bytes) := by
  have hfailure := h.failure_eq
  split at hfailure
  · next hlt =>
    have hcapped : capped s.limit (sent ++ bytes).length = capped s.limit sent.length := by
      rw [List.length_append]
      cases hlimit : s.limit with
      | none =>
        rw [hlimit] at hlt
        exact absurd hlt (Nat.lt_irrefl _)
      | some limit =>
        rw [hlimit] at hlt
        simp only [capped] at hlt ⊢
        omega
    constructor
    · rw [hcapped, h.taken_eq, List.take_append_of_le_length (capped_le _ _)]
    · have hlt' : capped s.limit sent.length < (sent ++ bytes).length :=
        Nat.lt_of_lt_of_le hlt (by simp)
      rw [hcapped, if_pos hlt', hfailure]
  · rw [hfailure] at hsome
    cases hsome

/-- Bytes are sent until all are taken or the sink fails. -/
theorem write (hs : s.Willing) (h : s.Fed t sent) (bytes : List UInt8) :
    s.Fed (s.write t bytes) (sent ++ bytes) := by
  fun_induction s.write t bytes generalizing sent with
  | case1 t =>
    rw [List.append_nil]
    exact h
  | case2 t byte bytes hfailed => exact h.afterwards hfailed _
  | case3 t byte bytes hfailed hr hgap ih => exact ih (h.called _)
  | case4 t byte bytes hfailed cause hr =>
    obtain ⟨hroom, hcause⟩ := of_reply_failed hr
    exact h.overflow (Option.not_isSome_iff_eq_none.mp hfailed) hroom rfl (congrArg some hcause)
  | case5 t byte bytes hfailed hr =>
    obtain ⟨hroom, hcause⟩ := (of_reply_took hs hr).2 rfl
    exact h.overflow (Option.not_isSome_iff_eq_none.mp hfailed) hroom rfl
      (congrArg some hcause.symm)
  | case6 t byte bytes hfailed n hr ih =>
    have hnone := Option.not_isSome_iff_eq_none.mp hfailed
    have hfit : (byte :: bytes.take n).length ≤ s.roomFor t (bytes.length + 1) := by
      have hle := (of_reply_took hs hr).1
      simp only [List.length_cons, List.length_take]
      omega
    have hmore : s.Fed
        { t with calls := t.calls + 1, taken := t.taken.push byte ++ bytes.take n }
        (sent ++ byte :: bytes.take n) := h.more hnone hfit (by simp) hnone
    have hrest := ih hmore
    rwa [List.append_assoc, List.cons_append, List.take_append_drop] at hrest

/-- Spaces are sent in blocks, and arrive as one run. -/
theorem writeSpaces (hs : s.Willing) (h : s.Fed t sent) (count : Nat) :
    s.Fed (s.writeSpaces t count) (sent ++ List.replicate count 0x20) := by
  fun_induction s.writeSpaces t count generalizing sent with
  | case1 t count hend =>
    rcases hend with rfl | hfailed
    · rw [List.replicate_zero, List.append_nil]
      exact h
    · exact h.afterwards hfailed _
  | case2 t count hend ih =>
    have hblock := h.write hs (List.replicate (min count spaceBlock) 0x20)
    have hrest := ih hblock
    have hcount : min count spaceBlock + (count - min count spaceBlock) = count :=
      Nat.add_sub_cancel' (Nat.min_le_left _ _)
    rwa [List.append_assoc, List.replicate_append_replicate, hcount] at hrest

end Fed

end Sink

/-! ## Deliveries -/

theorem utf8_spaces (count : Nat) :
    utf8 (Piece.spaces count).shown = List.replicate count 0x20 := by
  induction count with
  | zero => rfl
  | succ count ih =>
    have hcons : (Piece.spaces (count + 1)).shown = " " ++ (Piece.spaces count).shown := by
      rw [Piece.shown, List.replicate_succ, ← List.singleton_append, String.ofList_append]
      rfl
    rw [hcons, utf8_append, ih, List.replicate_succ]
    rfl

namespace Sink

variable {s : Sink} {sent : List UInt8}

/-- A piece is sent as its text. -/
theorem Fed.accept (hs : s.Willing) {d : Delivery} (h : s.Fed d.transfer sent) (p : Piece) :
    s.Fed (Delivery.accept s d p).transfer (sent ++ utf8 p.shown) := by
  cases p with
  | text text => exact h.write hs _
  | spaces count =>
    rw [utf8_spaces]
    exact h.writeSpaces hs count
  | tag h' e => exact h.write hs _

theorem Fed.foldl_accept (hs : s.Willing) {d : Delivery} (h : s.Fed d.transfer sent)
    (pieces : List Piece) :
    s.Fed (pieces.foldl (Delivery.accept s) d).transfer (sent ++ utf8 (shownText pieces)) := by
  induction pieces generalizing d sent with
  | nil =>
    have hnil : utf8 (shownText []) = [] := rfl
    rw [hnil, List.append_nil]
    exact h
  | cons p pieces ih =>
    rw [shownText_cons, utf8_append, ← List.append_assoc]
    exact ih (h.accept hs p)

/-- A delivery sends the text of its pieces. -/
theorem fed_deliver (hs : s.Willing) (pieces : List Piece) :
    s.Fed (deliver s pieces).transfer (utf8 (shownText pieces)) := by
  have hstart : s.Fed ({} : Delivery).transfer [] := .empty s
  exact hstart.foldl_accept hs pieces

end Sink

/-! ## Renderings -/

/-- The rendering of a node sends its output. -/
theorem Reachable.fed_render {f : Forest} (hf : Reachable f) {h : Handle} (hh : f.Lives h)
    (layout : Layout) (env : Option Environment) :
    ∃ text, f.output h layout env = .ok text ∧ ∀ s : Sink, s.Willing →
      ∃ t, s.Fed t (utf8 text) ∧ (f.render h layout env s).taken = t.taken ∧
        (f.render h layout env s).failure = t.failure.map (.unwritten t.taken.size) := by
  have hpieces := hf.pieces_eq hh layout env
  refine ⟨shownText (layout.pieces ((f.grove h).tokens env)), ?_, fun s hs => ?_⟩
  · rw [Forest.output, hpieces]
    rfl
  · refine ⟨_, Sink.fed_deliver hs _, ?_⟩
    rw [Forest.render, hpieces]
    exact ⟨rfl, rfl⟩

/-- A sink without a limit gets the whole output. -/
theorem Reachable.render_without_limit {f : Forest} (hf : Reachable f) {h : Handle}
    {layout : Layout} {env : Option Environment} {text : String} (hh : f.Lives h)
    (houtput : f.output h layout env = .ok text) {s : Sink} (hlimit : s.limit = none)
    (hwilling : s.perCall ≠ some 0) :
    (f.exec (.render h layout env s)).answer = .ok (.written (utf8 text).length) ∧
      (f.exec (.render h layout env s)).taken.toList = utf8 text := by
  obtain ⟨sent, hsent, hrender⟩ := hf.fed_render hh layout env
  obtain rfl : text = sent := Except.ok.inj (houtput.symm.trans hsent)
  obtain ⟨t, ht, htaken, hfailure⟩ := hrender s hwilling
  have hheld := ht.taken_eq
  have hcause := ht.failure_eq
  rw [hlimit, Sink.capped, List.take_length] at hheld
  rw [hlimit, Sink.capped, if_neg (Nat.lt_irrefl _)] at hcause
  have hsize : t.taken.size = (utf8 text).length := by rw [← hheld, Array.length_toList]
  simp only [Forest.exec, Outcome.ofRendering, htaken, hfailure, hcause, hsize]
  exact ⟨rfl, hheld⟩

/-- No sink takes more than its limit. -/
theorem Reachable.size_taken_le {f : Forest} (hf : Reachable f) {h : Handle} (hh : f.Lives h)
    (layout : Layout) (env : Option Environment) {s : Sink} {limit : Nat}
    (hlimit : s.limit = some limit) (hwilling : s.perCall ≠ some 0) :
    (f.exec (.render h layout env s)).taken.size ≤ limit := by
  obtain ⟨text, -, hrender⟩ := hf.fed_render hh layout env
  obtain ⟨t, ht, htaken, -⟩ := hrender s hwilling
  have hheld := ht.taken_eq
  rw [hlimit, Sink.capped] at hheld
  simp only [Forest.exec, Outcome.ofRendering, htaken]
  rw [← Array.length_toList, hheld]
  exact (List.length_take_le _ _).trans (Nat.min_le_left _ _)

/-- **A rendering fails exactly at the limit**: the sink holds the bytes of the output up to its
limit, however it takes them, and the failure tells their number. -/
theorem Reachable.render_exact {f : Forest} (hf : Reachable f) {h : Handle} (hh : f.Lives h)
    (layout : Layout) (env : Option Environment) {s : Sink} {limit : Nat}
    (hlimit : s.limit = some limit) (hwilling : s.perCall ≠ some 0) :
    ∃ text, f.output h layout env = .ok text ∧
      (f.exec (.render h layout env .unlimited)).taken.toList = utf8 text ∧
      ((utf8 text).length ≤ limit →
        (f.exec (.render h layout env s)).answer = .ok (.written (utf8 text).length) ∧
        (f.exec (.render h layout env s)).taken.toList = utf8 text) ∧
      (limit < (utf8 text).length →
        (f.exec (.render h layout env s)).answer = .error (.unwritten limit s.fullCause) ∧
        (f.exec (.render h layout env s)).taken.toList = (utf8 text).take limit) := by
  obtain ⟨text, houtput, hrender⟩ := hf.fed_render hh layout env
  obtain ⟨u, hu, hutaken, -⟩ := hrender .unlimited (fun e => nomatch e)
  obtain ⟨t, ht, htaken, hfailure⟩ := hrender s hwilling
  have hheld := ht.taken_eq
  have hcause := ht.failure_eq
  rw [hlimit, Sink.capped] at hheld hcause
  have hsize : t.taken.size = min limit (utf8 text).length := by
    rw [← Array.length_toList, hheld, List.length_take, Nat.min_assoc, Nat.min_self]
  simp only [Forest.exec, Outcome.ofRendering, htaken, hfailure, hutaken]
  refine ⟨text, houtput, ?_, fun hle => ?_, fun hlt => ?_⟩
  · have hall := hu.taken_eq
    rwa [Sink.unlimited, Sink.capped, List.take_length] at hall
  · rw [Nat.min_eq_right hle] at hheld hcause hsize
    rw [if_neg (Nat.lt_irrefl _)] at hcause
    rw [List.take_length] at hheld
    rw [hcause, hsize]
    exact ⟨rfl, hheld⟩
  · rw [Nat.min_eq_left (Nat.le_of_lt hlt)] at hheld hcause hsize
    rw [if_pos hlt] at hcause
    rw [hcause, hsize]
    exact ⟨rfl, hheld⟩

/-- A full sink that refuses the rest of a paragraph, three bytes at a time and with every second
call interrupted. -/
theorem render_exact_of_short_sink :
    let f := Forest.empty.run [.create (.element .p), .appendNew ⟨0, 0⟩ (.text "abc")]
    let s : Sink := ⟨some 7, some 3, fun _ => 0, .refuse "full", .every 2⟩
    f.Lives ⟨0, 0⟩ ∧ s.limit = some 7 ∧ s.perCall ≠ some 0 ∧
      f.output ⟨0, 0⟩ .compact none = .ok "<p>abc</p>" ∧
      (f.exec (.render ⟨0, 0⟩ .compact none s)).answer = .error (.unwritten 7 "full") ∧
      (f.exec (.render ⟨0, 0⟩ .compact none s)).taken.toList = (utf8 "<p>abc</p>").take 7 := by
  intro f s
  have hlives : f.Lives ⟨0, 0⟩ := ⟨_, rfl⟩
  have hlimit : s.limit = some 7 := rfl
  have hwilling : s.perCall ≠ some 0 := by decide
  have htext : f.output ⟨0, 0⟩ .compact none = .ok "<p>abc</p>" := by decide
  obtain ⟨text, houtput, -, -, hfails⟩ := (Reachable.empty.run _ : Reachable f).render_exact
    hlives .compact none hlimit hwilling
  rw [htext] at houtput
  cases houtput
  have hlong : 7 < (utf8 "<p>abc</p>").length := by decide
  exact ⟨hlives, hlimit, hwilling, htext, hfails hlong⟩

end Markup

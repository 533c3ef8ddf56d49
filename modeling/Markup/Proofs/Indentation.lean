import Markup.Proofs.Progress

/-!
# Indentation does not run over

A pretty rendering computes two kinds of numbers: the indentation of every node that starts, a
fragment included, and after every call how many bytes the sink took. A unit may be as large as a
number can be, and nodes may be as deep as one likes. But a node with a line of its own has its
indentation written before anything in it starts. So while the sink took less than `2 ^ 63` bytes,
such a node is not indented at all, or by a unit at least and by less than `2 ^ 63`; either way a
unit more can be counted. The indentation of a fragment is not written and may be any number, but
the nodes in it take it over as it is.

* `Pretty.Progress.Computes`: the numbers that are computed in a step.
* `Pretty.Progress.Fits`: the open nodes have indentations that can be counted once what is on its
  way is written; `Pretty.Progress.fits_step`, `Pretty.Progress.fits_run`: this remains so.
* `Reachable.pretty_counts_fit`: no number that a rendering computes takes more than 64 bits.
-/

namespace Markup

namespace Token

/-- Whether a node starts with the token. -/
def isStart : Token → Bool
  | .openDocument _ _ | .openElement _ _ | .openComment | .openFragment | .leaf _ => true
  | _ => false

end Token

namespace Pretty

namespace Progress

variable {s : Sink} {unit : Nat} {p q : Progress}

/-- The step from here computes the number. -/
inductive Computes (s : Sink) (unit : Nat) : Progress → Nat → Prop where
  /-- The indentation of a node that starts, before the new line in front of it. -/
  | indentation {t stack token tokens} (ht : t.failure = none) (hstart : token.isStart = true) :
    Computes s unit ⟨t, [], [], stack, token :: tokens⟩ (childIndentation unit stack)
  | written {t byte bytes pieces stack tokens} (ht : t.failure = none) :
    Computes s unit ⟨t, byte :: bytes, pieces, stack, tokens⟩
      (s.call t byte bytes).1.taken.size

/-- As long as the sink did not fail, the open nodes have indentations that can be counted, those
that have a line of their own at the latest when what is on its way is written. -/
def Fits (unit : Nat) (p : Progress) : Prop :=
  p.transfer.failure = none → ∀ fr ∈ p.stack,
    fr.Fits unit (p.transfer.taken.size + p.offer.length + (utf8 (shownText p.pieces)).length)

/-- A step keeps it, if the sink does not take too much in the end. -/
theorem fits_step (h : Step s unit p q) (hp : p.Fits unit) (hunit : unit < 2 ^ 64)
    (hbytes : (p.outcome s unit).taken.size < 2 ^ 63) : q.Fits unit := by
  intro hopen
  have hcount := Nat.lt_of_le_of_lt (p.size_le_outcome s unit) hbytes
  cases h with
  | @call t byte bytes pieces stack tokens ht =>
    obtain ⟨n, hsends, hlength⟩ := s.sends_call ht byte bytes
    have htaken := hsends.complete ht hopen
    intro fr hfr
    refine (hp ht fr hfr).mono ?_
    simp only [List.length_cons]
    omega
  | @offer t piece pieces stack tokens ht =>
    have hlength := piece.length_block
    intro fr hfr
    refine (hp ht fr hfr).mono ?_
    simp only [shownText_cons, shownText_append, utf8_append, List.length_append, List.length_nil]
    omega
  | @token t stack token tokens ht =>
    exact step_fits (hp ht) hcount hunit (Nat.le_refl _)

theorem fits_run (h : Run s unit p q) (hp : p.Fits unit) (hunit : unit < 2 ^ 64)
    (hbytes : (p.outcome s unit).taken.size < 2 ^ 63) : q.Fits unit := by
  induction h with
  | refl => exact hp
  | tail hrun hstep ih =>
    rw [← outcome_run hrun] at hbytes
    exact fits_step hstep ih hunit hbytes

/-- What is computed where the open nodes fit can be counted. -/
theorem Computes.lt {n : Nat} (h : Computes s unit p n) (hp : p.Fits unit) (hunit : unit < 2 ^ 64)
    (hbytes : (p.outcome s unit).taken.size < 2 ^ 63) : n < 2 ^ 64 := by
  cases h with
  | @indentation t stack token tokens ht =>
    have hcount := Nat.lt_of_le_of_lt (size_le_outcome s unit _) hbytes
    exact (childIndentation_fits (hp ht) hcount hunit).2
  | @written t byte bytes pieces stack tokens ht =>
    have hstep : Step s unit ⟨t, byte :: bytes, pieces, stack, tokens⟩ _ := .call ht
    rw [← outcome_step hstep] at hbytes
    have hle := Nat.lt_of_le_of_lt (size_le_outcome s unit _) hbytes
    exact Nat.lt_trans hle (by decide)

end Progress

end Pretty

open Pretty

/-- **No number that a pretty rendering computes takes more than 64 bits**, if the sink takes less
than `2 ^ 63` bytes, for want of room or for want of output: no indentation, be it written or not,
and no count of the bytes taken, at any step up to the one where the rendering ends. And it does
end, with the bytes and the failure of the rendering of the node. -/
theorem Reachable.pretty_counts_fit {f : Forest} (hf : Reachable f) {h : Handle} (hh : f.Lives h)
    (env : Option Environment) {unit : Nat} (hunit : unit < 2 ^ 64) {s : Sink}
    (hbytes : (f.render h (.pretty unit) env s).taken.size < 2 ^ 63) :
    ∃ tokens, f.tokens h env = .ok tokens ∧
      (∀ p n, Progress.Run s unit { tokens } p → Progress.Computes s unit p n → n < 2 ^ 64) ∧
      (∃ last, Progress.Run s unit { tokens } last ∧ Progress.Last s unit last) ∧
      ∀ last, Progress.Run s unit { tokens } last → Progress.Last s unit last →
        (f.render h (.pretty unit) env s).taken = last.transfer.taken ∧
        (f.render h (.pretty unit) env s).failure =
          last.transfer.failure.map (.unwritten last.transfer.taken.size) := by
  obtain ⟨last, hrun, hlast⟩ :=
    Progress.exists_last s unit { tokens := (f.grove h).tokens env }
  refine ⟨_, hf.tokens_eq hh env, fun p n hp hn => ?_, ⟨last, hrun, hlast⟩,
    fun last hrun hlast => hf.render_of_last hh hrun hlast⟩
  rw [(hf.render_of_last hh hrun hlast).1, hlast.transfer_eq hrun] at hbytes
  have hfits : p.Fits unit :=
    Progress.fits_run hp (fun _ fr hfr => absurd hfr List.not_mem_nil) hunit hbytes
  rw [← Progress.outcome_run hp] at hbytes
  exact hn.lt hfits hunit hbytes

/-- A list with a fragment and a comment in it, the largest unit, and a sink that takes `2 ^ 63 - 1`
bytes, at most 4096 at a call, and is interrupted at every second one. The indentation of the
fragment, which is not written, is the largest number that can be counted. -/
theorem pretty_counts_fit_of_largest_unit :
    let f := Forest.empty.run [.create (.element .ul), .appendNew ⟨0, 0⟩ .fragment,
      .appendNew ⟨1, 0⟩ .comment, .appendNew ⟨2, 0⟩ (.text "a")]
    let s : Sink := ⟨some (2 ^ 63 - 1), some 4096, fun _ => 0, .refuse "full", .every 2⟩
    let tokens := [.openElement ⟨0, 0⟩ (.ofName .ul), .openFragment, .openComment, .leaf ["a"],
      .closeComment, .closeFragment, .closeElement (.ofName .ul)]
    f.Lives ⟨0, 0⟩ ∧ 2 ^ 64 - 1 < 2 ^ 64 ∧
      (f.render ⟨0, 0⟩ (.pretty (2 ^ 64 - 1)) none s).taken.size < 2 ^ 63 ∧
      f.tokens ⟨0, 0⟩ none = .ok tokens ∧
      (∀ p n, Progress.Run s (2 ^ 64 - 1) { tokens } p →
        Progress.Computes s (2 ^ 64 - 1) p n → n < 2 ^ 64) ∧
      (∃ p, Progress.Run s (2 ^ 64 - 1) { tokens } p ∧
        Progress.Computes s (2 ^ 64 - 1) p (2 ^ 64 - 1)) ∧
      ∃ last, Progress.Run s (2 ^ 64 - 1) { tokens } last ∧
        Progress.Last s (2 ^ 64 - 1) last := by
  intro f s tokens
  have hf : Reachable f := Reachable.empty.run _
  have hlives : f.Lives ⟨0, 0⟩ := ⟨_, rfl⟩
  have hunit : 2 ^ 64 - 1 < 2 ^ 64 := by decide
  have hbytes : (f.render ⟨0, 0⟩ (.pretty (2 ^ 64 - 1)) none s).taken.size < 2 ^ 63 :=
    Nat.lt_of_le_of_lt (hf.size_taken_le hlives _ none rfl (by decide)) (by decide)
  have htokens : f.tokens ⟨0, 0⟩ none = .ok tokens := by decide
  obtain ⟨_, hexact, hfits, hlast, -⟩ := hf.pretty_counts_fit hlives none hunit hbytes
  obtain rfl := Except.ok.inj (htokens.symm.trans hexact)
  -- the list starts, its tag is written in a single call, and then the fragment starts
  have hrun : ∃ p, Progress.Run s (2 ^ 64 - 1) { tokens } p ∧
      Progress.Computes s (2 ^ 64 - 1) p (2 ^ 64 - 1) :=
    ⟨_, .head (.token rfl) (.head (.offer rfl) (.head (.offer rfl) (.head (.call rfl) .refl))),
      .indentation (by decide) rfl⟩
  exact ⟨hlives, hunit, hbytes, htokens, hfits, hrun, hlast⟩

end Markup

import Markup.Forest.Links
import Mathlib.Data.List.Nodup

/-!
# Rows of nodes

The children of a node form a row: a list without repetitions in which every node knows the one
behind it (`follower?`), and by way of the reversed list the one in front of it. Going along such
a step from the first node passes exactly the row.

* `Passes step start row`: going along `step` from `start` passes `row` and then ends. Unlike
  `chase` it is not cut off, and `chase_eq_of_passes` says when `chase` is not cut off either.
* `follower?_eq_some_iff`, `follower?_eq_some_comm`: being behind somebody in a row, and in front
  of somebody, are the same thing seen from two sides.
* `follower?_erase`, `head?_erase`: what a row becomes when one node leaves it.
-/

namespace Markup

/-! ## The follower in a row -/

/-- What stands right behind the first `x` in a list. -/
def follower? (x : Handle) : List Handle → Option Handle
  | [] => none
  | y :: ys => if y = x then ys.head? else follower? x ys

theorem follower?_append_cons {x : Handle} {a b : List Handle} (h : x ∉ a) :
    follower? x (a ++ x :: b) = b.head? := by
  induction a with
  | nil => simp [follower?]
  | cons z zs ih =>
    obtain ⟨hz, hzs⟩ := not_or.mp (mt List.mem_cons.mpr h)
    rw [List.cons_append, follower?, if_neg fun e => hz e.symm, ih hzs]

theorem follower?_eq_none_of_not_mem {x : Handle} {l : List Handle} (h : x ∉ l) :
    follower? x l = none := by
  induction l with
  | nil => rfl
  | cons y ys ih =>
    obtain ⟨hy, hys⟩ := not_or.mp (mt List.mem_cons.mpr h)
    rw [follower?, if_neg fun e => hy e.symm, ih hys]

theorem exists_of_follower?_eq_some {x y : Handle} {l : List Handle} (h : follower? x l = some y) :
    ∃ a b, l = a ++ x :: y :: b := by
  induction l with
  | nil => cases h
  | cons z zs ih =>
    rw [follower?] at h
    split at h
    · next e =>
      obtain ⟨ys, rfl⟩ := List.head?_eq_some_iff.mp h
      exact ⟨[], ys, by rw [e]; rfl⟩
    · obtain ⟨a, b, rfl⟩ := ih h
      exact ⟨z :: a, b, rfl⟩

theorem mem_of_follower?_eq_some {x y : Handle} {l : List Handle} (h : follower? x l = some y) :
    x ∈ l ∧ y ∈ l := by
  obtain ⟨a, b, rfl⟩ := exists_of_follower?_eq_some h
  simp

/-- In a row, `y` is behind `x` exactly when the two stand side by side. -/
theorem follower?_eq_some_iff {x y : Handle} {l : List Handle} (hn : l.Nodup) :
    follower? x l = some y ↔ ∃ a b, l = a ++ x :: y :: b := by
  refine ⟨exists_of_follower?_eq_some, ?_⟩
  rintro ⟨a, b, rfl⟩
  have hx : x ∉ a := fun hx => List.disjoint_of_nodup_append hn hx List.mem_cons_self
  rw [follower?_append_cons hx, List.head?_cons]

/-- `y` is behind `x` exactly when `x` is in front of `y`. -/
theorem follower?_eq_some_comm {x y : Handle} {l : List Handle} (hn : l.Nodup) :
    follower? x l = some y ↔ follower? y l.reverse = some x := by
  rw [follower?_eq_some_iff hn, follower?_eq_some_iff (List.nodup_reverse.mpr hn)]
  constructor
  · rintro ⟨a, b, rfl⟩
    exact ⟨b.reverse, a.reverse, by simp⟩
  · rintro ⟨a, b, h⟩
    exact ⟨b.reverse, a.reverse, by rw [← List.reverse_reverse l, h]; simp⟩

/-- Nobody is behind the last node of a row. -/
theorem follower?_eq_none_iff {x : Handle} {l : List Handle} (hn : l.Nodup) (hx : x ∈ l) :
    follower? x l = none ↔ l.getLast? = some x := by
  obtain ⟨a, b, rfl⟩ := List.append_of_mem hx
  have hxa : x ∉ a := fun h => List.disjoint_of_nodup_append hn h List.mem_cons_self
  rw [follower?_append_cons hxa, List.head?_eq_none_iff]
  constructor
  · rintro rfl
    simp
  · intro h
    have hxb : x ∉ b := (List.nodup_cons.mp hn.of_append_right).1
    cases b with
    | nil => rfl
    | cons y ys =>
      rw [List.getLast?_append_cons, List.getLast?_cons_cons] at h
      exact absurd (List.mem_of_getLast? h) hxb

/-! ## Nodes that leave and enter a row -/

/-- When `h` leaves a row, the node in front of it gets the one behind it. -/
theorem follower?_erase {x h : Handle} {l : List Handle} (hn : l.Nodup) (hx : x ≠ h) :
    follower? x (l.erase h) = if follower? x l = some h then follower? h l else follower? x l := by
  by_cases hh : h ∈ l
  · obtain ⟨a, b, rfl⟩ := List.append_of_mem hh
    have hha : h ∉ a := fun m => List.disjoint_of_nodup_append hn m List.mem_cons_self
    rw [List.erase_append_right _ hha, List.erase_cons_head, follower?_append_cons hha]
    induction a with
    | nil =>
      have hxb : follower? x (h :: b) = follower? x b := by
        rw [follower?, if_neg fun e => hx e.symm]
      have hne : follower? x b ≠ some h := fun e =>
        (List.nodup_cons.mp hn).1 (mem_of_follower?_eq_some e).2
      rw [List.nil_append, List.nil_append, hxb, if_neg hne]
    | cons z zs ih =>
      obtain ⟨hz, hzs⟩ := not_or.mp (mt List.mem_cons.mpr hha)
      simp only [List.cons_append, follower?]
      by_cases e : z = x
      · cases zs with
        | nil => simp [e]
        | cons w ws =>
          have hw : w ≠ h := fun e => hzs (e ▸ List.mem_cons_self)
          simp [e, hw]
      · rw [if_neg e, if_neg e]
        exact ih (List.nodup_cons.mp hn).2 (by simp) hzs
  · have hne : follower? x l ≠ some h := fun e => hh (mem_of_follower?_eq_some e).2
    rw [List.erase_of_not_mem hh, if_neg hne]

theorem head?_erase {h : Handle} {l : List Handle} :
    (l.erase h).head? = if l.head? = some h then follower? h l else l.head? := by
  cases l with
  | nil => simp
  | cons x xs =>
    by_cases e : x = h
    · subst e
      rw [List.erase_cons_head, List.head?_cons, if_pos rfl, follower?, if_pos rfl]
    · simp [e]

/-- A node that enters a row at its end comes behind the last one. -/
theorem follower?_concat {x h : Handle} {l : List Handle} (hn : l.Nodup) (hx : x ≠ h) :
    follower? x (l ++ [h]) = if l.getLast? = some x then some h else follower? x l := by
  by_cases hm : x ∈ l
  · obtain ⟨a, b, rfl⟩ := List.append_of_mem hm
    have hxa : x ∉ a := fun m => List.disjoint_of_nodup_append hn m List.mem_cons_self
    have hlast := follower?_eq_none_iff hn hm
    rw [List.append_assoc, List.cons_append, follower?_append_cons hxa]
    rw [follower?_append_cons hxa] at hlast ⊢
    cases b with
    | nil => simp
    | cons y ys =>
      have hne : (a ++ x :: y :: ys).getLast? ≠ some x := fun e => by simpa using hlast.mpr e
      rw [if_neg hne]
      rfl
  · have hne : l.getLast? ≠ some x := fun e => hm (List.mem_of_getLast? e)
    rw [if_neg hne, follower?_eq_none_of_not_mem hm]
    exact follower?_eq_none_of_not_mem (by simp [hm, hx])

theorem reverse_erase {h : Handle} {l : List Handle} (hn : l.Nodup) :
    (l.erase h).reverse = l.reverse.erase h := by
  rw [hn.erase_eq_filter, (List.nodup_reverse.mpr hn).erase_eq_filter, List.filter_reverse]

/-! ## Going along a step -/

/-- Going along `step` from `start` passes exactly the given nodes and ends behind them. -/
def Passes (step : Handle → Option Handle) : Option Handle → List Handle → Prop
  | start, [] => start = none
  | start, x :: xs => start = some x ∧ Passes step (step x) xs

theorem chase_eq_of_passes {step : Handle → Option Handle} {start : Option Handle}
    {row : List Handle} (h : Passes step start row) {n : Nat} (hn : row.length ≤ n) :
    chase step n start = row := by
  induction row generalizing start n with
  | nil =>
    cases h
    exact chase_none step n
  | cons x xs ih =>
    obtain ⟨rfl, h⟩ := h
    obtain ⟨m, rfl⟩ := Nat.exists_eq_add_of_le' (Nat.lt_of_lt_of_le (Nat.succ_pos _) hn)
    rw [chase_cons, ih h (by simpa using hn)]

/-- Nodes that are each the step from the one before are passed. -/
theorem passes_of_follower? {step : Handle → Option Handle} {row : List Handle} (hn : row.Nodup)
    (h : ∀ x ∈ row, step x = follower? x row) : Passes step row.head? row := by
  induction row with
  | nil => rfl
  | cons x xs ih =>
    obtain ⟨hx, hxs⟩ := List.nodup_cons.mp hn
    have hstep : step x = xs.head? := by rw [h x List.mem_cons_self, follower?, if_pos rfl]
    refine ⟨rfl, hstep ▸ ih hxs fun y hy => ?_⟩
    have hne : x ≠ y := fun e => hx (e ▸ hy)
    rw [h y (List.mem_cons_of_mem x hy), follower?, if_neg hne]

end Markup

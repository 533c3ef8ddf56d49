import Markup.Proofs.Accounts
import Markup.Proofs.Linked

/-!
# Guarded programs

The operations on forests are total functions. What is not in a slot reads as nothing, and a list
that is read along links ends after as many steps as there are slots. A program that keeps nodes in
numbered slots has no such mercy: it is trapped when it reads a slot that is not there or the
content of an empty one, when it cuts a text inside of a character, when a number gets too large,
and when a loop does not come to its end.

Here the questions about nodes are asked step by step, with a guard at every step that could be a
trap. Where the links show a kinship no guard ever stops a question, not even one about a removed
node, and the answer is that of the total function.

* `Trap`, `Guarded`: what can stop a program, and a program that may be stopped.
* `Guarded.Yields`: a program is not trapped, and gives a result or refuses.
* `Guarded.data_eq`: the content of a slot is read without a trap if and only if there is a node.
* `Guarded.children_eq`, `Guarded.up_eq`: loops along links end, for every handle.
-/

namespace Markup

/-- What stops a program for good: a slot that is not there, or is empty or filled when it should
not be, a text that is not cut between characters, a number above 64 bits, a loop without an end. -/
inductive Trap where
  | outside (slot : Nat)
  | vacant (h : Handle)
  | occupied (slot : Nat)
  | cut (start stop : Nat)
  /-- A node would come behind or below itself. -/
  | knot (h : Handle)
  | overflow
  | endless
deriving DecidableEq, Repr

/-- Whether a fault is about what was asked for, and not about the state of things. -/
def Fault.isRefusal : Fault → Bool
  | .vacant _ | .brokenSpan => false
  | _ => true

/-- What a program gives that may be trapped. -/
abbrev Guarded : Type → Type := Except Trap

namespace Guarded

variable {α β : Type} {f : Forest} {k : Kinship} {h : Handle}

theorem bind_of_ok {x : Guarded α} {a : α} (hx : x = .ok a) (g : α → Guarded β) :
    (x >>= g) = g a := by
  rw [hx]
  rfl

/-! ## Slots -/

/-- The slot of a handle. -/
def slot (f : Forest) (h : Handle) : Guarded Slot :=
  match f.slots[h.slot]? with
  | some s => .ok s
  | none => .error (.outside h.slot)

/-- The node in the slot of a handle (`data`). -/
def data (f : Forest) (h : Handle) : Guarded Cell := do
  let s ← slot f h
  match s.cell with
  | some c => return c
  | none => throw (.vacant h)

/-- The links in the slot of a handle; an empty slot has none. -/
def links (f : Forest) (h : Handle) : Guarded Links := do
  let s ← slot f h
  return (s.cell.map (·.links)).getD {}

/-- Whether a node was removed (`is_removed`). Only the stamp of the slot is looked at, with its
sign. -/
def isRemoved (f : Forest) (h : Handle) : Guarded Bool := do
  let _ ← slot f h
  return decide (f.signedStamp h.slot ≠ h.stamp)

theorem slot_eq (hi : h.slot < f.size) : slot f h = .ok f.slots[h.slot] := by
  have hs : f.slots[h.slot]? = some f.slots[h.slot] := Array.getElem?_eq_getElem hi
  rw [slot, hs]

theorem occupant?_eq (hi : h.slot < f.size) : f.occupant? h = f.slots[h.slot].cell := by
  have hs : f.slots[h.slot]? = some f.slots[h.slot] := Array.getElem?_eq_getElem hi
  rw [Forest.occupant?, hs]
  rfl

/-- The content of a slot is read without a trap if and only if there is a node, whatever the stamp
of the handle. -/
theorem data_eq (hi : h.slot < f.size) :
    data f h = (f.occupant? h).elim (.error (.vacant h)) .ok := by
  rw [data, bind_of_ok (slot_eq hi), occupant?_eq hi]
  cases f.slots[h.slot].cell <;> rfl

theorem data_of_occupant? {c : Cell} (hc : f.occupant? h = some c) : data f h = .ok c := by
  have hi : h.slot < f.size := by
    obtain ⟨s, hs, -⟩ := Option.bind_eq_some_iff.mp hc
    exact (Array.getElem?_eq_some_iff.mp hs).1
  rw [data_eq hi, hc]
  rfl

theorem data_of_cell? {c : Cell} (hc : f.cell? h = some c) : data f h = .ok c :=
  data_of_occupant? (Forest.occupant?_eq_of_cell? hc).1

theorem occupant?_of_held {c : Cell} (hc : f.held h = .ok c) : f.occupant? h = some c := by
  rw [Forest.held] at hc
  split at hc
  · next ho => exact ho.trans (congrArg some (Except.ok.inj hc))
  · cases hc

theorem data_of_held {c : Cell} (hc : f.held h = .ok c) : data f h = .ok c :=
  data_of_occupant? (occupant?_of_held hc)

theorem links_eq (hi : h.slot < f.size) : links f h = .ok (f.links h) := by
  rw [links, bind_of_ok (slot_eq hi), Forest.links, occupant?_eq hi]
  rfl

/-- A handle that was given out has a slot, be its node removed or not. -/
theorem slot_lt_of_known (hk : f.Known h) : h.slot < f.size := by
  refine hk.elim Forest.slot_lt_size fun hs => ?_
  by_contra hout
  have hnone : f.slots[h.slot]? = none := Array.getElem?_eq_none (Nat.le_of_not_lt hout)
  rw [Forest.Spent, Forest.stampAt, hnone] at hs
  exact Nat.not_lt_zero _ hs

/-- For a handle that was given out, to look at the stamp is enough. -/
theorem isRemoved_eq (hk : f.Known h) : isRemoved f h = .ok (f.isRemoved h) := by
  rw [isRemoved, bind_of_ok (slot_eq (slot_lt_of_known hk))]
  refine congrArg Except.ok (Bool.eq_iff_iff.mpr ?_)
  rw [decide_eq_true_iff, Forest.isRemoved_iff_signedStamp hk]

/-! ## Loops along links -/

/-- All nodes from `start` on, each one the `step` from the node before; there should be no more
than `n`. -/
def chase (step : Handle → Guarded (Option Handle)) :
    Nat → Option Handle → Guarded (List Handle)
  | _, none => .ok []
  | 0, some _ => .error .endless
  | n + 1, some h => do
    let next ← step h
    return h :: (← chase step n next)

/-- The nodes below, in order (`children`). -/
def children (f : Forest) (h : Handle) : Guarded (List Handle) := do
  let l ← links f h
  chase (fun x => return (← links f x).next) f.size l.first

/-- The nodes below, in reverse order. -/
def childrenBackwards (f : Forest) (h : Handle) : Guarded (List Handle) := do
  let l ← links f h
  chase (fun x => return (← links f x).previous) f.size l.last

/-- The nodes above, the nearest first. -/
def ancestors (f : Forest) (h : Handle) : Guarded (List Handle) := do
  let l ← links f h
  chase (fun x => return (← links f x).parent) f.size l.parent

/-- The node `count` levels above. -/
def climb (f : Forest) : Nat → Handle → Guarded (Option Handle)
  | 0, h => .ok (some h)
  | count + 1, h => do
    match (← links f h).parent with
    | some p => climb f count p
    | none => return none

/-- The node `count` levels above; no levels count as one. -/
def up (f : Forest) (h : Handle) (count : Nat) : Guarded (Option Handle) := climb f (max count 1) h

theorem chase_eq {step : Handle → Guarded (Option Handle)} {next : Handle → Option Handle}
    {start : Option Handle} {row : List Handle} (hpass : Passes next start row)
    (hstep : ∀ x ∈ row, step x = .ok (next x)) {n : Nat} (hn : row.length ≤ n) :
    chase step n start = .ok row := by
  induction row generalizing start n with
  | nil =>
    cases hpass
    cases n <;> rfl
  | cons x row ih =>
    obtain ⟨rfl, hpass⟩ := hpass
    obtain ⟨n, rfl⟩ := Nat.exists_eq_add_of_le' (Nat.lt_of_lt_of_le (Nat.succ_pos _) hn)
    have hrest := ih hpass (fun y hy => hstep y (List.mem_cons_of_mem x hy)) (by simpa using hn)
    rw [chase, bind_of_ok (hstep x List.mem_cons_self), bind_of_ok hrest]
    rfl

/-- A step along a link of a node that lives. -/
theorem step_eq (link : Links → Option Handle) {x : Handle} (hx : f.Lives x) :
    (do return link (← links f x) : Guarded (Option Handle)) = .ok (link (f.links x)) :=
  bind_of_ok (links_eq (Forest.slot_lt_size hx)) _

/-- Along one kind of link the loop gives the list of nodes that are passed. -/
theorem chase_links_eq (link : Links → Option Handle) {start : Option Handle} {row : List Handle}
    (hpass : Passes (fun x => link (f.links x)) start row) (hl : ∀ x ∈ row, f.Lives x)
    (hn : row.length ≤ f.size) :
    chase (fun x => return link (← links f x)) f.size start =
      .ok (Markup.chase (fun x => link (f.links x)) f.size start) := by
  rw [chase_eq_of_passes hpass hn]
  exact chase_eq hpass (fun x hx => step_eq link (hl x hx)) hn

/-- An empty slot has no links. -/
theorem links_of_vacant (ho : f.occupant? h = none) : f.links h = {} := by
  rw [Forest.links, ho]
  rfl

/-- The children in a slot, also through the handle of a removed node. -/
theorem exists_passes_children (hs : f.Shows k) (h : Handle) :
    ∃ row, Passes f.nextSibling? (f.firstChild? h) row ∧ (∀ x ∈ row, f.Lives x) ∧
      row.length ≤ f.size := by
  cases ho : f.occupant? h with
  | none =>
    refine ⟨[], ?_, fun _ hx => absurd hx List.not_mem_nil, Nat.zero_le _⟩
    rw [Forest.firstChild?, links_of_vacant ho]
    rfl
  | some c =>
    exact ⟨k.children (f.occupant h), hs.passes_children ⟨c, Forest.cell?_occupant ho⟩,
      fun _ hx => hs.lives_of_mem_children hx, hs.length_children_le _⟩

theorem exists_passes_childrenBackwards (hs : f.Shows k) (h : Handle) :
    ∃ row, Passes f.previousSibling? (f.lastChild? h) row ∧ (∀ x ∈ row, f.Lives x) ∧
      row.length ≤ f.size := by
  cases ho : f.occupant? h with
  | none =>
    refine ⟨[], ?_, fun _ hx => absurd hx List.not_mem_nil, Nat.zero_le _⟩
    rw [Forest.lastChild?, links_of_vacant ho]
    rfl
  | some c =>
    have hl : f.Lives (f.occupant h) := ⟨c, Forest.cell?_occupant ho⟩
    refine ⟨(k.children (f.occupant h)).reverse, hs.passes_reverse_children hl, fun _ hx => ?_, ?_⟩
    · exact hs.lives_of_mem_children (List.mem_reverse.mp hx)
    · rw [List.length_reverse]
      exact hs.length_children_le _

theorem exists_passes_ancestors (hs : f.Shows k) (h : Handle) :
    ∃ row, Passes f.parent? (f.parent? h) row ∧ (∀ x ∈ row, f.Lives x) ∧
      row.length ≤ f.size := by
  cases ho : f.occupant? h with
  | none =>
    refine ⟨[], ?_, fun _ hx => absurd hx List.not_mem_nil, Nat.zero_le _⟩
    rw [Forest.parent?, links_of_vacant ho]
    rfl
  | some c =>
    obtain ⟨row, hpass, hn, hmem⟩ := hs.exists_passes_parent ⟨c, Forest.cell?_occupant ho⟩
    have hl : ∀ x ∈ row, f.Lives x := fun x hx => (hs.lives_of_above ((hmem x).mp hx)).1
    exact ⟨row, hpass, hl, Forest.length_le_size hn hl⟩

/-- The nodes that are passed live. -/
theorem lives_of_mem_row {next : Handle → Option Handle} {start : Option Handle} {x : Handle}
    (hrow : ∃ row, Passes next start row ∧ (∀ x ∈ row, f.Lives x) ∧ row.length ≤ f.size)
    (hx : x ∈ Markup.chase next f.size start) : f.Lives x := by
  obtain ⟨row, hpass, hl, hn⟩ := hrow
  rw [chase_eq_of_passes hpass hn] at hx
  exact hl x hx

theorem children_eq (hs : f.Shows k) (hi : h.slot < f.size) :
    children f h = .ok (f.children h) := by
  obtain ⟨row, hpass, hl, hn⟩ := exists_passes_children hs h
  rw [children, bind_of_ok (links_eq hi)]
  exact chase_links_eq (·.next) hpass hl hn

theorem childrenBackwards_eq (hs : f.Shows k) (hi : h.slot < f.size) :
    childrenBackwards f h = .ok (f.childrenBackwards h) := by
  obtain ⟨row, hpass, hl, hn⟩ := exists_passes_childrenBackwards hs h
  rw [childrenBackwards, bind_of_ok (links_eq hi)]
  exact chase_links_eq (·.previous) hpass hl hn

theorem ancestors_eq (hs : f.Shows k) (hi : h.slot < f.size) :
    ancestors f h = .ok (f.ancestors h) := by
  obtain ⟨row, hpass, hl, hn⟩ := exists_passes_ancestors hs h
  rw [ancestors, bind_of_ok (links_eq hi)]
  exact chase_links_eq (·.parent) hpass hl hn

/-- Step by step one comes to the ancestors in their order. -/
theorem climb_eq {row : List Handle} (hi : h.slot < f.size)
    (hpass : Passes f.parent? (f.parent? h) row) (hl : ∀ x ∈ row, f.Lives x) (count : Nat) :
    climb f (count + 1) h = .ok row[count]? := by
  induction row generalizing h count with
  | nil =>
    have hroot : (f.links h).parent = none := hpass
    rw [climb, bind_of_ok (links_eq hi), hroot]
    rfl
  | cons p row ih =>
    obtain ⟨hp, hpass⟩ := hpass
    have hp' : (f.links h).parent = some p := hp
    rw [climb, bind_of_ok (links_eq hi), hp']
    cases count with
    | zero => rfl
    | succ count =>
      exact ih (Forest.slot_lt_size (hl p List.mem_cons_self)) hpass
        (fun x hx => hl x (List.mem_cons_of_mem p hx)) count

theorem up_eq (hs : f.Shows k) (hi : h.slot < f.size) (count : Nat) :
    up f h count = .ok (f.up? h count) := by
  obtain ⟨row, hpass, hl, hn⟩ := exists_passes_ancestors hs h
  have hcount : max count 1 = count - 1 + 1 := by omega
  have hrow : f.ancestors h = row := chase_eq_of_passes hpass hn
  rw [up, hcount, climb_eq hi hpass hl, Forest.up?, hrow]

/-! ## Programs that may refuse -/

/-- A program that may also refuse what it is asked for, with a fault. -/
abbrev Attempt : Type → Type := ExceptT Fault Guarded

/-- The program is not trapped; its result, or the fault that it refuses with, is the given one. -/
structure Yields (x : Attempt α) (r : Except Fault α) : Prop where
  run_eq : x.run = .ok r
  refuses : ∀ fault, r = .error fault → fault.isRefusal = true

namespace Yields

theorem pure (a : α) : Yields (pure a) (.ok a) := ⟨rfl, nofun⟩

theorem throw {fault : Fault} (h : fault.isRefusal = true) :
    Yields (throw fault : Attempt α) (.error fault) :=
  ⟨rfl, fun _ e => Except.error.inj e ▸ h⟩

/-- One program after another. -/
theorem bind {x : Attempt α} {r : Except Fault α} {g : α → Attempt β} {s : α → Except Fault β}
    (hx : Yields x r) (hg : ∀ a, r = .ok a → Yields (g a) (s a)) : Yields (x >>= g) (r >>= s) := by
  have hrun : (x >>= g).run = ExceptT.bindCont g r := bind_of_ok hx.run_eq _
  cases r with
  | error fault =>
    exact ⟨hrun, fun _ e => hx.refuses _ (congrArg Except.error (Except.error.inj e))⟩
  | ok a => exact ⟨hrun.trans (hg a rfl).run_eq, (hg a rfl).refuses⟩

/-- A step that cannot refuse, and then a program. -/
theorem step {x : Guarded α} {a : α} (hx : x = .ok a) {g : α → Attempt β} {s : Except Fault β}
    (hg : Yields (g a) s) : Yields (liftM x >>= g) s := by
  subst hx
  exact ⟨hg.run_eq, hg.refuses⟩

theorem lift {x : Guarded α} {a : α} (hx : x = .ok a) : Yields (liftM x) (.ok a) := by
  subst hx
  exact ⟨rfl, nofun⟩

end Yields

/-! ## Questions about nodes -/

/-- Refuses a node that was removed (`check_live`). -/
def checkLive (f : Forest) (h : Handle) : Attempt Unit := do
  if ← isRemoved f h then throw (.removed h)

/-- The node of a handle; a fault if it was removed. -/
def live (f : Forest) (h : Handle) : Attempt Cell := do
  checkLive f h
  data f h

/-- The node of a handle; a fault if it was removed or takes no children. -/
def liveParent (f : Forest) (h : Handle) : Attempt Cell := do
  let c ← live f h
  if c.content.acceptsChildren then return c else throw (.childless h)

/-- What `read` finds in a node, and nothing if the node was removed. -/
def peek (f : Forest) (h : Handle) (read : Cell → Option α) : Guarded (Option α) := do
  if ← isRemoved f h then return none
  else return read (← data f h)

/-- Whether a node is hidden itself. -/
def isHidden (f : Forest) (h : Handle) : Guarded Bool := do
  return (← peek f h fun c => some c.hidden).getD false

/-- The element of a document or element node. -/
def element? (f : Forest) (h : Handle) : Guarded (Option Element) := peek f h (·.content.element?)

/-- The text of a leaf of either kind. -/
def leafText? (f : Forest) (h : Handle) : Guarded (Option String) := peek f h (·.content.leafText?)

/-- The value of a known attribute. -/
def attribute? (f : Forest) (h : Handle) (a : AttributeName) : Guarded (Option String) := do
  return (← element? f h).bind (·.attribute? a)

/-- The value of the attribute `id`. -/
def id? (f : Forest) (h : Handle) : Guarded (Option String) := do
  return (← element? f h).bind (·.id?)

/-- The nodes that a question is answered with yes for. -/
def select (question : Handle → Guarded Bool) : List Handle → Guarded (List Handle)
  | [] => .ok []
  | h :: rest => do
    let yes ← question h
    let chosen ← select question rest
    return if yes then h :: chosen else chosen

/-- The option elements below a node, in order. -/
def optionChildren (f : Forest) (h : Handle) : Guarded (List Handle) := do
  select (fun x => return ((← element? f x).map fun e => decide (e.name = .option)).getD false)
    (← children f h)

/-- The element of a node. -/
def element (f : Forest) (h : Handle) : Attempt Element := do
  let c ← live f h
  match c.content.element? with
  | some e => return e
  | none => throw (.notElement h)

/-- Whether a node has a known attribute. -/
def hasAttribute (f : Forest) (h : Handle) (a : AttributeName) : Attempt Bool := do
  return (← element f h).hasAttribute a

/-- The value of a custom attribute. -/
def customAttribute (f : Forest) (h : Handle) (key : String) : Attempt (Option String) := do
  return (← element f h).custom? key

/-- The leaf of a text node. -/
def text (f : Forest) (h : Handle) : Attempt Text := do
  let c ← live f h
  match c.content.text? with
  | some t => return t
  | none => throw (.notText h)

/-- The first option below a node that has the attribute `selected`. -/
def selectedOption (f : Forest) (h : Handle) : Attempt Handle := do
  let _ ← element f h
  let options ← optionChildren f h
  let chosen ← select (fun x => return (← attribute? f x .selected).isSome) options
  match chosen.head? with
  | some o => return o
  | none => throw .notFound

/-- What `read` finds in the slot of a handle, removed or not. -/
def value (f : Forest) (h : Handle) (read : Cell → α) : Guarded α := do return read (← data f h)

theorem checkLive_yields (hk : f.Known h) :
    Yields (checkLive f h) (if f.isRemoved h then .error (.removed h) else .ok ()) := by
  refine .step (isRemoved_eq hk) ?_
  cases f.isRemoved h with
  | true => exact .throw rfl
  | false => exact .pure _

theorem live_yields (hk : f.Known h) : Yields (live f h) (f.live h) := by
  have hcheck := checkLive_yields hk
  cases hr : f.isRemoved h with
  | true =>
    rw [hr, if_pos rfl] at hcheck
    rw [Forest.live_of_removed hr]
    exact hcheck.bind (s := fun _ => .error (.removed h)) nofun
  | false =>
    obtain ⟨c, hc⟩ := Forest.isRemoved_eq_false_iff.mp hr
    rw [hr, if_neg Bool.false_ne_true] at hcheck
    rw [Forest.live_eq_ok_iff.mpr hc]
    exact hcheck.bind (s := fun _ => .ok c) fun _ _ => .lift (data_of_cell? hc)

theorem liveParent_yields (hk : f.Known h) : Yields (liveParent f h) (f.liveParent h) := by
  refine (live_yields hk).bind fun c _ => ?_
  cases c.content.acceptsChildren with
  | true => exact .pure _
  | false => exact .throw rfl

theorem peek_eq (hk : f.Known h) (read : Cell → Option α) :
    peek f h read = .ok ((f.cell? h).bind read) := by
  rw [peek, bind_of_ok (isRemoved_eq hk)]
  cases hc : f.cell? h with
  | none =>
    have hr : f.isRemoved h = true := by rw [Forest.isRemoved, hc]; rfl
    rw [hr]
    rfl
  | some c =>
    have hr : f.isRemoved h = false := Forest.isRemoved_eq_false_iff.mpr ⟨c, hc⟩
    rw [hr, if_neg Bool.false_ne_true, bind_of_ok (data_of_cell? hc)]
    rfl

theorem isHidden_eq (hk : f.Known h) : isHidden f h = .ok (f.isHidden h) := by
  rw [isHidden, bind_of_ok (peek_eq hk _), Forest.isHidden]
  cases f.cell? h <;> rfl

theorem element?_eq (hk : f.Known h) : element? f h = .ok (f.element? h) := peek_eq hk _

theorem leafText?_eq (hk : f.Known h) : leafText? f h = .ok (f.leafText? h) := peek_eq hk _

theorem attribute?_eq (hk : f.Known h) (a : AttributeName) :
    attribute? f h a = .ok (f.attribute? h a) := by
  rw [attribute?, bind_of_ok (element?_eq hk)]
  rfl

theorem id?_eq (hk : f.Known h) : id? f h = .ok (f.id? h) := by
  rw [id?, bind_of_ok (element?_eq hk)]
  rfl

theorem select_eq {question : Handle → Guarded Bool} {answer : Handle → Bool} {row : List Handle}
    (hq : ∀ x ∈ row, question x = .ok (answer x)) :
    select question row = .ok (row.filter answer) := by
  induction row with
  | nil => rfl
  | cons x row ih =>
    have hrest := ih fun y hy => hq y (List.mem_cons_of_mem x hy)
    rw [select, bind_of_ok (hq x List.mem_cons_self), bind_of_ok hrest, List.filter_cons]
    rfl

theorem optionChildren_eq (hs : f.Shows k) (hi : h.slot < f.size) :
    optionChildren f h = .ok (f.optionChildren h) := by
  rw [optionChildren, bind_of_ok (children_eq hs hi)]
  refine select_eq fun x hx => ?_
  rw [bind_of_ok (element?_eq (.inl (lives_of_mem_row (exists_passes_children hs h) hx)))]
  rfl

theorem element_yields (hk : f.Known h) : Yields (element f h) (f.element h) := by
  refine (live_yields hk).bind fun c _ => ?_
  cases c.content.element? with
  | some e => exact .pure _
  | none => exact .throw rfl

theorem hasAttribute_yields (hk : f.Known h) (a : AttributeName) :
    Yields (hasAttribute f h a) (f.hasAttribute h a) :=
  (element_yields hk).bind fun _ _ => .pure _

theorem customAttribute_yields (hk : f.Known h) (key : String) :
    Yields (customAttribute f h key) (f.customAttribute h key) :=
  (element_yields hk).bind fun _ _ => .pure _

theorem text_yields (hk : f.Known h) : Yields (text f h) (f.text h) := by
  refine (live_yields hk).bind fun c _ => ?_
  cases c.content.text? with
  | some t => exact .pure _
  | none => exact .throw rfl

theorem selectedOption_yields (hs : f.Shows k) (hk : f.Known h) :
    Yields (selectedOption f h) (f.selectedOption h) := by
  refine (element_yields hk).bind fun e _ => ?_
  refine .step (optionChildren_eq hs (slot_lt_of_known hk)) ?_
  have hselected : select (fun x => return (← attribute? f x .selected).isSome)
      (f.optionChildren h) =
        .ok ((f.optionChildren h).filter fun o => (f.attribute? o .selected).isSome) := by
    refine select_eq fun x hx => ?_
    have hx' := lives_of_mem_row (exists_passes_children hs h) (List.mem_filter.mp hx).1
    rw [bind_of_ok (attribute?_eq (.inl hx') .selected)]
    rfl
  refine .step hselected ?_
  rw [List.head?_filter]
  cases (f.optionChildren h).find? fun o => (f.attribute? o .selected).isSome with
  | some o => exact .pure _
  | none => exact .throw rfl

theorem value_eq (hi : h.slot < f.size) (read : Cell → α) :
    value f h read = (f.occupant? h).elim (.error (.vacant h)) fun c => .ok (read c) := by
  rw [value, data_eq hi]
  cases f.occupant? h <;> rfl

/-- The guard stops where the total function finds the slot empty. -/
theorem value_eq_held (hi : h.slot < f.size) (read : Cell → α) :
    value f h read = ((f.held h).map read).mapError fun _ => .vacant h := by
  rw [value_eq hi, Forest.held]
  cases f.occupant? h <;> rfl

end Guarded

end Markup

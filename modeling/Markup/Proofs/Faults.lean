import Markup.Proofs.Sameness

/-!
# Faults

An operation checks what it was given, in a fixed order, and fails with the first fault that
applies. Some of them could still fail when they have already changed something: `append` takes a
node out of its row before the store links it anew, and the store has a check of its own. So the
operations are written here once more as procedures that change the forest step by step, and keep
what was changed when they stop.

* `firstFault`: the fault that a list of conditions leads to.
* `Procedure`: an operation step by step; `Guard` is the check of the store.
* `Reachable.faults_exact`: which fault an operation has, and that it stops with the forest as it
  was.
-/

namespace Markup

/-! ## Which fault comes first -/

open Classical in
/-- The fault of the first condition that holds. -/
noncomputable def firstFault : List (Prop × Fault) → Option Fault
  | [] => none
  | (condition, fault) :: rest => if condition then some fault else firstFault rest

theorem firstFault_cons_of_pos {condition : Prop} {fault : Fault} {rest : List (Prop × Fault)}
    (h : condition) : firstFault ((condition, fault) :: rest) = some fault :=
  if_pos h

theorem firstFault_cons_of_neg {condition : Prop} {fault : Fault} {rest : List (Prop × Fault)}
    (h : ¬ condition) : firstFault ((condition, fault) :: rest) = firstFault rest :=
  if_neg h

theorem firstFault_append (faults rest : List (Prop × Fault)) :
    firstFault (faults ++ rest) = (firstFault faults).or (firstFault rest) := by
  induction faults with
  | nil => rfl
  | cons entry faults ih =>
    obtain ⟨condition, fault⟩ := entry
    by_cases h : condition
    · rw [List.cons_append, firstFault_cons_of_pos h, firstFault_cons_of_pos h, Option.some_or]
    · rw [List.cons_append, firstFault_cons_of_neg h, firstFault_cons_of_neg h, ih]

/-- Why there is no result. -/
def faultOf {α : Type} : Except Fault α → Option Fault
  | .ok _ => none
  | .error fault => some fault

/-- What is checked later counts only where nothing failed before. -/
theorem faultOf_bind {α β : Type} {x : Except Fault α} {g : α → Except Fault β}
    {faults rest : List (Prop × Fault)} (hx : faultOf x = firstFault faults)
    (hg : ∀ a, x = .ok a → faultOf (g a) = firstFault rest) :
    faultOf (x >>= g) = firstFault (faults ++ rest) := by
  rw [firstFault_append, ← hx]
  cases x with
  | error fault => rfl
  | ok a => exact hg a rfl

namespace Content

/-- A leaf, or an element that never has content. -/
inductive Closed : Content → Prop where
  | text (t : Text) : Closed (.text t)
  | template (t : Template) : Closed (.template t)
  | void {e : Element} (h : e.isVoid = true) : Closed (.element e)

theorem closed_iff {c : Content} : c.Closed ↔ c.acceptsChildren = false := by
  constructor
  · rintro (_ | _ | h)
    · rfl
    · rfl
    · exact congrArg (!·) h
  · intro h
    cases c with
    | text t => exact .text t
    | template t => exact .template t
    | element e => exact .void (by simpa [acceptsChildren] using h)
    | fragment => cases h
    | document e => cases h
    | comment => cases h

end Content

/-- The kinds of leaves that an edit is meant for. -/
def TextEdit.kinds : TextEdit → List Kind
  | .push _ | .pushRaw _ => [.text]
  | .replace _ => [.text, .template]
  | .pushTemplate _ | .replaceTemplate _ | .setRaw _ => [.template]

namespace Forest

/-- The node lives and is a leaf or a void element. -/
def IsClosed (f : Forest) (h : Handle) : Prop := ∃ c, f.cell? h = some c ∧ c.content.Closed

/-- The node lives and is of one of the kinds. -/
def HasKind (f : Forest) (h : Handle) (kinds : List Kind) : Prop :=
  ∃ c, f.cell? h = some c ∧ c.content.kind ∈ kinds

/-- What is wrong with a node that should live. -/
def liveFaults (f : Forest) (h : Handle) : List (Prop × Fault) :=
  [(f.isRemoved h = true, .removed h)]

/-- What is wrong with a node that should take a child. -/
def parentFaults (f : Forest) (p : Handle) : List (Prop × Fault) :=
  [(f.isRemoved p = true, .removed p), (f.IsClosed p, .childless p)]

/-- What is wrong with moving a node behind the children of another one. -/
def appendFaults (f : Forest) (p c : Handle) : List (Prop × Fault) :=
  [(f.isRemoved c = true, .removed c), (f.isRemoved p = true, .removed p),
    (f.IsClosed p, .childless p), (c = p ∨ f.Above c p, .cycle c)]

/-- What is wrong with a node that should be of one of some kinds. -/
def kindFaults (f : Forest) (h : Handle) (kinds : List Kind) (fault : Fault) :
    List (Prop × Fault) :=
  [(f.isRemoved h = true, .removed h), (¬ f.HasKind h kinds, fault)]

variable {f : Forest} {k : Kinship} {h p c : Handle}

theorem faultOf_live : faultOf (f.live h) = firstFault (f.liveFaults h) := by
  cases hr : f.isRemoved h with
  | true =>
    rw [live_of_removed hr]
    exact (firstFault_cons_of_pos hr).symm
  | false =>
    obtain ⟨c, hc⟩ := isRemoved_eq_false_iff.mp hr
    rw [live_eq_ok_iff.mpr hc, liveFaults, firstFault_cons_of_neg (ne_true_of_eq_false hr)]
    rfl

theorem faultOf_liveParent : faultOf (f.liveParent p) = firstFault (f.parentFaults p) := by
  change _ = firstFault (f.liveFaults p ++ [(f.IsClosed p, .childless p)])
  refine faultOf_bind faultOf_live fun d hd => ?_
  rw [live_eq_ok_iff] at hd
  by_cases ha : d.content.acceptsChildren = true
  · have hopen : ¬ f.IsClosed p := by
      rintro ⟨e, he, hclosed⟩
      rw [hd] at he
      cases he
      rw [Content.closed_iff, ha] at hclosed
      cases hclosed
    rw [if_pos ha, firstFault_cons_of_neg hopen]
    rfl
  · rw [if_neg ha, firstFault_cons_of_pos ⟨d, hd, Content.closed_iff.mpr (eq_false_of_ne_true ha)⟩]
    rfl

/-- What the check of everybody above the parent decides. -/
theorem WellFormed.faultOf_append (hw : f.WellFormed k) :
    faultOf (f.append p c) = firstFault (f.appendFaults p c) := by
  change _ = firstFault
    (f.liveFaults c ++ (f.parentFaults p ++ [(c = p ∨ f.Above c p, .cycle c)]))
  refine faultOf_bind faultOf_live fun _ _ => faultOf_bind faultOf_liveParent fun d hd => ?_
  have hp : f.Lives p := ⟨d, (liveParent_eq_ok_iff.mp hd).1⟩
  have hcycle : c ∈ p :: f.ancestors p ↔ c = p ∨ f.Above c p := by
    rw [List.mem_cons, hw.shows.mem_ancestors hp, hw.shows.above_eq]
  by_cases h : c ∈ p :: f.ancestors p
  · rw [if_pos h, firstFault_cons_of_pos (hcycle.mp h)]
    rfl
  · rw [if_neg h, firstFault_cons_of_neg (mt hcycle.mpr h)]
    rfl

theorem faultOf_appendNew (seed : Seed) :
    faultOf (f.appendNew p seed) = firstFault (f.parentFaults p) := by
  rw [← List.append_nil (f.parentFaults p)]
  exact faultOf_bind faultOf_liveParent fun _ _ => rfl

/-- What an operation on the content of a node decides from its kind. -/
theorem faultOf_kind {α : Type} {kinds : List Kind} {fault : Fault} {g : Cell → Except Fault α}
    (hg : ∀ c : Cell, faultOf (g c) = if c.content.kind ∈ kinds then none else some fault) :
    faultOf (f.live h >>= g) = firstFault (f.kindFaults h kinds fault) := by
  change _ = firstFault (f.liveFaults h ++ [(¬ f.HasKind h kinds, fault)])
  refine faultOf_bind faultOf_live fun c hc => ?_
  rw [live_eq_ok_iff] at hc
  rw [hg]
  by_cases hkind : c.content.kind ∈ kinds
  · rw [if_pos hkind, firstFault_cons_of_neg (not_not.mpr ⟨c, hc, hkind⟩)]
    rfl
  · have hnot : ¬ f.HasKind h kinds := by
      rintro ⟨d, hd, hd'⟩
      rw [hc] at hd
      cases hd
      exact hkind hd'
    rw [if_neg hkind, firstFault_cons_of_pos hnot]

theorem faultOf_editAttributes (edit : AttributeEdit) :
    faultOf (f.editAttributes h edit) =
      firstFault (f.kindFaults h [.element, .document] (.notElement h)) :=
  faultOf_kind fun c => by cases hc : c.content <;> rfl

theorem faultOf_editText (edit : TextEdit) :
    faultOf (f.editText h edit) = firstFault (f.kindFaults h edit.kinds (.notText h)) :=
  faultOf_kind fun c => by cases hc : c.content <;> cases edit <;> rfl

theorem faultOf_element :
    faultOf (f.element h) = firstFault (f.kindFaults h [.element, .document] (.notElement h)) :=
  faultOf_kind fun c => by cases hc : c.content <;> rfl

theorem faultOf_text :
    faultOf (f.text h) = firstFault (f.kindFaults h [.text] (.notText h)) :=
  faultOf_kind fun c => by cases hc : c.content <;> rfl

/-- A question about an element has no fault but that there is none. -/
theorem faultOf_ofElement {α : Type} (g : Element → α) :
    faultOf (do return g (← f.element h)) =
      firstFault (f.kindFaults h [.element, .document] (.notElement h)) := by
  rw [← List.append_nil (f.kindFaults h _ _)]
  exact faultOf_bind faultOf_element fun _ _ => rfl

end Forest

/-! ## Step by step

A procedure changes the forest while it runs. Where it stops, the forest stays as it is at that
moment; nothing is taken back. -/

/-- Why the store refuses to link a node. -/
inductive Clash where
  | itself
  | gone
  | ancestor
deriving DecidableEq, Repr

/-- The check that the store makes of its own before it links a node. -/
structure Guard where
  clash? : Forest → (parent child : Handle) → Option Clash
  /-- The store refuses only what would be no tree, or is about nodes that are gone. -/
  sound : ∀ {f p c}, clash? f p c ≠ none →
    c = p ∨ ¬ f.Lives p ∨ ¬ f.Lives c ∨ c ∈ f.ancestors p

/-- The guard that refuses all that a guard may refuse. -/
def Guard.strict : Guard where
  clash? f p c :=
    if c = p then some .itself
    else if f.isRemoved p || f.isRemoved c then some .gone
    else if c ∈ f.ancestors p then some .ancestor
    else none
  sound {f p c} h := by
    by_contra hnot
    obtain ⟨hne, hp, hc, hmem⟩ := by simpa only [not_or, not_not] using hnot
    rw [← Forest.isRemoved_eq_false_iff] at hp hc
    simp [hne, hp, hc, hmem] at h

/-- Why a procedure stopped. -/
inductive Stop where
  | fault (f : Fault)
  | clash (c : Clash)
deriving DecidableEq, Repr

/-- An operation that changes the forest step by step. -/
abbrev Procedure : Type → Type := EStateM Stop Forest

namespace Procedure

/-- Asks about the forest as it is now. -/
def ask {α : Type} (question : Forest → Except Fault α) : Procedure α := fun f =>
  match question f with
  | .ok a => .ok a f
  | .error fault => .error (.fault fault) f

/-- The store puts a node behind the children of `parent`. -/
def store (guard : Guard) (parent child : Handle) : Procedure Unit := do
  match guard.clash? (← get) parent child with
  | some clash => throw (.clash clash)
  | none => modify fun f => (f.unlink child).link parent child

/-- Moves a node behind the children of `parent`. -/
def append (guard : Guard) (parent child : Handle) : Procedure Answer := do
  let _ ← ask (·.live child)
  let _ ← ask (·.liveParent parent)
  ask fun f => if child ∈ parent :: f.ancestors parent then throw (.cycle child) else return ()
  modify (·.unlink child)
  store guard parent child
  return .done

/-- Makes a node, and moves it behind the children of `parent`. -/
def appendNew (guard : Guard) (parent : Handle) (seed : Seed) : Procedure Answer := do
  let _ ← ask (·.liveParent parent)
  let h ← modifyGet (·.create seed)
  let _ ← append guard parent h
  return .node h

/-- Changes the content of a node, if the change is meant for it. -/
def edit (h : Handle) (change : Content → Option Content) (fault : Fault) : Procedure Answer := do
  let c ← ask (·.live h)
  let content ← ask fun _ =>
    match change c.content with
    | some content => return content
    | none => throw fault
  modify (·.setContent h content)
  return .done

/-- Edits the attributes of a node with an element. -/
def editAttributes (h : Handle) (e : AttributeEdit) : Procedure Answer :=
  edit h (·.editAttributes? e) (.notElement h)

/-- Edits a leaf of text. -/
def editText (h : Handle) (e : TextEdit) : Procedure Answer := edit h (·.edit? e) (.notText h)

end Procedure

/-- How an outcome looks as the end of a procedure. -/
def Outcome.ending (o : Outcome) : EStateM.Result Stop Forest Answer :=
  match o.answer with
  | .ok a => .ok a o.forest
  | .error fault => .error (.fault fault) o.forest

namespace Procedure

variable {f : Forest} {k : Kinship} {h p c : Handle}

/-- A question changes nothing; without an answer, nothing happens after it. -/
theorem run_ask_bind {α β : Type} (question : Forest → Except Fault α) (g : α → Procedure β) :
    (ask question >>= g).run f =
      match question f with
      | .ok a => (g a).run f
      | .error fault => .error (.fault fault) f := by
  cases hq : question f <;> simp [EStateM.run, bind, EStateM.bind, ask, hq]

theorem run_modify_bind {β : Type} (change : Forest → Forest) (g : Unit → Procedure β) :
    (modify change >>= g).run f = (g ()).run (change f) := rfl

theorem run_bind_of_ok {α β : Type} {x : Procedure α} {g : α → Procedure β} {a : α}
    {f' : Forest} (hx : x.run f = .ok a f') : (x >>= g).run f = (g a).run f' := by
  simp only [EStateM.run, bind, EStateM.bind] at hx ⊢
  rw [hx]

/-- The store has nothing against a node that is in no row and not above its new parent, and it has
nothing to take out. -/
theorem run_store (guard : Guard) (hw : f.WellFormed k) (hp : f.Lives p) (hc : f.Lives c)
    (hroot : k.parent c = none) (hne : c ≠ p) (habove : ¬ k.Above c p) :
    (store guard p c).run f = .ok () (f.link p c) := by
  have hclash : guard.clash? f p c = none := by
    by_contra h
    rcases guard.sound h with h | h | h | h
    · exact hne h
    · exact h hp
    · exact h hc
    · exact habove ((hw.shows.mem_ancestors hp).mp h)
  calc (store guard p c).run f
      = (match guard.clash? f p c with
          | some clash => throw (.clash clash)
          | none => modify fun f => (f.unlink c).link p c : Procedure Unit).run f := rfl
    _ = .ok () ((f.unlink c).link p c) := by rw [hclash]; rfl
    _ = .ok () (f.link p c) := by rw [hw.unlink_eq_self hc hroot]

/-- When a node moves, it is out of its row before the store has its turn. -/
theorem run_append (guard : Guard) (hw : f.WellFormed k) :
    (append guard p c).run f = (f.exec (.append p c)).ending := by
  rw [append, run_ask_bind, Forest.exec]
  cases hc : f.live c with
  | error fault =>
    rw [Forest.append, hc]
    rfl
  | ok d =>
    rw [run_ask_bind]
    cases hp : f.liveParent p with
    | error fault =>
      rw [Forest.append, hc, hp]
      rfl
    | ok e =>
      rw [run_ask_bind]
      by_cases hcycle : c ∈ p :: f.ancestors p
      · rw [if_pos hcycle, Forest.append, hc, hp]
        simp only [if_pos hcycle]
        rfl
      · have happend : f.append p c = .ok ((f.unlink c).link p c) :=
          Forest.append_eq_ok_iff.mpr
            ⟨⟨d, Forest.live_eq_ok_iff.mp hc⟩, ⟨e, Forest.liveParent_eq_ok_iff.mp hp⟩, hcycle, rfl⟩
        -- the ancestors were asked for before the node left its row; it has no more of them after
        obtain ⟨hlives, ⟨e, he, -⟩, ⟨hne, habove⟩, -⟩ := hw.append_iff.mp happend
        have hstore : (store guard p c).run (f.unlink c) = .ok () ((f.unlink c).link p c) :=
          run_store guard (hw.unlink hlives) ((Forest.lives_unlink hlives p).mpr ⟨e, he⟩)
            ((Forest.lives_unlink hlives c).mpr hlives) (by rw [Kinship.parent_unlink, if_pos rfl])
            hne fun h => habove (Kinship.above_of_above_unlink h)
        rw [if_neg hcycle, happend]
        exact (run_modify_bind _ _).trans (run_bind_of_ok hstore)

/-- A node that was just made moves without a fault. -/
theorem run_appendNew (guard : Guard) (hw : f.WellFormed k) (seed : Seed) :
    (appendNew guard p seed).run f = (f.exec (.appendNew p seed)).ending := by
  rw [appendNew, run_ask_bind, Forest.exec]
  cases hp : f.liveParent p with
  | error fault =>
    rw [Forest.appendNew, hp]
    rfl
  | ok e =>
    have hmoved := hw.append_create seed ⟨e, Forest.liveParent_eq_ok_iff.mp hp⟩
    have hw' : (f.create seed).2.WellFormed k := hw.place rfl
    have hrun := run_append guard hw' (p := p) (c := (f.create seed).1)
    rw [Forest.exec, hmoved] at hrun
    rw [Forest.appendNew, hp]
    exact run_bind_of_ok (x := append guard p (f.create seed).1) hrun

/-- A change of content is made after the last check. -/
theorem run_edit (change : Content → Option Content) (fault : Fault) :
    (edit h change fault).run f =
      match f.live h with
      | .error fault => .error (.fault fault) f
      | .ok c =>
        match change c.content with
        | some content => .ok .done (f.setContent h content)
        | none => .error (.fault fault) f := by
  rw [edit, run_ask_bind]
  cases f.live h with
  | error fault => rfl
  | ok c =>
    refine (run_ask_bind _ _).trans ?_
    dsimp only
    cases change c.content <;> rfl

theorem run_editAttributes (e : AttributeEdit) :
    (editAttributes h e).run f = (f.exec (.editAttributes h e)).ending := by
  rw [editAttributes, run_edit, Forest.exec, Forest.editAttributes]
  cases f.live h with
  | error fault => rfl
  | ok c =>
    dsimp only [bind, Except.bind]
    cases c.content.editAttributes? e <;> rfl

theorem run_editText (e : TextEdit) :
    (editText h e).run f = (f.exec (.editText h e)).ending := by
  rw [editText, run_edit, Forest.exec, Forest.editText]
  cases f.live h with
  | error fault => rfl
  | ok c =>
    dsimp only [bind, Except.bind]
    cases c.content.edit? e <;> rfl

end Procedure

/-! ## Which faults, and what is left then -/

/-- A command fails with the first fault of a table, and carried out step by step it does the same:
the store never refuses, and where the command fails, the forest is what it was. -/
structure Forest.Exact (f : Forest) (command : Command) (procedure : Procedure Answer)
    (faults : List (Prop × Fault)) : Prop where
  fault_eq : faultOf (f.exec command).answer = firstFault faults
  run_eq : procedure.run f = (f.exec command).ending
  unchanged : ∀ {stop f'}, procedure.run f = .error stop f' → f' = f

/-- The faults of the operations that move nodes and edit them, and of the questions that go with
them. -/
structure Forest.FaultsExact (f : Forest) (guard : Guard) : Prop where
  append : ∀ p c, f.Exact (.append p c) (Procedure.append guard p c) (f.appendFaults p c)
  appendNew : ∀ p seed,
    f.Exact (.appendNew p seed) (Procedure.appendNew guard p seed) (f.parentFaults p)
  editAttributes : ∀ h edit,
    f.Exact (.editAttributes h edit) (Procedure.editAttributes h edit)
      (f.kindFaults h [.element, .document] (.notElement h))
  hasAttribute : ∀ h a,
    faultOf (f.hasAttribute h a) =
      firstFault (f.kindFaults h [.element, .document] (.notElement h))
  customAttribute : ∀ h key,
    faultOf (f.customAttribute h key) =
      firstFault (f.kindFaults h [.element, .document] (.notElement h))
  editText : ∀ h edit,
    f.Exact (.editText h edit) (Procedure.editText h edit)
      (f.kindFaults h edit.kinds (.notText h))
  text : ∀ h, faultOf (f.text h) = firstFault (f.kindFaults h [.text] (.notText h))

theorem faultOf_ofChange (f : Forest) (r : Except Fault Forest) :
    faultOf (Outcome.ofChange f r).answer = faultOf r := by
  cases r <;> rfl

theorem faultOf_ofCreation (f : Forest) (r : Except Fault (Handle × Forest)) :
    faultOf (Outcome.ofCreation f r).answer = faultOf r := by
  cases r <;> rfl

theorem unchanged_ofChange {f f' : Forest} {r : Except Fault Forest} {stop : Stop}
    (h : (Outcome.ofChange f r).ending = .error stop f') : f' = f := by
  cases r <;> cases h
  rfl

theorem unchanged_ofCreation {f f' : Forest} {r : Except Fault (Handle × Forest)} {stop : Stop}
    (h : (Outcome.ofCreation f r).ending = .error stop f') : f' = f := by
  cases r <;> cases h
  rfl

/-- **A fault is the first one that applies, and it comes before every change.** So the forest is
then as it was, with all its slots, and the store never refuses a node. -/
theorem Reachable.faults_exact {f : Forest} (hf : Reachable f) (guard : Guard) :
    f.FaultsExact guard := by
  obtain ⟨k, hw⟩ := hf.wellFormed
  constructor
  case append =>
    intro p c
    have hrun := Procedure.run_append guard hw (p := p) (c := c)
    exact ⟨(faultOf_ofChange f _).trans hw.faultOf_append, hrun,
      fun h => unchanged_ofChange (hrun ▸ h)⟩
  case appendNew =>
    intro p seed
    have hrun := Procedure.run_appendNew guard hw seed (p := p)
    exact ⟨(faultOf_ofCreation f _).trans (Forest.faultOf_appendNew seed), hrun,
      fun h => unchanged_ofCreation (hrun ▸ h)⟩
  case editAttributes =>
    intro h edit
    have hrun := Procedure.run_editAttributes (f := f) (h := h) edit
    exact ⟨(faultOf_ofChange f _).trans (Forest.faultOf_editAttributes edit), hrun,
      fun h => unchanged_ofChange (hrun ▸ h)⟩
  case editText =>
    intro h edit
    have hrun := Procedure.run_editText (f := f) (h := h) edit
    exact ⟨(faultOf_ofChange f _).trans (Forest.faultOf_editText edit), hrun,
      fun h => unchanged_ofChange (hrun ▸ h)⟩
  case hasAttribute => exact fun h a => Forest.faultOf_ofElement (·.hasAttribute a)
  case customAttribute => exact fun h key => Forest.faultOf_ofElement (·.custom? key)
  case text => exact fun h => Forest.faultOf_text

/-- A list does not go below its own item, and a void element comes into the list. -/
theorem faults_exact_of_list :
    let f := Forest.empty.run [.create (.element .ul), .appendNew ⟨0, 0⟩ (.element .li),
      .create (.element .br)]
    f.FaultsExact Guard.strict ∧
      (Procedure.append Guard.strict ⟨1, 0⟩ ⟨0, 0⟩).run f = .error (.fault (.cycle ⟨0, 0⟩)) f ∧
      (Procedure.appendNew Guard.strict ⟨2, 0⟩ .comment).run f =
        .error (.fault (.childless ⟨2, 0⟩)) f ∧
      (Procedure.append Guard.strict ⟨0, 0⟩ ⟨2, 0⟩).run f =
        .ok .done (f.run [.append ⟨0, 0⟩ ⟨2, 0⟩]) := by
  intro f
  have hexact := (Reachable.empty.run [.create (.element .ul), .appendNew ⟨0, 0⟩ (.element .li),
    .create (.element .br)]).faults_exact Guard.strict
  exact ⟨hexact, (hexact.append _ _).run_eq, (hexact.appendNew _ _).run_eq,
    (hexact.append _ _).run_eq⟩

end Markup

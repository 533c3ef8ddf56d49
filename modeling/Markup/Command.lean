import Markup.Forest.Read
import Markup.Render.Basic

/-!
# Commands

Everything that can change a forest, as one type: the methods of `Html` that make, move, remove and
edit nodes, and `write` and `write_pretty_with`, which render into a sink. `element_mut` lends an
element to be edited (`editElement`); what else can be done with lent elements takes two forests,
and is in `Woodland`. A run of commands from the empty forest gives every state that one forest can
come to; a command that fails leaves the forest as it is, except for the open tags that a rendering
rendered before its sink failed.

* `Forest.run` carries out commands in order; `Reachable` holds of the states so obtained
  (`reachable_iff_run`).
-/

namespace Markup

/-- An operation on a forest. `create` is the methods `new_element`, `new_text` and so on, and
`appendNew` those that start with `append_`; `hide` and `show` are `setHidden`, the methods for
attributes are `editAttributes`, and those for texts and templates are `editText`. -/
inductive Command where
  | create (seed : Seed)
  | appendNew (parent : Handle) (seed : Seed)
  | copy (h : Handle)
  | append (parent child : Handle)
  | detach (h : Handle)
  | removeChildren (h : Handle)
  | remove (h : Handle)
  | setHidden (h : Handle) (hidden : Bool)
  | editAttributes (h : Handle) (edit : AttributeEdit)
  /-- Edits the attributes of a node if it has an element, and does nothing otherwise. -/
  | editElement (h : Handle) (edit : AttributeEdit)
  | editText (h : Handle) (edit : TextEdit)
  | render (h : Handle) (layout : Layout) (env : Option Environment) (sink : Sink)

/-- What a command answers. -/
inductive Answer where
  | done
  | node (h : Handle)
  | noElement
  | written (count : Nat)
deriving DecidableEq, Repr

/-- The outcome of a command: the forest afterwards, the answer, or why there is none, what went
into the sink, and the reports in order. -/
structure Outcome where
  forest : Forest
  answer : Except Fault Answer
  taken : Array UInt8 := #[]
  log : List Event := []

namespace Outcome

/-- The outcome of an operation that only changes the forest. -/
def ofChange (f : Forest) : Except Fault Forest → Outcome
  | .ok f' => ⟨f', .ok .done, #[], []⟩
  | .error fault => ⟨f, .error fault, #[], []⟩

/-- The outcome of an operation that makes a node. -/
def ofCreation (f : Forest) : Except Fault (Handle × Forest) → Outcome
  | .ok (h, f') => ⟨f', .ok (.node h), #[], []⟩
  | .error fault => ⟨f, .error fault, #[], []⟩

/-- The outcome of a rendering. -/
def ofRendering (r : Rendering) : Outcome where
  forest := r.forest
  answer :=
    match r.failure with
    | none => .ok (.written r.taken.size)
    | some fault => .error fault
  taken := r.taken
  log := r.log

end Outcome

namespace Forest

/-- The report of a copy: an open tag, if the source has an element that does not remember it. -/
def copyLog (f : Forest) (h : Handle) : List Event :=
  match f.element? h with
  | some e => if e.cachedTag.isSome then [] else [.openTag e.name]
  | none => []

/-- Carries out a command. -/
def exec (f : Forest) : Command → Outcome
  | .create seed => .ofCreation f (.ok (f.create seed))
  | .appendNew parent seed => .ofCreation f (f.appendNew parent seed)
  | .copy h => { Outcome.ofCreation f (f.copy h) with log := f.copyLog h }
  | .append parent child => .ofChange f (f.append parent child)
  | .detach h => .ofChange f (f.detach h)
  | .removeChildren h => .ofChange f (f.removeChildren h)
  | .remove h =>
    match f.remove h with
    | .ok (count, f') => ⟨f', .ok .done, #[], [.removed count]⟩
    | .error fault => ⟨f, .error fault, #[], []⟩
  | .setHidden h hidden => .ofChange f (f.setHidden h hidden)
  | .editAttributes h edit => .ofChange f (f.editAttributes h edit)
  | .editElement h edit =>
    match f.element? h with
    | some _ => .ofChange f (f.editAttributes h edit)
    | none => ⟨f, .ok .noElement, #[], []⟩
  | .editText h edit => .ofChange f (f.editText h edit)
  | .render h layout env sink => .ofRendering (f.render h layout env sink)

/-- Carries out commands in order. -/
def run (f : Forest) (commands : List Command) : Forest :=
  commands.foldl (fun f c => (f.exec c).forest) f

end Forest

/-- The forests that commands can bring about. -/
inductive Reachable : Forest → Prop where
  | empty : Reachable .empty
  | exec {f : Forest} (h : Reachable f) (c : Command) : Reachable (f.exec c).forest

theorem Reachable.run {f : Forest} (h : Reachable f) (commands : List Command) :
    Reachable (f.run commands) := by
  induction commands generalizing f with
  | nil => exact h
  | cons c cs ih => exact ih (h.exec c)

/-- A reachable forest is the result of a run. -/
theorem reachable_iff_run {f : Forest} :
    Reachable f ↔ ∃ commands, Forest.empty.run commands = f := by
  constructor
  · intro h
    induction h with
    | empty => exact ⟨[], rfl⟩
    | exec _ c ih =>
      obtain ⟨commands, rfl⟩ := ih
      exact ⟨commands ++ [c], by simp [Forest.run]⟩
  · rintro ⟨commands, rfl⟩
    exact Reachable.empty.run commands

end Markup

import Markup.Command

/-!
# Forests side by side

Several forests, one of which a command changes at a time. An element is lent for editing as a whole
(`element_mut`), so two elements that two forests lend can also be put in each other's place, with
their names, their attributes and the tags that they remember. A forest lends one element at a time,
and so this takes two forests and is no `Command`.

* `Woodland.act` carries out a command, or an exchange of two elements.
* `Woodland.Renames`: the acts that give a node an element of another name.
-/

namespace Markup

/-- Puts another element in a node that has one; other nodes stay as they are. -/
def Forest.setElement (f : Forest) (h : Handle) (e : Element) : Forest :=
  f.update h fun c => { c with content := c.content.withElement e }

/-- Forests side by side, by number. -/
abbrev Woodland : Type := Nat → Forest

/-- What can be done with forests side by side. -/
inductive Act where
  | command (i : Nat) (c : Command)
  /-- The elements of node `h` in forest `p` and of node `k` in forest `q` change places. -/
  | exchange (p q : Nat) (h k : Handle)

namespace Woodland

/-- Forests without nodes. -/
def empty : Woodland := fun _ => .empty

/-- The element that an act puts in a node of forest `i`, with the handle of the node. There is
nothing to put when the node at the other end was removed or has no element, nor when both are in
one forest. -/
def given? (w : Woodland) : Act → Nat → Option (Handle × Element)
  | .command _ _, _ => none
  | .exchange p q h k, i =>
    if p = q then none
    else if i = p then ((w q).element? k).map fun d => (h, d)
    else if i = q then ((w p).element? h).map fun e => (k, e)
    else none

/-- Does one thing. -/
def act (w : Woodland) (a : Act) : Woodland := fun i =>
  match w.given? a i, a with
  | some (h, e), _ => (w i).setElement h e
  | none, .command j c => if i = j then ((w i).exec c).forest else w i
  | none, .exchange .. => w i

/-- Does one thing after the other. -/
def run (w : Woodland) (acts : List Act) : Woodland := acts.foldl act w

/-- The act gives node `h` of forest `i` an element of another name. -/
def Renames (w : Woodland) (a : Act) (i : Nat) (h : Handle) : Prop :=
  ∃ e d, (w i).element? h = some e ∧ w.given? a i = some (h, d) ∧ d.name ≠ e.name

/-- No act of the run gives the node an element of another name. -/
def KeepsName (w : Woodland) (i : Nat) (h : Handle) : List Act → Prop
  | [] => True
  | a :: acts => ¬ w.Renames a i h ∧ (w.act a).KeepsName i h acts

end Woodland

end Markup

import Markup.Proofs.Stamps

/-!
# What a node is stays

A node is made as one of six kinds of node, an element or a document with a name, and commands edit
what it holds and never put another content in its place.

* `Forest.Change.edited`: what one change does to the content of a node that lives on.
* `Content.sort_eq_of_edits`: its kind and the name of its element stay.
* `Forest.lives_exec_of_lives_run`: who lives before and after a run lived all the time.
-/

namespace Markup

namespace Content

/-- What a node is stays through any number of edits. -/
theorem sort_eq_of_edits {c c' : Content} (h : Relation.ReflTransGen Edited c c') :
    c'.sort = c.sort := by
  induction h with
  | refl => rfl
  | tail _ hedited ih => exact hedited.sort_eq.trans ih

end Content

namespace Forest

variable {f f' : Forest} {h : Handle}

/-- The content of a node that lives before and after a change is edited, if it changes at all. -/
theorem Change.edited (hq : f.QueueSound) (hchange : f.Change f') {c c' : Cell}
    (hc : f.cell? h = some c) (hc' : f'.cell? h = some c') :
    Relation.ReflTransGen Content.Edited c.content c'.content := by
  rcases hchange.content hc' with ⟨d, hd, hedits⟩ | ⟨hnew, -⟩
  · cases hc.symm.trans hd
    exact hedits
  · exact absurd ⟨c, hc⟩ (hnew hq)

/-- A node that lives at the end of a run lived after its first command. -/
theorem lives_exec_of_lives_run {command : Command} {commands : List Command} (hh : f.Lives h)
    (hend : ((f.exec command).forest.run commands).Lives h) : (f.exec command).forest.Lives h := by
  refine ((f.exec_change command).later.known hh).resolve_right fun hspent => ?_
  exact ((later_run _ commands).spent hspent).not_lives hend

theorem kind_eq {c : Cell} (hc : f.cell? h = some c) : f.kind h = .ok c.content.kind := by
  rw [kind, held, (occupant?_eq_of_cell? hc).1]
  rfl

theorem name_eq {c : Cell} (hc : f.cell? h = some c) :
    (f.element? h).map (·.name) = c.content.sort.2 := by
  rw [element?, hc]
  rfl

end Forest

end Markup

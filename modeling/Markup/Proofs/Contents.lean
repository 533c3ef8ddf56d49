import Markup.Proofs.Change
import Mathlib.Logic.Relation

/-!
# Contents over time

Commands make the content of a node from a seed, copy it from another node, and edit it; they
never put the content of one node in place of another one's. So what seeds have and edits keep,
every content in a reachable forest has (`Reachable.content`).

* `Content.Edited`: the ways in which a content changes while its node lives.
* `Content.Edited.sort_eq`: what a node is, and the name of its element, never change.
* `Forest.Change.content`: where the contents after a change come from.
-/

namespace Markup

namespace Content

/-- The ways in which the content of a node changes. -/
inductive Edited : Content → Content → Prop where
  | attributes {c c' : Content} (edit : AttributeEdit) (h : c.editAttributes? edit = some c') :
      Edited c c'
  | text {c c' : Content} (edit : TextEdit) (h : c.edit? edit = some c') : Edited c c'
  | remembered (c : Content) : Edited c c.rememberTag

/-- What a node is, with the name of its element. -/
def sort (c : Content) : Kind × Option ElementName := (c.kind, c.element?.map (·.name))

theorem sort_withElement {c : Content} {e e' : Element} (he : c.element? = some e)
    (hname : e'.name = e.name) : (c.withElement e').sort = c.sort := by
  cases c <;> simp_all [sort, withElement, element?, kind]

theorem sort_rememberTag (c : Content) : c.rememberTag.sort = c.sort := by
  unfold rememberTag
  split
  · next e he => exact sort_withElement he rfl
  · rfl

/-- What a node is, and the name of its element, never change. -/
theorem Edited.sort_eq {c c' : Content} (h : c.Edited c') : c'.sort = c.sort := by
  cases h with
  | attributes edit h =>
    obtain ⟨e, he, rfl⟩ := Option.map_eq_some_iff.mp h
    exact sort_withElement he (Element.name_edit e edit)
  | text edit h =>
    unfold edit? at h
    split at h <;> cases h <;> rfl
  | remembered => exact sort_rememberTag c

/-- Whether a node takes children depends on what it is. -/
theorem acceptsChildren_of_sort_eq {c c' : Content} (h : c'.sort = c.sort) :
    c'.acceptsChildren = c.acceptsChildren := by
  cases c <;> cases c' <;>
    simp_all [sort, kind, element?, acceptsChildren, Element.isVoid]

end Content

namespace Forest

variable {f f' : Forest}

theorem exists_cell?_of_update {h x : Handle} {change : Cell → Cell} {c' : Cell}
    (hc : (f.update h change).cell? x = some c') :
    ∃ c, f.cell? x = some c ∧ (c' = c ∨ x = h ∧ c' = change c) := by
  rw [cell?_update] at hc
  split at hc
  · next e =>
    obtain ⟨c, hh, rfl⟩ := Option.map_eq_some_iff.mp hc
    exact ⟨c, e ▸ hh, .inr ⟨e, rfl⟩⟩
  · exact ⟨c', hc, .inl rfl⟩

/-- What shows after a node was made is the new node, under its own handle, or was there before. -/
theorem exists_cell?_of_place {c c' : Cell} {x : Handle}
    (hc : (f.place c).2.cell? x = some c') :
    (x = (f.place c).1 ∧ c' = c) ∨ f.cell? x = some c' := by
  obtain ⟨i, stamp⟩ := x
  unfold place at hc ⊢
  obtain ⟨s, hs, hstamp, hcell⟩ := cell?_eq_some_iff.mp hc
  split at hs
  · rw [Array.getElem?_push] at hs
    split at hs
    · next e =>
      cases hs
      obtain rfl : 0 = stamp := hstamp
      obtain rfl : i = f.slots.size := e
      exact .inl ⟨rfl, (Option.some.inj hcell).symm⟩
    · exact .inr (cell?_eq_some_iff.mpr ⟨s, hs, hstamp, hcell⟩)
  · rw [Array.getElem?_modify] at hs
    split at hs
    · next e =>
      obtain ⟨t, ht, rfl⟩ := Option.map_eq_some_iff.mp hs
      have hslot : f.stampAt i = stamp := by
        rw [stampAt, ht]
        exact hstamp
      exact .inl ⟨by rw [e, hslot], (Option.some.inj hcell).symm⟩
    · exact .inr (cell?_eq_some_iff.mpr ⟨s, hs, hstamp, hcell⟩)

theorem cell?_of_release {h x : Handle} {c : Cell} (hc : (f.release h).cell? x = some c) :
    f.cell? x = some c := by
  obtain ⟨s, hs, hstamp, hcell⟩ := cell?_eq_some_iff.mp hc
  simp only [release, Array.getElem?_modify] at hs
  split at hs
  · obtain ⟨t, ht, rfl⟩ := Option.map_eq_some_iff.mp hs
    cases hcell
  · exact cell?_eq_some_iff.mpr ⟨s, hs, hstamp, hcell⟩

theorem cell?_of_releaseAll {gone : List Handle} {x : Handle} {c : Cell}
    (hc : (gone.foldl release f).cell? x = some c) : f.cell? x = some c := by
  induction gone generalizing f with
  | nil => exact hc
  | cons h rest ih => exact cell?_of_release (ih hc)

/-- A node that leaves its row keeps its content, and so does everybody else. -/
theorem exists_cell?_of_unlink {h x : Handle} {c' : Cell} (hc : (f.unlink h).cell? x = some c') :
    ∃ c, f.cell? x = some c ∧ c'.content = c.content ∧ c'.hidden = c.hidden := by
  cases hh : f.cell? h with
  | none =>
    rw [unlink, hh] at hc
    exact ⟨c', hc, rfl, rfl⟩
  | some d =>
    rw [cell?_unlink hh] at hc
    obtain ⟨c, hx, rfl⟩ := Option.map_eq_some_iff.mp hc
    exact ⟨c, hx, rfl, rfl⟩

theorem exists_cell?_of_unlinkAll {hs : List Handle} {x : Handle} {c' : Cell}
    (hc : (hs.foldl unlink f).cell? x = some c') :
    ∃ c, f.cell? x = some c ∧ c'.content = c.content ∧ c'.hidden = c.hidden := by
  induction hs generalizing f with
  | nil => exact ⟨c', hc, rfl, rfl⟩
  | cons h rest ih =>
    obtain ⟨d, hd, hcontent, hhidden⟩ := ih hc
    obtain ⟨c, hc, hcontent', hhidden'⟩ := exists_cell?_of_unlink hd
    exact ⟨c, hc, hcontent.trans hcontent', hhidden.trans hhidden'⟩

theorem exists_cell?_of_link {p h x : Handle} {c' : Cell} (hc : (f.link p h).cell? x = some c') :
    ∃ c, f.cell? x = some c ∧ c'.content = c.content ∧ c'.hidden = c.hidden := by
  rw [cell?_link] at hc
  obtain ⟨c, hx, rfl⟩ := Option.map_eq_some_iff.mp hc
  exact ⟨c, hx, rfl, rfl⟩

theorem exists_cell?_of_rememberTag {h x : Handle} {c' : Cell}
    (hc : (f.rememberTag h).cell? x = some c') :
    ∃ c, f.cell? x = some c ∧ (c'.content = c.content ∨ c'.content = c.content.rememberTag) := by
  obtain ⟨c, hx, rfl | ⟨-, rfl⟩⟩ := exists_cell?_of_update hc
  · exact ⟨_, hx, .inl rfl⟩
  · exact ⟨c, hx, .inr rfl⟩

theorem exists_cell?_of_rememberAll {hs : List Handle} {x : Handle} {c' : Cell}
    (hc : (hs.foldl rememberTag f).cell? x = some c') :
    ∃ c, f.cell? x = some c ∧ Relation.ReflTransGen Content.Edited c.content c'.content := by
  induction hs generalizing f with
  | nil => exact ⟨c', hc, .refl⟩
  | cons h rest ih =>
    obtain ⟨d, hd, hedited⟩ := ih hc
    obtain ⟨c, hc, e | e⟩ := exists_cell?_of_rememberTag hd
    · exact ⟨c, hc, e ▸ hedited⟩
    · exact ⟨c, hc, .head (e ▸ .remembered _) hedited⟩

/-- After a change, a content is one from before, edited, or its node is new and it comes from a
seed, or from another node. -/
theorem Change.content (h : f.Change f') {x : Handle} {c' : Cell} (hc : f'.cell? x = some c') :
    (∃ c, f.cell? x = some c ∧ Relation.ReflTransGen Content.Edited c.content c'.content) ∨
      (f.QueueSound → ¬ f.Lives x) ∧
        ((∃ seed : Seed, c'.content = seed.content) ∨
          ∃ y c, f.cell? y = some c ∧ c'.content = c.content.rememberTag) := by
  cases h with
  | stay => exact .inl ⟨c', hc, .refl⟩
  | create seed =>
    rcases exists_cell?_of_place hc with ⟨rfl, rfl⟩ | hc
    · exact .inr ⟨fun hq => not_lives_place hq _, .inl ⟨seed, rfl⟩⟩
    · exact .inl ⟨c', hc, .refl⟩
  | grow seed hp haccepts =>
    obtain ⟨c, hc, e, -⟩ := exists_cell?_of_link hc
    rcases exists_cell?_of_place hc with ⟨rfl, rfl⟩ | hc
    · exact .inr ⟨fun hq => not_lives_place hq _, .inl ⟨seed, e⟩⟩
    · exact .inl ⟨c, hc, e ▸ .refl⟩
  | @copy h d hd =>
    rcases exists_cell?_of_place hc with ⟨rfl, rfl⟩ | hc
    · refine .inr ⟨fun hq hl => ?_, .inr ⟨h, d, hd, rfl⟩⟩
      exact not_lives_place (hq.update h _) _ ((lives_update f h _ _).mpr hl)
    · obtain ⟨c, hc, e | e⟩ := exists_cell?_of_rememberTag hc
      · exact .inl ⟨c, hc, e ▸ .refl⟩
      · exact .inl ⟨c, hc, .single (e ▸ .remembered _)⟩
  | move hchild hp haccepts hcycle =>
    obtain ⟨d, hd, e, -⟩ := exists_cell?_of_link hc
    obtain ⟨c, hc, e', -⟩ := exists_cell?_of_unlink hd
    exact .inl ⟨c, hc, e.trans e' ▸ .refl⟩
  | detach hh =>
    obtain ⟨c, hc, e, -⟩ := exists_cell?_of_unlink hc
    exact .inl ⟨c, hc, e ▸ .refl⟩
  | scatter hh =>
    obtain ⟨c, hc, e, -⟩ := exists_cell?_of_unlinkAll hc
    exact .inl ⟨c, hc, e ▸ .refl⟩
  | remove hh =>
    obtain ⟨c, hc, e, -⟩ := exists_cell?_of_unlink (cell?_of_releaseAll hc)
    exact .inl ⟨c, hc, e ▸ .refl⟩
  | setHidden h hidden =>
    obtain ⟨c, hx, rfl | ⟨-, rfl⟩⟩ := exists_cell?_of_update hc
    · exact .inl ⟨_, hx, .refl⟩
    · exact .inl ⟨c, hx, .refl⟩
  | editAttributes edit hd hedit =>
    obtain ⟨c, hx, rfl | ⟨rfl, rfl⟩⟩ := exists_cell?_of_update hc
    · exact .inl ⟨_, hx, .refl⟩
    · rw [hd] at hx
      cases hx
      exact .inl ⟨_, hd, .single (.attributes edit hedit)⟩
  | editText edit hd hedit =>
    obtain ⟨c, hx, rfl | ⟨rfl, rfl⟩⟩ := exists_cell?_of_update hc
    · exact .inl ⟨_, hx, .refl⟩
    · rw [hd] at hx
      cases hx
      exact .inl ⟨_, hd, .single (.text edit hedit)⟩
  | remember hs => exact .inl (exists_cell?_of_rememberAll hc)

/-- What the content of every seed has and every edit keeps, a change keeps for all contents. -/
theorem Change.all_content {P : Content → Prop} (hseed : ∀ seed : Seed, P seed.content)
    (hedited : ∀ c c' : Content, P c → c.Edited c' → P c') (hchange : f.Change f')
    (hall : ∀ h c, f.cell? h = some c → P c.content) (h : Handle) (c : Cell)
    (hc : f'.cell? h = some c) : P c.content := by
  rcases hchange.content hc with ⟨d, hd, hstar⟩ | ⟨-, ⟨seed, e⟩ | ⟨y, d, hd, e⟩⟩
  · exact hstar.rec (hall h d hd) fun _ hstep ih => hedited _ _ ih hstep
  · exact e ▸ hseed seed
  · exact e ▸ hedited _ _ (hall y d hd) (.remembered _)

end Forest

/-- What the content of every seed has and every edit keeps, every content in a reachable forest
has. -/
theorem Reachable.content {P : Content → Prop} (hseed : ∀ seed : Seed, P seed.content)
    (hedited : ∀ c c' : Content, P c → c.Edited c' → P c') {f : Forest} (hf : Reachable f)
    {h : Handle} {c : Cell} (hc : f.cell? h = some c) : P c.content := by
  refine hf.of_change (P := fun f => ∀ h c, f.cell? h = some c → P c.content) ?_ ?_ h c hc
  · intro h c hc
    simp [Forest.cell?, Forest.empty] at hc
  · exact fun _ _ hall hchange => hchange.all_content hseed hedited hall

namespace Content

/-- The content of a document has the element `html`. -/
def RootIsHtml (c : Content) : Prop := c.sort.1 = .document → c.sort.2 = some .html

theorem rootIsHtml_seed (seed : Seed) : seed.content.RootIsHtml := by
  intro hkind
  cases seed <;> first | rfl | cases hkind

theorem RootIsHtml.of_sort_eq {c c' : Content} (hc : c.RootIsHtml) (h : c'.sort = c.sort) :
    c'.RootIsHtml := by
  rw [RootIsHtml, h]
  exact hc

theorem RootIsHtml.name_eq {root : Element} (h : (document root).RootIsHtml) :
    root.name = .html := Option.some.inj (h rfl)

end Content

/-- The element of a document is always the same one. -/
theorem Reachable.name_of_document {f : Forest} (hf : Reachable f) {h : Handle} {c : Cell}
    {root : Element} (hc : f.cell? h = some c) (hroot : c.content = .document root) :
    root.name = .html := by
  have hcontent := hf.content Content.rootIsHtml_seed (fun _ _ hP h => hP.of_sort_eq h.sort_eq) hc
  exact (hroot ▸ hcontent).name_eq

/-- So it is not void. -/
theorem Reachable.isVoid_of_document {f : Forest} (hf : Reachable f) {h : Handle} {c : Cell}
    {root : Element} (hc : f.cell? h = some c) (hroot : c.content = .document root) :
    root.isVoid = false := by
  rw [Element.isVoid, hf.name_of_document hc hroot]
  rfl

end Markup

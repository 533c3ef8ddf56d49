import Markup.Proofs.Sameness

/-!
# Escaped text

A text leaf holds markup. What escapes plain text (`Text.new`, `Text.push`) leaves nothing in it
that could be taken for markup; raw text comes into a leaf when it is made from raw text, when raw
text is added or put in place of the present one, and when a leaf that has some is copied.

* `Forest.Origin`: where the text of a leaf was before a command.
* `Forest.rawLeaves`: the leaves that raw text came into in a run.
* `Forest.plain_of_run`: the other leaves were only ever written by what escapes.
-/

namespace Markup

/-- The text was only ever written by what escapes. -/
inductive Text.Plain : Text → Prop where
  | new (text : String) : Plain (.new text)
  | push {t : Text} (ht : Plain t) (text : String) : Plain (t.push text)

/-- A leaf is made from raw text, or from text that is escaped. -/
theorem Seed.plain_of_text {seed : Seed} {t : Text} (h : seed.content = .text t) :
    (∃ markup, seed = .rawText markup) ∨ t.Plain := by
  cases seed with
  | text plain =>
    cases h
    exact .inr (.new plain)
  | rawText markup => exact .inl ⟨markup, rfl⟩
  | _ => cases h

/-- A leaf has no tag to remember. -/
theorem Content.eq_text_of_rememberTag {c : Content} {t : Text} (h : c.rememberTag = .text t) :
    c = .text t := by
  cases c <;> first | exact h | cases h

namespace Forest

variable {f f' : Forest} {x h : Handle} {t : Text}

theorem text_eq_ok_iff : f.text x = .ok t ↔ ∃ c, f.cell? x = some c ∧ c.content = .text t := by
  simp only [Forest.text, bind_eq_ok_iff, live_eq_ok_iff]
  refine exists_congr fun c => and_congr_right fun _ => ?_
  cases hc : c.content <;>
    simp [Content.text?, pure, Except.pure, throw, throwThe, MonadExceptOf.throw]

theorem text_of_facts (hfacts : f'.facts = f.facts) (ht : f'.text x = .ok t) :
    f.text x = .ok t := by
  obtain ⟨c', hc', hcontent⟩ := text_eq_ok_iff.mp ht
  obtain ⟨c, hc, hsame, -⟩ := exists_cell?_of_facts (congrFun hfacts x).symm hc'
  exact text_eq_ok_iff.mpr ⟨c, hc, hsame.trans hcontent⟩

theorem text_of_rememberTag (ht : (f.rememberTag h).text x = .ok t) : f.text x = .ok t := by
  obtain ⟨c', hc', hcontent⟩ := text_eq_ok_iff.mp ht
  obtain ⟨c, hc, e | e⟩ := exists_cell?_of_rememberTag hc'
  · exact text_eq_ok_iff.mpr ⟨c, hc, e ▸ hcontent⟩
  · rw [e] at hcontent
    exact text_eq_ok_iff.mpr ⟨c, hc, Content.eq_text_of_rememberTag hcontent⟩

theorem text_of_rememberAll {hs : List Handle} (ht : (hs.foldl rememberTag f).text x = .ok t) :
    f.text x = .ok t := by
  induction hs generalizing f with
  | nil => exact ht
  | cons h rest ih => exact text_of_rememberTag (ih ht)

theorem text_of_place (hq : f.QueueSound) {c : Cell} (ht : (f.place c).2.text x = .ok t) :
    x = (f.place c).1 ∧ c.content = .text t ∨ f.text x = .ok t := by
  obtain ⟨c', hc', hcontent⟩ := text_eq_ok_iff.mp ht
  rw [cell?_place hq] at hc'
  split at hc'
  · next e =>
    cases hc'
    exact .inl ⟨e, hcontent⟩
  · exact .inr (text_eq_ok_iff.mpr ⟨c', hc', hcontent⟩)

/-- Where the text of a leaf comes from that it has after a command with the given answer. -/
inductive Origin (f : Forest) (x : Handle) (t : Text) : Command → Except Fault Answer → Prop where
  | kept {command : Command} {answer : Except Fault Answer} (h : f.text x = .ok t) :
    Origin f x t command answer
  | created {seed : Seed} (h : seed.content = .text t) : Origin f x t (.create seed) (.ok (.node x))
  | appended {p : Handle} {seed : Seed} (h : seed.content = .text t) :
    Origin f x t (.appendNew p seed) (.ok (.node x))
  | copied {k : Handle} (h : f.text k = .ok t) : Origin f x t (.copy k) (.ok (.node x))
  | edited {edit : TextEdit} {s : Text} (h : f.text x = .ok s)
    (hedit : (Content.text s).edit? edit = some (.text t)) :
    Origin f x t (.editText x edit) (.ok .done)

/-- An edit of attributes makes no leaf. -/
theorem text_of_editAttributes {edit : AttributeEdit} (he : f.editAttributes h edit = .ok f')
    (ht : f'.text x = .ok t) : f.text x = .ok t := by
  obtain ⟨d, content, hd, hedit, rfl⟩ := editAttributes_eq_ok_iff.mp he
  obtain ⟨c', hc', hcontent⟩ := text_eq_ok_iff.mp ht
  obtain ⟨c, hc, rfl | ⟨-, rfl⟩⟩ := exists_cell?_of_update hc'
  · exact text_eq_ok_iff.mpr ⟨_, hc, hcontent⟩
  · obtain rfl : content = .text t := hcontent
    cases hcd : d.content <;> rw [hcd] at hedit <;> cases hedit

/-- An edit of a leaf shows in that leaf only. -/
theorem origin_of_editText {edit : TextEdit} (he : f.editText h edit = .ok f')
    (ht : f'.text x = .ok t) : f.Origin x t (.editText h edit) (.ok .done) := by
  obtain ⟨d, content, hd, hedit, rfl⟩ := editText_eq_ok_iff.mp he
  obtain ⟨c', hc', hcontent⟩ := text_eq_ok_iff.mp ht
  obtain ⟨c, hc, rfl | ⟨rfl, rfl⟩⟩ := exists_cell?_of_update hc'
  · exact .kept (text_eq_ok_iff.mpr ⟨_, hc, hcontent⟩)
  · obtain rfl : content = .text t := hcontent
    have hkind : Kind.text = d.content.kind := Content.kind_edit? hedit
    cases hcd : d.content with
    | text s => exact .edited (text_eq_ok_iff.mpr ⟨d, hd, hcd⟩) (hcd ▸ hedit)
    | _ => rw [hcd] at hkind; cases hkind

theorem origin_of_copy (hq : f.QueueSound) {k : Handle} {made : Handle × Forest}
    (hcopy : f.copy k = .ok made) (ht : made.2.text x = .ok t) :
    f.Origin x t (.copy k) (.ok (.node made.1)) := by
  obtain ⟨d, hd, rfl⟩ := copy_eq_ok_iff.mp hcopy
  rcases text_of_place (hq.update k _) ht with ⟨rfl, h⟩ | h
  · exact .copied (text_eq_ok_iff.mpr ⟨d, hd, Content.eq_text_of_rememberTag h⟩)
  · exact .kept (text_of_rememberTag h)

/-- An operation that moves nodes keeps every text. -/
theorem text_ofChange {r : Except Fault Forest}
    (hr : ∀ {f'}, r = .ok f' → f'.text x = .ok t → f.text x = .ok t)
    (ht : (Outcome.ofChange f r).forest.text x = .ok t) : f.text x = .ok t := by
  cases r with
  | error fault => exact ht
  | ok f' => exact hr rfl ht

/-- A text is the one from before, or the command put it there. -/
theorem origin_of_exec (hq : f.QueueSound) {command : Command}
    (ht : (f.exec command).forest.text x = .ok t) :
    f.Origin x t command (f.exec command).answer := by
  cases command with
  | create seed =>
    rcases text_of_place hq ht with ⟨rfl, h⟩ | h
    · exact .created h
    · exact .kept h
  | appendNew p seed =>
    cases hmade : f.appendNew p seed with
    | error fault =>
      rw [exec, hmade] at ht
      exact .kept ht
    | ok made =>
      rw [exec, hmade] at ht ⊢
      obtain ⟨-, rfl⟩ := appendNew_eq_ok_iff.mp hmade
      rcases text_of_place hq (text_of_facts (facts_link _ _ _) ht) with ⟨rfl, h⟩ | h
      · exact .appended h
      · exact .kept h
  | copy k =>
    cases hmade : f.copy k with
    | error fault =>
      rw [exec, hmade] at ht
      exact .kept ht
    | ok made =>
      rw [exec, hmade] at ht ⊢
      exact origin_of_copy hq hmade ht
  | append p c =>
    refine .kept (text_ofChange (fun happend ht => ?_) ht)
    obtain ⟨-, -, -, rfl⟩ := append_eq_ok_iff.mp happend
    exact text_of_facts ((facts_link _ p c).trans (facts_unlink f c)) ht
  | detach n =>
    refine .kept (text_ofChange (fun hdetach ht => ?_) ht)
    obtain ⟨-, rfl⟩ := detach_eq_ok_iff.mp hdetach
    exact text_of_facts (facts_unlink f n) ht
  | removeChildren n =>
    refine .kept (text_ofChange (fun hr ht => ?_) ht)
    obtain ⟨-, rfl⟩ := removeChildren_eq_ok_iff.mp hr
    exact text_of_facts (facts_unlinkAll f _) ht
  | remove n =>
    cases hr : f.remove n with
    | error fault =>
      rw [exec, hr] at ht
      exact .kept ht
    | ok result =>
      rw [exec, hr] at ht
      obtain ⟨-, rfl⟩ := remove_eq_ok_iff.mp hr
      obtain ⟨c, hc, hcontent⟩ := text_eq_ok_iff.mp ht
      have hunlinked : (f.unlink n).text x = .ok t :=
        text_eq_ok_iff.mpr ⟨c, cell?_of_releaseAll hc, hcontent⟩
      exact .kept (text_of_facts (facts_unlink f n) hunlinked)
  | setHidden n hidden =>
    refine .kept (text_ofChange (fun hs ht => ?_) ht)
    obtain ⟨-, rfl⟩ := setHidden_eq_ok_iff.mp hs
    obtain ⟨c', hc', hcontent⟩ := text_eq_ok_iff.mp ht
    obtain ⟨c, hc, rfl | ⟨-, rfl⟩⟩ := exists_cell?_of_update hc'
    · exact text_eq_ok_iff.mpr ⟨_, hc, hcontent⟩
    · exact text_eq_ok_iff.mpr ⟨c, hc, hcontent⟩
  | editAttributes n edit => exact .kept (text_ofChange text_of_editAttributes ht)
  | editElement n edit =>
    simp only [exec] at ht
    split at ht
    · exact .kept (text_ofChange text_of_editAttributes ht)
    · exact .kept ht
  | editText n edit =>
    cases he : f.editText n edit with
    | error fault =>
      rw [exec, he] at ht
      exact .kept ht
    | ok f' =>
      rw [exec, he] at ht ⊢
      exact origin_of_editText he ht
  | render n layout env sink =>
    obtain ⟨hs, hforest⟩ := f.exists_forest_render n layout env sink
    have hrendered : (hs.foldl rememberTag f).text x = .ok t := hforest ▸ ht
    exact .kept (text_of_rememberAll hrendered)

end Forest

/-! ## Raw text over a run -/

/-- The leaf that raw text comes into by a command with the given answer, where `raw` are the leaves
that have some before. -/
def Command.rawLeaf? (raw : List Handle) : Command → Except Fault Answer → Option Handle
  | .create (.rawText _), .ok (.node h) => some h
  | .appendNew _ (.rawText _), .ok (.node h) => some h
  | .copy k, .ok (.node h) => if k ∈ raw then some h else none
  | .editText h (.pushRaw _), .ok .done => some h
  | .editText h (.replace _), .ok .done => some h
  | _, _ => none

namespace Forest

variable {f : Forest}

/-- The leaves that raw text came into in a run, and those in `raw`. -/
def rawLeaves (f : Forest) (raw : List Handle) : List Command → List Handle
  | [] => raw
  | c :: cs => (f.exec c).forest.rawLeaves ((c.rawLeaf? raw (f.exec c).answer).toList ++ raw) cs

/-- Besides the leaves in `raw`, all were only ever written by what escapes. -/
def PlainBut (f : Forest) (raw : List Handle) : Prop :=
  ∀ h t, f.text h = .ok t → h ∉ raw → t.Plain

/-- One command writes raw text into no leaf but the one that is marked. -/
theorem PlainBut.exec (hq : f.QueueSound) {raw : List Handle} (hp : f.PlainBut raw)
    (command : Command) :
    (f.exec command).forest.PlainBut
      ((command.rawLeaf? raw (f.exec command).answer).toList ++ raw) := by
  -- a handle in `raw` says nothing of its leaf, so no new leaf has to be shown to have a new handle
  intro x t ht hx
  obtain ⟨hmark, hraw⟩ := not_or.mp (mt List.mem_append.mpr hx)
  rw [Option.mem_toList] at hmark
  have horigin := origin_of_exec hq ht
  generalize (f.exec command).answer = answer at hmark horigin
  cases horigin with
  | kept h => exact hp x t h hraw
  | created h =>
    obtain ⟨markup, rfl⟩ | hplain := Seed.plain_of_text h
    · exact absurd rfl hmark
    · exact hplain
  | appended h =>
    obtain ⟨markup, rfl⟩ | hplain := Seed.plain_of_text h
    · exact absurd rfl hmark
    · exact hplain
  | @copied k h =>
    refine hp k t h fun hk => hmark ?_
    exact if_pos hk
  | @edited edit s h hedit =>
    cases edit with
    | push text =>
      cases hedit
      exact (hp x s h hraw).push text
    | pushRaw markup => exact absurd rfl hmark
    | replace markup => exact absurd rfl hmark
    | _ => cases hedit

theorem plain_of_run (commands : List Command) {raw : List Handle} (hf : Reachable f)
    (hp : f.PlainBut raw) : (f.run commands).PlainBut (f.rawLeaves raw commands) := by
  induction commands generalizing f raw with
  | nil => exact hp
  | cons c cs ih =>
    obtain ⟨k, hw⟩ := hf.wellFormed
    exact ih (hf.exec c) (hp.exec hw.queue c)

end Forest

end Markup

import Markup.Proofs.Tags
import Mathlib.Data.List.Induction

/-!
# The last write

An element has two groups of attributes, and an edit writes to some of them: most edits to one,
those of a list of custom attributes to several, and one that adds no classes to none. What an edit
does not write to stays, also a custom attribute that is spelled like a known one that it does write
to.

What an attribute is after many edits of a new element is up to the last one that wrote to it. Such
an edit gives the attribute a value or removes it, whatever it was before. Only the attribute
`class` may be added to; of that, too, it is up to the last edit whether it is there with an empty
value.

* `Element.lookup?_edit_of_not_mem`: an edit shows under the attributes that it writes to only.
* `Element.forgetTag_editAll_singles`: an edit of many custom attributes is one edit after the
  other.
* `Element.lookup?_editAll_iff`: what one edit decides, the last of many decides.
* `Forest.element?_run_edits`: the edits of a node are edits of its element.
* `Element.last_write_decides`: the attributes of a new element after any edits.
-/

namespace Markup

/-- Where an attribute is kept: among the known ones or among the custom ones. -/
inductive AttributeKey where
  | known (a : AttributeName)
  /-- A custom attribute, also one that is spelled like a known one. -/
  | custom (key : String)
deriving DecidableEq, Repr

namespace AttributeEdit

/-- Whether the edit is one of custom attributes. -/
def isCustom : AttributeEdit → Bool
  | .setCustom _ _ | .setCustoms _ | .removeCustom _ | .removeCustoms _ => true
  | _ => false

/-- The attributes that the edit writes to. To add no classes is to write to none. -/
def keys : AttributeEdit → List AttributeKey
  | .set a _ | .setFlag a _ | .remove a => [.known a]
  | .setCustom key _ | .removeCustom key => [.custom key]
  | .setCustoms pairs => pairs.map fun pair => .custom pair.1
  | .removeCustoms keys => keys.map .custom
  | .addClasses classes => if (joinClasses classes).isEmpty then [] else [.known .className]
  | .setClasses _ => [.known .className]

/-- The same edit as edits of at most one attribute each, in order. -/
def singles : AttributeEdit → List AttributeEdit
  | .setCustoms pairs => pairs.map fun pair => .setCustom pair.1 pair.2
  | .removeCustoms keys => keys.map .removeCustom
  | edit => [edit]

/-- What is left of the attribute that the edit writes to, if it is not the attribute `class`:
nothing if the edit removes it. -/
def value? : AttributeEdit → Option String
  | .set _ value => if value.isEmpty then none else some value
  | .setFlag _ on => if on then some "" else none
  | .setCustom _ value => some value
  | _ => none

/-- The last of many edits that writes to an attribute. Edits of a list count one by one. -/
def last? (k : AttributeKey) (edits : List AttributeEdit) : Option AttributeEdit :=
  ((edits.flatMap singles).filter fun edit => decide (k ∈ edit.keys)).getLast?

end AttributeEdit

namespace Element

/-- The value of an attribute of either kind. -/
def lookup? (e : Element) : AttributeKey → Option String
  | .known a => e.attribute? a
  | .custom key => e.custom? key

/-- The element after many edits. -/
def editAll (e : Element) (edits : List AttributeEdit) : Element := edits.foldl edit e

variable {e : Element} {k : AttributeKey}

theorem lookup?_forgetTag (e : Element) (k : AttributeKey) :
    e.forgetTag.lookup? k = e.lookup? k := by
  cases k <;> rfl

theorem lookup?_congr {e e' : Element} (h : e.forgetTag = e'.forgetTag) (k : AttributeKey) :
    e.lookup? k = e'.lookup? k := by
  rw [← lookup?_forgetTag e, h, lookup?_forgetTag]

/-! ## What an edit writes to -/

/-- An edit of known attributes leaves the custom ones as they are, all of them. -/
theorem custom_edit {edit : AttributeEdit} (h : edit.isCustom = false) (e : Element) :
    (e.edit edit).custom = e.custom := by
  cases edit with
  | setFlag a on => cases on <;> rfl
  | addClasses classes =>
    simp only [Element.edit]
    split <;> rfl
  | set | remove | setClasses => rfl
  | setCustom | setCustoms | removeCustom | removeCustoms => cases h

/-- An edit of custom attributes leaves the known ones as they are, all of them. -/
theorem known_edit {edit : AttributeEdit} (h : edit.isCustom = true) (e : Element) :
    (e.edit edit).known = e.known := by
  cases edit with
  | setCustom | setCustoms | removeCustom | removeCustoms => rfl
  | set | setFlag | remove | addClasses | setClasses => cases h

theorem attribute?_withKnown_insert (e : Element) (a b : AttributeName) (value : String) :
    (e.withKnown (e.known.insert a value)).attribute? b =
      if a = b then some value else e.attribute? b := by
  simp [withKnown, attribute?, Std.ExtTreeMap.getElem?_insert]

theorem attribute?_withKnown_erase (e : Element) (a b : AttributeName) :
    (e.withKnown (e.known.erase a)).attribute? b = if a = b then none else e.attribute? b := by
  simp [withKnown, attribute?, Std.ExtTreeMap.getElem?_erase]

theorem custom?_withCustom_insert (e : Element) (key other value : String) :
    (e.withCustom (e.custom.insert key value)).custom? other =
      if key = other then some value else e.custom? other := by
  simp [withCustom, custom?, Std.ExtTreeMap.getElem?_insert]

theorem custom?_withCustom_erase (e : Element) (key other : String) :
    (e.withCustom (e.custom.erase key)).custom? other =
      if key = other then none else e.custom? other := by
  simp [withCustom, custom?, Std.ExtTreeMap.getElem?_erase]

theorem attribute?_setAttribute (e : Element) (a b : AttributeName) (value : String) :
    (e.setAttribute a value).attribute? b =
      if a = b then (if value.isEmpty then none else some value) else e.attribute? b := by
  rw [setAttribute]
  split
  · exact attribute?_withKnown_erase e a b
  · exact attribute?_withKnown_insert e a b value

/-- Adding classes writes to the attribute `class` if there is something to add. -/
theorem attribute?_addClasses (e : Element) (a : AttributeName) (classes : List String) :
    (e.edit (.addClasses classes)).attribute? a =
      if .known a ∈ (AttributeEdit.addClasses classes).keys then
        some (e.extendedClass (joinClasses classes))
      else e.attribute? a := by
  simp only [Element.edit, AttributeEdit.keys]
  split
  · rw [if_neg List.not_mem_nil]
  · rw [attribute?_withKnown_insert]
    simp only [List.mem_singleton, AttributeKey.known.injEq, eq_comm]

theorem ne_of_known_not_mem {a b : AttributeName}
    (h : AttributeKey.known b ∉ [AttributeKey.known a]) : a ≠ b :=
  fun heq => h (heq ▸ List.mem_cons_self)

theorem ne_of_custom_not_mem {key other : String}
    (h : AttributeKey.custom other ∉ [AttributeKey.custom key]) : key ≠ other :=
  fun heq => h (heq ▸ List.mem_cons_self)

/-- An edit of one attribute shows under that one only. -/
theorem lookup?_single_of_not_mem {edit : AttributeEdit} (hsingle : edit ∈ edit.singles)
    (e : Element) (h : k ∉ edit.keys) : (e.edit edit).lookup? k = e.lookup? k := by
  cases k with
  | known b =>
    cases edit with
    | set a value =>
      exact (attribute?_setAttribute e a b value).trans (if_neg (ne_of_known_not_mem h))
    | setFlag a on =>
      have hne : a ≠ b := ne_of_known_not_mem h
      cases on with
      | true => exact (attribute?_withKnown_insert e a b "").trans (if_neg hne)
      | false => exact (attribute?_withKnown_erase e a b).trans (if_neg hne)
    | remove a => exact (attribute?_withKnown_erase e a b).trans (if_neg (ne_of_known_not_mem h))
    | addClasses classes => exact (attribute?_addClasses e b classes).trans (if_neg h)
    | setClasses classes =>
      exact (attribute?_setAttribute e .className b _).trans (if_neg (ne_of_known_not_mem h))
    | setCustom | setCustoms | removeCustom | removeCustoms => rfl
  | custom other =>
    cases edit with
    | setCustom key value =>
      exact (custom?_withCustom_insert e key other value).trans (if_neg (ne_of_custom_not_mem h))
    | removeCustom key =>
      exact (custom?_withCustom_erase e key other).trans (if_neg (ne_of_custom_not_mem h))
    | setCustoms | removeCustoms => simp [AttributeEdit.singles] at hsingle
    | set | setFlag | remove | addClasses | setClasses =>
      exact congrArg (·[other]?) (custom_edit rfl e)

/-- What an edit of one attribute leaves of it, if that is not the attribute `class`. -/
theorem lookup?_single_of_mem {edit : AttributeEdit} (hsingle : edit ∈ edit.singles) (e : Element)
    (h : k ∈ edit.keys) (hk : k ≠ .known .className) : (e.edit edit).lookup? k = edit.value? := by
  cases edit with
  | set a value =>
    obtain rfl := List.mem_singleton.mp h
    exact (attribute?_setAttribute e a a value).trans (if_pos rfl)
  | setFlag a on =>
    obtain rfl := List.mem_singleton.mp h
    cases on with
    | true => exact (attribute?_withKnown_insert e a a "").trans (if_pos rfl)
    | false => exact (attribute?_withKnown_erase e a a).trans (if_pos rfl)
  | remove a =>
    obtain rfl := List.mem_singleton.mp h
    exact (attribute?_withKnown_erase e a a).trans (if_pos rfl)
  | setCustom key value =>
    obtain rfl := List.mem_singleton.mp h
    exact (custom?_withCustom_insert e key key value).trans (if_pos rfl)
  | removeCustom key =>
    obtain rfl := List.mem_singleton.mp h
    exact (custom?_withCustom_erase e key key).trans (if_pos rfl)
  | setCustoms | removeCustoms => simp [AttributeEdit.singles] at hsingle
  | addClasses classes =>
    simp only [AttributeEdit.keys] at h
    split at h
    · cases h
    · exact absurd (List.mem_singleton.mp h) hk
  | setClasses classes => exact absurd (List.mem_singleton.mp h) hk

theorem extendedClass_ne_empty (e : Element) {added : String} (h : added.isEmpty = false) :
    e.extendedClass added ≠ "" := by
  have hadded : added ≠ "" := fun heq => by simp [heq] at h
  unfold extendedClass
  split
  · split
    · exact hadded
    · simp [hadded]
  · exact hadded

theorem ne_empty_of_setAttribute {value : String} :
    (if value.isEmpty then none else some value) ≠ some "" := by
  split
  · exact (Option.some_ne_none "").symm
  · next hvalue => exact fun heq => hvalue (String.isEmpty_iff.mpr (Option.some.inj heq))

/-- Only a flag that is on leaves an empty value, also of the attribute `class`. -/
theorem attribute?_single_eq_empty_iff {edit : AttributeEdit} {a : AttributeName} (e : Element)
    (h : .known a ∈ edit.keys) : (e.edit edit).attribute? a = some "" ↔ edit = .setFlag a true := by
  cases edit with
  | set b value =>
    cases List.mem_singleton.mp h
    refine iff_of_false ?_ AttributeEdit.noConfusion
    rw [Element.edit, attribute?_setAttribute, if_pos rfl]
    exact ne_empty_of_setAttribute
  | setFlag b on =>
    cases List.mem_singleton.mp h
    cases on with
    | true => exact iff_of_true ((attribute?_withKnown_insert e a a "").trans (if_pos rfl)) rfl
    | false =>
      refine iff_of_false ?_ (by simp)
      rw [Element.edit, attribute?_withKnown_erase, if_pos rfl]
      exact (Option.some_ne_none "").symm
  | remove b =>
    cases List.mem_singleton.mp h
    refine iff_of_false ?_ AttributeEdit.noConfusion
    rw [Element.edit, attribute?_withKnown_erase, if_pos rfl]
    exact (Option.some_ne_none "").symm
  | addClasses classes =>
    refine iff_of_false (fun hempty => ?_) AttributeEdit.noConfusion
    rw [attribute?_addClasses, if_pos h] at hempty
    refine e.extendedClass_ne_empty ?_ (Option.some.inj hempty)
    by_contra hnone
    rw [Bool.not_eq_false] at hnone
    rw [AttributeEdit.keys, if_pos hnone] at h
    cases h
  | setClasses classes =>
    cases List.mem_singleton.mp h
    refine iff_of_false ?_ AttributeEdit.noConfusion
    rw [Element.edit, attribute?_setAttribute, if_pos rfl]
    exact ne_empty_of_setAttribute
  | setCustom | removeCustom => simp [AttributeEdit.keys] at h
  | setCustoms | removeCustoms => simp [AttributeEdit.keys] at h

/-! ## Many edits -/

theorem forgetTag_edit (e : Element) (edit : AttributeEdit) :
    (e.forgetTag.edit edit).forgetTag = (e.edit edit).forgetTag := by
  cases edit with
  | setFlag a on => cases on <;> rfl
  | addClasses classes =>
    simp only [Element.edit]
    split <;> rfl
  | _ => rfl

theorem forgetTag_editAll (e : Element) (edits : List AttributeEdit) :
    (e.forgetTag.editAll edits).forgetTag = (e.editAll edits).forgetTag := by
  induction edits generalizing e with
  | nil => rfl
  | cons edit edits ih =>
    rw [editAll, List.foldl_cons, ← editAll, ← ih, forgetTag_edit, ih]
    rfl

theorem editAll_append (e : Element) (before after : List AttributeEdit) :
    e.editAll (before ++ after) = (e.editAll before).editAll after :=
  List.foldl_append

/-- An edit of many custom attributes leaves the same as one edit after the other. -/
theorem forgetTag_editAll_singles (e : Element) (edit : AttributeEdit) :
    (e.editAll edit.singles).forgetTag = (e.edit edit).forgetTag := by
  cases edit with
  | setCustoms pairs =>
    induction pairs generalizing e with
    | nil => rfl
    | cons pair pairs ih => exact ih (e.edit (.setCustom pair.1 pair.2))
  | removeCustoms keys =>
    induction keys generalizing e with
    | nil => rfl
    | cons key keys ih => exact ih (e.edit (.removeCustom key))
  | _ => rfl

theorem forgetTag_editAll_flatMap (e : Element) (edits : List AttributeEdit) :
    (e.editAll (edits.flatMap AttributeEdit.singles)).forgetTag = (e.editAll edits).forgetTag := by
  induction edits generalizing e with
  | nil => rfl
  | cons edit edits ih =>
    rw [List.flatMap_cons, editAll_append, ih, ← forgetTag_editAll, forgetTag_editAll_singles,
      forgetTag_editAll]
    rfl

/-- The single edits of an edit are single. -/
theorem mem_singles_of_mem {edit other : AttributeEdit} (h : edit ∈ other.singles) :
    edit ∈ edit.singles := by
  cases other with
  | setCustoms pairs =>
    obtain ⟨pair, -, rfl⟩ := List.mem_map.mp h
    exact List.mem_cons_self
  | removeCustoms keys =>
    obtain ⟨key, -, rfl⟩ := List.mem_map.mp h
    exact List.mem_cons_self
  | _ =>
    obtain rfl := List.mem_singleton.mp h
    exact List.mem_cons_self

/-- An edit writes to what its single edits write to. -/
theorem mem_keys_iff {edit : AttributeEdit} :
    k ∈ edit.keys ↔ ∃ single ∈ edit.singles, k ∈ single.keys := by
  cases edit with
  | setCustoms pairs => simp [AttributeEdit.keys, AttributeEdit.singles, @eq_comm _ k]
  | removeCustoms keys => simp [AttributeEdit.keys, AttributeEdit.singles, @eq_comm _ k]
  | _ => simp [AttributeEdit.singles]

/-- What one edit of an attribute decides about it, the last of many decides. -/
theorem lookup?_editAll_iff {P : Option String → Prop} {Q : AttributeEdit → Prop}
    (hedit : ∀ (e : Element) (edit : AttributeEdit), edit ∈ edit.singles → k ∈ edit.keys →
      (P ((e.edit edit).lookup? k) ↔ Q edit))
    (e : Element) (edits : List AttributeEdit) :
    P ((e.editAll edits).lookup? k) ↔
      (AttributeEdit.last? k edits).elim (P (e.lookup? k)) Q := by
  rw [← lookup?_congr (e.forgetTag_editAll_flatMap edits), AttributeEdit.last?]
  have hsingles : ∀ edit ∈ edits.flatMap AttributeEdit.singles, edit ∈ edit.singles := by
    intro edit hmem
    obtain ⟨other, -, hother⟩ := List.mem_flatMap.mp hmem
    exact mem_singles_of_mem hother
  generalize edits.flatMap AttributeEdit.singles = singles at hsingles
  -- from the back: the last edit writes to the attribute, or it can be left out
  induction singles using List.reverseRecOn with
  | nil => rfl
  | append_singleton before edit ih =>
    obtain ⟨hbefore, hlast⟩ := List.forall_mem_append.mp hsingles
    have hsingle := hlast edit List.mem_cons_self
    have hall : e.editAll (before ++ [edit]) = (e.editAll before).edit edit :=
      editAll_append e before [edit]
    rw [hall, List.filter_append, List.filter_singleton]
    by_cases hk : k ∈ edit.keys
    · simpa [hk] using hedit (e.editAll before) edit hsingle hk
    · rw [lookup?_single_of_not_mem hsingle _ hk]
      simpa [hk] using ih hbefore

/-- An edit shows under the attributes that it writes to only. -/
theorem lookup?_edit_of_not_mem {edit : AttributeEdit} (e : Element) (h : k ∉ edit.keys) :
    (e.edit edit).lookup? k = e.lookup? k := by
  have hsingle : ∀ single ∈ edit.singles, k ∉ single.keys := fun single hmem hk =>
    h (mem_keys_iff.mpr ⟨single, hmem, hk⟩)
  rw [← lookup?_congr (e.forgetTag_editAll_singles edit)]
  have hall : ∀ single ∈ edit.singles, single ∈ single.singles := fun _ => mem_singles_of_mem
  generalize edit.singles = singles at hsingle hall
  induction singles generalizing e with
  | nil => rfl
  | cons single singles ih =>
    obtain ⟨hfirst, hrest⟩ := List.forall_mem_cons.mp hsingle
    obtain ⟨hfirst', hrest'⟩ := List.forall_mem_cons.mp hall
    exact (ih _ hrest hrest').trans (lookup?_single_of_not_mem hfirst' e hfirst)

/-- An attribute other than `class` is what the last edit that writes to it left of it. -/
theorem lookup?_editAll (e : Element) (edits : List AttributeEdit) (hk : k ≠ .known .className) :
    (e.editAll edits).lookup? k =
      (AttributeEdit.last? k edits).elim (e.lookup? k) AttributeEdit.value? := by
  have hdecided (o : Option String) : (e.editAll edits).lookup? k = o ↔
      (AttributeEdit.last? k edits).elim (e.lookup? k = o) (·.value? = o) :=
    lookup?_editAll_iff (P := (· = o))
      (fun e edit hsingle hmem => by rw [lookup?_single_of_mem hsingle e hmem hk]) e edits
  refine (hdecided _).mpr ?_
  cases AttributeEdit.last? k edits <;> rfl

end Element

/-! ## Edits of a node -/

namespace Forest

variable {f : Forest} {h : Handle} {e : Element}

theorem exec_editAttributes (he : f.element? h = some e) (edit : AttributeEdit) :
    (f.exec (.editAttributes h edit)).forest.element? h = some (e.edit edit) := by
  obtain ⟨c, hc, hce⟩ := Option.bind_eq_some_iff.mp he
  have hedit :
      f.editAttributes h edit = .ok (f.setContent h (c.content.withElement (e.edit edit))) :=
    editAttributes_eq_ok_iff.mpr ⟨c, _, hc, by rw [Content.editAttributes?, hce]; rfl, rfl⟩
  rw [exec, hedit, Outcome.ofChange, element?, setContent, cell?_update, if_pos rfl, hc]
  exact Content.element?_withElement hce

/-- A node with an element is edited in either way as its element is. -/
theorem element?_run_edits (he : f.element? h = some e) {commands : List Command}
    {edits : List AttributeEdit} (hedits : List.Forall₂ (fun command edit =>
      command = .editAttributes h edit ∨ command = .editElement h edit) commands edits) :
    (f.run commands).element? h = some (e.editAll edits) := by
  induction hedits generalizing f e with
  | nil => exact he
  | @cons command edit commands edits hcommand _ ih =>
    refine ih ?_
    rcases hcommand with rfl | rfl
    · exact exec_editAttributes he edit
    · have hedited := exec_editAttributes he edit
      have hsame : f.exec (.editElement h edit) = f.exec (.editAttributes h edit) := by
        simp only [exec, he]
      rw [← hsame] at hedited
      exact hedited

end Forest

namespace Element

variable {k : AttributeKey}

theorem lookup?_ofName (name : ElementName) (k : AttributeKey) :
    (ofName name).lookup? k = none := by
  cases k with
  | known a => exact Std.ExtTreeMap.getElem?_empty
  | custom key => exact Std.ExtTreeMap.getElem?_empty

/-- An attribute of a new element is what the last edit that writes to it leaves of it. -/
theorem lookup?_editAll_ofName (name : ElementName) (edits : List AttributeEdit)
    (hk : k ≠ .known .className) :
    ((ofName name).editAll edits).lookup? k =
      (AttributeEdit.last? k edits).bind AttributeEdit.value? := by
  rw [lookup?_editAll _ edits hk, lookup?_ofName]
  cases AttributeEdit.last? k edits <;> rfl

/-- The last edit that writes to an attribute is a single edit of one of the edits, and writes to
it. -/
theorem exists_of_last?_eq_some {edits : List AttributeEdit} {last : AttributeEdit}
    (h : AttributeEdit.last? k edits = some last) :
    ∃ edit ∈ edits, last ∈ edit.singles ∧ k ∈ last.keys := by
  obtain ⟨hmem, hk⟩ := List.mem_filter.mp (List.mem_of_getLast? h)
  obtain ⟨edit, hedit, hlast⟩ := List.mem_flatMap.mp hmem
  exact ⟨edit, hedit, hlast, of_decide_eq_true hk⟩

/-- An edit of a known attribute is a single one. -/
theorem eq_of_mem_singles {edit single : AttributeEdit} {a : AttributeName}
    (h : single ∈ edit.singles) (hkey : .known a ∈ single.keys) : single = edit := by
  cases edit with
  | setCustoms pairs =>
    obtain ⟨pair, -, rfl⟩ := List.mem_map.mp h
    cases List.mem_singleton.mp hkey
  | removeCustoms keys =>
    obtain ⟨key, -, rfl⟩ := List.mem_map.mp h
    cases List.mem_singleton.mp hkey
  | _ => exact List.mem_singleton.mp h

/-- A known attribute other than `class` is absent if it never got a value, or last lost it. -/
theorem attribute?_editAll_eq_none_iff (name : ElementName) (edits : List AttributeEdit)
    {a : AttributeName} (ha : a ≠ .className) :
    ((ofName name).editAll edits).attribute? a = none ↔
      (∀ edit ∈ edits, .known a ∈ edit.keys → edit.value? = none) ∨
        ∃ last, AttributeEdit.last? (.known a) edits = some last ∧ last.value? = none := by
  have hlookup : ((ofName name).editAll edits).attribute? a = _ :=
    lookup?_editAll_ofName (k := .known a) name edits fun h => ha (AttributeKey.known.inj h)
  rw [hlookup]
  cases hlast : AttributeEdit.last? (.known a) edits with
  | none =>
    refine iff_of_true rfl (.inl fun edit hedit hkey => ?_)
    obtain ⟨single, hsingle, hkey⟩ := mem_keys_iff.mp hkey
    have hnil := List.getLast?_eq_none_iff.mp hlast
    have hmem : single ∈ (edits.flatMap AttributeEdit.singles).filter
        fun edit => decide (.known a ∈ edit.keys) :=
      List.mem_filter.mpr ⟨List.mem_flatMap.mpr ⟨edit, hedit, hsingle⟩, decide_eq_true hkey⟩
    exact absurd (hnil ▸ hmem) List.not_mem_nil
  | some last =>
    obtain ⟨edit, hedit, hmem, hkey⟩ := exists_of_last?_eq_some hlast
    constructor
    · exact fun hvalue => .inr ⟨last, rfl, hvalue⟩
    · rintro (hnever | ⟨last', heq, hvalue⟩)
      · exact hnever last (eq_of_mem_singles hmem hkey ▸ hedit) hkey
      · exact Option.some.inj heq ▸ hvalue

/-- **The last write decides.** Edits of known and of custom attributes keep out of each other's
way, and an edit changes nothing but the attributes that it writes to. An edit of a list of custom
attributes leaves the same as the edits of them in order. After any edits of a new element, an
attribute other than `class` is what the last edit that wrote to it left of it: nothing if no edit
did or if that one removed it. A known attribute, `class` or not, is there with an empty value if
and only if the last edit that wrote to it turned it on as a flag. The edits of a node, which may be
asked for in two ways, are edits of its element. -/
theorem last_write_decides :
    (∀ (e : Element) (edit : AttributeEdit),
      (edit.isCustom = false → (e.edit edit).custom = e.custom) ∧
      (edit.isCustom = true → (e.edit edit).known = e.known) ∧
      ∀ k, k ∉ edit.keys → (e.edit edit).lookup? k = e.lookup? k) ∧
    (∀ (e : Element) (pairs : List (String × String)) (keys : List String),
      (e.edit (.setCustoms pairs)).forgetTag =
        (e.editAll (pairs.map fun pair => .setCustom pair.1 pair.2)).forgetTag ∧
      (e.edit (.removeCustoms keys)).forgetTag =
        (e.editAll (keys.map .removeCustom)).forgetTag) ∧
    (∀ (name : ElementName) (edits : List AttributeEdit),
      let e := (ofName name).editAll edits
      (∀ k, k ≠ .known .className →
        e.lookup? k = (AttributeEdit.last? k edits).bind (·.value?)) ∧
      (∀ a, a ≠ .className →
        (e.attribute? a = none ↔
          (∀ edit ∈ edits, .known a ∈ edit.keys → edit.value? = none) ∨
            ∃ last, AttributeEdit.last? (.known a) edits = some last ∧ last.value? = none)) ∧
      ∀ a, e.attribute? a = some "" ↔
        AttributeEdit.last? (.known a) edits = some (.setFlag a true)) ∧
    ∀ (f : Forest) (h : Handle) (e : Element) (commands : List Command)
      (edits : List AttributeEdit), f.element? h = some e →
      List.Forall₂ (fun command edit =>
        command = .editAttributes h edit ∨ command = .editElement h edit) commands edits →
      (f.run commands).element? h = some (e.editAll edits) := by
  refine ⟨fun e edit => ⟨fun h => custom_edit h e, fun h => known_edit h e,
    fun k => lookup?_edit_of_not_mem e⟩, fun e pairs keys => ?_, fun name edits => ?_,
    fun f h e commands edits he hedits => Forest.element?_run_edits he hedits⟩
  · exact ⟨(e.forgetTag_editAll_singles (.setCustoms pairs)).symm,
      (e.forgetTag_editAll_singles (.removeCustoms keys)).symm⟩
  · refine ⟨fun k => lookup?_editAll_ofName name edits,
      fun a => attribute?_editAll_eq_none_iff name edits, fun a => ?_⟩
    have hdecided := lookup?_editAll_iff (k := .known a) (P := (· = some ""))
      (fun e edit _ hmem => attribute?_single_eq_empty_iff e hmem) (ofName name) edits
    refine Iff.trans hdecided ?_
    rw [lookup?_ofName]
    cases AttributeEdit.last? (.known a) edits <;> simp

/-- A link with a known and a custom attribute of one spelling, a class attribute that is turned on
as a flag before no classes are added to it, and an identifier that is set to nothing. -/
theorem last_write_decides_of_link :
    let edits : List AttributeEdit := [.set .href "x", .setFlag .className true,
      .setCustoms [("k", "1"), ("href", "2"), ("k", "")], .remove .href, .addClasses ["", ""],
      .set .href "y", .setId "", .removeCustoms ["id", "href"], .setCustom "href" ""]
    let e := (ofName .a).editAll edits
    let f := Forest.empty.run [.create (.element .a)]
    AttributeKey.known .href ∉ (AttributeEdit.setCustom "href" "").keys ∧
      (e.edit (.setCustom "href" "z")).known = e.known ∧
      (e.edit (.set .href "z")).custom = e.custom ∧
      (e.edit (.setCustom "href" "z")).lookup? (.custom "k") = e.lookup? (.custom "k") ∧
      e.lookup? (.known .href) = some "y" ∧ e.lookup? (.custom "href") = some "" ∧
      e.lookup? (.custom "k") = some "" ∧ e.attribute? .id = none ∧
      e.attribute? .className = some "" ∧
      (f.run (edits.map (.editElement ⟨0, 0⟩))).element? ⟨0, 0⟩ = some e := by
  intro edits e f
  obtain ⟨hedit, -, hlast, hnode⟩ := last_write_decides
  obtain ⟨hvalue, habsent, hflag⟩ := hlast .a edits
  have hnew : f.element? ⟨0, 0⟩ = some (ofName .a) := rfl
  have hcommands : List.Forall₂ (fun (command : Command) edit =>
      command = .editAttributes ⟨0, 0⟩ edit ∨ command = .editElement ⟨0, 0⟩ edit)
      (edits.map (.editElement ⟨0, 0⟩)) edits := by
    simp [List.forall₂_map_left_iff, List.forall₂_same]
  refine ⟨by decide, (hedit e (.setCustom "href" "z")).2.1 rfl, (hedit e (.set .href "z")).1 rfl,
    (hedit e (.setCustom "href" "z")).2.2 _ (by decide), ?_, ?_, ?_, ?_, ?_, ?_⟩
  · exact (hvalue (.known .href) (by decide)).trans (by decide)
  · exact (hvalue (.custom "href") (by decide)).trans (by decide)
  · exact (hvalue (.custom "k") (by decide)).trans (by decide)
  · exact (habsent .id (by decide)).mpr (.inr ⟨.setId "", by decide, by decide⟩)
  · exact (hflag .className).mpr (by decide)
  · exact hnode f ⟨0, 0⟩ (ofName .a) _ edits hnew hcommands

end Element

end Markup

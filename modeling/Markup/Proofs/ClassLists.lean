import Markup.Proofs.LastWrite

/-!
# Class lists

The attribute `class` holds the classes of an element side by side, and they are read as the words
of that text. Classes that are given to an element may be texts with several words or with none, so
the text that they are joined to can have blanks where nobody expects them. No word is lost by that,
and no two grow together.

* `words_joinClasses`: joined classes have the words of each, in order.
* `Element.words_extendedClass`: so has the attribute after more classes were added to it.
* `Element.classes_concatenate`: class lists behave like lists of words.
-/

namespace Markup

theorem words_empty : words "" = [] := by decide

/-- One more class, be it a text without words, brings its words. -/
theorem words_join_class (joined class' : String) :
    words (if joined.isEmpty then class' else joined ++ " " ++ class') =
      words joined ++ words class' := by
  split
  · next hempty =>
    obtain rfl := String.isEmpty_iff.mp hempty
    rw [words_empty, List.nil_append]
  · exact words_append_blank joined class'

/-- Joined classes have the words of each, in order. -/
theorem words_joinClasses (classes : List String) :
    words (joinClasses classes) = classes.flatMap words := by
  have hall : ∀ joined, words (classes.foldl
      (fun joined c => if joined.isEmpty then c else joined ++ " " ++ c) joined) =
        words joined ++ classes.flatMap words := by
    induction classes with
    | nil => simp
    | cons c classes ih =>
      intro joined
      rw [List.foldl_cons, ih, words_join_class, List.flatMap_cons, List.append_assoc]
  rw [joinClasses, hall, words_empty, List.nil_append]

namespace Element

variable {e e' : Element}

theorem classes_eq_of_attribute? {value : String} (h : e.attribute? .className = some value) :
    e.classes = words value := by
  rw [classes, h]
  rfl

/-- The attribute to which classes were added has the words of both. -/
theorem words_extendedClass (e : Element) (added : String) :
    words (e.extendedClass added) = e.classes ++ words added := by
  unfold extendedClass
  split
  · next present hpresent =>
    rw [classes_eq_of_attribute? hpresent]
    exact words_join_class present added
  · next hnone =>
    rw [classes, hnone]
    rfl

/-- Added classes come behind those that are there. -/
theorem classes_addClasses (e : Element) (classes : List String) :
    (e.edit (.addClasses classes)).classes = e.classes ++ classes.flatMap words := by
  rw [← words_joinClasses]
  by_cases hadded : (joinClasses classes).isEmpty
  · -- nothing to add: the edit returns early
    have hsame : e.edit (.addClasses classes) = e := if_pos hadded
    rw [hsame, String.isEmpty_iff.mp hadded, words_empty, List.append_nil]
  · have hkeys : .known .className ∈ (AttributeEdit.addClasses classes).keys := by
      rw [AttributeEdit.keys, if_neg hadded]
      exact List.mem_cons_self
    have hvalue := attribute?_addClasses e .className classes
    rw [if_pos hkeys] at hvalue
    rw [classes_eq_of_attribute? hvalue, words_extendedClass]

/-- Set classes take the place of those that are there. -/
theorem classes_setClasses (e : Element) (classes : List String) :
    (e.edit (.setClasses classes)).classes = classes.flatMap words := by
  rw [← words_joinClasses]
  have hvalue := attribute?_setAttribute e .className .className (joinClasses classes)
  rw [if_pos rfl] at hvalue
  split at hvalue
  · next hnone =>
    rw [String.isEmpty_iff.mp hnone, words_empty]
    exact congrArg (fun value => (value.map words).getD []) hvalue
  · exact classes_eq_of_attribute? hvalue

/-- Classes may be added all at once or in portions. -/
theorem classes_editAll_addClasses (e : Element) (portions : List (List String)) :
    (e.editAll (portions.map .addClasses)).classes =
      e.classes ++ portions.flatten.flatMap words := by
  induction portions generalizing e with
  | nil => simp [editAll]
  | cons classes portions ih =>
    have hrest := ih (e.edit (.addClasses classes))
    rw [classes_addClasses, List.append_assoc, ← List.flatMap_append] at hrest
    exact hrest

/-- **Class lists concatenate.** Whatever texts are given as classes, and whatever the attribute
`class` was before: added classes are the words of the texts, in order, behind those that are there,
and set classes are those words alone. So it is the same to add two lists, or any number of them,
one after the other and to add them at once. No other attribute changes, and neither operation
leaves an attribute `class` with an empty value, unless it found one and had nothing to add. -/
theorem classes_concatenate (e : Element) :
    (∀ cs, (e.edit (.addClasses cs)).classes = e.classes ++ cs.flatMap words) ∧
    (∀ cs, (e.edit (.setClasses cs)).classes = cs.flatMap words) ∧
    (∀ xs ys, ((e.edit (.addClasses xs)).edit (.addClasses ys)).classes =
      (e.edit (.addClasses (xs ++ ys))).classes) ∧
    (∀ portions : List (List String), (e.editAll (portions.map .addClasses)).classes =
      (e.edit (.addClasses portions.flatten)).classes) ∧
    (∀ cs, ∀ edit ∈ [AttributeEdit.addClasses cs, .setClasses cs],
      (e.edit edit).custom = e.custom ∧
      ∀ a, a ≠ .className → (e.edit edit).attribute? a = e.attribute? a) ∧
    ∀ cs, (e.edit (.setClasses cs)).attribute? .className ≠ some "" ∧
      ((e.edit (.addClasses cs)).attribute? .className = some "" →
        e.attribute? .className = some "" ∧ e.edit (.addClasses cs) = e) := by
  refine ⟨e.classes_addClasses, e.classes_setClasses, fun xs ys => ?_, fun portions => ?_,
    fun cs edit hedit => ?_, fun cs => ⟨fun hempty => ?_, fun hempty => ?_⟩⟩
  · rw [classes_addClasses, classes_addClasses, classes_addClasses, List.flatMap_append,
      List.append_assoc]
  · rw [classes_editAll_addClasses, classes_addClasses]
  · obtain ⟨hcustom, hkeys⟩ : edit.isCustom = false ∧ ∀ k ∈ edit.keys, k = .known .className := by
      rcases List.mem_pair.mp hedit with rfl | rfl
      · exact ⟨rfl, fun k => by simp +contextual [AttributeEdit.keys]⟩
      · exact ⟨rfl, fun k => List.mem_singleton.mp⟩
    refine ⟨custom_edit hcustom e, fun a ha => ?_⟩
    exact lookup?_edit_of_not_mem (k := .known a) e fun hmem =>
      ha (AttributeKey.known.inj (hkeys _ hmem))
  · rw [attribute?_single_eq_empty_iff e List.mem_cons_self] at hempty
    cases hempty
  · have hkeys : .known .className ∉ (AttributeEdit.addClasses cs).keys := fun hmem => by
      rw [attribute?_single_eq_empty_iff e hmem] at hempty
      cases hempty
    have hnone : (joinClasses cs).isEmpty := by
      by_contra hsome
      rw [AttributeEdit.keys, if_neg hsome] at hkeys
      exact hkeys List.mem_cons_self
    have hsame : e.edit (.addClasses cs) = e := if_pos hnone
    exact ⟨hsame ▸ hempty, hsame⟩

/-- A flag on the attribute `class` is left alone by empty texts; then blanks come and go. -/
theorem classes_concatenate_of_blanks :
    let e := (ofName .p).edit (.setFlag .className true)
    (e.edit (.addClasses ["", ""])).attribute? .className = some "" ∧
      e.attribute? .className = some "" ∧ (e.edit (.addClasses [" "])).classes = [] ∧
      (e.edit (.addClasses [" ", "", "a\tb", "c"])).classes = ["a", "b", "c"] ∧
      (e.edit (.addClasses ["a "])).attribute? .id = e.attribute? .id := by
  intro e
  obtain ⟨hadded, -, -, -, hothers, hempty⟩ := classes_concatenate e
  have hflag : (e.edit (.addClasses ["", ""])).attribute? .className = some "" := by decide
  refine ⟨hflag, ((hempty ["", ""]).2 hflag).1, (hadded _).trans (by decide),
    (hadded _).trans (by decide), (hothers ["a "] _ List.mem_cons_self).2 .id (by decide)⟩

end Element

end Markup

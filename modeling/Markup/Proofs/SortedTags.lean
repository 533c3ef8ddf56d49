import Markup.Proofs.ByteOrder
import Markup.Proofs.CompactText
import Mathlib.Data.List.Nodup

/-!
# Sorted tags

The tag of pretty output lists every attribute once. As long as all attributes are known they stand
by ordinal. With a custom attribute they stand by name, in the order of the bytes, and a custom
attribute takes the place of a known one of that name. Either way the list is settled by what the
attributes are: there is one list of that kind, however the element was edited, copied or rendered.

* `Element.valueOf?`: what an element shows under a name.
* `Element.ListsByName`: the attributes of a tag by name, each once and in order.
* `Element.Lists.eq_toList`, `Element.ListsByName.eq_toList`: there is one list of either kind.
* `Element.mem_sortedPairs_iff`: the sorted tag lists what the element shows.
* `Element.sortedTag_exact`: the sorted tag in full, and elements that compare equal.
-/

namespace Markup

theorem AttributeName.ofSpelling?_eq_some_iff {text : String} {a : AttributeName} :
    AttributeName.ofSpelling? text = some a ↔ a.spelling = text := by
  constructor
  · intro h
    have hfound := List.find?_some h
    exact of_decide_eq_true hfound
  · rintro rfl
    exact a.ofSpelling?_spelling

theorem AttributeName.spelling_injective : Function.Injective AttributeName.spelling := by
  intro a b h
  exact Option.some.inj (a.ofSpelling?_spelling.symm.trans (h ▸ b.ofSpelling?_spelling))

/-- Lists of the same members in one strict order are equal. -/
theorem eq_of_mem_iff_of_pairwise {α : Type} {r : α → α → Prop} (hr : ∀ {x y}, r x y → ¬ r y x)
    {l m : List α} (hl : l.Pairwise r) (hm : m.Pairwise r) (h : ∀ x, x ∈ l ↔ x ∈ m) : l = m := by
  have hne {x y : α} (hxy : r x y) : x ≠ y := by
    rintro rfl
    exact hr hxy hxy
  have hperm : l.Perm m := (List.perm_ext_iff_of_nodup (hl.imp hne) (hm.imp hne)).mpr h
  exact hperm.eq_of_pairwise (fun _ _ _ _ hxy hyx => absurd hyx (hr hxy)) hl hm

/-- Of pairs with different keys, all are in the map that they are put into, besides what was there
under other keys. -/
theorem getElem?_foldl_insert {pairs : List (String × String)}
    (hkeys : (pairs.map Prod.fst).Nodup) (m : Std.ExtTreeMap String String)
    {key value : String} :
    (pairs.foldl (fun m pair => m.insert pair.1 pair.2) m)[key]? = some value ↔
      (key, value) ∈ pairs ∨ key ∉ pairs.map Prod.fst ∧ m[key]? = some value := by
  induction pairs generalizing m with
  | nil => simp
  | cons pair pairs ih =>
    rw [List.map_cons, List.nodup_cons] at hkeys
    obtain ⟨hfirst, hrest⟩ := hkeys
    rw [List.foldl_cons, ih hrest, List.map_cons, Std.ExtTreeMap.getElem?_insert]
    simp only [Std.LawfulEqCmp.compare_eq_iff_eq, List.mem_cons, Prod.ext_iff]
    by_cases hkey : pair.1 = key
    · -- no pair behind the first one has its key
      have hnot : (key, value) ∉ pairs := fun hmem =>
        hfirst (hkey ▸ List.mem_map_of_mem (f := Prod.fst) hmem)
      simp [← hkey, hfirst, hkey ▸ hnot, eq_comm]
    · simp [hkey, Ne.symm hkey]

namespace Element

/-- What an element shows under a name: the custom attribute with that key, or else the known
attribute that is spelled so. -/
def valueOf? (e : Element) (name : String) : Option String :=
  match e.custom? name with
  | some value => some value
  | none => (AttributeName.ofSpelling? name).bind e.attribute?

theorem valueOf?_eq_some_iff {e : Element} {name value : String} :
    e.valueOf? name = some value ↔ e.custom? name = some value ∨
      e.custom? name = none ∧
        ∃ a : AttributeName, a.spelling = name ∧ e.attribute? a = some value := by
  unfold valueOf?
  cases e.custom? name with
  | some custom => simp
  | none => simp [Option.bind_eq_some_iff, AttributeName.ofSpelling?_eq_some_iff]

/-- An element shows something under the names of its known attributes and under its custom keys. -/
theorem isSome_valueOf?_iff {e : Element} {name : String} :
    (e.valueOf? name).isSome = true ↔
      (∃ a : AttributeName, a.spelling = name ∧ e.hasAttribute a = true) ∨
        (e.custom? name).isSome = true := by
  unfold valueOf?
  cases e.custom? name with
  | some custom => simp
  | none =>
    simp only [hasAttribute, Option.isSome_bind, Option.any_eq_true,
      AttributeName.ofSpelling?_eq_some_iff, Option.isSome_none, Bool.false_eq_true, or_false]

/-- The attributes that an element shows, each once, by the bytes of its name. -/
structure ListsByName (e : Element) (pairs : List (String × String)) : Prop where
  mem : ∀ {name value}, (name, value) ∈ pairs ↔ e.valueOf? name = some value
  sorted : pairs.Pairwise fun x y => utf8 x.1 < utf8 y.1

/-! ## One list of either kind -/

variable {e : Element} {known : List (AttributeName × String)}
  {custom pairs pairs' : List (String × String)}

theorem Lists.eq_toList (h : e.Lists known custom) :
    known = e.known.toList ∧ custom = e.custom.toList := by
  have hlists := e.lists_toList
  constructor
  · refine eq_of_mem_iff_of_pairwise Nat.lt_asymm h.known_sorted hlists.known_sorted ?_
    rintro ⟨a, value⟩
    rw [h.mem_known, hlists.mem_known]
  · refine eq_of_mem_iff_of_pairwise (fun h => ?_) h.custom_sorted hlists.custom_sorted ?_
    · rw [← utf8_lt_iff] at h ⊢
      exact List.lt_asymm h
    · rintro ⟨key, value⟩
      rw [h.mem_custom, hlists.mem_custom]

theorem ListsByName.unique (h : e.ListsByName pairs) (h' : e.ListsByName pairs') :
    pairs = pairs' := by
  refine eq_of_mem_iff_of_pairwise List.lt_asymm h.sorted h'.sorted ?_
  rintro ⟨name, value⟩
  rw [h.mem, h'.mem]

/-! ## The list of the sorted tag -/

theorem mem_knownPairs_iff {name value : String} :
    (name, value) ∈ e.knownPairs ↔
      ∃ a : AttributeName, a.spelling = name ∧ e.attribute? a = some value := by
  simp only [knownPairs, List.mem_map, Prod.mk.injEq, Prod.exists]
  constructor
  · rintro ⟨a, v, hmem, rfl, rfl⟩
    exact ⟨a, rfl, e.lists_toList.mem_known.mp hmem⟩
  · rintro ⟨a, rfl, h⟩
    exact ⟨a, value, e.lists_toList.mem_known.mpr h, rfl, rfl⟩

theorem nodup_knownKeys (e : Element) : (e.knownPairs.map Prod.fst).Nodup := by
  have hnodup := Std.ExtTreeMap.nodup_keys (t := e.known)
  rw [← Std.ExtTreeMap.map_fst_toList_eq_keys] at hnodup
  have hspelled := hnodup.map AttributeName.spelling_injective
  rw [List.map_map] at hspelled
  rw [knownPairs, List.map_map]
  exact hspelled

theorem custom?_eq_none_iff {name : String} :
    e.custom? name = none ↔ name ∉ e.custom.toList.map Prod.fst := by
  rw [Std.ExtTreeMap.map_fst_toList_eq_keys, Std.ExtTreeMap.mem_keys,
    Std.ExtTreeMap.mem_iff_isSome_getElem?, custom?, Bool.not_eq_true, Option.isSome_eq_false_iff,
    Option.isNone_iff_eq_none]

theorem custom_isEmpty_iff : e.custom.isEmpty = true ↔ ∀ key, e.custom? key = none := by
  rw [← Std.ExtTreeMap.isEmpty_toList, List.isEmpty_iff, ← List.map_eq_nil_iff (f := Prod.fst),
    List.eq_nil_iff_forall_not_mem]
  exact forall_congr' fun _ => custom?_eq_none_iff.symm

/-- Under every name there is what the element shows. -/
theorem getElem?_byName (e : Element) {name value : String} :
    e.byName[name]? = some value ↔ e.valueOf? name = some value := by
  have hcustom : (e.custom.toList.map Prod.fst).Nodup := by
    rw [Std.ExtTreeMap.map_fst_toList_eq_keys]
    exact Std.ExtTreeMap.nodup_keys
  rw [byName, compactPairs, List.foldl_append, getElem?_foldl_insert hcustom,
    getElem?_foldl_insert e.nodup_knownKeys, e.lists_toList.mem_custom, mem_knownPairs_iff,
    ← custom?_eq_none_iff, valueOf?_eq_some_iff]
  simp

theorem listsByName_byName (e : Element) : e.ListsByName e.byName.toList where
  mem := by
    intro name value
    rw [Std.ExtTreeMap.mem_toList_iff_getElem?_eq_some, getElem?_byName]
  sorted := by
    refine (Std.ExtTreeMap.ordered_keys_toList (t := e.byName)).imp fun {x y} h => ?_
    exact utf8_lt_iff.mpr (compareOfLessAndEq_eq_lt.mp h)

/-- The sorted tag lists what the element shows under its names. -/
theorem mem_sortedPairs_iff {name value : String} :
    (name, value) ∈ e.sortedPairs ↔ e.valueOf? name = some value := by
  rw [sortedPairs]
  split
  · next hnone => simp [mem_knownPairs_iff, valueOf?_eq_some_iff, custom_isEmpty_iff.mp hnone]
  · exact e.listsByName_byName.mem

theorem sortedTag_of_known (hnone : ∀ key, e.custom? key = none) :
    e.sortedTag = e.openTag e.known.toList [] := by
  rw [sortedTag, tagWith, sortedPairs, if_pos (custom_isEmpty_iff.mpr hnone), knownPairs,
    List.map_map]
  simp only [openTag, String.append_assoc]
  rfl

theorem sortedTag_of_custom {key value : String} (hcustom : e.custom? key = some value) :
    e.sortedTag = e.openTag [] e.byName.toList := by
  have hsome : ¬ e.custom.isEmpty = true := fun hempty => by
    rw [custom_isEmpty_iff.mp hempty] at hcustom
    cases hcustom
  rw [sortedTag, tagWith, sortedPairs, if_neg hsome]
  simp [openTag, String.append_assoc]

/-! ## Elements that compare equal -/

/-- Elements compare equal if every attribute has the same value in both. -/
theorem sameAs_iff_lookups {a b : Element} :
    a.sameAs b = true ↔ a.name = b.name ∧ (∀ n, a.attribute? n = b.attribute? n) ∧
      ∀ key, a.custom? key = b.custom? key := by
  simp only [sameAs, Bool.and_eq_true, decide_eq_true_eq, and_assoc]
  refine and_congr_right fun _ => and_congr ⟨?_, ?_⟩ ⟨?_, ?_⟩
  · exact fun h n => by rw [attribute?, attribute?, h]
  · exact fun h => Std.ExtTreeMap.ext_getElem? h
  · exact fun h key => by rw [custom?, custom?, h]
  · exact fun h => Std.ExtTreeMap.ext_getElem? h

/-- **The sorted tag lists every attribute once and in order.** Without custom attributes it lists
the known ones, by ordinal; with one it lists all names that are known or custom, by bytes, and the
custom value where there are two; and no other list would do. Elements that compare equal have the
same tags, whatever was done to them before, and whether they remember a tag or not. -/
theorem sortedTag_exact :
    (∀ e : Element, (∀ key, e.custom? key = none) →
      ∃ known, (∀ l, e.Lists l [] ↔ l = known) ∧ e.sortedTag = e.openTag known []) ∧
    (∀ e : Element, (∃ key value, e.custom? key = some value) →
      ∃ pairs, (∀ l, e.ListsByName l ↔ l = pairs) ∧ e.sortedTag = e.openTag [] pairs ∧
        ∀ name, (∃ value, (name, value) ∈ pairs) ↔
          (∃ a : AttributeName, a.spelling = name ∧ e.hasAttribute a = true) ∨
            (e.custom? name).isSome = true) ∧
    (∀ a b : Element,
      (a.sameAs b = true ↔ a.name = b.name ∧ (∀ n, a.attribute? n = b.attribute? n) ∧
        ∀ key, a.custom? key = b.custom? key) ∧
      (a.sameAs b = true → a.sortedTag = b.sortedTag ∧ a.compactTag = b.compactTag)) ∧
    ∀ f g, Reachable f → Reachable g → ∀ h k a b,
      f.element? h = some a → g.element? k = some b → a.sameAs b = true →
      a.currentTag = b.currentTag := by
  refine ⟨fun e hnone => ?_, fun e ⟨key, value, hcustom⟩ => ?_,
    fun a b => ⟨sameAs_iff_lookups, fun hsame => ?_⟩, fun f g hf hg h k a b ha hb hsame => ?_⟩
  · have hnil : e.custom.toList = [] := by
      rw [← List.isEmpty_iff, Std.ExtTreeMap.isEmpty_toList]
      exact custom_isEmpty_iff.mpr hnone
    refine ⟨e.known.toList, fun l => ⟨fun hl => hl.eq_toList.1, ?_⟩, sortedTag_of_known hnone⟩
    rintro rfl
    exact hnil ▸ e.lists_toList
  · have hlists := e.listsByName_byName
    refine ⟨e.byName.toList, fun l => ⟨fun hl => hl.unique hlists, fun h => h ▸ hlists⟩,
      sortedTag_of_custom hcustom, fun name => ?_⟩
    simp only [hlists.mem, ← Option.isSome_iff_exists, isSome_valueOf?_iff]
  · have hforget := (sameAs_iff a b).mp hsame
    exact ⟨sortedTag_congr hforget, compactTag_congr hforget⟩
  · obtain ⟨c, hc, hca⟩ := Option.bind_eq_some_iff.mp ha
    obtain ⟨d, hd, hdb⟩ := Option.bind_eq_some_iff.mp hb
    rw [(hf.tagCurrent hc a hca).currentTag_eq, (hg.tagCurrent hd b hdb).currentTag_eq]
    exact compactTag_congr ((sameAs_iff a b).mp hsame)

/-- A link with a custom attribute that is spelled like a known one: once as a copy that remembers
its tag, and once after detours. -/
theorem sortedTag_exact_of_histories :
    let f := Forest.empty.run [.create (.element .a), .editAttributes ⟨0, 0⟩ (.setCustom "id" "<"),
      .editElement ⟨0, 0⟩ (.set .id "k"), .editAttributes ⟨0, 0⟩ (.set .href "x"), .copy ⟨0, 0⟩]
    let g := Forest.empty.run [.create (.element .a), .editAttributes ⟨0, 0⟩ (.set .href "y"),
      .editAttributes ⟨0, 0⟩ (.setCustoms [("é", "1"), ("id", "<")]),
      .editAttributes ⟨0, 0⟩ (.set .href "x"), .editAttributes ⟨0, 0⟩ (.removeCustom "é"),
      .editAttributes ⟨0, 0⟩ (.set .id "k")]
    let e := (ofName .body).edit (.setFlag .onload true)
    ∃ a b, f.element? ⟨1, 0⟩ = some a ∧ g.element? ⟨0, 0⟩ = some b ∧
      a.cachedTag = some "<a href=\"x\" id=\"k\" id=\"&lt;\">" ∧ b.cachedTag = none ∧
      b.sortedTag = "<a href=\"x\" id=\"&lt;\">" ∧ a.sortedTag = b.sortedTag ∧
      a.currentTag = b.currentTag ∧
      (∃ pairs, (∀ l, b.ListsByName l ↔ l = pairs) ∧ b.sortedTag = b.openTag [] pairs) ∧
      ∃ known, (∀ l, e.Lists l [] ↔ l = known) ∧ e.sortedTag = e.openTag known [] := by
  intro f g e
  obtain ⟨hknown, hcustom, hequal, hcurrent⟩ := sortedTag_exact
  have hnone : ∀ key, e.custom? key = none := custom_isEmpty_iff.mp (by decide)
  refine ⟨_, _, rfl, rfl, by decide, by decide, by decide, ?_⟩
  refine ⟨((hequal _ _).2 (by decide)).1, ?_, ?_, hknown e hnone⟩
  · exact hcurrent f g (Reachable.empty.run _) (Reachable.empty.run _) ⟨1, 0⟩ ⟨0, 0⟩ _ _ rfl rfl
      (by decide)
  · obtain ⟨pairs, hpairs, htag, -⟩ :=
      hcustom ((g.element? ⟨0, 0⟩).get rfl) ⟨"id", "<", by decide⟩
    exact ⟨pairs, hpairs, htag⟩

end Element

end Markup

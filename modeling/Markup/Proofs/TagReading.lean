import Markup.Proofs.SafeExpansion
import Markup.Proofs.SortedTags

/-!
# Reading tags back

An open tag tells what it was made from. The name goes up to the first character that is no letter
and no digit. Behind it an attribute goes up to its second quote: none is in the key, and none is in
the written form of the value, whatever the value is. So a value neither ends its attribute early
nor passes for another attribute or for another value. Keys are not escaped, so this is said of
elements whose custom keys have no quote.

* `Element.attributeText_append_inj`: an attribute ends where it ends, whatever follows.
* `Element.tagWith_inj`: a tag tells the name and the list of attributes, in any order of these.
* `Element.tags_readable`: so the sorted tag tells what an element shows under every name, and the
  compact tag tells all attributes.
-/

namespace Markup

theorem ElementName.spelling_injective : Function.Injective ElementName.spelling := by
  intro m n h
  exact Option.some.inj (m.ofSpelling?_spelling.symm.trans (h ▸ n.ofSpelling?_spelling))

/-- The name of an element has letters and digits only. -/
theorem ElementName.isAlphanum_of_mem_spelling (n : ElementName) {c : Char}
    (hc : c ∈ n.spelling.toList) : c.isAlphanum = true := by
  have hall : ∀ n ∈ ElementName.all, n.spelling.toList.all Char.isAlphanum = true := by
    decide +kernel
  exact List.all_eq_true.mp (hall n n.mem_all) c hc

theorem AttributeName.quote_not_mem_spelling (a : AttributeName) : '"' ∉ a.spelling.toList := by
  have hall : ∀ a ∈ AttributeName.all, '"' ∉ a.spelling.toList := by decide +kernel
  exact hall a a.mem_all

/-- Two texts that go on with the same character behind parts without it have the same parts. -/
theorem append_cons_inj_of_not_mem {c : Char} {x y a b : List Char} (hx : c ∉ x) (hy : c ∉ y)
    (h : x ++ c :: a = y ++ c :: b) : x = y ∧ a = b := by
  rcases List.append_eq_append_iff.mp h with ⟨e, rfl, he⟩ | ⟨e, rfl, he⟩
  · cases e with
    | nil => exact ⟨(List.append_nil x).symm, (List.cons.inj he).2⟩
    | cons d e =>
      obtain ⟨rfl, -⟩ := List.cons.inj he
      exact absurd (List.mem_append_right x List.mem_cons_self) hy
  · cases e with
    | nil => exact ⟨List.append_nil y, (List.cons.inj he).2.symm⟩
    | cons d e =>
      obtain ⟨rfl, -⟩ := List.cons.inj he
      exact absurd (List.mem_append_right y List.mem_cons_self) hx

namespace Element

/-- No key in the list has a quote. -/
def KeysUnquoted (pairs : List (String × String)) : Prop := ∀ pair ∈ pairs, '"' ∉ pair.1.toList

instance (pairs : List (String × String)) : Decidable (KeysUnquoted pairs) :=
  inferInstanceAs (Decidable (∀ pair ∈ pairs, _))

/-! ## Attributes -/

theorem toList_attributeText_append (pair : String × String) (rest : String) :
    (attributeText pair ++ rest).toList =
      (' ' :: pair.1.toList ++ ['=']) ++
        '"' :: ((escape pair.2).toList ++ '"' :: rest.toList) := by
  simp [attributeText]

/-- What is in front of the first quote tells the key, and what is between the quotes the value. -/
theorem attributeText_append_inj {p q : String × String} (hp : '"' ∉ p.1.toList)
    (hq : '"' ∉ q.1.toList) {a b : String} (h : attributeText p ++ a = attributeText q ++ b) :
    p = q ∧ a = b := by
  have hfront {key : String} (hkey : '"' ∉ key.toList) : '"' ∉ ' ' :: key.toList ++ ['='] := by
    simp [hkey]
  have hvalue (value : String) : '"' ∉ (escape value).toList := not_mem_escape (by decide)
  have hchars := congrArg String.toList h
  rw [toList_attributeText_append, toList_attributeText_append] at hchars
  obtain ⟨hkeys, hrest⟩ := append_cons_inj_of_not_mem (hfront hp) (hfront hq) hchars
  obtain ⟨hvalues, hbehind⟩ := append_cons_inj_of_not_mem (hvalue p.2) (hvalue q.2) hrest
  have hkey : p.1.toList = q.1.toList := by simpa using hkeys
  exact ⟨Prod.ext (String.toList_inj.mp hkey) (escape_injective (String.toList_inj.mp hvalues)),
    String.toList_inj.mp hbehind⟩

/-- Attributes side by side tell their list. -/
theorem attributes_inj {pairs pairs' : List (String × String)} (hp : KeysUnquoted pairs)
    (hp' : KeysUnquoted pairs')
    (h : String.join (pairs.map attributeText) = String.join (pairs'.map attributeText)) :
    pairs = pairs' := by
  have hne (pair : String × String) (rest : String) : "" ≠ attributeText pair ++ rest := by
    intro hempty
    have hchars := congrArg String.toList hempty
    rw [toList_attributeText_append] at hchars
    cases hchars
  induction pairs generalizing pairs' with
  | nil =>
    cases pairs' with
    | nil => rfl
    | cons q rest =>
      rw [List.map_cons, String.join_cons] at h
      exact absurd h (hne q _)
  | cons p pairs ih =>
    cases pairs' with
    | nil =>
      rw [List.map_cons, String.join_cons] at h
      exact absurd h.symm (hne p _)
    | cons q rest =>
      rw [List.map_cons, List.map_cons, String.join_cons, String.join_cons] at h
      obtain ⟨hfirst, hpairs⟩ := List.forall_mem_cons.mp hp
      obtain ⟨hfirst', hrest⟩ := List.forall_mem_cons.mp hp'
      obtain ⟨rfl, hbehind⟩ := attributeText_append_inj hfirst hfirst' h
      rw [ih hpairs hrest hbehind]

/-! ## Tags -/

variable {a b : Element} {pairs pairs' : List (String × String)}

/-- The text of a tag behind the name. -/
def behindName (e : Element) (pairs : List (String × String)) : String :=
  String.join (pairs.map attributeText) ++ if e.isVoid then " />" else ">"

theorem toList_tagWith (e : Element) (pairs : List (String × String)) :
    (e.tagWith pairs).toList =
      '<' :: (e.name.spelling.toList ++ (e.behindName pairs).toList) := by
  simp [tagWith, behindName]

/-- The name of a tag ends with a character that no name has. -/
theorem takeWhile_tagWith (e : Element) (pairs : List (String × String)) :
    ((e.tagWith pairs).toList.drop 1).takeWhile Char.isAlphanum = e.name.spelling.toList := by
  have hstop : (e.behindName pairs).toList.takeWhile Char.isAlphanum = [] := by
    cases pairs with
    | nil =>
      rw [behindName]
      cases e.isVoid <;> decide
    | cons pair rest =>
      rw [behindName, List.map_cons, String.join_cons, String.append_assoc,
        toList_attributeText_append]
      rfl
  rw [toList_tagWith, List.drop_one, List.tail_cons,
    List.takeWhile_append_of_pos fun _ => e.name.isAlphanum_of_mem_spelling, hstop, List.append_nil]

/-- A tag tells the name and the list of attributes. -/
theorem tagWith_inj (hp : KeysUnquoted pairs) (hp' : KeysUnquoted pairs')
    (h : a.tagWith pairs = b.tagWith pairs') : a.name = b.name ∧ pairs = pairs' := by
  have hspelling := a.takeWhile_tagWith pairs
  rw [h, takeWhile_tagWith] at hspelling
  have hname : a.name = b.name :=
    ElementName.spelling_injective (String.toList_inj.mp hspelling).symm
  have hchars := congrArg String.toList h
  rw [toList_tagWith, toList_tagWith, hname, List.cons_inj_right,
    List.append_cancel_left_eq, String.toList_inj] at hchars
  have hvoid : a.isVoid = b.isVoid := congrArg ElementName.isVoid hname
  rw [behindName, behindName, hvoid, String.append_left_inj] at hchars
  exact ⟨hname, attributes_inj hp hp' hchars⟩

/-! ## Elements -/

theorem keysUnquoted_knownPairs (e : Element) : KeysUnquoted e.knownPairs := by
  rintro ⟨name, value⟩ hmem
  obtain ⟨n, rfl, -⟩ := mem_knownPairs_iff.mp hmem
  exact n.quote_not_mem_spelling

theorem keysUnquoted_compactPairs {e : Element} (he : KeysUnquoted e.custom.toList) :
    KeysUnquoted e.compactPairs := by
  intro pair hmem
  rcases List.mem_append.mp hmem with hknown | hcustom
  · exact e.keysUnquoted_knownPairs pair hknown
  · exact he pair hcustom

theorem keysUnquoted_sortedPairs {e : Element} (he : KeysUnquoted e.custom.toList) :
    KeysUnquoted e.sortedPairs := by
  rintro ⟨name, value⟩ hmem
  rcases valueOf?_eq_some_iff.mp (mem_sortedPairs_iff.mp hmem) with hcustom | ⟨-, n, rfl, -⟩
  · exact he (name, value) (e.lists_toList.mem_custom.mpr hcustom)
  · exact n.quote_not_mem_spelling

/-- **An open tag can be read back.** If no custom key has a quote, elements with one sorted tag
have one name and show the same under every name, and elements with one compact tag have one name
and one list of attributes. Values may be any texts. -/
theorem tags_readable (ha : KeysUnquoted a.custom.toList) (hb : KeysUnquoted b.custom.toList) :
    (a.sortedTag = b.sortedTag → a.name = b.name ∧ ∀ name, a.valueOf? name = b.valueOf? name) ∧
      (a.compactTag = b.compactTag → a.name = b.name ∧ a.compactPairs = b.compactPairs) := by
  constructor
  · intro h
    obtain ⟨hname, hpairs⟩ :=
      tagWith_inj (keysUnquoted_sortedPairs ha) (keysUnquoted_sortedPairs hb) h
    refine ⟨hname, fun name => Option.ext fun value => ?_⟩
    rw [← mem_sortedPairs_iff, ← mem_sortedPairs_iff, hpairs]
  · exact tagWith_inj (keysUnquoted_compactPairs ha) (keysUnquoted_compactPairs hb)

/-- A value that looks like the rest of a tag, under a known attribute in one element and under a
custom one of that name in the other. -/
theorem tags_readable_of_link :
    let a := ((ofName .a).edit (.set .href "\" id=\"&")).edit (.setCustom "x>y= z" "'")
    let b := ((ofName .a).edit (.setCustom "x>y= z" "'")).edit (.setCustom "href" "\" id=\"&")
    a.sameAs b = false ∧ a.sortedTag = "<a href=\"&#34; id=&#34;&amp;\" x>y= z=\"&#39;\">" ∧
      KeysUnquoted a.custom.toList ∧ KeysUnquoted b.custom.toList ∧
      a.sortedTag = b.sortedTag ∧ a.compactTag = b.compactTag ∧ a.name = b.name ∧
      (∀ name, a.valueOf? name = b.valueOf? name) ∧ a.compactPairs = b.compactPairs := by
  intro a b
  have ha : KeysUnquoted a.custom.toList := by decide
  have hb : KeysUnquoted b.custom.toList := by decide
  have hsorted : a.sortedTag = b.sortedTag := by decide
  have hcompact : a.compactTag = b.compactTag := by decide
  obtain ⟨hname, hvalue⟩ := (tags_readable ha hb).1 hsorted
  exact ⟨by decide, by decide, ha, hb, hsorted, hcompact, hname, hvalue,
    ((tags_readable ha hb).2 hcompact).2⟩

/-- A key with quotes passes for a key and a value. -/
example :
    let a := (ofName .p).edit (.setCustom "x=\"1\" y" "2")
    let b := (ofName .p).edit (.setCustoms [("x", "1"), ("y", "2")])
    a.compactTag = b.compactTag ∧ a.valueOf? "x" ≠ b.valueOf? "x" := by decide

end Element

end Markup

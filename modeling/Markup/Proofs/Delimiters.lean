import Markup.Proofs.Expansion
import Markup.Proofs.Listings

/-!
# Delimiters

A reader of the output finds tags and values by `<`, `>` and the two quotes. These delimiters come
from names and keys alone: the value of an attribute is escaped when its tag is written, and what a
template shows is escaped when it is expanded. So tokens that differ in values and texts only have
the same delimiters. In compact output that takes the keys with delimiters in the same order; in
another order the delimiters are the same in another order.

* `delimiters`: the delimiters in a text, in order.
* `Element.Alike.delimiters_tag`, `Element.Alike.delimiters_sortedTag`: the values of attributes do
  not show in the delimiters of a tag.
* `Element.Alike.exists_listing`: nor do they in the orders that the keys can have.
* `Template.delimiters_portionsOf`: a template that is not raw has none.
* `delimiters_compact`, `delimiters_pretty`: the delimiters of tokens that are alike.
-/

namespace Markup

/-- The delimiters in a text, in order. -/
def delimiters (text : String) : List Char := text.toList.filter isDelimiter

@[simp] theorem delimiters_append (a b : String) :
    delimiters (a ++ b) = delimiters a ++ delimiters b := by
  rw [delimiters, String.toList_append, List.filter_append]
  rfl

@[simp] theorem delimiters_escape (text : String) : delimiters (escape text) = [] :=
  List.filter_eq_nil_iff.mpr fun _ hc hd => not_mem_escape hd hc

theorem delimiters_join (texts : List String) :
    delimiters (String.join texts) = texts.flatMap delimiters := by
  induction texts with
  | nil => rfl
  | cons t texts ih => rw [String.join_cons, delimiters_append, ih, List.flatMap_cons]

/-- Texts without a delimiter have none when they are joined. -/
theorem delimiters_join_eq_nil {texts : List String} (h : ∀ s ∈ texts, delimiters s = []) :
    delimiters (String.join texts) = [] := by
  rw [delimiters_join]
  exact List.flatMap_eq_nil_iff.mpr h

/-! ## Tags -/

/-- Maps with the same keys list them in the same order. -/
theorem keys_eq_of_mem_iff {α : Type} {cmp : α → α → Ordering} [Std.TransCmp cmp]
    [Std.LawfulEqCmp cmp] {m m' : Std.ExtTreeMap α String cmp} (h : ∀ a, a ∈ m ↔ a ∈ m') :
    m.keys = m'.keys := by
  -- without their values the maps are equal
  have hmap : m.map (fun _ _ => ()) = m'.map fun _ _ => () := by
    refine Std.ExtTreeMap.ext_getElem? fun {a} => ?_
    rw [Std.ExtTreeMap.getElem?_map, Std.ExtTreeMap.getElem?_map]
    have ha := h a
    rw [Std.ExtTreeMap.mem_iff_isSome_getElem?, Std.ExtTreeMap.mem_iff_isSome_getElem?] at ha
    cases hm : m[a]? <;> cases hm' : m'[a]? <;> simp_all
  rw [← Std.ExtTreeMap.keys_map (f := fun _ _ => ()), hmap, Std.ExtTreeMap.keys_map]

namespace Element

/-- The same name and the same attributes, but for their values. -/
structure Alike (e d : Element) : Prop where
  name_eq : e.name = d.name
  known_iff : ∀ a, a ∈ e.known ↔ a ∈ d.known
  custom_iff : ∀ key, key ∈ e.custom ↔ key ∈ d.custom

/-- The delimiters of an attribute are those of its key and the quotes around its value. -/
theorem delimiters_attributeText (pair : String × String) :
    delimiters (attributeText pair) = delimiters pair.1 ++ ['"', '"'] := by
  have hspace : delimiters " " = [] := rfl
  have hequals : delimiters "=\"" = ['"'] := rfl
  have hquote : delimiters "\"" = ['"'] := rfl
  simp [attributeText, hspace, hequals, hquote]

/-- The delimiters of keys, key by key. -/
def keyMarks (pairs : List (String × String)) : List (List Char) :=
  pairs.map fun pair => delimiters pair.1

theorem keyMarks_congr {pairs pairs' : List (String × String)}
    (hkeys : pairs.map Prod.fst = pairs'.map Prod.fst) : keyMarks pairs = keyMarks pairs' := by
  have hmarks := congrArg (List.map delimiters) hkeys
  rwa [List.map_map, List.map_map] at hmarks

theorem delimiters_attributes (pairs : List (String × String)) :
    delimiters (String.join (pairs.map attributeText)) =
      (keyMarks pairs).flatMap (· ++ ['"', '"']) := by
  rw [delimiters_join, keyMarks, List.flatMap_map, List.flatMap_map]
  exact congrArg (List.flatMap · pairs) (funext delimiters_attributeText)

/-- The delimiters of a tag depend on the name and on the keys. -/
theorem delimiters_tagWith {e d : Element} {pairs pairs' : List (String × String)}
    (hname : e.name = d.name) (hmarks : keyMarks pairs = keyMarks pairs') :
    delimiters (e.tagWith pairs) = delimiters (d.tagWith pairs') := by
  have hvoid : e.isVoid = d.isVoid := congrArg ElementName.isVoid hname
  rw [tagWith, tagWith, hvoid, hname]
  simp only [delimiters_append, delimiters_attributes, hmarks]

/-- Attributes in another order have the same delimiters in another order. -/
theorem delimiters_tagWith_perm (e : Element) {pairs pairs' : List (String × String)}
    (h : pairs.Perm pairs') :
    (delimiters (e.tagWith pairs)).Perm (delimiters (e.tagWith pairs')) := by
  simp only [tagWith, delimiters_append, delimiters_attributes]
  exact (((h.map _).flatMap_right _).append_left _).append_right _

theorem mem_byName (e : Element) (key : String) :
    key ∈ e.byName ↔ key ∈ e.compactPairs.map Prod.fst := by
  have hfold : ∀ (pairs : List (String × String)) (m : Std.ExtTreeMap String String),
      key ∈ pairs.foldl (fun merged pair => merged.insert pair.1 pair.2) m ↔
        key ∈ m ∨ key ∈ pairs.map Prod.fst := by
    intro pairs
    induction pairs with
    | nil => simp
    | cons pair pairs ih =>
      intro m
      rw [List.foldl_cons, ih, Std.ExtTreeMap.mem_insert, List.map_cons, List.mem_cons,
        Std.LawfulEqCmp.compare_eq_iff_eq, eq_comm, or_assoc, or_left_comm]
  rw [byName, hfold]
  simp

namespace Alike

variable {e d : Element}

theorem symm (h : e.Alike d) : d.Alike e :=
  ⟨h.name_eq.symm, fun a => (h.known_iff a).symm, fun key => (h.custom_iff key).symm⟩

theorem closeTag_eq (h : e.Alike d) : closeTag e = closeTag d := by
  have hvoid : e.isVoid = d.isVoid := congrArg ElementName.isVoid h.name_eq
  rw [closeTag, closeTag, hvoid, h.name_eq]

theorem knownKeys_eq (h : e.Alike d) :
    e.knownPairs.map Prod.fst = d.knownPairs.map Prod.fst := by
  have hkeys : e.known.keys = d.known.keys := keys_eq_of_mem_iff h.known_iff
  rw [← Std.ExtTreeMap.map_fst_toList_eq_keys, ← Std.ExtTreeMap.map_fst_toList_eq_keys] at hkeys
  have hspelled := congrArg (List.map AttributeName.spelling) hkeys
  rw [List.map_map, List.map_map] at hspelled
  rw [knownPairs, knownPairs, List.map_map, List.map_map]
  exact hspelled

theorem compactKeys_eq (h : e.Alike d) :
    e.compactPairs.map Prod.fst = d.compactPairs.map Prod.fst := by
  rw [compactPairs, compactPairs, List.map_append, List.map_append, h.knownKeys_eq,
    Std.ExtTreeMap.map_fst_toList_eq_keys, Std.ExtTreeMap.map_fst_toList_eq_keys,
    keys_eq_of_mem_iff h.custom_iff]

theorem sortedKeys_eq (h : e.Alike d) :
    e.sortedPairs.map Prod.fst = d.sortedPairs.map Prod.fst := by
  have hempty : e.custom.isEmpty = d.custom.isEmpty := by
    rw [← Std.ExtTreeMap.isEmpty_keys, keys_eq_of_mem_iff h.custom_iff, Std.ExtTreeMap.isEmpty_keys]
  have hbyName : e.byName.keys = d.byName.keys := keys_eq_of_mem_iff fun key => by
    rw [mem_byName, mem_byName, h.compactKeys_eq]
  rw [sortedPairs, sortedPairs, hempty]
  split
  · exact h.knownKeys_eq
  · rw [Std.ExtTreeMap.map_fst_toList_eq_keys, Std.ExtTreeMap.map_fst_toList_eq_keys, hbyName]

theorem delimiters_sortedTag (h : e.Alike d) : delimiters e.sortedTag = delimiters d.sortedTag :=
  delimiters_tagWith h.name_eq (keyMarks_congr h.sortedKeys_eq)

end Alike

end Element

/-! ## Tags in any order -/

theorem AttributeName.delimiters_spelling (a : AttributeName) : delimiters a.spelling = [] := by
  have hall : ∀ a ∈ AttributeName.all, delimiters a.spelling = [] := by decide +kernel
  exact hall a a.mem_all

namespace Element

/-- The delimiters of the custom keys, key by key. The known ones have none. -/
def Listing.marks {e : Element} (l : e.Listing) : List (List Char) := keyMarks l.custom

theorem Listing.keyMarks_pairs {e : Element} (l : e.Listing) :
    keyMarks l.pairs = List.replicate l.known.length [] ++ l.marks := by
  rw [keyMarks, pairs, List.map_append, List.map_map, ← List.map_const']
  exact congrArg (· ++ l.marks)
    (List.map_congr_left fun pair _ => pair.1.delimiters_spelling)

/-- Another order of the attributes gives another order of the delimiters. -/
theorem Listing.delimiters_tag_perm {e : Element} (l l' : e.Listing) :
    (delimiters l.tag).Perm (delimiters l'.tag) := by
  refine e.delimiters_tagWith_perm (List.Perm.append (List.Perm.map _ ?_) ?_)
  · exact l.known_perm.trans l'.known_perm.symm
  · exact l.custom_perm.trans l'.custom_perm.symm

namespace Alike

variable {e d : Element}

/-- There are as many known attributes. -/
theorem length_known (h : e.Alike d) (l : e.Listing) (l' : d.Listing) :
    l.known.length = l'.known.length := by
  have hkeys : e.known.keys = d.known.keys := keys_eq_of_mem_iff h.known_iff
  have hlength := congrArg List.length hkeys
  rw [← Std.ExtTreeMap.map_fst_toList_eq_keys, ← Std.ExtTreeMap.map_fst_toList_eq_keys,
    List.length_map, List.length_map] at hlength
  rw [l.known_perm.length_eq, l'.known_perm.length_eq, hlength]

/-- The delimiters of a tag depend on the order in which keys with delimiters come. -/
theorem delimiters_tag (h : e.Alike d) {l : e.Listing} {l' : d.Listing}
    (hmarks : l.marks = l'.marks) : delimiters l.tag = delimiters l'.tag := by
  refine delimiters_tagWith h.name_eq ?_
  rw [l.keyMarks_pairs, l'.keyMarks_pairs, h.length_known l l', hmarks]

theorem marks_canonical (h : e.Alike d) :
    (Listing.canonical e).marks = (Listing.canonical d).marks := by
  refine keyMarks_congr ?_
  rw [Listing.canonical, Listing.canonical, Std.ExtTreeMap.map_fst_toList_eq_keys,
    Std.ExtTreeMap.map_fst_toList_eq_keys, keys_eq_of_mem_iff h.custom_iff]

/-- Every order of the keys is one for both elements. -/
theorem exists_listing (h : e.Alike d) (l : e.Listing) : ∃ l' : d.Listing, l.marks = l'.marks := by
  let value (key : String) : String × String := (key, d.custom.getD key "")
  have hvalues : d.custom.toList = d.custom.keys.map value := by
    rw [← Std.ExtTreeMap.map_fst_toList_eq_keys, List.map_map]
    refine (List.map_id _).symm.trans (List.map_congr_left fun pair hpair => ?_)
    have hvalue := Std.ExtTreeMap.mem_toList_iff_getElem?_eq_some.mp hpair
    simp [value, Std.ExtTreeMap.getD_eq_getD_getElem?, hvalue]
  have hkeys : (l.custom.map Prod.fst).Perm d.custom.keys := by
    rw [← keys_eq_of_mem_iff h.custom_iff, ← Std.ExtTreeMap.map_fst_toList_eq_keys]
    exact l.custom_perm.map _
  refine ⟨⟨d.known.toList, (l.custom.map Prod.fst).map value, .refl _, ?_⟩, ?_⟩
  · rw [hvalues]
    exact hkeys.map _
  · refine keyMarks_congr ?_
    rw [List.map_map, List.map_map]
    rfl

end Alike

end Element

/-! ## Templates -/

namespace Template

variable {t : Template}

theorem delimiters_shown (ht : t.raw = false) (portion : String) :
    delimiters (t.shown portion) = [] := by
  rw [shown, ht]
  exact delimiters_escape portion

theorem delimiters_substitute (ht : t.raw = false) (env : Option Environment) (name : String) :
    delimiters (t.substitute env name) = [] := by
  unfold substitute
  split
  · next e =>
    rw [e]
    rfl
  · exact delimiters_shown ht _

/-- Neither the text of a template nor what stands for its names has a delimiter when it is
shown. -/
theorem delimiters_portionsOf (ht : t.raw = false) (env : Option Environment)
    (literal : List Char) (skip : Nat) (cs : List Char) :
    ∀ s ∈ t.portionsOf env literal skip cs, delimiters s = [] := by
  fun_induction portionsOf t env literal skip cs with
  | case1 literal skip =>
    intro s hs
    rw [List.mem_singleton.mp hs]
    exact delimiters_shown ht _
  | case2 literal skip c cs ih => exact ih
  | case3 literal cs ih =>
    rintro s (_ | ⟨_, _ | ⟨_, hs⟩⟩)
    · exact delimiters_shown ht _
    · exact delimiters_substitute ht env _
    · exact ih s hs
  | case4 literal c cs hc ih => exact ih

end Template

/-! ## Tokens -/

/-- Tokens of one sort, with elements that are alike and keys with delimiters in one order, and with
texts that have no delimiter. -/
inductive Token.Alike (ls ls' : Listings) : Token → Token → Prop where
  | openDocument {h : Handle} {e d : Element} (he : e.Alike d)
      (hmarks : (ls h e).marks = (ls' h d).marks) :
      Alike ls ls' (.openDocument h e) (.openDocument h d)
  | closeDocument {e d : Element} (he : e.Alike d) :
      Alike ls ls' (.closeDocument e) (.closeDocument d)
  | openElement {h : Handle} {e d : Element} (he : e.Alike d)
      (hmarks : (ls h e).marks = (ls' h d).marks) :
      Alike ls ls' (.openElement h e) (.openElement h d)
  | closeElement {e d : Element} (he : e.Alike d) :
      Alike ls ls' (.closeElement e) (.closeElement d)
  | openComment : Alike ls ls' .openComment .openComment
  | closeComment : Alike ls ls' .closeComment .closeComment
  | openFragment : Alike ls ls' .openFragment .openFragment
  | closeFragment : Alike ls ls' .closeFragment .closeFragment
  | leaf {portions portions' : List String} (hp : ∀ s ∈ portions, delimiters s = [])
      (hp' : ∀ s ∈ portions', delimiters s = []) :
      Alike ls ls' (.leaf portions) (.leaf portions')

namespace Token.Alike

variable {ls ls' : Listings} {t t' : Token}

/-- Compact output in the orders has the same delimiters, token by token. -/
theorem compact (h : t.Alike ls ls' t') :
    delimiters (shownIn ls (Compact.tokenPieces t)) =
      delimiters (shownIn ls' (Compact.tokenPieces t')) := by
  cases h with
  | openDocument he hmarks =>
    simp [Compact.tokenPieces, Piece.shownIn, he.delimiters_tag hmarks]
  | openElement he hmarks =>
    simp [Compact.tokenPieces, Piece.shownIn, he.delimiters_tag hmarks]
  | closeDocument he | closeElement he =>
    rw [Compact.tokenPieces, Compact.tokenPieces, he.closeTag_eq, shownIn_closeTag,
      shownIn_closeTag]
  | leaf hp hp' =>
    simp only [Compact.tokenPieces, shownIn_map_text, shownText_map_text]
    rw [delimiters_join_eq_nil hp, delimiters_join_eq_nil hp']
  | _ => rfl

/-- Pretty output has the same delimiters as well, and the same frames behind the token: whether a
line is begun depends on the nodes around and not on what they hold. -/
theorem pretty (h : t.Alike ls ls' t') (unit : Nat) (stack : List Pretty.Frame) :
    (Pretty.step unit stack t).1 = (Pretty.step unit stack t').1 ∧
      delimiters (shownText (Pretty.step unit stack t).2) =
        delimiters (shownText (Pretty.step unit stack t').2) := by
  cases h with
  | openDocument he => simp [Pretty.step, Pretty.openNode, he.delimiters_sortedTag]
  | openElement he => simp [Pretty.step, Pretty.openNode, he.delimiters_sortedTag]
  | closeDocument he | closeElement he =>
    have hvoid := congrArg ElementName.isVoid he.name_eq
    rw [Pretty.step, Pretty.step, he.closeTag_eq, Element.isVoid, Element.isVoid, hvoid]
    exact ⟨rfl, rfl⟩
  | leaf hp hp' =>
    simp [Pretty.step, delimiters_join_eq_nil hp, delimiters_join_eq_nil hp']
  | _ => exact ⟨rfl, rfl⟩

end Token.Alike

section Pieces

variable {ls ls' : Listings} {tokens tokens' : List Token}

/-- Tokens that are alike have the same delimiters in compact output. -/
theorem delimiters_compact (h : List.Forall₂ (Token.Alike ls ls') tokens tokens') :
    delimiters (shownIn ls (Compact.pieces tokens)) =
      delimiters (shownIn ls' (Compact.pieces tokens')) := by
  induction h with
  | nil => rfl
  | cons ht _ ih =>
    simp only [Compact.pieces, List.flatMap_cons, shownIn_append, delimiters_append] at ih ⊢
    rw [ht.compact, ih]

/-- And in pretty output, where the frames are the same all along. -/
theorem delimiters_pretty (h : List.Forall₂ (Token.Alike ls ls') tokens tokens') (unit : Nat)
    (stack : List Pretty.Frame) :
    delimiters (Pretty.textFrom unit stack tokens) =
      delimiters (Pretty.textFrom unit stack tokens') := by
  induction h generalizing stack with
  | nil => rfl
  | cons ht _ ih =>
    obtain ⟨hframes, htext⟩ := ht.pretty unit stack
    rw [Pretty.textFrom_cons, Pretty.textFrom_cons, delimiters_append, delimiters_append, htext,
      hframes, ih]

end Pieces

/-- Other orders of attributes give another order of the delimiters. -/
theorem delimiters_shownIn_perm (ls ls' : Listings) (pieces : List Piece) :
    (delimiters (shownIn ls pieces)).Perm (delimiters (shownIn ls' pieces)) := by
  induction pieces with
  | nil => exact .refl _
  | cons p pieces ih =>
    rw [shownIn_cons, shownIn_cons, delimiters_append, delimiters_append]
    refine List.Perm.append ?_ ih
    cases p with
    | tag h e => exact (ls h e).delimiters_tag_perm (ls' h e)
    | _ => exact .refl _

end Markup

import Markup.Proofs.References

/-!
# Templates from items

A template can be put together from items: literal text, references and dollar signs. Printed one
behind the other, the items give a text whose expansion is what the items mean, one behind the
other, as long as no literal has a `$` in it and no reference runs on into what follows. What an
environment puts in the place of a reference is not read again, whatever it looks like.

* `Template.Item.Printable`: the items are apart when they are printed.
* `Template.portionsOf_literal`, `Template.portionsOf_reference`: how reading goes on at the front
  of a text.
* `Template.expand_printed`: a printed template expands to what its items mean; so text with every
  `$` doubled expands to itself.
-/

namespace Markup

namespace Template

/-- A part of a template. -/
inductive Item where
  | literal (text : String)
  | reference (name : String)
  | dollar
deriving DecidableEq, Repr

namespace Item

/-- How the item is written in a template. -/
def printed : Item → String
  | literal text => text
  | reference name => String.singleton sigil ++ name
  | dollar => "$$"

/-- What the item stands for. -/
def meaning (env : Option Environment) : Item → String
  | literal text => text
  | reference name => Environment.lookup env name
  | dollar => "$"

/-- The items one behind the other, as they are written. -/
def print (items : List Item) : String := String.join (items.map printed)

/-- Items that are apart when they are printed. -/
inductive Printable : List Item → Prop where
  | nil : Printable []
  | literal {text : String} {items : List Item} (htext : sigil ∉ text.toList)
      (h : Printable items) : Printable (.literal text :: items)
  /-- A reference is to an identifier, and what is printed behind it does not belong to that. -/
  | reference {name : String} {items : List Item} (hname : IsIdentifier name.toList)
      (hapart : ∀ c, (print items).toList.head? = some c → ¬ IsLetterOrDigit c)
      (h : Printable items) : Printable (.reference name :: items)
  | dollar {items : List Item} (h : Printable items) : Printable (.dollar :: items)

theorem print_cons (item : Item) (items : List Item) :
    print (item :: items) = item.printed ++ print items := by
  rw [print, List.map_cons, String.join_cons]
  rfl

end Item

/-! ## Reading the front of a text -/

variable {t : Template} {env : Option Environment}

/-- Text without a `$` is read into the literal at hand. -/
theorem portionsOf_literal (literal : List Char) {a : List Char} (ha : sigil ∉ a) (cs : List Char) :
    t.portionsOf env literal 0 (a ++ cs) = t.portionsOf env (literal ++ a) 0 cs := by
  induction a generalizing literal with
  | nil => rw [List.nil_append, List.append_nil]
  | cons c a ih =>
    obtain ⟨hc, ha⟩ := not_or.mp (mt List.mem_cons.mpr ha)
    rw [List.cons_append, portionsOf, if_neg (Ne.symm hc), ih _ ha, List.append_assoc,
      List.singleton_append]

/-- A `$` ends the literal at hand, and reading goes on behind its name. -/
theorem portionsOf_reference (literal : List Char) {name behind : List Char}
    (hname : NameBefore name behind) :
    t.portionsOf env literal 0 (sigil :: (name ++ behind)) =
      t.shown (String.ofList literal) :: t.substitute env (String.ofList name) ::
        t.portionsOf env [] 0 behind := by
  rw [portionsOf, if_pos rfl, portionsOf_nameAfter, hname.nameAfter_eq, List.drop_left]

/-- An identifier is looked up. -/
theorem substitute_identifier {name : String} (h : IsIdentifier name.toList) :
    t.substitute env name = t.shown (Environment.lookup env name) := by
  refine if_neg fun e => ?_
  obtain ⟨c, cs, hname, hc, -⟩ := h
  rw [e, String.toList_singleton] at hname
  cases hname
  exact absurd ((isNameStart_iff sigil).mpr hc) (by decide)

theorem shown_of_raw (hraw : t.raw = true) (portion : String) : t.shown portion = portion :=
  if_pos hraw

theorem substitute_dollar : t.substitute env (String.ofList [sigil]) = "$" := by
  rw [← String.singleton_eq_ofList]
  exact if_pos rfl

/-- A raw template shows what its items mean, behind the literal at hand. -/
theorem join_portionsOf_print (hraw : t.raw = true) {items : List Item}
    (h : Item.Printable items) (literal : List Char) :
    String.join (t.portionsOf env literal 0 (Item.print items).toList) =
      String.ofList literal ++ String.join (items.map (Item.meaning env)) := by
  induction h generalizing literal with
  | nil => simp [Item.print, portionsOf, shown_of_raw hraw]
  | @literal text items htext _ ih =>
    rw [Item.print_cons, String.toList_append, Item.printed, portionsOf_literal _ htext, ih,
      String.ofList_append, String.ofList_toList, List.map_cons, String.join_cons,
      String.append_assoc, Item.meaning]
  | @reference name items hname hapart _ ih =>
    have hprint : (Item.print (.reference name :: items)).toList =
        sigil :: (name.toList ++ (Item.print items).toList) := by
      simp [Item.print_cons, Item.printed]
    rw [hprint, portionsOf_reference _ (.identifier hname hapart), String.join_cons,
      String.join_cons, ih, String.ofList_toList, substitute_identifier hname, shown_of_raw hraw,
      shown_of_raw hraw, String.ofList_nil, String.empty_append, List.map_cons, String.join_cons,
      Item.meaning]
  | @dollar items _ ih =>
    have hprint : (Item.print (.dollar :: items)).toList =
        sigil :: ([sigil] ++ (Item.print items).toList) := by
      rw [Item.print_cons, String.toList_append]
      rfl
    rw [hprint, portionsOf_reference _ (.dollar _), String.join_cons, String.join_cons, ih,
      substitute_dollar, shown_of_raw hraw, String.ofList_nil, String.empty_append,
      List.map_cons, String.join_cons, Item.meaning]

/-- A raw template expands to what its items mean. -/
theorem expand?_newRaw_print {items : List Item} (h : Item.Printable items)
    (env : Option Environment) :
    (newRaw (Item.print items)).expand? env =
      some (String.join (items.map (Item.meaning env))) := by
  rw [expand?, portions?_eq rfl, Option.map_some]
  refine congrArg some ((join_portionsOf_print rfl h []).trans ?_)
  rw [String.ofList_nil, String.empty_append]

/-! ## Doubled dollar signs -/

/-- The text with every `$` written twice. -/
def doubled (text : String) : String :=
  String.ofList (text.toList.flatMap fun c => if c = sigil then [sigil, sigil] else [c])

namespace Item

/-- A character as an item that stands for it. -/
def ofChar (c : Char) : Item := if c = sigil then .dollar else .literal (String.singleton c)

theorem meaning_ofChar (env : Option Environment) (c : Char) :
    (ofChar c).meaning env = String.singleton c := by
  unfold ofChar
  split
  · next h => rw [h]; rfl
  · rfl

theorem toList_printed_ofChar (c : Char) :
    (ofChar c).printed.toList = if c = sigil then [sigil, sigil] else [c] := by
  unfold ofChar
  split
  · rfl
  · exact String.toList_singleton c

/-- Characters are apart, since there is no reference among them. -/
theorem printable_ofChars (cs : List Char) : Printable (cs.map ofChar) := by
  induction cs with
  | nil => exact .nil
  | cons c cs ih =>
    rw [List.map_cons, ofChar]
    split
    · exact .dollar ih
    · next hne => exact .literal (by simpa using Ne.symm hne) ih

theorem print_ofChars (text : String) : print (text.toList.map ofChar) = doubled text := by
  apply String.toList_inj.mp
  simp [print, doubled, List.flatMap_map, toList_printed_ofChar]

theorem join_meaning_ofChars (env : Option Environment) (text : String) :
    String.join ((text.toList.map ofChar).map (meaning env)) = text := by
  apply String.toList_inj.mp
  simp [List.flatMap_map, meaning_ofChar]

end Item

/-- **A printed template expands to what its items mean**, one behind the other; so text with every
`$` doubled expands to itself, in every environment. -/
theorem expand_printed (env : Option Environment) :
    (∀ items, Item.Printable items → (newRaw (Item.print items)).expand? env =
      some (String.join (items.map (Item.meaning env)))) ∧
      ∀ text, (newRaw (doubled text)).expand? env = some text := by
  refine ⟨fun items h => expand?_newRaw_print h env, fun text => ?_⟩
  have hexpand := expand?_newRaw_print (Item.printable_ofChars text.toList) env
  rwa [Item.print_ofChars, Item.join_meaning_ofChars] at hexpand

/-- A value that looks like a reference stays as it is, between dollar signs and an unbound name. -/
theorem expand_printed_of_values :
    let env := Environment.empty.insert "a" "$b"
    let items := [Item.literal "é ", .reference "a", .literal "", .dollar, .reference "b"]
    Item.print items = "é $a$$$b" ∧ Item.Printable items ∧
      (newRaw (Item.print items)).expand? (some env) =
        some (String.join (items.map (Item.meaning (some env)))) ∧
      String.join (items.map (Item.meaning (some env))) = "é $b$undefined" := by
  intro env items
  have hapart : ∀ c, (Item.print [.literal "", .dollar, .reference "b"]).toList.head? = some c →
      ¬ IsLetterOrDigit c := by
    intro c hc
    have hhead : (Item.print [.literal "", .dollar, .reference "b"]).toList.head? = some sigil := by
      decide
    cases hhead.symm.trans hc
    decide
  have hprintable : Item.Printable items :=
    .literal (by decide) (.reference (by decide) hapart (.literal (by decide)
      (.dollar (.reference (by decide) nofun .nil))))
  exact ⟨by decide, hprintable, (expand_printed (some env)).1 items hprintable, by decide⟩

end Template

end Markup

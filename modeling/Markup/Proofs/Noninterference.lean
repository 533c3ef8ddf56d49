import Markup.Proofs.Delimiters
import Markup.Proofs.Escaped
import Markup.Proofs.Tokens

/-!
# Values do not show as markup

Two forests are alike when they have the same nodes in the same places, of the same kinds, and with
the same attributes, whatever the values of these attributes are and whatever text the leaves hold.
If no raw text came into a leaf and no template is raw, then alike forests give output with the same
delimiters, in any environments. So no value and no text can make or hide a tag, and none can move
one.

Keys are written as they are, so a custom key can hold delimiters itself. Pretty output sorts the
keys. Compact output has them in the order in which they come, and where two keys with delimiters
change places, so do their delimiters.

* `Forest.Alike`: forests that differ in values and texts only.
* `Forest.SameMarks`: orders in which the keys with delimiters come in the same sequence.
* `Forest.Alike.tokens`, `Forest.Escaped.tokens_alike`: then the trees have tokens that are alike.
* `Forest.markup_of_alike`: the delimiters of their output.
* `Forest.delimiters_of_reversed`: two keys with delimiters change places.
-/

namespace Markup

/-- Another value keeps elements alike if it is not the empty one, which removes an attribute. -/
theorem Element.Alike.set {e d : Element} (h : e.Alike d) (a : AttributeName)
    {value value' : String} (hvalue : value.isEmpty = value'.isEmpty) :
    (e.edit (.set a value)).Alike (d.edit (.set a value')) where
  name_eq := h.name_eq
  known_iff b := by
    simp only [Element.edit, Element.setAttribute, Element.withKnown, hvalue]
    split
    · rw [Std.ExtTreeMap.mem_erase, Std.ExtTreeMap.mem_erase, h.known_iff]
    · rw [Std.ExtTreeMap.mem_insert, Std.ExtTreeMap.mem_insert, h.known_iff]
  custom_iff := h.custom_iff

/-- Any other value of a custom attribute keeps them alike. -/
theorem Element.Alike.setCustom {e d : Element} (h : e.Alike d) (key value value' : String) :
    (e.edit (.setCustom key value)).Alike (d.edit (.setCustom key value')) where
  name_eq := h.name_eq
  known_iff := h.known_iff
  custom_iff b := by
    simp only [Element.edit, Element.withCustom, Std.ExtTreeMap.mem_insert, h.custom_iff]

/-- Nodes of one kind, whose elements differ in the values of attributes only, and whose texts may
be any. -/
inductive Content.Alike : Content → Content → Prop where
  | fragment : Alike .fragment .fragment
  | document {e d : Element} (he : e.Alike d) : Alike (.document e) (.document d)
  | element {e d : Element} (he : e.Alike d) : Alike (.element e) (.element d)
  | comment : Alike .comment .comment
  | text (t t' : Text) : Alike (.text t) (.text t')
  | template (t t' : Template) : Alike (.template t) (.template t')

/-- Nodes in the same place, hidden or not, that are alike. -/
structure Cell.Alike (c d : Cell) : Prop where
  content : c.content.Alike d.content
  hidden_eq : c.hidden = d.hidden
  links_eq : c.links = d.links

/-- The forests have the same nodes, in the same places, and differ in values and texts only. -/
def Forest.Alike (f g : Forest) : Prop := ∀ h, Option.Rel Cell.Alike (f.cell? h) (g.cell? h)

/-- What a node holds is escaped when it is written, or it was escaped before. -/
structure Content.Quiet (c : Content) : Prop where
  text : ∀ t, c = .text t → t.Plain
  template : ∀ t, c = .template t → t.raw = false ∧ t.spans = Markup.spans t.text

theorem Text.Plain.delimiters_markup {t : Text} (ht : t.Plain) : delimiters t.markup = [] := by
  induction ht with
  | new text => exact delimiters_escape text
  | @push t _ text ih =>
    rw [Text.push, delimiters_append, ih, delimiters_escape]
    rfl

/-- A template that escapes has no delimiter in any environment. -/
theorem Content.Quiet.delimiters_portions {t : Template} (ht : (Content.template t).Quiet)
    (env : Option Environment) : ∀ s ∈ (t.portions? env).getD [], delimiters s = [] := by
  obtain ⟨hraw, hspans⟩ := ht.template t rfl
  rw [Template.portions?_eq hspans env]
  exact Template.delimiters_portionsOf hraw env [] 0 t.text.toList

theorem Content.Quiet.delimiters_text {t : Text} (ht : (Content.text t).Quiet) :
    ∀ s ∈ [t.markup], delimiters s = [] := by
  intro s hs
  rw [List.mem_singleton.mp hs]
  exact (ht.text t rfl).delimiters_markup

namespace Content.Alike

variable {c d : Content} {ls ls' : Listings} {x : Handle}

/-- Nodes that are alike start with tokens that are alike, whatever the environments are. -/
theorem openToken (h : c.Alike d) (hc : c.Quiet) (hd : d.Quiet)
    (hmarks : ∀ {e b}, c.element? = some e → d.element? = some b →
      (ls x e).marks = (ls' x b).marks) (env env' : Option Environment) :
    (c.openToken env x).Alike ls ls' (d.openToken env' x) := by
  cases h with
  | fragment => exact .openFragment
  | document he => exact .openDocument he (hmarks rfl rfl)
  | element he => exact .openElement he (hmarks rfl rfl)
  | comment => exact .openComment
  | text t t' => exact .leaf hc.delimiters_text hd.delimiters_text
  | template t t' => exact .leaf (hc.delimiters_portions env) (hd.delimiters_portions env')

/-- And they end with such. -/
theorem stopToken? (h : c.Alike d) :
    List.Forall₂ (Token.Alike ls ls') c.stopToken?.toList d.stopToken?.toList := by
  cases h with
  | fragment => exact .cons .closeFragment .nil
  | document he => exact .cons (.closeDocument he) .nil
  | element he => exact .cons (.closeElement he) .nil
  | comment => exact .cons .closeComment .nil
  | text t t' => exact .nil
  | template t t' => exact .nil

/-- Elements in nodes that are alike are alike. -/
theorem of_element? (h : c.Alike d) {e b : Element} (he : c.element? = some e)
    (hb : d.element? = some b) : e.Alike b := by
  cases h <;> cases he <;> cases hb <;> assumption

end Content.Alike

namespace Forest

variable {f g : Forest} {k : Kinship}

namespace Alike

theorem lives_iff (ha : f.Alike g) (h : Handle) : f.Lives h ↔ g.Lives h := by
  have hh := ha h
  rw [lives_iff_isSome, lives_iff_isSome]
  cases hf : f.cell? h <;> cases hg : g.cell? h <;> rw [hf, hg] at hh <;> first | rfl | cases hh

theorem exists_cell? (ha : f.Alike g) {h : Handle} {c : Cell} (hc : f.cell? h = some c) :
    ∃ d, g.cell? h = some d ∧ c.Alike d := by
  have hh := ha h
  rw [hc] at hh
  cases hd : g.cell? h with
  | none => rw [hd] at hh; cases hh
  | some d =>
    rw [hd] at hh
    cases hh with
    | some hcd => exact ⟨d, rfl, hcd⟩

/-- Alike forests have one kinship. -/
theorem shows (ha : f.Alike g) (hs : f.Shows k) : g.Shows k where
  lawful := hs.lawful
  links_eq {h d} hd := by
    obtain ⟨c, hc⟩ := (ha.lives_iff h).mpr ⟨d, hd⟩
    obtain ⟨d', hd', hcd⟩ := ha.exists_cell? hc
    rw [hd] at hd'
    cases hd'
    rw [← hcd.links_eq, hs.links_eq hc]
  lives hp := by
    rw [← ha.lives_iff, ← ha.lives_iff]
    exact hs.lives hp

/-- Elements at the same place are alike. -/
theorem of_element? (ha : f.Alike g) {h : Handle} {e d : Element} (he : f.element? h = some e)
    (hd : g.element? h = some d) : e.Alike d := by
  obtain ⟨c, hc, he⟩ := Option.bind_eq_some_iff.mp he
  obtain ⟨b, hb, hcb⟩ := ha.exists_cell? hc
  rw [element?, hb] at hd
  exact hcb.content.of_element? he hd

end Alike

/-- At every node, the keys with delimiters come in the same sequence. -/
def SameMarks (f g : Forest) (ls ls' : Listings) : Prop :=
  ∀ h e d, f.element? h = some e → g.element? h = some d → (ls h e).marks = (ls' h d).marks

/-- No custom key has a delimiter. -/
def KeysPlain (f : Forest) : Prop :=
  ∀ h e key, f.element? h = some e → key ∈ e.custom → delimiters key = []

namespace Alike

/-- Whatever orders the attributes have in one forest, they can have them in the other one. -/
theorem exists_sameMarks (ha : f.Alike g) (ls : Listings) : ∃ ls', f.SameMarks g ls ls' := by
  have horder : ∀ h d, ∃ l : d.Listing, ∀ e, f.element? h = some e → g.element? h = some d →
      (ls h e).marks = l.marks := by
    intro h d
    by_cases hboth : ∃ e, f.element? h = some e ∧ g.element? h = some d
    · obtain ⟨e, he, hd⟩ := hboth
      obtain ⟨l, hl⟩ := (ha.of_element? he hd).exists_listing (ls h e)
      refine ⟨l, fun e' he' _ => ?_⟩
      cases he.symm.trans he'
      exact hl
    · exact ⟨.canonical d, fun e he hd => absurd ⟨e, he, hd⟩ hboth⟩
  choose ls' hls' using horder
  exact ⟨ls', fun h e d => hls' h d e⟩

/-- Without a delimiter in a key, all orders are the same. -/
theorem sameMarks_of_keysPlain (ha : f.Alike g) (hplain : f.KeysPlain) (ls ls' : Listings) :
    f.SameMarks g ls ls' := by
  intro h e d he hd
  obtain ⟨l, hl⟩ := (ha.of_element? he hd).symm.exists_listing (ls' h d)
  have hnone : ∀ l : e.Listing, l.marks = List.replicate e.custom.toList.length [] := by
    intro l
    refine List.eq_replicate_iff.mpr ⟨?_, fun marks hmem => ?_⟩
    · rw [Element.Listing.marks, Element.keyMarks, List.length_map, l.custom_perm.length_eq]
    · obtain ⟨pair, hpair, rfl⟩ := List.mem_map.mp hmem
      have hvalue := Std.ExtTreeMap.mem_toList_iff_getElem?_eq_some.mp (l.custom_perm.subset hpair)
      exact hplain h e pair.1 he (Std.ExtTreeMap.mem_iff_isSome_getElem?.mpr (hvalue ▸ rfl))
  rw [hl, hnone, hnone]

/-- Trees in alike forests have tokens that are alike. -/
theorem tokens (ha : f.Alike g) (hf : ∀ {h c}, f.cell? h = some c → c.content.Quiet)
    (hg : ∀ {h c}, g.cell? h = some c → c.content.Quiet) {ls ls' : Listings}
    (hmarks : f.SameMarks g ls ls') (env env' : Option Environment) {row : List Handle}
    {grove : Grove} (hgrows : f.Grows k row grove) :
    ∃ grove', g.Grows k row grove' ∧
      List.Forall₂ (Token.Alike ls ls') (grove.tokens env) (grove'.tokens env') := by
  induction hgrows with
  | nil => exact ⟨.nil, .nil, .nil⟩
  | @tree h c row below rest hc _ _ ihb ihr =>
    obtain ⟨d, hd, hcd⟩ := ha.exists_cell? hc
    obtain ⟨below', hbelow, hb⟩ := ihb
    obtain ⟨rest', hrest, hr⟩ := ihr
    refine ⟨_, .tree hd hbelow hrest, ?_⟩
    rw [Grove.tokens, Grove.tokens, ← hcd.hidden_eq]
    refine List.rel_append ?_ hr
    split
    · exact .nil
    · have hsame : ∀ {e b}, c.content.element? = some e → d.content.element? = some b →
          (ls h e).marks = (ls' h b).marks := fun he hb =>
        hmarks h _ _ (by rw [element?, hc]; exact he) (by rw [element?, hd]; exact hb)
      have hopen := hcd.content.openToken (hf hc) (hg hd) hsame env env'
      exact .cons hopen (List.rel_append hb hcd.content.stopToken?)

end Alike

/-- The forest after a run has no raw template, and raw text came into no text leaf that lives. -/
structure Escaped (commands : List Command) : Prop where
  text : ∀ h t, (empty.run commands).text h = .ok t → h ∉ empty.rawLeaves [] commands
  template : ∀ h c t, (empty.run commands).cell? h = some c → c.content = .template t →
    t.raw = false

theorem Escaped.quiet {commands : List Command} (he : Escaped commands) {h : Handle} {c : Cell}
    (hc : (empty.run commands).cell? h = some c) : c.content.Quiet where
  text t ht := by
    have hplain : (empty.run commands).PlainBut (empty.rawLeaves [] commands) :=
      plain_of_run commands .empty fun x t hx => by
        obtain ⟨d, hd, -⟩ := text_eq_ok_iff.mp hx
        simp [cell?, empty] at hd
    have htext := text_eq_ok_iff.mpr ⟨c, hc, ht⟩
    exact hplain h t htext (he.text h t htext)
  template t ht := ⟨he.template h c t hc ht, (Reachable.empty.run commands).spans_eq hc ht⟩

/-- After runs without raw text, a node of alike forests has tokens that are alike. -/
theorem Escaped.tokens_alike {commands commands' : List Command} (he : Escaped commands)
    (he' : Escaped commands') (ha : (empty.run commands).Alike (empty.run commands')) {h : Handle}
    (hh : (empty.run commands).Lives h) (env env' : Option Environment) {ls ls' : Listings}
    (hmarks : (empty.run commands).SameMarks (empty.run commands') ls ls') :
    List.Forall₂ (Token.Alike ls ls') (((empty.run commands).grove h).tokens env)
      (((empty.run commands').grove h).tokens env') := by
  obtain ⟨k, hw⟩ := (Reachable.empty.run commands).wellFormed
  have hh' : (empty.run commands').Lives h := (ha.lives_iff h).mp hh
  -- one kinship for both, so the two trees are read along the same rows
  obtain ⟨grove, hgrows, halike⟩ :=
    ha.tokens he.quiet he'.quiet hmarks env env' (hw.shows.grows_grove hh)
  obtain rfl := ((ha.shows hw.shows).grows_grove hh').unique hgrows
  exact halike

/-- **No value shows as markup.** After any two runs that lead to the same nodes in the same places,
with the same names and the same attributes, and in any two environments, the output of a node has
the same delimiters, in the same order: whatever the values of the attributes are, and whatever the
texts and the templates hold. Compact output with its attributes in any orders has the same
delimiters as well. They are in the same order when the keys with delimiters are, which they can be
whatever the values are, and must be if no key has one. -/
theorem markup_of_alike {commands commands' : List Command}
    (ha : (empty.run commands).Alike (empty.run commands')) (he : Escaped commands)
    (he' : Escaped commands') {h : Handle} (hh : (empty.run commands).Lives h)
    (env env' : Option Environment) :
    let f := empty.run commands
    let g := empty.run commands'
    (∀ layout, ∃ a b, f.output h layout env = .ok a ∧ g.output h layout env' = .ok b ∧
      delimiters a = delimiters b) ∧
    (∀ ls ls', ∃ a b, f.compactIn h env ls = .ok a ∧ g.compactIn h env' ls' = .ok b ∧
      (delimiters a).Perm (delimiters b) ∧ (f.SameMarks g ls ls' → delimiters a = delimiters b)) ∧
    (∀ ls, ∃ ls', f.SameMarks g ls ls') ∧
    (f.KeysPlain → ∀ ls ls', f.SameMarks g ls ls') := by
  intro f g
  have hf : Reachable f := Reachable.empty.run commands
  have hg : Reachable g := Reachable.empty.run commands'
  have hh' : g.Lives h := (ha.lives_iff h).mp hh
  have htokens : ∀ ls ls', f.SameMarks g ls ls' →
      List.Forall₂ (Token.Alike ls ls') ((f.grove h).tokens env) ((g.grove h).tokens env') :=
    fun _ _ hmarks => he.tokens_alike he' ha hh env env' hmarks
  have hcanonical : f.SameMarks g .canonical .canonical := fun _ _ _ he hd =>
    (ha.of_element? he hd).marks_canonical
  refine ⟨fun layout => ?_, fun ls ls' => ?_, ha.exists_sameMarks, ha.sameMarks_of_keysPlain⟩
  · cases layout with
    | compact =>
      rw [← hf.compactIn_canonical, ← hg.compactIn_canonical]
      exact ⟨_, _, hf.compactIn_eq hh env _, hg.compactIn_eq hh' env' _,
        delimiters_compact (htokens _ _ hcanonical)⟩
    | pretty unit =>
      rw [output, output, hf.pieces_eq hh, hg.pieces_eq hh']
      exact ⟨_, _, rfl, rfl, delimiters_pretty (htokens _ _ hcanonical) unit []⟩
  · refine ⟨_, _, hf.compactIn_eq hh env ls, hg.compactIn_eq hh' env' ls', ?_, fun hmarks =>
      delimiters_compact (htokens ls ls' hmarks)⟩
    obtain ⟨matched, hmarks⟩ := ha.exists_sameMarks ls
    rw [delimiters_compact (htokens ls matched hmarks)]
    exact delimiters_shownIn_perm matched ls' _

/-- Slots with one stamp, and with nodes that are alike. -/
def SlotsAlike (s t : Slot) : Prop := s.stamp = t.stamp ∧ Option.Rel Cell.Alike s.cell t.cell

/-- Forests with alike nodes in every slot are alike. -/
theorem alike_of_slots (h : List.Forall₂ SlotsAlike f.slots.toList g.slots.toList) :
    f.Alike g := by
  have hslot : ∀ {l l' : List Slot} (i : Nat), List.Forall₂ SlotsAlike l l' →
      Option.Rel SlotsAlike l[i]? l'[i]? := by
    intro l l' i hl
    induction hl generalizing i with
    | nil => exact .none
    | cons hst _ ih =>
      cases i with
      | zero => exact .some hst
      | succ i => exact ih i
  intro x
  have hx := hslot x.slot h
  rw [cell?, cell?, ← Array.getElem?_toList, ← Array.getElem?_toList]
  generalize f.slots.toList[x.slot]? = s at hx ⊢
  generalize g.slots.toList[x.slot]? = t at hx ⊢
  cases hx with
  | none => exact .none
  | some hst =>
    obtain ⟨hstamp, hcell⟩ := hst
    rw [Option.bind_some, Option.bind_some, hstamp]
    split
    · exact hcell
    · exact .none

/-- What can be seen in the slots when no raw text was written at all. -/
theorem Escaped.of_slots {commands : List Command} (hraw : empty.rawLeaves [] commands = [])
    (hslots : ∀ s ∈ (empty.run commands).slots.toList,
      ((s.cell.bind (·.content.template?)).all fun t => !t.raw) = true) : Escaped commands where
  text h t _ := by rw [hraw]; exact List.not_mem_nil
  template h c t hc ht := by
    obtain ⟨s, hs, -, hcell⟩ := cell?_eq_some_iff.mp hc
    have hall := hslots s (Array.mem_toList_iff.mpr (Array.mem_of_getElem? hs))
    simpa [hcell, ht, Content.template?] using hall

/-- A link with an address and with two custom keys that look like markup, and below it a text and
a template. -/
def linkCommands (value plain source : String) : List Command :=
  [.create (.element .a), .editAttributes ⟨0, 0⟩ (.set .href value),
    .editAttributes ⟨0, 0⟩ (.setCustom "a<" value), .editAttributes ⟨0, 0⟩ (.setCustom "b>" value),
    .appendNew ⟨0, 0⟩ (.text plain), .appendNew ⟨0, 0⟩ (.template source)]

/-- What they lead to. -/
def linkSlots (value plain source : String) : List Slot :=
  let link := (((Element.ofName .a).edit (.set .href value)).edit (.setCustom "a<" value)).edit
    (.setCustom "b>" value)
  [⟨0, some ⟨.element link, false, { first := some ⟨1, 0⟩, last := some ⟨2, 0⟩ }⟩⟩,
    ⟨0, some ⟨.text (.new plain), false, { parent := some ⟨0, 0⟩, next := some ⟨2, 0⟩ }⟩⟩,
    ⟨0, some ⟨.template (.new source), false,
      { parent := some ⟨0, 0⟩, previous := some ⟨1, 0⟩ }⟩⟩]

theorem alike_of_links : (empty.run (linkCommands "x" "y" "z")).Alike
    (empty.run (linkCommands "'>" "<b>" "\"$n")) := by
  have hslots : (empty.run (linkCommands "x" "y" "z")).slots.toList = linkSlots "x" "y" "z" := by
    decide
  have hslots' : (empty.run (linkCommands "'>" "<b>" "\"$n")).slots.toList =
      linkSlots "'>" "<b>" "\"$n" := by decide
  have hplain : (Element.ofName .a).Alike (Element.ofName .a) :=
    ⟨rfl, fun _ => .rfl, fun _ => .rfl⟩
  have haddress : ((Element.ofName .a).edit (.set .href "x")).Alike
      ((Element.ofName .a).edit (.set .href "'>")) := hplain.set .href rfl
  have hlink := (haddress.setCustom "a<" "x" "'>").setCustom "b>" "x" "'>"
  refine alike_of_slots ?_
  rw [hslots, hslots']
  exact .cons ⟨rfl, .some ⟨.element hlink, rfl, rfl⟩⟩
    (.cons ⟨rfl, .some ⟨.text _ _, rfl, rfl⟩⟩
      (.cons ⟨rfl, .some ⟨.template _ _, rfl, rfl⟩⟩ .nil))

/-- The output of a link has the same delimiters when its values look like markup, and in compact
output the keys can have any order. -/
theorem markup_of_alike_of_links :
    let f := empty.run (linkCommands "x" "y" "z")
    let g := empty.run (linkCommands "'>" "<b>" "\"$n")
    let env := some (Environment.empty.insert "n" "</a>")
    (∃ a b, f.output ⟨0, 0⟩ .compact none = .ok a ∧ g.output ⟨0, 0⟩ .compact env = .ok b ∧
      delimiters a = delimiters b) ∧
    ∃ ls a b, f.compactIn ⟨0, 0⟩ none .reversed = .ok a ∧ g.compactIn ⟨0, 0⟩ env ls = .ok b ∧
      delimiters a = delimiters b := by
  intro f g env
  obtain ⟨houtput, hcompact, hmatched, -⟩ := markup_of_alike alike_of_links
    (.of_slots rfl (by decide)) (.of_slots rfl (by decide)) (h := ⟨0, 0⟩) ⟨_, rfl⟩ none env
  obtain ⟨ls, hmarks⟩ := hmatched .reversed
  obtain ⟨a, b, ha, hb, -, hsame⟩ := hcompact .reversed ls
  exact ⟨houtput .compact, ls, a, b, ha, hb, hsame hmarks⟩

/-- When the two keys change places, so do their delimiters. -/
theorem delimiters_of_reversed :
    let f := empty.run (linkCommands "x" "y" "z")
    let g := empty.run (linkCommands "'>" "<b>" "\"$n")
    f.Alike g ∧ Escaped (linkCommands "x" "y" "z") ∧ Escaped (linkCommands "'>" "<b>" "\"$n") ∧
      f.Lives ⟨0, 0⟩ ∧ ∃ a b, f.compactIn ⟨0, 0⟩ none .canonical = .ok a ∧
        g.compactIn ⟨0, 0⟩ none .reversed = .ok b ∧ delimiters a ≠ delimiters b := by
  intro f g
  have ha : f.compactIn ⟨0, 0⟩ none .canonical =
      .ok "<a href=\"x\" a<=\"x\" b>=\"x\">yz</a>" := by decide
  have hb : g.compactIn ⟨0, 0⟩ none .reversed = .ok
      "<a href=\"&#39;&gt;\" b>=\"&#39;&gt;\" a<=\"&#39;&gt;\">&lt;b&gt;&#34;undefined</a>" := by
    decide
  refine ⟨alike_of_links, .of_slots rfl (by decide), .of_slots rfl (by decide), ⟨_, rfl⟩, _, _, ha,
    hb, by decide⟩

end Forest

end Markup

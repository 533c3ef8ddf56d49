import Markup.Proofs.Kinds
import Markup.Proofs.Escaped
import Markup.Proofs.SafeExpansion

/-!
# Entities

Each of the five special characters is written as an entity, from an `&` up to a `;`, and any other
character as it is. An `&` in a written form is therefore always the front of an entity, also where
the text had an entity or a part of one, and replacing entities from left to right gives the text
back. Text without a special character needs no writing at all.

* `escapeInPlace_eq`: to hand back such a text as it is makes no difference.
* `entity_of_ampersand`: what an `&` in a written form stands for.
* `unescape_escape`: the written form read back.
* `markup_foldl_push`, `Forest.markup_run`: text that is added in pieces, to a leaf and over a run.
* `escape_exact`: all this together.
-/

namespace Markup

/-- What stands for the five special characters. -/
def entities : List String := ["&amp;", "&#39;", "&lt;", "&gt;", "&#34;"]

/-- Whether a character is written as an entity. -/
def isSpecial (c : Char) : Bool := c = '&' || isDelimiter c

/-- The written form as `escape` makes it, only if there is something to write: a text without a
special character is handed back, and any other one is written to the end of what there is,
character by character. -/
def escapeInPlace (text : String) : String :=
  if text.toList.any isSpecial then
    text.toList.foldl (fun written c => written ++ String.ofList (escapeChar c)) ""
  else text

/-- Replaces entities by the characters that they stand for, from left to right. -/
def unescapeChars : List Char → List Char
  | [] => []
  | '&' :: 'a' :: 'm' :: 'p' :: ';' :: cs => '&' :: unescapeChars cs
  | '&' :: '#' :: '3' :: '9' :: ';' :: cs => '\'' :: unescapeChars cs
  | '&' :: 'l' :: 't' :: ';' :: cs => '<' :: unescapeChars cs
  | '&' :: 'g' :: 't' :: ';' :: cs => '>' :: unescapeChars cs
  | '&' :: '#' :: '3' :: '4' :: ';' :: cs => '"' :: unescapeChars cs
  | c :: cs => c :: unescapeChars cs

/-- The text that a written form stands for. -/
def unescape (written : String) : String := String.ofList (unescapeChars written.toList)

/-! ## Single characters -/

theorem escapeChar_of_not_special {c : Char} (hc : isSpecial c = false) : escapeChar c = [c] := by
  unfold escapeChar
  split <;> first | rfl | cases hc

theorem ampersand_not_mem_tail (c : Char) : '&' ∉ (escapeChar c).tail := by
  unfold escapeChar
  split <;> simp

/-- What is written with an `&` in front is an entity. -/
theorem entity_of_escapeChar {c : Char} {tail : List Char} (h : escapeChar c = '&' :: tail) :
    ∃ entity ∈ entities, entity.toList = escapeChar c := by
  unfold escapeChar at h ⊢
  split at h
  · exact ⟨"&amp;", by decide, rfl⟩
  · exact ⟨"&#39;", by decide, rfl⟩
  · exact ⟨"&lt;", by decide, rfl⟩
  · exact ⟨"&gt;", by decide, rfl⟩
  · exact ⟨"&#34;", by decide, rfl⟩
  · next hc _ _ _ _ => exact absurd (List.cons.inj h).1 hc

theorem unescapeChars_cons {c : Char} (hc : c ≠ '&') (cs : List Char) :
    unescapeChars (c :: cs) = c :: unescapeChars cs := by
  rw [unescapeChars] <;> simp_all

/-- The written form of a character is read as that character, whatever follows. -/
theorem unescapeChars_escapeChar (c : Char) (cs : List Char) :
    unescapeChars (escapeChar c ++ cs) = c :: unescapeChars cs := by
  unfold escapeChar
  split
  case h_6 hc _ _ _ _ => exact unescapeChars_cons hc cs
  all_goals rfl

/-! ## Texts -/

theorem foldl_escapeChar (cs : List Char) (written : String) :
    cs.foldl (fun written c => written ++ String.ofList (escapeChar c)) written =
      written ++ String.ofList (cs.flatMap escapeChar) := by
  induction cs generalizing written with
  | nil => simp
  | cons c cs ih =>
    rw [List.foldl_cons, ih, List.flatMap_cons, String.ofList_append, String.append_assoc]

/-- A text without a special character is its own written form. -/
theorem escape_eq_self {text : String} (h : text.toList.any isSpecial = false) :
    escape text = text := by
  have hchars : text.toList.flatMap escapeChar = text.toList.flatMap fun c => [c] :=
    List.flatMap_congr fun c hc =>
      escapeChar_of_not_special (Bool.eq_false_iff.mpr (List.any_eq_false.mp h c hc))
  rw [escape, hchars, List.flatMap_singleton', String.ofList_toList]

theorem escapeInPlace_eq (text : String) : escapeInPlace text = escape text := by
  unfold escapeInPlace
  split
  · rw [foldl_escapeChar, String.empty_append, escape]
  · next h => exact (escape_eq_self (Bool.not_eq_true _ ▸ h)).symm

/-- An `&` in a written form is the front of an entity. -/
theorem entity_of_ampersand {cs before after : List Char}
    (h : cs.flatMap escapeChar = before ++ '&' :: after) :
    ∃ entity ∈ entities, entity.toList <+: '&' :: after := by
  induction cs generalizing before with
  | nil => cases before <;> cases h
  | cons c cs ih =>
    rw [List.flatMap_cons] at h
    rcases List.append_eq_append_iff.mp h with ⟨e, rfl, he⟩ | ⟨e, hc, he⟩
    · exact ih he
    · cases e with
      | nil =>
        have hrest : cs.flatMap escapeChar = [] ++ '&' :: after := he.symm
        exact ih hrest
      | cons d e =>
        obtain ⟨rfl, rfl⟩ := List.cons.inj he
        cases before with
        | nil =>
          obtain ⟨entity, hmem, hentity⟩ := entity_of_escapeChar hc
          exact ⟨entity, hmem, cs.flatMap escapeChar, by rw [hentity, hc]; rfl⟩
        | cons b before =>
          have htail : '&' ∈ (escapeChar c).tail := by simp [hc]
          exact absurd htail (ampersand_not_mem_tail c)

/-- The written form read back. -/
theorem unescape_escape (text : String) : unescape (escape text) = text := by
  have hchars (cs : List Char) : unescapeChars (cs.flatMap escapeChar) = cs := by
    induction cs with
    | nil => rfl
    | cons c cs ih => rw [List.flatMap_cons, unescapeChars_escapeChar, ih]
  rw [unescape, toList_escape, hchars, String.ofList_toList]

/-! ## Pieces -/

/-- A leaf to which plain text is added in pieces. -/
theorem markup_foldl_push (t : Text) (pieces : List String) :
    (pieces.foldl Text.push t).markup = t.markup ++ escape (String.join pieces) := by
  induction pieces generalizing t with
  | nil => simp
  | cons piece pieces ih =>
    rw [List.foldl_cons, ih, Text.push, String.join_cons, escape_append, String.append_assoc]

/-- The plain text that a command adds to a leaf. -/
def Command.pieces (x : Handle) : Command → List String
  | .editText h (.push text) => if h = x then [text] else []
  | _ => []

/-- The command puts no raw text into the leaf. -/
def Command.AddsPlain (x : Handle) : Command → Prop
  | .editText h (.pushRaw _) => h ≠ x
  | .editText h (.replace _) => h ≠ x
  | _ => True

namespace Forest

variable {f : Forest} {x : Handle} {t t' : Text}

theorem lives_of_text (ht : f.text x = .ok t) : f.Lives x := by
  obtain ⟨c, hc, -⟩ := text_eq_ok_iff.mp ht
  exact ⟨c, hc⟩

/-- Plain text is added to a leaf that is there. -/
theorem text_push (ht : f.text x = .ok t) (piece : String) :
    (f.exec (.editText x (.push piece))).forest.text x = .ok (t.push piece) := by
  obtain ⟨c, hc, hcontent⟩ := text_eq_ok_iff.mp ht
  have hedit : f.editText x (.push piece) = .ok (f.setContent x (.text (t.push piece))) :=
    editText_eq_ok_iff.mpr ⟨c, _, hc, by rw [hcontent]; rfl, rfl⟩
  rw [exec, hedit]
  refine text_eq_ok_iff.mpr ⟨{ c with content := .text (t.push piece) }, ?_, rfl⟩
  refine (cell?_update f x x _).trans ?_
  rw [if_pos rfl, hc]
  rfl

/-- Nothing else changes a text, if it does not put raw text there. -/
theorem text_exec (hq : f.QueueSound) (ht : f.text x = .ok t) {command : Command}
    (hplain : command.AddsPlain x) (hpush : ∀ piece, command ≠ .editText x (.push piece))
    (ht' : (f.exec command).forest.text x = .ok t') : t' = t := by
  have hknown : f.Known x := .inl (lives_of_text ht)
  have horigin := origin_of_exec hq ht'
  generalize hanswer : (f.exec command).answer = answer at horigin
  cases horigin with
  | kept h => exact Except.ok.inj (h.symm.trans ht)
  | created h => exact absurd hknown (exec_node hq hanswer).1
  | appended h => exact absurd hknown (exec_node hq hanswer).1
  | copied h => exact absurd hknown (exec_node hq hanswer).1
  | @edited edit s h hedit =>
    cases edit with
    | push piece => exact absurd rfl (hpush piece)
    | pushRaw markup => exact absurd rfl hplain
    | replace markup => exact absurd rfl hplain
    | _ => cases hedit

/-- One command adds its plain text to a leaf, and nothing else. -/
theorem markup_exec (hq : f.QueueSound) (ht : f.text x = .ok t) {command : Command}
    (hplain : command.AddsPlain x) (ht' : (f.exec command).forest.text x = .ok t') :
    t'.markup = t.markup ++ escape (String.join (command.pieces x)) := by
  by_cases hpush : ∃ piece, command = .editText x (.push piece)
  · obtain ⟨piece, rfl⟩ := hpush
    obtain rfl : t.push piece = t' := Except.ok.inj ((text_push ht piece).symm.trans ht')
    simp [Command.pieces, Text.push]
  · obtain rfl := text_exec hq ht hplain (fun piece h => hpush ⟨piece, h⟩) ht'
    have hnone : command.pieces x = [] := by
      unfold Command.pieces
      split
      · next h piece =>
        refine if_neg ?_
        rintro rfl
        exact hpush ⟨piece, rfl⟩
      · rfl
    simp [hnone]

/-- A leaf of text that lives on is one after a command. -/
theorem exists_text_exec (hq : f.QueueSound) (ht : f.text x = .ok t) {command : Command}
    (hh : (f.exec command).forest.Lives x) : ∃ t', (f.exec command).forest.text x = .ok t' := by
  obtain ⟨c, hc, hcontent⟩ := text_eq_ok_iff.mp ht
  obtain ⟨d, hd⟩ := hh
  have hsort := Content.sort_eq_of_edits ((f.exec_change command).edited hq hc hd)
  have hkind : d.content.kind = .text := (congrArg Prod.fst hsort).trans (by rw [hcontent]; rfl)
  cases hdc : d.content with
  | text t' => exact ⟨t', text_eq_ok_iff.mpr ⟨d, hd, hdc⟩⟩
  | _ => rw [hdc] at hkind; cases hkind

/-- A run adds the pieces to a leaf in order. -/
theorem markup_run (hf : Reachable f) (commands : List Command) (ht : f.text x = .ok t)
    (hplain : ∀ c ∈ commands, c.AddsPlain x) (ht' : (f.run commands).text x = .ok t') :
    t'.markup = t.markup ++ escape (String.join (commands.flatMap (·.pieces x))) := by
  induction commands generalizing f t with
  | nil =>
    obtain rfl : t = t' := Except.ok.inj (ht.symm.trans ht')
    simp
  | cons command commands ih =>
    obtain ⟨k, hw⟩ := hf.wellFormed
    obtain ⟨hfirst, hrest⟩ := List.forall_mem_cons.mp hplain
    have hlives := lives_exec_of_lives_run (lives_of_text ht) (lives_of_text ht')
    obtain ⟨u, hu⟩ := exists_text_exec hw.queue ht hlives
    rw [ih (hf.exec command) hu hrest ht', markup_exec hw.queue ht hfirst hu, List.flatMap_cons,
      String.join_append, escape_append, String.append_assoc]

end Forest

/-- **Escaping is a homomorphism into clean text, and can be undone.** Text can be escaped in
pieces, and handing back what needs no escape changes nothing. The written form has no `<`, no `>`
and no quote, and each `&` in it is the front of an entity. Replacing the entities from left to
right gives the text back, so different texts have different written forms. A leaf to which plain
text is added in pieces, on its own or by the commands of a run, holds the written form of all of
it. -/
theorem escape_exact :
    (∀ a b, escape (a ++ b) = escape a ++ escape b) ∧
    (∀ text, escapeInPlace text = escape text) ∧
    (∀ text, ∀ c ∈ (escape text).toList, c ≠ '<' ∧ c ≠ '>' ∧ c ≠ '"' ∧ c ≠ '\'') ∧
    (∀ text before after, (escape text).toList = before ++ '&' :: after →
      ∃ entity ∈ entities, entity.toList <+: '&' :: after) ∧
    (∀ text, unescape (escape text) = text) ∧
    (∀ a b, escape a = escape b → a = b) ∧
    (∀ first pieces,
      (pieces.foldl Text.push (Text.new first)).markup = escape (first ++ String.join pieces)) ∧
    ∀ f x first commands t, Reachable f → f.text x = .ok (Text.new first) →
      (∀ c ∈ commands, c.AddsPlain x) → (f.run commands).text x = .ok t →
      t.markup = escape (first ++ String.join (commands.flatMap (·.pieces x))) := by
  refine ⟨escape_append, escapeInPlace_eq, fun text c hc => ?_, fun text before after h => ?_,
    unescape_escape, fun a b h => ?_, fun first pieces => ?_,
    fun f x first commands t hf htext hplain ht => ?_⟩
  · have hclean (d : Char) (hd : isDelimiter d = true) : c ≠ d := fun e =>
      not_mem_escape hd (e ▸ hc)
    exact ⟨hclean '<' rfl, hclean '>' rfl, hclean '"' rfl, hclean '\'' rfl⟩
  · rw [toList_escape] at h
    exact entity_of_ampersand h
  · rw [← unescape_escape a, h, unescape_escape]
  · rw [markup_foldl_push, Text.new, escape_append]
  · rw [Forest.markup_run hf commands htext hplain ht, Text.new, escape_append]

/-- An entity that is added in two pieces is text like any other, also in a leaf that is copied in
between. -/
theorem escape_exact_of_fragments :
    let f := Forest.empty.run [.create (.text "&am")]
    let commands : List Command := [.editText ⟨0, 0⟩ (.push "p;"), .copy ⟨0, 0⟩,
      .editText ⟨1, 0⟩ (.replace "<"), .editText ⟨0, 0⟩ (.setRaw true),
      .editText ⟨0, 0⟩ (.push "<")]
    (f.run commands).text ⟨0, 0⟩ = .ok ⟨"&amp;amp;&lt;"⟩ ∧
      "&amp;amp;&lt;" = escape ("&am" ++ String.join ["p;", "<"]) ∧
      (∃ entity ∈ entities, entity.toList <+: '&' :: "lt;".toList) ∧
      unescape "&amp;amp;&lt;" = "&amp;<" := by
  intro f commands
  obtain ⟨-, -, -, hentity, hback, -, -, hrun⟩ := escape_exact
  have hplain : ∀ c ∈ commands, c.AddsPlain ⟨0, 0⟩ := by
    simp [commands, Command.AddsPlain]
  have hmarkup := hrun f ⟨0, 0⟩ "&am" commands ⟨"&amp;amp;&lt;"⟩ (Reachable.empty.run _)
    (by decide) hplain (by decide)
  have hwritten : escape "&amp;<" = "&amp;amp;&lt;" := by decide
  refine ⟨by decide, hmarkup, hentity "&amp;<" "&amp;amp;".toList "lt;".toList (by decide), ?_⟩
  rw [← hwritten]
  exact hback "&amp;<"

end Markup

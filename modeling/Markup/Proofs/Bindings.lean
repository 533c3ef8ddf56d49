import Markup.Proofs.SafeExpansion

/-!
# Which bindings count

Any text may be bound in an environment, but a reference has only a few names: identifiers, `$`,
which is not looked up, and nothing, behind a stray `$`. So of all bindings only those of
identifiers and that of the empty name can show. The last one is a binding like any other: a stray
`$` shows the text bound to the empty name, and `undefined` only if there is none.

* `Environment.restrict`: the bindings of some names.
* `Template.name_of_mem_spans`: the names of references.
* `Template.portionsFrom_congr`: an expansion depends on its environment through the names of the
  references.
* `Template.fill_eq_iff`: a text with holes tells what was put in the holes, if it has one.
* `Template.exists_parts`: a stray `$` is such a hole.
* `Template.expand_restrict`: the other bindings play no role, and the one of the empty name plays
  none exactly when no stray `$` could show it.
-/

namespace Markup

/-- The bindings of the names that `p` allows. -/
def Environment.restrict (env : Environment) (p : String → Prop) [DecidablePred p] : Environment :=
  ⟨env.bindings.filter fun name _ => p name⟩

theorem Environment.get?_restrict (env : Environment) (p : String → Prop) [DecidablePred p]
    (name : String) :
    (env.restrict p).get? name = if p name then env.get? name else none := by
  rw [get?, restrict, Std.ExtTreeMap.getElem?_filter']
  by_cases hp : p name
  · simp only [hp, decide_true, if_true, get?]
    cases env.bindings[name]? <;> rfl
  · simp only [hp, decide_false, if_false]
    cases env.bindings[name]? <;> rfl

/-- The names that are looked up where they are bound. -/
theorem Environment.lookup_restrict (env : Environment) (p : String → Prop) [DecidablePred p]
    (name : String) :
    lookup (some (env.restrict p)) name = if p name then lookup (some env) name else undefined := by
  simp only [lookup, Option.bind_some, get?_restrict]
  split <;> rfl

namespace Template

variable {t : Template} {env env' : Option Environment}

/-- A reference is to an identifier, to `$`, or to nothing. -/
theorem name_of_mem_spans {text name : String} {s : Span} (hs : s ∈ Markup.spans text)
    (hname : s.name? text = some name) :
    name = String.singleton sigil ∨ name = "" ∨ IsIdentifier name.toList := by
  have hreferences : References 0 text.toList (Markup.spans text) := references_iff.mpr rfl
  obtain ⟨_, chars, _, -, hbefore, -, hread⟩ := (hreferences.cut s hs).exists_name
  obtain rfl : name = String.ofList chars := Option.some.inj (hname.symm.trans hread)
  cases hbefore with
  | dollar => exact .inl String.singleton_eq_ofList.symm
  | identifier hidentifier => exact .inr (.inr (by rwa [String.toList_ofList]))
  | empty => exact .inr (.inl String.ofList_nil)

/-- A dollar sign is not looked up, so what stands for a name depends on the look-up of other names
at most. -/
theorem substitute_congr {name : String}
    (h : name ≠ String.singleton sigil →
      Environment.lookup env name = Environment.lookup env' name) :
    t.substitute env name = t.substitute env' name := by
  unfold substitute
  split
  · rfl
  · next hne => rw [h hne]

/-- An expansion depends on its environment through the names of the references. -/
theorem portionsFrom_congr {spans : List Span}
    (h : ∀ s ∈ spans, ∀ name, s.name? t.text = some name →
      t.substitute env name = t.substitute env' name) (offset : Nat) :
    t.portionsFrom env offset spans = t.portionsFrom env' offset spans := by
  induction spans generalizing offset with
  | nil => rfl
  | cons s spans ih =>
    rw [portionsFrom, portionsFrom, ih fun x hx => h x (List.mem_cons_of_mem s hx)]
    cases hname : s.name? t.text with
    | none => rfl
    | some name =>
      have hsame := h s List.mem_cons_self name hname
      simp only [Option.bind_eq_bind, Option.bind_some, hsame]

/-! ## Holes -/

/-- The text with holes, the `none`s, filled with `v`. -/
def fill (v : String) (parts : List (Option String)) : String :=
  String.join (parts.map (·.getD v))

theorem fill_cons (v : String) (part : Option String) (parts : List (Option String)) :
    fill v (part :: parts) = part.getD v ++ fill v parts :=
  String.join_cons

/-- Each hole takes as much room as what is put in it. -/
theorem length_fill (v : String) (parts : List (Option String)) :
    (fill v parts).length = (fill "" parts).length + parts.count none * v.length := by
  induction parts with
  | nil => simp [fill]
  | cons part parts ih =>
    rw [fill_cons, fill_cons, String.length_append, String.length_append, ih]
    cases part with
    | none =>
      rw [List.count_cons_self, Nat.succ_mul]
      simp only [Option.getD_none, String.length_empty]
      omega
    | some p =>
      rw [List.count_cons_of_ne (Option.some_ne_none p)]
      simp only [Option.getD_some]
      omega

/-- A text with holes tells what was put in the holes. -/
theorem eq_of_fill_eq {v u : String} {parts : List (Option String)} (hhole : none ∈ parts)
    (h : fill v parts = fill u parts) : v = u := by
  have hlength : v.length = u.length := by
    have hsum := congrArg String.length h
    rw [length_fill v, length_fill u, Nat.add_left_cancel_iff] at hsum
    exact Nat.eq_of_mul_eq_mul_left (List.count_pos_iff.mpr hhole) hsum
  induction parts with
  | nil => cases hhole
  | cons part parts ih =>
    rw [fill_cons, fill_cons] at h
    have hchars := congrArg String.toList h
    rw [String.toList_append, String.toList_append] at hchars
    cases part with
    | none => exact String.toList_inj.mp (List.append_inj_left hchars hlength)
    | some p =>
      refine ih ?_ (String.toList_inj.mp (List.append_cancel_left hchars))
      exact (List.mem_cons.mp hhole).resolve_left (Option.some_ne_none p).symm

theorem fill_eq_iff {v u : String} {parts : List (Option String)} :
    fill v parts = fill u parts ↔ (none ∈ parts → v = u) := by
  refine ⟨fun h hhole => eq_of_fill_eq hhole h, fun h => ?_⟩
  refine congrArg String.join (List.map_congr_left fun part hpart => ?_)
  cases part with
  | none => exact h hpart
  | some p => rfl

/-- As far as the empty name is concerned an expansion is a text with holes, one for each stray
`$`. -/
theorem exists_parts {spans : List Span} {offset : Nat} {portions : List String}
    (hportions : t.portionsFrom env offset spans = some portions)
    (h : ∀ s ∈ spans, ∀ name, s.name? t.text = some name → name ≠ "" →
      t.substitute env name = t.substitute env' name) :
    ∃ parts : List (Option String),
      (none ∈ parts ↔ ∃ s ∈ spans, s.name? t.text = some "") ∧
      portions = parts.map (·.getD (t.substitute env "")) ∧
      t.portionsFrom env' offset spans = some (parts.map (·.getD (t.substitute env' ""))) := by
  induction spans generalizing offset portions with
  | nil =>
    obtain ⟨literal, hliteral, hshown⟩ := Option.bind_eq_some_iff.mp hportions
    obtain rfl : [t.shown literal] = portions := Option.some.inj hshown
    refine ⟨[some (t.shown literal)], by simp, rfl, ?_⟩
    rw [portionsFrom, hliteral]
    rfl
  | cons s spans ih =>
    rw [portionsFrom] at hportions
    obtain ⟨literal, hliteral, hportions⟩ := Option.bind_eq_some_iff.mp hportions
    obtain ⟨name, hname, hportions⟩ := Option.bind_eq_some_iff.mp hportions
    obtain ⟨rest, hrest, hportions⟩ := Option.bind_eq_some_iff.mp hportions
    obtain rfl : t.shown literal :: t.substitute env name :: rest = portions :=
      Option.some.inj hportions
    obtain ⟨parts, hhole, rfl, hparts⟩ := ih hrest fun x hx => h x (List.mem_cons_of_mem s hx)
    by_cases hempty : name = ""
    · subst hempty
      refine ⟨some (t.shown literal) :: none :: parts, ?_, rfl, ?_⟩
      · exact iff_of_true (by simp) ⟨s, List.mem_cons_self, hname⟩
      · rw [portionsFrom, hliteral, hname, hparts]
        rfl
    · have hsame := h s List.mem_cons_self name hname hempty
      refine ⟨some (t.shown literal) :: some (t.substitute env name) :: parts, ?_, rfl, ?_⟩
      · simp [hhole, hname, hempty]
      · rw [portionsFrom, hliteral, hname, hparts, hsame]
        rfl

/-! ## What can show -/

theorem shown_injective (t : Template) : Function.Injective t.shown := by
  intro a b h
  unfold shown at h
  split at h
  · exact h
  · exact escape_injective h

/-- A `$` with no name stands for what is bound to the empty name. -/
theorem substitute_empty (t : Template) (env : Option Environment) :
    t.substitute env "" = t.shown (Environment.lookup env "") := if_neg (by decide)

/-- **Of an environment only the bindings of identifiers and of the empty name show.** Without the
latter a template shows the same text, if and only if it has no stray `$` or `undefined` is what a
stray `$` stands for anyway. -/
theorem expand_restrict (text : String) (raw : Bool) (env : Environment) :
    let t := (new text).setRaw raw
    t.expand? (some (env.restrict fun name => name = "" ∨ IsIdentifier name.toList)) =
        t.expand? (some env) ∧
      (t.expand? (some (env.restrict fun name => IsIdentifier name.toList)) = t.expand? (some env) ↔
        ((∃ s ∈ Markup.spans text, s.name? text = some "") →
          Environment.lookup (some env) "" = Environment.undefined)) := by
  intro t
  have hnames : ∀ s ∈ t.spans, ∀ name, s.name? t.text = some name → name ≠ "" →
      t.substitute (some env) name =
        t.substitute (some (env.restrict fun name => IsIdentifier name.toList)) name := by
    intro s hs name hname hne
    refine substitute_congr fun hsigil => ?_
    have hidentifier := ((name_of_mem_spans hs hname).resolve_left hsigil).resolve_left hne
    exact ((env.lookup_restrict _ name).trans (if_pos hidentifier)).symm
  have hnone : Environment.lookup (some (env.restrict fun name => IsIdentifier name.toList)) "" =
      Environment.undefined := (env.lookup_restrict _ "").trans (if_neg (by decide))
  constructor
  · refine congrArg (Option.map String.join) (portionsFrom_congr (fun s hs name hname => ?_) 0)
    refine substitute_congr fun hsigil => (env.lookup_restrict _ name).trans (if_pos ?_)
    exact (name_of_mem_spans hs hname).resolve_left hsigil
  · -- the two results are one text with holes, filled with what the empty name stands for
    have hread := portions?_eq (t := t) rfl (some env)
    obtain ⟨parts, hhole, hfill, hportions⟩ := exists_parts hread hnames
    have hexpand : t.expand? (some env) =
        some (fill (t.shown (Environment.lookup (some env) "")) parts) := by
      rw [expand?, hread, hfill, substitute_empty]
      rfl
    have hrestricted : t.expand? (some (env.restrict fun name => IsIdentifier name.toList)) =
        some (fill (t.shown Environment.undefined) parts) := by
      rw [expand?, portions?, hportions, substitute_empty, hnone]
      rfl
    rw [hexpand, hrestricted, Option.some_inj, fill_eq_iff, hhole]
    exact imp_congr_right fun _ => t.shown_injective.eq_iff.trans eq_comm

/-- A text bound to the empty name shows at a stray `$`. -/
theorem expand_restrict_of_dollar :
    ¬ ∀ (text : String) (raw : Bool) (env : Environment),
      ((new text).setRaw raw).expand? (some (env.restrict fun name => IsIdentifier name.toList)) =
        ((new text).setRaw raw).expand? (some env) := by
  intro h
  have hrestrict : (Environment.empty.insert "" "E").restrict (IsIdentifier ·.toList) =
      Environment.empty := by
    refine Environment.ext_get? fun name => ?_
    rw [Environment.get?_restrict, Environment.get?_insert]
    split
    · next hname => rw [if_neg fun hempty => by subst hempty; exact absurd hname (by decide)]
    · rfl
  have hdollar := h "$" false (Environment.empty.insert "" "E")
  rw [hrestrict] at hdollar
  exact absurd hdollar (by decide)

end Template

end Markup

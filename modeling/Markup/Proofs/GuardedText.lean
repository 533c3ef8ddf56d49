import Markup.Proofs.Guarded
import Markup.Proofs.References

/-!
# Guarded template text

A template is read and expanded by cutting its text at byte positions. Every cut here has a guard:
it is a trap to cut inside of a character, behind the end, or between two positions in the wrong
order: those of `parse_vars`, and those of `chunks`. The positions that reading comes to, and those
of the references that it found, are never of that kind.

* `Guarded.spans_eq`: reading cuts the text in front of every `$` and behind every name.
* `Guarded.portions_eq`: expansion cuts the text at the references of the text.
* `Guarded.content_eq`, `Guarded.edit?_eq`: so leaves are made and edited without a trap.
-/

namespace Markup

namespace Guarded

/-- The text from byte `start` up to byte `stop`. -/
def slice (text : String) (start stop : Nat) : Guarded String :=
  match slice? text start stop with
  | some middle => .ok middle
  | none => .error (.cut start stop)

/-- The text from byte `start` on. -/
def sliceFrom (text : String) (start : Nat) : Guarded String := slice text start text.utf8ByteSize

theorem slice_eq {text middle : String} {start stop : Nat}
    (h : slice? text start stop = some middle) : slice text start stop = .ok middle := by
  rw [slice, h]

theorem sliceFrom_eq {text : String} {a b : List Char} (htext : text.toList = a ++ b) :
    sliceFrom text (utf8Len a) = .ok (String.ofList b) := by
  have hsize : text.utf8ByteSize = utf8Len (a ++ b) := by rw [utf8ByteSize_eq_utf8Len, htext]
  have hcut : text.toList = a ++ b ++ [] := by rw [htext, List.append_nil]
  rw [sliceFrom, hsize]
  exact slice_eq (slice?_of_toList hcut)

/-! ## Reading references -/

/-- The position of the first `$`. -/
def findSigil : List Char → Option Nat
  | [] => none
  | c :: cs => if c = sigil then some 0 else (findSigil cs).map (c.utf8Size + ·)

/-- The references from byte `offset` on; there should be fewer than `n`. -/
def spansFrom (text : String) : Nat → Nat → Guarded (List Span)
  | 0, _ => .error .endless
  | n + 1, offset => do
    match findSigil (← sliceFrom text offset).toList with
    | none => return []
    | some i => do
      let behind ← sliceFrom text (offset + i + 1)
      let s : Span := ⟨offset + i, 1 + utf8Len (nameAfter behind.toList)⟩
      return s :: (← spansFrom text n s.stop)

/-- The references in a text, from left to right. -/
def spans (text : String) : Guarded (List Span) := spansFrom text (text.toList.length + 1) 0

theorem findSigil_eq_none {cs : List Char} (h : sigil ∉ cs) : findSigil cs = none := by
  induction cs with
  | nil => rfl
  | cons c cs ih =>
    obtain ⟨hc, hcs⟩ := not_or.mp (mt List.mem_cons.mpr h)
    rw [findSigil, if_neg (Ne.symm hc), ih hcs]
    rfl

theorem findSigil_append {front : List Char} (h : sigil ∉ front) (behind : List Char) :
    findSigil (front ++ sigil :: behind) = some (utf8Len front) := by
  induction front with
  | nil => rfl
  | cons c front ih =>
    obtain ⟨hc, hfront⟩ := not_or.mp (mt List.mem_cons.mpr h)
    rw [List.cons_append, findSigil, if_neg (Ne.symm hc), ih hfront]
    rfl

/-- The first `$` is that of the first reference. -/
theorem scan_append_sigil {front : List Char} (h : sigil ∉ front) (behind : List Char)
    (offset : Nat) :
    scan offset 0 (front ++ sigil :: behind) =
      ⟨offset + utf8Len front, 1 + utf8Len (nameAfter behind)⟩ ::
        scan (offset + utf8Len front + (1 + utf8Len (nameAfter behind))) 0
          (behind.drop (nameAfter behind).length) := by
  induction front generalizing offset with
  | nil =>
    rw [List.nil_append, scan, if_pos rfl, scan_nameAfter, Nat.add_assoc]
    rfl
  | cons c front ih =>
    obtain ⟨hc, hfront⟩ := not_or.mp (mt List.mem_cons.mpr h)
    rw [List.cons_append, scan, if_neg (Ne.symm hc), ih hfront, utf8Len_cons, Nat.add_assoc offset]

/-- Behind a cut there is no `$`, or a first one with its name, and reading goes on behind that. -/
theorem scan_cases (before cs : List Char) :
    sigil ∉ cs ∧ scan (utf8Len before) 0 cs = [] ∨
      ∃ front name rest, sigil ∉ front ∧ cs = front ++ sigil :: (name ++ rest) ∧
        nameAfter (name ++ rest) = name ∧
        scan (utf8Len before) 0 cs = ⟨utf8Len (before ++ front), 1 + utf8Len name⟩ ::
          scan (utf8Len (before ++ front ++ sigil :: name)) 0 rest := by
  by_cases hmem : sigil ∈ cs
  · obtain ⟨front, behind, rfl, hfront⟩ := List.eq_append_cons_of_mem hmem
    obtain ⟨rest, hname⟩ := nameAfter_prefix behind
    have hdrop : behind.drop (nameAfter behind).length = rest := by
      nth_rewrite 2 [← hname]
      exact List.drop_left
    refine .inr ⟨front, nameAfter behind, rest, hfront, by rw [hname], by rw [hname], ?_⟩
    rw [scan_append_sigil hfront, hdrop, utf8Len_append_sigil, utf8Len_append]
  · exact .inl ⟨hmem, scan_eq_nil_of_not_mem hmem _⟩

/-- Reading from a cut on finds the references from there on. -/
theorem spansFrom_eq {text : String} {before cs : List Char} (htext : text.toList = before ++ cs)
    {n : Nat} (hn : cs.length < n) :
    spansFrom text n (utf8Len before) = .ok (scan (utf8Len before) 0 cs) := by
  -- every round goes past a name, so the induction is on the rounds
  induction n generalizing before cs with
  | zero => exact absurd hn (Nat.not_lt_zero _)
  | succ n ih =>
    rw [spansFrom, bind_of_ok (sliceFrom_eq htext), String.toList_ofList]
    rcases scan_cases before cs with
      ⟨hmem, hscan⟩ | ⟨front, name, rest, hfront, rfl, hname, hscan⟩
    · rw [findSigil_eq_none hmem, hscan]
      rfl
    · have hbehind : text.toList = (before ++ front ++ [sigil]) ++ (name ++ rest) := by
        rw [htext]
        simp
      have hrest : text.toList = (before ++ front ++ sigil :: name) ++ rest := by
        rw [htext]
        simp
      have hstart : utf8Len (before ++ front) + 1 = utf8Len (before ++ front ++ [sigil]) :=
        (utf8Len_append_sigil _ []).symm
      have hlen : rest.length < n := by
        simp only [List.length_append, List.length_cons] at hn
        omega
      rw [findSigil_append hfront, hscan]
      simp only [← utf8Len_append before front, hstart, bind_of_ok (sliceFrom_eq hbehind),
        String.toList_ofList, Span.stop, hname, ← utf8Len_append_sigil, bind_of_ok (ih hrest hlen)]
      rfl

/-- Reading cuts the text in front of every `$` and behind every name, and ends. -/
theorem spans_eq (text : String) : spans text = .ok (Markup.spans text) :=
  spansFrom_eq (List.nil_append _).symm (Nat.lt_succ_self _)

/-! ## Expansion -/

/-- What stands for a reference: its `$`, if that is its name, and else the text that the
environment gives the name. -/
def substitute (t : Template) (env : Option Environment) (s : Span) : Guarded String := do
  let name ← slice t.text (s.start + 1) s.stop
  if name = String.singleton sigil then slice t.text s.start (s.start + 1)
  else return t.shown (Environment.lookup env name)

/-- The portions of the result from byte `offset` on, where the given references remain. -/
def portionsFrom (t : Template) (env : Option Environment) :
    Nat → List Span → Guarded (List String)
  | offset, [] => do return [t.shown (← sliceFrom t.text offset)]
  | offset, s :: rest => do
    let literal ← slice t.text offset s.start
    let value ← substitute t env s
    return t.shown literal :: value :: (← portionsFrom t env s.stop rest)

/-- The portions of the result. -/
def portions (t : Template) (env : Option Environment) : Guarded (List String) :=
  portionsFrom t env 0 t.spans

/-- In front of the name of a reference there is a `$`. -/
theorem slice?_sigil {text : String} {s : Span} (hs : s ∈ Markup.spans text) :
    slice? text s.start (s.start + 1) = some (String.singleton sigil) := by
  have hcut := (references_iff.mpr rfl : References 0 text.toList (Markup.spans text)).cut s hs
  obtain ⟨before, name, behind, htext, -, hstart, -⟩ := hcut.exists_name
  rw [hstart]
  exact slice?_sigil_of_toList htext

theorem substitute_eq {t : Template} (env : Option Environment) {s : Span} {name : String}
    (hname : s.name? t.text = some name) (hs : s ∈ Markup.spans t.text) :
    substitute t env s = .ok (t.substitute env name) := by
  rw [substitute, bind_of_ok (slice_eq hname), Template.substitute]
  split
  · next e => rw [slice_eq (slice?_sigil hs), e]
  · rfl

theorem portionsFrom_eq {t : Template} {env : Option Environment} {rest : List Span} {offset : Nat}
    {result : List String} (hrest : ∀ s ∈ rest, s ∈ Markup.spans t.text)
    (h : t.portionsFrom env offset rest = some result) :
    portionsFrom t env offset rest = .ok result := by
  induction rest generalizing offset result with
  | nil =>
    obtain ⟨literal, hliteral, hresult⟩ := Option.bind_eq_some_iff.mp h
    cases hresult
    exact bind_of_ok (slice_eq hliteral) _
  | cons s rest ih =>
    obtain ⟨literal, hliteral, h⟩ := Option.bind_eq_some_iff.mp h
    obtain ⟨name, hname, h⟩ := Option.bind_eq_some_iff.mp h
    obtain ⟨portions, hportions, hresult⟩ := Option.bind_eq_some_iff.mp h
    cases hresult
    have hrest' := ih (fun x hx => hrest x (List.mem_cons_of_mem s hx)) hportions
    rw [portionsFrom, bind_of_ok (slice_eq hliteral),
      bind_of_ok (substitute_eq env hname (hrest s List.mem_cons_self)), bind_of_ok hrest']
    rfl

/-- With the references of its text a template is expanded, and every cut on the way is one. -/
theorem portions_eq {t : Template} (ht : t.spans = Markup.spans t.text)
    (env : Option Environment) :
    ∃ result, t.portions? env = some result ∧ portions t env = .ok result := by
  have hresult := Template.portions?_eq ht env
  exact ⟨_, hresult, portionsFrom_eq (fun s hs => ht ▸ hs) hresult⟩

/-! ## Leaves -/

/-- What a new node holds; a template is read at once. -/
def content : Seed → Guarded Content
  | .template source => do return .template ⟨source, ← spans source, false⟩
  | .rawTemplate source => do return .template ⟨source, ← spans source, true⟩
  | seed => return seed.content

/-- Puts another text in place of that of a template, and reads it. -/
def replace (t : Template) (text : String) : Guarded Content := do
  return .template { t with text, spans := ← spans text }

/-- Edits a leaf; the whole text of a template is read again. -/
def edit? : Content → TextEdit → Guarded (Option Content)
  | .template t, .replace s => do return some (← replace t s)
  | .template t, .pushTemplate s => do return some (← replace t (t.text ++ s))
  | .template t, .replaceTemplate s => do return some (← replace t s)
  | c, edit => return c.edit? edit

theorem content_eq (seed : Seed) : content seed = .ok seed.content := by
  cases seed with
  | template source => exact bind_of_ok (spans_eq source) _
  | rawTemplate source => exact bind_of_ok (spans_eq source) _
  | _ => rfl

theorem replace_eq (t : Template) (text : String) :
    replace t text = .ok (.template (t.replace text)) :=
  bind_of_ok (spans_eq text) _

theorem edit?_eq (c : Content) (edit : TextEdit) : edit? c edit = .ok (c.edit? edit) := by
  unfold edit?
  split
  · exact bind_of_ok (replace_eq _ _) _
  · exact bind_of_ok (replace_eq _ _) _
  · exact bind_of_ok (replace_eq _ _) _
  · rfl

end Guarded

end Markup

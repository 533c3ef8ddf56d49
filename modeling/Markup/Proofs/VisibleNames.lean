import Markup.Proofs.Accounts
import Markup.Proofs.Bindings
import Markup.Proofs.Fronts
import Mathlib.Data.List.Induction

/-!
# What a rendering sees of its environment

A rendering looks names up where templates have references, and only in templates that it comes to.
So two environments that give these names the same texts, or leave the same of them unbound, cannot
be told apart by any rendering, and a binding that only hidden nodes refer to never shows.

An environment is no more than its bindings. How it came to have them, by which insertions and
removals and in which order, plays no role, and neither does a way through a document that lists the
bindings in some order.

* `Forest.ShowsName`: a name that a rendering looks up.
* `Forest.Grows.tokens_congr`: tokens depend on the environment through these names.
* `Environment.get?_ofEdits`, `Environment.ofList_of_perm`: what histories and documents bind.
* `Reachable.renders_visible_names`: all that a rendering sees of its environment.
-/

namespace Markup

/-! ## Histories and documents -/

namespace Environment

/-- A step in the history of an environment. -/
structure Edit where
  name : String
  /-- The text that is bound to it from then on; without one it is unbound. -/
  value : Option String
deriving DecidableEq, Repr

/-- The environment after one more step. -/
def edit (env : Environment) (e : Edit) : Environment :=
  match e.value with
  | some value => env.insert e.name value
  | none => env.remove e.name

/-- The environment with the given history. -/
def ofEdits (edits : List Edit) : Environment := edits.foldl edit empty

/-- What the last step about a name left it with. -/
def lastBound (edits : List Edit) (name : String) : Option String :=
  (edits.reverse.find? fun e => e.name = name).bind (·.value)

theorem get?_empty (name : String) : empty.get? name = none := by
  simp [empty, get?]

theorem get?_edit (env : Environment) (e : Edit) (name : String) :
    (env.edit e).get? name = if e.name = name then e.value else env.get? name := by
  unfold edit
  split
  · next value hvalue => rw [get?_insert, hvalue]
  · next hvalue => rw [get?_remove, hvalue]

/-- Of a history only the last step about a name counts. -/
theorem get?_ofEdits (edits : List Edit) (name : String) :
    (ofEdits edits).get? name = lastBound edits name := by
  induction edits using List.reverseRecOn with
  | nil => exact get?_empty name
  | append_singleton edits e ih =>
    have hstep : ofEdits (edits ++ [e]) = (ofEdits edits).edit e := List.foldl_append
    rw [hstep, get?_edit, ih, lastBound, lastBound, List.reverse_concat, List.find?_cons]
    by_cases hname : e.name = name <;> simp [hname]

/-- Read from a list that has no name twice, an environment binds what the list says. -/
theorem mem_iff_get?_ofList {members : List (String × String)}
    (hn : (members.map Prod.fst).Nodup) {name value : String} :
    (name, value) ∈ members ↔ (ofList members).get? name = some value := by
  induction members using List.reverseRecOn with
  | nil => simp [ofList, get?_empty]
  | append_singleton members m ih =>
    have hstep : ofList (members ++ [m]) = (ofList members).insert m.1 m.2 := List.foldl_append
    rw [List.map_append, List.map_singleton, List.nodup_append] at hn
    obtain ⟨hn, -, hnew⟩ := hn
    rw [hstep, get?_insert, List.mem_append, List.mem_singleton, ih hn, Prod.ext_iff]
    split
    · next hname =>
      -- the name is that of the last member, so nobody in front has it
      have hnot : (ofList members).get? name ≠ some value := fun hbound =>
        hnew name (List.mem_map.mpr ⟨_, (ih hn).mpr hbound, rfl⟩) m.1 List.mem_cons_self hname.symm
      simp [hnot, hname, eq_comm]
    · next hname => simp [Ne.symm hname]

/-- The bindings, listed in any order, give back the environment. -/
theorem ofList_of_perm {env : Environment} {members : List (String × String)}
    (h : members.Perm env.toList) : ofList members = env := by
  have hn : (members.map Prod.fst).Nodup := by
    refine (h.map Prod.fst).nodup_iff.mpr (List.pairwise_map.mpr ?_)
    refine (Std.ExtTreeMap.distinct_keys_toList (t := env.bindings)).imp fun hne heq => hne ?_
    exact Std.LawfulEqCmp.compare_eq_iff_eq.mpr heq
  refine ext_get? fun name => Option.ext fun value => ?_
  rw [← mem_iff_get?_ofList hn, h.mem_iff]
  exact Std.ExtTreeMap.mem_toList_iff_getElem?_eq_some

end Environment

/-! ## Names that a rendering looks up -/

namespace Forest

variable {f : Forest} {k : Kinship} {r x p : Handle} {env env' : Option Environment}

/-- A rendering of `r` looks the name up: a template that is visible from `r` refers to it. A dollar
sign is not looked up. -/
def ShowsName (f : Forest) (r : Handle) (name : String) : Prop :=
  name ≠ String.singleton sigil ∧
    ∃ x c t s, f.VisibleFrom r x ∧ f.cell? x = some c ∧ c.content.template? = some t ∧
      s ∈ t.spans ∧ s.name? t.text = some name

/-- The environments give the names that a rendering of `r` looks up the same texts, or leave them
both unbound. -/
def AgreeFor (f : Forest) (r : Handle) (env env' : Option Environment) : Prop :=
  ∀ name, f.ShowsName r name → env.bind (·.get? name) = env'.bind (·.get? name)

/-- Where a visible node starts, both environments give the same token. -/
theorem AgreeFor.openToken_eq (h : f.AgreeFor r env env') (hx : f.VisibleFrom r x) {c : Cell}
    (hc : f.cell? x = some c) : c.content.openToken env x = c.content.openToken env' x := by
  cases hcontent : c.content with
  | template t =>
    have hportions : t.portions? env = t.portions? env' := by
      refine Template.portionsFrom_congr (fun s hs name hname => ?_) 0
      refine Template.substitute_congr fun hsigil => ?_
      refine congrArg (fun found : Option String => found.getD Environment.undefined) ?_
      exact h name ⟨hsigil, x, c, t, s, hx, hc, by rw [hcontent]; rfl, hs, hname⟩
    rw [Content.openToken, Content.openToken, hportions]
  | _ => rfl

/-- Trees have the same tokens in both environments if their roots are visible where they are not
hidden. -/
theorem Grows.tokens_congr (h : f.AgreeFor r env env') (hs : f.Shows k)
    {row : List Handle} {g : Grove} (hg : f.Grows k row g)
    (hrow : ∀ x ∈ row, f.isHidden x = false → f.VisibleFrom r x) :
    g.tokens env = g.tokens env' := by
  induction hg with
  | nil => rfl
  | @tree x c row below rest hc _ _ ihb ihr =>
    rw [Grove.tokens, Grove.tokens, ihr fun y hy => hrow y (List.mem_cons_of_mem x hy)]
    cases hhidden : c.hidden with
    | true => rfl
    | false =>
      have hvisible : f.VisibleFrom r x :=
        hrow x List.mem_cons_self ((isHidden_of_cell? hc).trans hhidden)
      rw [h.openToken_eq hvisible hc,
        ihb fun y hy => hvisible.child hs (hs.lawful.mem_children.mp hy)]

/-- No rendering of `r` tells the environments apart: the output is the same, and so is all that
becomes of it in a sink. -/
def RendersAlike (f : Forest) (r : Handle) (env env' : Option Environment) : Prop :=
  ∀ layout, f.output r layout env = f.output r layout env' ∧
    ∀ sink, f.exec (.render r layout env sink) = f.exec (.render r layout env' sink)

theorem rendersAlike_of_pieces
    (h : ∀ layout, f.pieces r layout env = f.pieces r layout env') : f.RendersAlike r env env' := by
  intro layout
  refine ⟨by rw [output, output, h], fun sink => ?_⟩
  rw [exec, exec, render, render, h]

end Forest

open Forest in
/-- Environments that agree on the names that a rendering looks up are alike for it. -/
theorem Reachable.rendersAlike_of_agreeFor {f : Forest} (hf : Reachable f) {r : Handle}
    (hr : f.Lives r) {env env' : Option Environment} (h : f.AgreeFor r env env') :
    f.RendersAlike r env env' := by
  obtain ⟨k, hw⟩ := hf.wellFormed
  refine rendersAlike_of_pieces fun layout => ?_
  have htokens := (hw.shows.grows_grove hr).tokens_congr h hw.shows fun x hx hvisible => by
    obtain rfl := List.mem_singleton.mp hx
    have hfront : f.FrontOf none x x "" := .root hvisible
    exact hfront.visibleFrom hw.shows
  rw [hf.pieces_eq hr, hf.pieces_eq hr, htokens]

/-- **A rendering sees its environment through visible references only.** Environments are alike for
it when they agree on the names that it looks up; so any binding of another name can come and go.
And environments with the same bindings are alike whatever their histories, and so is one that was
read back from a list of its bindings. -/
theorem Reachable.renders_visible_names {f : Forest} (hf : Reachable f) {r : Handle}
    (hr : f.Lives r) :
    (∀ env env', f.AgreeFor r env env' → f.RendersAlike r env env') ∧
      (∀ env name, ¬ f.ShowsName r name → ∀ value,
        f.RendersAlike r (some (env.insert name value)) (some env) ∧
          f.RendersAlike r (some (env.remove name)) (some env)) ∧
      (∀ env env' : Environment, (∀ name, env.get? name = env'.get? name) →
        f.RendersAlike r (some env) (some env')) ∧
      (∀ edits edits', (∀ name, Environment.lastBound edits name =
          Environment.lastBound edits' name) →
        f.RendersAlike r (some (Environment.ofEdits edits))
          (some (Environment.ofEdits edits'))) ∧
      ∀ env members, members.Perm env.toList →
        f.RendersAlike r (some (Environment.ofList members)) (some env) := by
  have hagree : ∀ {env env' : Environment},
      (∀ name, f.ShowsName r name → env.get? name = env'.get? name) →
        f.RendersAlike r (some env) (some env') := fun h => hf.rendersAlike_of_agreeFor hr h
  refine ⟨fun env env' => hf.rendersAlike_of_agreeFor hr, fun env name hnot value => ?_,
    fun env env' h => hagree fun name _ => h name, fun edits edits' h => ?_,
    fun env members h => ?_⟩
  · have hne : ∀ other, f.ShowsName r other → name ≠ other := fun _ hother e => hnot (e ▸ hother)
    refine ⟨hagree fun other hother => ?_, hagree fun other hother => ?_⟩
    · rw [Environment.get?_insert, if_neg (hne other hother)]
    · rw [Environment.get?_remove, if_neg (hne other hother)]
  · refine hagree fun name _ => ?_
    rw [Environment.get?_ofEdits, Environment.get?_ofEdits, h]
  · rw [Environment.ofList_of_perm h]
    exact hagree fun name _ => rfl

/-- A name that only a hidden template refers to, bound, and read back from a list. -/
theorem renders_visible_names_of_hidden :
    let f := Forest.empty.run [.create (.element .p), .appendNew ⟨0, 0⟩ (.template "$x$$"),
      .appendNew ⟨0, 0⟩ (.template "$y"), .setHidden ⟨2, 0⟩ true]
    let env := Environment.empty.insert "x" "1"
    f.output ⟨0, 0⟩ .compact (some env) = .ok "<p>1$</p>" ∧ ¬ f.ShowsName ⟨0, 0⟩ "y" ∧
      f.output ⟨0, 0⟩ .compact (some (env.insert "y" "2")) = .ok "<p>1$</p>" ∧
      f.output ⟨0, 0⟩ .compact (some (Environment.ofList [("y", "2"), ("x", "1")])) =
        .ok "<p>1$</p>" := by
  intro f env
  have hf : Reachable f := Reachable.empty.run _
  have houtput : f.output ⟨0, 0⟩ .compact (some env) = .ok "<p>1$</p>" := by decide
  have hnot : ¬ f.ShowsName ⟨0, 0⟩ "y" := by
    rintro ⟨-, x, c, t, s, hvisible, hc, ht, hs, hname⟩
    have hmem : x ∈ [⟨0, 0⟩, ⟨1, 0⟩, ⟨2, 0⟩] :=
      (by decide : f.nodes = [⟨0, 0⟩, ⟨1, 0⟩, ⟨2, 0⟩]) ▸ Forest.mem_nodes.mpr ⟨c, hc⟩
    simp only [List.mem_cons, List.not_mem_nil, or_false] at hmem
    rcases hmem with rfl | rfl | rfl
    · cases hc
      cases ht
    · cases hc
      cases ht
      have hspans : s ∈ [⟨0, 2⟩, ⟨2, 2⟩] := hs
      simp only [List.mem_cons, List.not_mem_nil, or_false] at hspans
      rcases hspans with rfl | rfl <;> exact absurd hname (by decide)
    · have hshown := hvisible.2 ⟨2, 0⟩ hvisible.1 (.inl rfl)
      exact absurd hshown (by decide)
  obtain ⟨-, hbound, -, -, hlisted⟩ := hf.renders_visible_names (r := ⟨0, 0⟩) ⟨_, rfl⟩
  have hinsert := (((hbound env "y" hnot "2").1 .compact).1).trans houtput
  have hread := ((hlisted (env.insert "y" "2") [("y", "2"), ("x", "1")] (by decide)) .compact).1
  exact ⟨houtput, hnot, hinsert, hread.trans hinsert⟩

end Markup

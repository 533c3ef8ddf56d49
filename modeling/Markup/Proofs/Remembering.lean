import Markup.Proofs.Faults
import Markup.Proofs.Fronts
import Mathlib.Data.List.Perm.Subperm

/-!
# What a rendering remembers

A rendering reads the forest and leaves it as it is, but for one thing: compact output remembers the
open tags that were rendered on the way. Those are the tags of visible elements that the output came
to before the sink failed.

* `Forest.remembers`: whether the open tag of a node is remembered.
* `Forest.ReachesTag`: the output comes to an open tag within so many bytes.
* `Forest.OnlyRemembers`: what a compact rendering leaves behind.
* `Reachable.renders_readOnly`: every compact rendering leaves just that, and a pretty one nothing.
-/

namespace Markup

/-- No report tells of a rendered tag. -/
def Outcome.RendersNoTag (o : Outcome) : Prop := ∀ name, .openTag name ∉ o.log

namespace Forest

variable {f f' : Forest} {k : Kinship} {env : Option Environment} {r x h : Handle}

/-! ## Remembered tags -/

/-- Whether the node has an element that remembers its open tag. -/
def remembers (f : Forest) (x : Handle) : Bool := ((f.element? x).bind (·.cachedTag)).isSome

theorem remembers_of_element? {e : Element} (he : f.element? x = some e) :
    f.remembers x = e.cachedTag.isSome := by
  rw [remembers, he, Option.bind_some]

theorem element?_rememberTag (f : Forest) (h x : Handle) :
    (f.rememberTag h).element? x =
      if x = h then (f.element? x).map Element.rememberTag else f.element? x := by
  rw [element?, rememberTag, cell?_update]
  split
  · next e =>
    subst e
    rw [element?]
    cases f.cell? x with
    | none => rfl
    | some c =>
      cases hc : c.content <;>
        simp [hc, Content.rememberTag, Content.element?, Content.withElement]
  · rfl

/-- A tag is remembered if it was, or if it was to be remembered. -/
theorem remembers_rememberAll (f : Forest) (hs : List Handle) (x : Handle) :
    (hs.foldl rememberTag f).remembers x = true ↔
      f.remembers x = true ∨ x ∈ hs ∧ (f.element? x).isSome = true := by
  induction hs generalizing f with
  | nil => simp
  | cons h hs ih =>
    rw [List.foldl_cons, ih, remembers, remembers, element?_rememberTag]
    by_cases hx : x = h
    · subst hx
      cases f.element? x <;> simp [Element.rememberTag]
    · simp [hx]

theorem forgetTags_rememberTag (f : Forest) (h : Handle) :
    (f.rememberTag h).forgetTags = f.forgetTags := by
  refine congrArg (Forest.mk · f.free) (Array.ext_getElem? fun i => ?_)
  simp only [rememberTag, update, Array.getElem?_map, Array.getElem?_modify]
  split
  · cases f.slots[i]? with
    | none => rfl
    | some s =>
      simp only [Option.map_some]
      split
      · cases s.cell with
        | none => rfl
        | some c => simp [Content.forgetTag_rememberTag]
      · rfl
  · rfl

theorem forgetTags_rememberAll (f : Forest) (hs : List Handle) :
    (hs.foldl rememberTag f).forgetTags = f.forgetTags := by
  induction hs generalizing f with
  | nil => rfl
  | cons h hs ih => rw [List.foldl_cons, ih, forgetTags_rememberTag]

theorem lives_forgetTags (f : Forest) : f.forgetTags.Lives = f.Lives := by
  funext x
  rw [lives_iff_isSome, lives_iff_isSome, cell?_forgetTags, Option.isSome_map]

/-- Who is visible does not depend on remembered tags. -/
theorem visibleFrom_forgetTags (f : Forest) : f.forgetTags.VisibleFrom = f.VisibleFrom := by
  have hhidden : f.forgetTags.isHidden = f.isHidden := by
    funext x
    rw [isHidden, isHidden, cell?_forgetTags]
    cases f.cell? x <;> rfl
  have habove : f.forgetTags.Above = f.Above := by
    have hparent : (fun p x => f.forgetTags.Lives x ∧ f.forgetTags.parent? x = some p) =
        fun p x => f.Lives x ∧ f.parent? x = some p := by
      funext p x
      rw [lives_forgetTags, parent?, parent?, links_forgetTags]
    rw [Above, Above, hparent]
  funext r x
  rw [VisibleFrom, VisibleFrom, hhidden, habove]

/-- Forests that differ in remembered tags only have the same nodes. -/
theorem lives_of_same (h : f'.forgetTags = f.forgetTags) (hr : f.Lives r) : f'.Lives r := by
  rwa [← lives_forgetTags, h, lives_forgetTags]

theorem isSome_element?_of_same (h : f'.forgetTags = f.forgetTags) (x : Handle) :
    (f'.element? x).isSome = (f.element? x).isSome := by
  have hisSome := congrArg (fun g => (element? g x).isSome) h
  simpa only [element?_forgetTags, Option.isSome_map] using hisSome

theorem visibleFrom_of_same (h : f'.forgetTags = f.forgetTags) :
    f'.VisibleFrom = f.VisibleFrom := by
  rw [← visibleFrom_forgetTags, h, visibleFrom_forgetTags]

/-! ## What a compact rendering leaves behind -/

/-- The compact output of `r` comes to the open tag of `x` within the first `count` bytes: `x` has
an element, and its front is no longer, with the doctype that leads the tag of a document. -/
def ReachesTag (f : Forest) (env : Option Environment) (r : Handle) (count : Nat) (x : Handle) :
    Prop :=
  ∃ c front, f.cell? x = some c ∧ c.content.element?.isSome = true ∧ f.FrontOf env r x front ∧
    (utf8 (front ++ c.content.lead)).length ≤ count

/-- The nodes at and below `r` that remember a tag in `f'` and did not in `f`, in order. -/
def newlyRemembered (f f' : Forest) (r : Handle) : List Handle :=
  (f.descendants r).filter fun x => !f.remembers x && f'.remembers x

/-- The reports that the tags of the nodes are rendered. -/
def tagReports (f : Forest) (xs : List Handle) : List Event :=
  xs.filterMap fun x => (f.element? x).map fun e => .openTag e.name

/-- The outcome of a compact rendering of `r`: a forest that remembers more tags, and the reports of
these tags, each of them once. -/
structure OnlyRemembers (f : Forest) (env : Option Environment) (r : Handle) (o : Outcome) :
    Prop where
  same : o.forest.forgetTags = f.forgetTags
  /-- A tag is remembered if it was before, or if the sink took everything in front of it. -/
  remembers_iff : ∀ x, o.forest.remembers x = true ↔
    f.remembers x = true ∨ f.ReachesTag env r o.taken.size x
  mem_newlyRemembered_iff : ∀ x, x ∈ f.newlyRemembered o.forest r ↔
    f.remembers x = false ∧ o.forest.remembers x = true
  nodup : (f.newlyRemembered o.forest r).Nodup
  reports :
    o.answer = .ok (.written o.taken.size) ∧ o.log = f.tagReports (f.newlyRemembered o.forest r) ∨
    ∃ cause, o.answer = .error (.unwritten o.taken.size cause) ∧
      o.log = f.tagReports (f.newlyRemembered o.forest r) ++ [.aborted o.taken.size cause]

theorem ReachesTag.isSome_element? {count : Nat} (h : f.ReachesTag env r count x) :
    (f.element? x).isSome = true := by
  obtain ⟨c, -, hc, he, -⟩ := h
  rwa [element?, hc]

theorem ReachesTag.visibleFrom {count : Nat} (h : f.ReachesTag env r count x) (hs : f.Shows k) :
    f.VisibleFrom r x := by
  obtain ⟨c, front, -, -, hfront, -⟩ := h
  exact hfront.visibleFrom hs

/-- A list without repetition is what is left of a longer one when the others are left out. -/
theorem filter_eq_of_sublist {xs ys : List Handle} {p : Handle → Bool} (h : xs.Sublist ys)
    (hn : ys.Nodup) (hp : ∀ x ∈ ys, x ∈ xs ↔ p x = true) : ys.filter p = xs := by
  have hkept : xs.filter p = xs :=
    List.filter_eq_self.mpr fun x hx => (hp x (h.subset hx)).mp hx
  have hsublist : xs.Sublist (ys.filter p) := hkept ▸ h.filter p
  have hlength : (ys.filter p).length ≤ xs.length := by
    refine ((hn.filter p).subperm fun x hx => ?_).length_le
    obtain ⟨hx, hpx⟩ := List.mem_filter.mp hx
    exact (hp x hx).mpr hpx
  exact (hsublist.eq_of_length_le hlength).symm

/-- The outcome of a rendering, by what was delivered. -/
theorem exec_render {layout : Layout} {pieces : List Piece}
    (hpieces : f.pieces r layout env = .ok pieces) (s : Sink) :
    f.exec (.render r layout env s) = .ofRendering
      { forest := ((deliver s pieces).rendered.map Prod.fst).foldl rememberTag f
        taken := (deliver s pieces).transfer.taken
        failure := (deliver s pieces).transfer.failure.map
          (.unwritten (deliver s pieces).transfer.taken.size)
        log := (deliver s pieces).log } := by
  rw [exec, render, hpieces, List.foldl_map]

/-- The rendered tags are those that were not remembered and that the output came to. -/
theorem mem_rendered_iff (hf : Reachable f) (hw : f.WellFormed k) (hr : f.Lives r)
    (env : Option Environment) (s : Sink) :
    let d := deliver s ((f.grove r).compactPieces env)
    x ∈ d.rendered.map Prod.fst ↔
      f.remembers x = false ∧ f.ReachesTag env r d.transfer.taken.size x := by
  intro d
  rw [rendered_deliver, List.map_map, List.mem_map]
  constructor
  · rintro ⟨p, hp, rfl⟩
    obtain ⟨hp, hdue⟩ := List.mem_filter.mp hp
    obtain ⟨hnone, hlength⟩ := Bool.and_eq_true_iff.mp hdue
    obtain ⟨c, front, hc, he, hfront, hplace⟩ := (mem_tagPlaces_iff hf hw hr).mp hp
    have helement : f.element? p.handle = some p.element := by
      rw [element?, hc, Option.bind_some, he]
    refine ⟨?_, c, front, hc, he ▸ rfl, hfront, hplace ▸ of_decide_eq_true hlength⟩
    exact (remembers_of_element? helement).trans (Option.isSome_eq_false_iff.mpr hnone)
  · rintro ⟨hnot, c, front, hc, he, hfront, hlength⟩
    obtain ⟨e, he⟩ := Option.isSome_iff_exists.mp he
    have helement : f.element? x = some e := by rw [element?, hc, Option.bind_some, he]
    have hplace : (⟨front ++ c.content.lead, x, e⟩ : TagPlace) ∈
        tagPlaces "" ((f.grove r).compactPieces env) :=
      (mem_tagPlaces_iff hf hw hr).mpr ⟨c, front, hc, he, hfront, rfl⟩
    refine ⟨_, List.mem_filter.mpr ⟨hplace, Bool.and_eq_true_iff.mpr ⟨?_, ?_⟩⟩, rfl⟩
    · rw [remembers_of_element? helement] at hnot
      exact Option.isSome_eq_false_iff.mp hnot
    · exact decide_eq_true hlength

/-- They are rendered in the order in which the nodes are listed. -/
theorem rendered_sublist (hw : f.WellFormed k) (hr : f.Lives r) (env : Option Environment)
    (s : Sink) :
    ((deliver s ((f.grove r).compactPieces env)).rendered.map Prod.fst).Sublist
      (f.descendants r) := by
  rw [rendered_deliver, List.map_map, hw.shows.descendants_eq hr]
  exact (List.filter_sublist.map _).trans (Grove.handles_tagPlaces_sublist env _ "")

/-- Each is reported with the name of its element. -/
theorem tagReports_rendered (hf : Reachable f) (hw : f.WellFormed k) (hr : f.Lives r)
    (env : Option Environment) (s : Sink) :
    let d := deliver s ((f.grove r).compactPieces env)
    f.tagReports (d.rendered.map Prod.fst) = d.rendered.map fun q => .openTag q.2 := by
  intro d
  have hname : ∀ q ∈ d.rendered,
      ((f.element? q.1).map fun e => Event.openTag e.name) = some (.openTag q.2) := by
    intro q hq
    rw [rendered_deliver] at hq
    obtain ⟨p, hp, rfl⟩ := List.mem_map.mp hq
    obtain ⟨c, front, hc, he, -⟩ := (mem_tagPlaces_iff hf hw hr).mp (List.mem_filter.mp hp).1
    rw [element?, hc, Option.bind_some, he]
    rfl
  rw [tagReports, List.filterMap_map]
  exact (List.filterMap_congr hname).trans (congrFun List.filterMap_eq_map _)

end Forest

/-- A compact rendering remembers the tags it came to, and does nothing else. -/
theorem Reachable.onlyRemembers {f : Forest} (hf : Reachable f) {r : Handle} (hr : f.Lives r)
    (env : Option Environment) (s : Sink) :
    f.OnlyRemembers env r (f.exec (.render r .compact env s)) := by
  obtain ⟨k, hw⟩ := hf.wellFormed
  have hrendered := fun x => Forest.mem_rendered_iff hf hw hr env s (x := x)
  have hsublist := Forest.rendered_sublist hw hr env s
  have hreports := Forest.tagReports_rendered hf hw hr env s
  rw [Forest.exec_render (Forest.pieces_eq_compactPieces hf hr env) s]
  simp only [Outcome.ofRendering] at hrendered hsublist hreports ⊢
  generalize hd : deliver s ((f.grove r).compactPieces env) = d at *
  have hremembers : ∀ x, ((d.rendered.map Prod.fst).foldl Forest.rememberTag f).remembers x = true ↔
      f.remembers x = true ∨ f.ReachesTag env r d.transfer.taken.size x := by
    intro x
    rw [Forest.remembers_rememberAll, hrendered]
    cases hx : f.remembers x with
    | true => simp
    | false => simpa using Forest.ReachesTag.isSome_element?
  have hlisted : ∀ x, x ∈ d.rendered.map Prod.fst ↔ f.remembers x = false ∧
      ((d.rendered.map Prod.fst).foldl Forest.rememberTag f).remembers x = true := by
    intro x
    rw [hrendered, hremembers]
    cases f.remembers x <;> simp
  -- no node is listed twice, so what was rendered is a part of the list that its members determine
  have hn : (f.descendants r).Nodup := hw.shows.nodup_descendants hr
  have hnew : f.newlyRemembered ((d.rendered.map Prod.fst).foldl Forest.rememberTag f) r =
      d.rendered.map Prod.fst :=
    Forest.filter_eq_of_sublist hsublist hn fun x _ => by
      rw [hlisted]
      simp
  refine ⟨f.forgetTags_rememberAll _, hremembers,
    fun x => (iff_of_eq (congrArg (x ∈ ·) hnew)).trans (hlisted x), hn.filter _, ?_⟩
  rw [hnew, hreports, Delivery.log]
  cases d.transfer.failure with
  | none => exact .inl ⟨rfl, List.append_nil _⟩
  | some cause => exact .inr ⟨cause, rfl, rfl⟩

/-- A complete output came to the open tag of every visible element. -/
theorem Reachable.reachesTag_of_complete {f : Forest} (hf : Reachable f) {r x : Handle}
    (hr : f.Lives r) {env : Option Environment} {s : Sink} {answer : Answer}
    (hdone : (f.exec (.render r .compact env s)).answer = .ok answer) (hx : f.VisibleFrom r x)
    (he : (f.element? x).isSome = true) :
    f.ReachesTag env r (f.exec (.render r .compact env s)).taken.size x := by
  obtain ⟨k, hw⟩ := hf.wellFormed
  obtain ⟨front, hfront⟩ : ∃ front, f.FrontOf env r x front :=
    (Forest.exists_frontOf_iff hw.shows hr).mpr hx
  obtain ⟨c, hc⟩ := hfront.lives hw.shows hr
  rw [Forest.element?, hc, Option.bind_some] at he
  obtain ⟨e, helement⟩ := Option.isSome_iff_exists.mp he
  have hplace := (Forest.mem_tagPlaces_iff (p := ⟨front ++ c.content.lead, x, e⟩) hf hw hr).mpr
    ⟨c, front, hc, helement, hfront, rfl⟩
  refine ⟨c, front, hc, he, hfront, (length_front_le hplace).trans ?_⟩
  have hsent := sends_deliver s ((f.grove r).compactPieces env)
  rw [Forest.exec_render (Forest.pieces_eq_compactPieces hf hr env) s] at hdone ⊢
  simp only [Outcome.ofRendering] at hdone ⊢
  cases hfailure : (deliver s ((f.grove r).compactPieces env)).transfer.failure with
  | none =>
    rw [hsent.complete rfl hfailure, Array.size_empty, Nat.zero_add, String.empty_append]
  | some cause =>
    rw [hfailure] at hdone
    cases hdone

/-! ## Readers -/

namespace Forest

variable {f : Forest} {r : Handle}

/-- A pretty rendering leaves nothing behind. -/
theorem exec_pretty (f : Forest) (r : Handle) (unit : Nat) (env : Option Environment) (s : Sink) :
    (f.exec (.render r (.pretty unit) env s)).forest = f ∧
      (f.exec (.render r (.pretty unit) env s)).RendersNoTag := by
  cases hpieces : f.pieces r (.pretty unit) env with
  | error fault =>
    rw [exec, render, hpieces]
    exact ⟨rfl, fun _ => List.not_mem_nil⟩
  | ok pieces =>
    have hrendered : (deliver s pieces).rendered = [] := by
      obtain ⟨c, -, hpieces⟩ := bind_eq_ok_iff.mp hpieces
      obtain ⟨tokens, -, hpieces⟩ := bind_eq_ok_iff.mp hpieces
      obtain rfl : Pretty.pieces unit tokens = pieces := Except.ok.inj hpieces
      rw [rendered_deliver, Pretty.tagPlaces_pieces]
      rfl
    rw [exec_render hpieces s]
    refine ⟨by rw [hrendered]; rfl, fun name => ?_⟩
    rw [Outcome.ofRendering, Delivery.log, hrendered]
    cases (deliver s pieces).transfer.failure <;> simp

end Forest

/-- When a compact rendering is complete, another one renders no tag. -/
theorem Reachable.rendersNoTag_again {f : Forest} (hf : Reachable f) {r : Handle}
    (hr : f.Lives r) {env : Option Environment} {s : Sink} {answer : Answer}
    (hdone : (f.exec (.render r .compact env s)).answer = .ok answer) (env' : Option Environment)
    (s' : Sink) :
    ((f.exec (.render r .compact env s)).forest.exec
      (.render r .compact env' s')).RendersNoTag := by
  have hf' := hf.exec (.render r .compact env s)
  have hfirst := hf.onlyRemembers hr env s
  have hsecond := hf'.onlyRemembers (Forest.lives_of_same hfirst.same hr) env' s'
  have hnothing : (f.exec (.render r .compact env s)).forest.newlyRemembered
      ((f.exec (.render r .compact env s)).forest.exec (.render r .compact env' s')).forest r =
        [] := by
    refine List.eq_nil_iff_forall_not_mem.mpr fun x hx => ?_
    obtain ⟨hnot, hnow⟩ := (hsecond.mem_newlyRemembered_iff x).mp hx
    have hreach := ((hsecond.remembers_iff x).mp hnow).resolve_left (ne_true_of_eq_false hnot)
    -- another environment gives other fronts, but the same nodes are visible
    obtain ⟨k, hw⟩ := hf'.wellFormed
    have hvisible := hreach.visibleFrom hw.shows
    have helement := hreach.isSome_element?
    rw [Forest.visibleFrom_of_same hfirst.same] at hvisible
    rw [Forest.isSome_element?_of_same hfirst.same] at helement
    have hdue := hf.reachesTag_of_complete hr hdone hvisible helement
    exact ne_true_of_eq_false hnot ((hfirst.remembers_iff x).mpr (.inr hdue))
  intro name
  rcases hsecond.reports with ⟨-, hlog⟩ | ⟨cause, -, hlog⟩ <;>
    rw [hlog, hnothing] <;> simp [Forest.tagReports]

/-- Forests that differ in remembered tags only have the same output. -/
theorem Reachable.output_of_same {f f' : Forest} (hf : Reachable f) (hf' : Reachable f')
    (h : f'.forgetTags = f.forgetTags) (x : Handle) (layout : Layout) (env : Option Environment) :
    f'.output x layout env = f.output x layout env := by
  cases layout with
  | compact => rw [← hf.output_forgetTags, ← hf'.output_forgetTags, h]
  | pretty unit => rw [← f.output_pretty_forgetTags, ← f'.output_pretty_forgetTags, h]

/-- Renderings of `r` read the forest and change nothing but remembered tags. A compact one
remembers the tags it comes to, that is those of visible nodes whose front the sink took; a pretty
one, and a question about the forest, leave nothing behind. All output is the same afterwards,
whether the rendering was complete or not. -/
structure Forest.RendersReadOnly (f : Forest) (r : Handle) : Prop where
  visible_iff : ∀ env x, f.VisibleFrom r x ↔ ∃ front, f.FrontOf env r x front
  front_unique : ∀ {env x front front'}, f.FrontOf env r x front → f.FrontOf env r x front' →
    front = front'
  output_eq : ∀ {env x c front}, f.cell? x = some c → f.FrontOf env r x front →
    ∃ inner behind, f.output r .compact env =
      .ok (front ++ c.content.compactText env inner ++ behind)
  compact : ∀ env s, f.OnlyRemembers env r (f.exec (.render r .compact env s))
  pretty : ∀ unit env s, (f.exec (.render r (.pretty unit) env s)).forest = f ∧
    (f.exec (.render r (.pretty unit) env s)).RendersNoTag
  asked : ∀ {α : Type} (question : Forest → Except Fault α),
    (Procedure.ask question).run f =
      match question f with
      | .ok answer => .ok answer f
      | .error fault => .error (.fault fault) f
  /-- When a rendering is complete, another one renders no tag. -/
  again : ∀ {env s answer}, (f.exec (.render r .compact env s)).answer = .ok answer → ∀ env' s',
    ((f.exec (.render r .compact env s)).forest.exec (.render r .compact env' s')).RendersNoTag
  output_after : ∀ env s x layout env',
    (f.exec (.render r .compact env s)).forest.output x layout env' = f.output x layout env'
  written_after : ∀ env s {x}, f.Lives x → ∀ layout env' {s' : Sink}, s'.limit = none →
    s'.perCall ≠ some 0 → ∃ text, f.output x layout env' = .ok text ∧
      ((f.exec (.render r .compact env s)).forest.exec (.render x layout env' s')).answer =
        .ok (.written (utf8 text).length) ∧
      ((f.exec (.render r .compact env s)).forest.exec (.render x layout env' s')).taken.toList =
        utf8 text

/-- **Renderings are read-only** but for the tags that compact output comes to. -/
theorem Reachable.renders_readOnly {f : Forest} (hf : Reachable f) {r : Handle} (hr : f.Lives r) :
    f.RendersReadOnly r := by
  obtain ⟨k, hw⟩ := hf.wellFormed
  constructor
  case visible_iff => exact fun env x => (Forest.exists_frontOf_iff hw.shows hr).symm
  case front_unique => exact fun h h' => h.unique hw.shows h'
  case compact => exact hf.onlyRemembers hr
  case pretty => exact f.exec_pretty r
  case asked => exact fun question => rfl
  case output_eq =>
    intro env x c front hc hfront
    obtain ⟨a, b, hpieces, hshown⟩ := hfront.exists_compactPieces hf hw
    refine ⟨(f.grovesBelow x).compactText env, shownText b, ?_⟩
    rw [hf.output_compactText env hr, ← Forest.shownText_compactPieces hf hw env hr, hpieces,
      shownText_append, shownText_append, hshown, Forest.shownText_compactPieces hf hw env ⟨c, hc⟩,
      hw.shows.compactText_eq env hc, hfront.not_hidden hc, if_neg Bool.false_ne_true]
  case output_after =>
    exact fun env s => hf.output_of_same (hf.exec _) (hf.onlyRemembers hr env s).same
  case written_after =>
    intro env s x hx layout env' s' hlimit hwilling
    have hsame := (hf.onlyRemembers hr env s).same
    obtain ⟨text, htext, -⟩ := hf.fed_render hx layout env'
    refine ⟨text, htext, (hf.exec _).render_without_limit (Forest.lives_of_same hsame hx) ?_ hlimit
      hwilling⟩
    exact (hf.output_of_same (hf.exec _) hsame x layout env').trans htext
  case again => exact hf.rendersNoTag_again hr

/-- A sink that takes one byte behind the open tag of a document: the tag of the paragraph is
rendered and cut, and that of the line break behind it is not rendered. -/
theorem renders_readOnly_of_short_sink :
    let f := Forest.empty.run [.create .document, .appendNew ⟨0, 0⟩ (.element .p),
      .appendNew ⟨1, 0⟩ (.text "abc"), .appendNew ⟨0, 0⟩ (.element .br)]
    let s : Sink := ⟨some 22, some 3, fun _ => 0, .refuse "full", .never⟩
    let o := f.exec (.render ⟨0, 0⟩ .compact none s)
    f.Lives ⟨0, 0⟩ ∧ f.RendersReadOnly ⟨0, 0⟩ ∧
      o.log = [.openTag .html, .openTag .p, .aborted 22 "full"] ∧
      o.forest.remembers ⟨1, 0⟩ = true ∧ o.forest.remembers ⟨3, 0⟩ = false := by
  intro f s o
  let pieces : List Piece := [.text doctype, .tag ⟨0, 0⟩ (.ofName .html), .tag ⟨1, 0⟩ (.ofName .p),
    .text "abc", .text "</", .text "p", .text ">", .tag ⟨3, 0⟩ (.ofName .br), .text "</",
    .text "html", .text ">"]
  have hlives : f.Lives ⟨0, 0⟩ := ⟨_, rfl⟩
  have hpieces : f.pieces ⟨0, 0⟩ .compact none = .ok pieces := by decide
  have hfed : s.Fed (deliver s pieces).transfer (utf8 (shownText pieces)) :=
    Sink.fed_deliver (show s.perCall ≠ some 0 by decide) pieces
  have hsize : (deliver s pieces).transfer.taken.size = 22 := by
    rw [← Array.length_toList, hfed.taken_eq]
    decide
  have hfailure : (deliver s pieces).transfer.failure = some "full" :=
    hfed.failure_eq.trans (by decide)
  have hrendered : (deliver s pieces).rendered = [(⟨0, 0⟩, .html), (⟨1, 0⟩, .p)] := by
    rw [rendered_deliver, hsize]
    decide
  have hlog : (deliver s pieces).log = [.openTag .html, .openTag .p, .aborted 22 "full"] := by
    rw [Delivery.log, hrendered, hfailure, hsize]
    rfl
  have ho : o.forest = [⟨0, 0⟩, ⟨1, 0⟩].foldl Forest.rememberTag f := by
    show (f.exec (.render ⟨0, 0⟩ .compact none s)).forest = _
    rw [Forest.exec_render hpieces s, hrendered]
    rfl
  have holog : o.log = (deliver s pieces).log := by
    show (f.exec (.render ⟨0, 0⟩ .compact none s)).log = _
    rw [Forest.exec_render hpieces s]
    rfl
  refine ⟨hlives, (Reachable.empty.run _).renders_readOnly hlives, holog.trans hlog, ?_, ?_⟩
  · rw [ho]
    decide
  · rw [ho]
    decide

end Markup

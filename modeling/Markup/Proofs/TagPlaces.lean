import Markup.Proofs.Delivery

/-!
# Open tags on their way into a sink

A delivery renders the open tag of an element when its turn comes, unless the element remembers it.
By then the sink took everything in front of the tag, or it failed and the turn never comes. So the
number of bytes that the sink took in the end tells which tags were rendered.

* `Transfer.Sends`: what becomes of bytes that are sent to any sink.
* `tagPlaces`: the open tags among pieces, each with the text in front of it.
* `rendered_deliver`: a tag is rendered if the sink took at least the bytes in front of it.
* `Pretty.tagPlaces_pieces`: in pretty output there is none that could be rendered on the way.
-/

namespace Markup

/-! ## Bytes -/

/-- The transfer `t'` is what `t` becomes when `count` bytes more are sent to a sink, be it one that
fails at once. -/
structure Transfer.Sends (t : Transfer) (count : Nat) (t' : Transfer) : Prop where
  ended : t.failure.isSome → t' = t
  complete : t.failure = none → t'.failure = none → t'.taken.size = t.taken.size + count
  short : t.failure = none → t'.failure.isSome →
    t.taken.size ≤ t'.taken.size ∧ t'.taken.size < t.taken.size + count

namespace Transfer.Sends

variable {t t' t'' : Transfer} {n m : Nat}

theorem refl (t : Transfer) : t.Sends 0 t where
  ended _ := rfl
  complete _ _ := rfl
  short hnone hsome := absurd hnone (Option.isSome_iff_ne_none.mp hsome)

theorem trans (h : t.Sends n t') (h' : t'.Sends m t'') : t.Sends (n + m) t'' := by
  cases hfirst : t'.failure.isSome with
  | true =>
    obtain rfl := h'.ended hfirst
    refine ⟨h.ended, fun hnone hdone => ?_, fun hnone hsome => ?_⟩
    · rw [hdone] at hfirst
      cases hfirst
    · obtain ⟨hle, hlt⟩ := h.short hnone hsome
      exact ⟨hle, by omega⟩
  | false =>
    have hnone' := Option.isSome_eq_false_iff.mp hfirst |> Option.isNone_iff_eq_none.mp
    refine ⟨fun hsome => ?_, fun hnone hdone => ?_, fun hnone hsome => ?_⟩
    · obtain rfl := h.ended hsome
      rw [hsome] at hfirst
      cases hfirst
    · rw [h'.complete hnone' hdone, h.complete hnone hnone']
      omega
    · have hsize := h.complete hnone hnone'
      obtain ⟨hle, hlt⟩ := h'.short hnone' hsome
      exact ⟨by omega, by omega⟩

theorem of_ended (hsome : t.failure.isSome) (n : Nat) : t.Sends n t where
  ended _ := rfl
  complete hnone _ := absurd hnone (Option.isSome_iff_ne_none.mp hsome)
  short hnone _ := absurd hnone (Option.isSome_iff_ne_none.mp hsome)

/-- A call that fails takes nothing of what it is offered. -/
theorem of_failure (hnone : t.failure = none) (hfailure : t'.failure.isSome)
    (htaken : t'.taken = t.taken) (n : Nat) : t.Sends (n + 1) t' where
  ended hsome := absurd hnone (Option.isSome_iff_ne_none.mp hsome)
  complete _ hdone := absurd hdone (Option.isSome_iff_ne_none.mp hfailure)
  short _ _ := by
    rw [htaken]
    omega

/-- A call that takes bytes. -/
theorem of_success (hnone : t.failure = none) (hnone' : t'.failure = none)
    (hsize : t'.taken.size = t.taken.size + n) : t.Sends n t' where
  ended hsome := absurd hnone (Option.isSome_iff_ne_none.mp hsome)
  complete _ _ := hsize
  short _ hsome := absurd hnone' (Option.isSome_iff_ne_none.mp hsome)

/-- Bytes are sent until all are taken or the sink fails. -/
theorem write (s : Sink) (t : Transfer) (bytes : List UInt8) :
    t.Sends bytes.length (s.write t bytes) := by
  fun_induction s.write t bytes with
  | case1 t => exact .refl t
  | case2 t byte bytes hfailed => exact of_ended hfailed _
  | case3 t byte bytes hfailed hr hgap ih =>
    have hnone := Option.not_isSome_iff_eq_none.mp hfailed
    have hcall : t.Sends 0 { t with calls := t.calls + 1 } := of_success hnone hnone rfl
    exact Nat.zero_add (byte :: bytes).length ▸ hcall.trans ih
  | case4 t byte bytes hfailed cause hr =>
    refine of_failure (Option.not_isSome_iff_eq_none.mp hfailed) ?_ ?_ bytes.length <;> rfl
  | case5 t byte bytes hfailed hr =>
    refine of_failure (Option.not_isSome_iff_eq_none.mp hfailed) ?_ ?_ bytes.length <;> rfl
  | case6 t byte bytes hfailed n hr ih =>
    have hnone := Option.not_isSome_iff_eq_none.mp hfailed
    have htook : t.Sends (1 + (bytes.take n).length)
        { t with calls := t.calls + 1, taken := t.taken.push byte ++ bytes.take n } :=
      of_success hnone hnone (by simp [← Array.length_toList, Nat.add_comm])
    have hcount : 1 + (bytes.take n).length + (bytes.drop n).length = (byte :: bytes).length := by
      simp only [List.length_take, List.length_drop, List.length_cons]
      omega
    exact hcount ▸ htook.trans ih

/-- Spaces are sent in blocks. -/
theorem writeSpaces (s : Sink) (t : Transfer) (count : Nat) :
    t.Sends count (s.writeSpaces t count) := by
  fun_induction s.writeSpaces t count with
  | case1 t count hend =>
    rcases hend with rfl | hfailed
    · exact .refl t
    · exact of_ended hfailed _
  | case2 t count hend ih =>
    have hblock := write s t (List.replicate (min count Sink.spaceBlock) 0x20)
    rw [List.length_replicate] at hblock
    have hall := hblock.trans ih
    rwa [Nat.add_sub_cancel' (Nat.min_le_left count Sink.spaceBlock)] at hall

/-- The sink was still willing behind the first bytes if in the end it took so many. -/
theorem failure_eq_none_iff (hnone : t.failure = none) (h : t.Sends n t') (h' : t'.Sends m t'') :
    t'.failure = none ↔ t.taken.size + n ≤ t''.taken.size := by
  cases hfirst : t'.failure with
  | none =>
    refine iff_of_true rfl ?_
    have hsize := h.complete hnone hfirst
    cases hlast : t''.failure with
    | none => exact hsize ▸ h'.complete hfirst hlast ▸ Nat.le_add_right _ _
    | some cause => exact hsize ▸ (h'.short hfirst (hlast ▸ rfl)).1
  | some cause =>
    have hsome : t'.failure.isSome := hfirst ▸ rfl
    obtain rfl := h'.ended hsome
    exact iff_of_false (Option.some_ne_none cause) (Nat.not_le_of_lt (h.short hnone hsome).2)

end Transfer.Sends

/-! ## Open tags -/

/-- Where an open tag stands in a text. -/
structure TagPlace where
  front : String
  handle : Handle
  element : Element

/-- Whether the tag is rendered when the sink takes so many bytes: all in front of it, and no tag is
remembered. -/
def TagPlace.isDue (count : Nat) (p : TagPlace) : Bool :=
  p.element.cachedTag.isNone && decide ((utf8 p.front).length ≤ count)

/-- The place of a piece behind the text `front`, if it is an open tag. -/
def Piece.place? (front : String) : Piece → Option TagPlace
  | .tag h e => some ⟨front, h, e⟩
  | .text _ | .spaces _ => none

/-- The places of the open tags among pieces that stand behind the text `front`. -/
def tagPlaces (front : String) : List Piece → List TagPlace
  | [] => []
  | p :: pieces => (p.place? front).toList ++ tagPlaces (front ++ p.shown) pieces

theorem tagPlaces_append (front : String) (a b : List Piece) :
    tagPlaces front (a ++ b) = tagPlaces front a ++ tagPlaces (front ++ shownText a) b := by
  induction a generalizing front with
  | nil => simp [tagPlaces]
  | cons p a ih =>
    rw [List.cons_append, tagPlaces, tagPlaces, ih, List.append_assoc, shownText_cons,
      String.append_assoc]

@[simp] theorem tagPlaces_nil (front : String) : tagPlaces front [] = [] := rfl

@[simp] theorem tagPlaces_text (front text : String) (pieces : List Piece) :
    tagPlaces front (.text text :: pieces) = tagPlaces (front ++ text) pieces := rfl

@[simp] theorem tagPlaces_spaces (front : String) (count : Nat) (pieces : List Piece) :
    tagPlaces front (.spaces count :: pieces) =
      tagPlaces (front ++ (Piece.spaces count).shown) pieces := rfl

@[simp] theorem tagPlaces_map_text (front : String) (texts : List String) :
    tagPlaces front (texts.map .text) = [] := by
  induction texts generalizing front with
  | nil => rfl
  | cons text texts ih => exact ih (front ++ text)

@[simp] theorem tagPlaces_closeTag (front : String) (e : Element) :
    tagPlaces front (closeTag e) = [] := by
  unfold closeTag
  split <;> rfl

/-- A tag stands within the text. -/
theorem length_front_le {pieces : List Piece} {front : String} {p : TagPlace}
    (hp : p ∈ tagPlaces front pieces) :
    (utf8 p.front).length ≤ (utf8 (front ++ shownText pieces)).length := by
  induction pieces generalizing front with
  | nil => cases hp
  | cons q pieces ih =>
    rcases List.mem_append.mp hp with hp | hp
    · cases q <;> simp [Piece.place?] at hp
      subst hp
      simp [utf8_append]
    · rw [shownText_cons, ← String.append_assoc]
      exact ih hp

/-! ## Deliveries -/

namespace Delivery

variable {s : Sink} {d : Delivery}

/-- A piece is sent as its text. -/
theorem sends_accept (s : Sink) (d : Delivery) (p : Piece) :
    d.transfer.Sends (utf8 p.shown).length (accept s d p).transfer := by
  cases p with
  | text text => exact .write s d.transfer _
  | spaces count =>
    rw [utf8_spaces, List.length_replicate]
    exact .writeSpaces s d.transfer count
  | tag h e => exact .write s d.transfer _

theorem sends_foldl (s : Sink) (d : Delivery) (pieces : List Piece) :
    d.transfer.Sends (utf8 (shownText pieces)).length (pieces.foldl (accept s) d).transfer := by
  induction pieces generalizing d with
  | nil => exact .refl d.transfer
  | cons p pieces ih =>
    rw [shownText_cons, utf8_append, List.length_append]
    exact (sends_accept s d p).trans (ih _)

theorem rendered_accept (s : Sink) (d : Delivery) (p : Piece) (front : String) :
    (accept s d p).rendered = d.rendered ++
      ((p.place? front).toList.filter fun q => !d.hasFailed && q.element.cachedTag.isNone).map
        fun q => (q.handle, q.element.name) := by
  cases p with
  | text text => simp [accept, Piece.place?]
  | spaces count => simp [accept, Piece.place?]
  | tag h e =>
    cases hfailed : d.hasFailed <;> cases htag : e.cachedTag <;>
      simp [accept, Piece.place?, hfailed, htag]

/-- The tags that are rendered are those whose turn comes. -/
theorem rendered_foldl {front : String}
    (hd : Transfer.Sends {} (utf8 front).length d.transfer) (pieces : List Piece) :
    (pieces.foldl (accept s) d).rendered = d.rendered ++
      ((tagPlaces front pieces).filter
        (TagPlace.isDue (pieces.foldl (accept s) d).transfer.taken.size)).map
        fun q => (q.handle, q.element.name) := by
  induction pieces generalizing d front with
  | nil => simp [tagPlaces]
  | cons p pieces ih =>
    have hnext : Transfer.Sends {} (utf8 (front ++ p.shown)).length (accept s d p).transfer := by
      rw [utf8_append, List.length_append]
      exact hd.trans (sends_accept s d p)
    -- the turn of this piece comes if the sink takes all in front of it, then or in the end
    have hturn : d.hasFailed = false ↔
        (utf8 front).length ≤ (pieces.foldl (accept s) (accept s d p)).transfer.taken.size := by
      have hiff := Transfer.Sends.failure_eq_none_iff rfl hd (sends_foldl s d (p :: pieces))
      rw [Array.size_empty, Nat.zero_add] at hiff
      rw [hasFailed, Option.isSome_eq_false_iff, Option.isNone_iff_eq_none]
      exact hiff
    have hdue : (fun q : TagPlace => !d.hasFailed && q.element.cachedTag.isNone) = fun q =>
        q.element.cachedTag.isNone && decide ((utf8 front).length ≤
          (pieces.foldl (accept s) (accept s d p)).transfer.taken.size) := by
      funext q
      cases hfailed : d.hasFailed with
      | false => simp [hturn.mp hfailed]
      | true => simp [mt hturn.mpr (ne_false_of_eq_true hfailed)]
    rw [List.foldl_cons, ih hnext, rendered_accept s d p front, hdue, tagPlaces, List.filter_append,
      List.map_append, List.append_assoc]
    cases p <;> rfl

end Delivery

/-- A tag is rendered if none is remembered and the sink took at least the bytes in front of it. -/
theorem rendered_deliver (s : Sink) (pieces : List Piece) :
    (deliver s pieces).rendered =
      ((tagPlaces "" pieces).filter
        (TagPlace.isDue (deliver s pieces).transfer.taken.size)).map
        fun q => (q.handle, q.element.name) := by
  have hstart : Transfer.Sends {} (utf8 "").length ({} : Delivery).transfer := .refl {}
  exact Delivery.rendered_foldl hstart pieces

/-- The text of the pieces is sent. -/
theorem sends_deliver (s : Sink) (pieces : List Piece) :
    Transfer.Sends {} (utf8 (shownText pieces)).length (deliver s pieces).transfer :=
  Delivery.sends_foldl s {} pieces

/-! ## Pretty output -/

namespace Pretty

theorem tagPlaces_announce (stack : List Frame) (front : String) :
    tagPlaces front (announce stack).2 = [] := by
  induction stack generalizing front with
  | nil => rfl
  | cons fr stack ih =>
    simp only [announce, Frame.separator]
    cases fr.isPending <;> simp [ih]

theorem tagPlaces_step (unit : Nat) (stack : List Frame) (token : Token) (front : String) :
    tagPlaces front (step unit stack token).2 = [] := by
  cases token with
  | closeComment =>
    simp only [step]
    split <;> rfl
  | closeDocument e | closeElement e =>
    simp only [step, tagPlaces_append, tagPlaces_closeTag, List.append_nil]
    split <;> rfl
  | _ => simp [step, openNode, tagPlaces_append, tagPlaces_announce]

/-- No open tag of pretty output is rendered on the way. -/
theorem tagPlaces_pieces (unit : Nat) (tokens : List Token) (front : String) :
    tagPlaces front (pieces unit tokens) = [] := by
  rw [pieces]
  generalize ([] : List Frame) = stack
  induction tokens generalizing stack front with
  | nil => rfl
  | cons token tokens ih =>
    rw [piecesFrom, tagPlaces_append, tagPlaces_step, ih, List.append_nil]

end Pretty

end Markup

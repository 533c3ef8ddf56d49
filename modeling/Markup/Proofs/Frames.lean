import Markup.Render.Pretty

/-!
# Frames

What the frames of pretty output do to the texts that are written while they are open. A frame that
has a child is settled: another child gets a new line and changes nothing more. So a row of texts
is written as the first of them would be, with new lines between.

* `Pretty.Writes`: tokens write a row of texts.
* `Pretty.Writes.append`: rows of texts are written one behind the other.
* `Pretty.writes_fragment`, `Pretty.writes_node`, `Pretty.writes_leaf`: one lemma for each way in
  which a node puts texts around those inside.
-/

namespace Markup

/-- The text of pieces. -/
def shownText (pieces : List Piece) : String := String.join (pieces.map Piece.shown)

@[simp] theorem Piece.shown_text (s : String) : (Piece.text s).shown = s := rfl

@[simp] theorem shownText_nil : shownText [] = "" := rfl

@[simp] theorem shownText_cons (p : Piece) (ps : List Piece) :
    shownText (p :: ps) = p.shown ++ shownText ps := by
  rw [shownText, List.map_cons, String.join_cons]
  rfl

@[simp] theorem shownText_append (ps qs : List Piece) :
    shownText (ps ++ qs) = shownText ps ++ shownText qs := by
  rw [shownText, List.map_append, String.join_append]
  rfl

@[simp] theorem shownText_map_text (texts : List String) :
    shownText (texts.map .text) = String.join texts := by
  rw [shownText, List.map_map]
  exact congrArg String.join (List.map_id texts)

/-- A new line and the lines behind it, or nothing. -/
theorem newline_intercalate {texts : List String} (h : texts ≠ []) :
    "\n" ++ "\n".intercalate texts = String.join (texts.map ("\n" ++ ·)) := by
  induction texts with
  | nil => exact absurd rfl h
  | cons t texts ih =>
    cases texts with
    | nil => simp
    | cons u texts =>
      rw [String.intercalate_cons_cons, List.map_cons, String.join_cons,
        ← ih (List.cons_ne_nil u texts)]
      simp [String.append_assoc]

namespace Pretty

variable {unit : Nat} {stack : List Frame}

theorem childIndentation_announce (unit : Nat) (stack : List Frame) :
    childIndentation unit (announce stack).1 = childIndentation unit stack := by
  cases stack <;> rfl

/-- Another child gets a new line and changes nothing more. -/
theorem announce_announce (h : stack ≠ []) :
    announce (announce stack).1 = ((announce stack).1, [.text "\n"]) := by
  cases stack with
  | nil => exact absurd rfl h
  | cons fr stack =>
    simp [announce, Frame.isPending, Frame.withChild, Frame.separator]

/-- The text of a row of children. -/
def rowText (stack : List Frame) (texts : List String) : String :=
  if texts = [] then "" else shownText (announce stack).2 ++ "\n".intercalate texts

/-- The frames behind a row of children. -/
def settled (stack : List Frame) (texts : List String) : List Frame :=
  if texts = [] then stack else (announce stack).1

theorem settled_ne_nil (h : stack ≠ []) (texts : List String) : settled stack texts ≠ [] := by
  unfold settled
  split
  · exact h
  · intro e
    have hlen := length_announce stack
    rw [e] at hlen
    exact h (List.length_eq_zero_iff.mp hlen.symm)

theorem childIndentation_settled (unit : Nat) (stack : List Frame) (texts : List String) :
    childIndentation unit (settled stack texts) = childIndentation unit stack := by
  unfold settled
  split
  · rfl
  · exact childIndentation_announce unit stack

theorem settled_append (h : stack ≠ []) (a b : List String) :
    settled (settled stack a) b = settled stack (a ++ b) := by
  by_cases ha : a = []
  · rw [settled, settled, if_pos ha, ha, List.nil_append, settled]
  · by_cases hb : b = []
    · rw [hb, List.append_nil]
      exact if_pos rfl
    · have hab : a ++ b ≠ [] := List.append_ne_nil_of_left_ne_nil ha b
      simp only [settled, if_neg ha, if_neg hb, if_neg hab, announce_announce h]

theorem rowText_append (h : stack ≠ []) (a b : List String) :
    rowText stack a ++ rowText (settled stack a) b = rowText stack (a ++ b) := by
  by_cases ha : a = []
  · simp [ha, rowText, settled]
  · by_cases hb : b = []
    · simp [hb, rowText]
    · have hab : a ++ b ≠ [] := List.append_ne_nil_of_left_ne_nil ha b
      simp only [rowText, settled, if_neg ha, if_neg hb, if_neg hab, announce_announce h,
        String.intercalate_append_of_ne_nil ha hb]
      simp [String.append_assoc]

/-- The text of tokens that follow while the given frames are open. -/
def textFrom (unit : Nat) (stack : List Frame) (tokens : List Token) : String :=
  shownText (piecesFrom unit stack tokens)

theorem textFrom_cons (unit : Nat) (stack : List Frame) (token : Token) (tokens : List Token) :
    textFrom unit stack (token :: tokens) =
      shownText (step unit stack token).2 ++ textFrom unit (step unit stack token).1 tokens := by
  rw [textFrom, piecesFrom, shownText_append]
  rfl

/-- The tokens write the texts as a row of children, whatever comes behind. -/
def Writes (unit : Nat) (stack : List Frame) (tokens : List Token) (texts : List String) : Prop :=
  ∀ behind, textFrom unit stack (tokens ++ behind) =
    rowText stack texts ++ textFrom unit (settled stack texts) behind

theorem writes_nil (unit : Nat) (stack : List Frame) : Writes unit stack [] [] := by
  intro behind
  simp [rowText, settled]

theorem Writes.append {a b : List Token} {x y : List String} (h : stack ≠ [])
    (ha : Writes unit stack a x) (hb : Writes unit (settled stack x) b y) :
    Writes unit stack (a ++ b) (x ++ y) := by
  intro behind
  rw [List.append_assoc, ha, hb, settled_append h, ← String.append_assoc, rowText_append h]

/-- A leaf writes one text. -/
theorem writes_leaf (unit : Nat) (stack : List Frame) (portions : List String) :
    Writes unit stack [.leaf portions]
      [(Piece.spaces (childIndentation unit stack)).shown ++ String.join portions] := by
  intro behind
  rw [List.singleton_append, textFrom_cons]
  simp only [step, childIndentation_announce, shownText_append, shownText_cons,
    shownText_map_text]
  simp [rowText, settled, String.append_assoc]

/-- A fragment writes what is inside as children of the frames around it. -/
theorem writes_fragment {tokens : List Token} {texts : List String}
    (h : Writes unit ({ indentation := childIndentation unit stack, isFragment := true } :: stack)
      tokens texts) :
    Writes unit stack (.openFragment :: (tokens ++ [.closeFragment])) texts := by
  intro behind
  rw [List.cons_append, textFrom_cons, List.append_assoc]
  simp only [step, shownText_nil, String.empty_append]
  rw [h, List.singleton_append, textFrom_cons]
  by_cases ht : texts = []
  · simp [ht, rowText, settled, step, pop]
  · simp [ht, rowText, settled, step, pop, announce, Frame.isPending, Frame.separator]

/-- A node that is no fragment writes one text: its beginning, the texts inside on lines of their
own, and its end. -/
theorem writes_node {start stop : Token} {head : Nat → List Piece} {tail : Frame → List Piece}
    (hstart : step unit stack start = openNode unit stack head)
    (hstop : ∀ fr stack, step unit (fr :: stack) stop = (stack, tail fr))
    {tokens : List Token} {texts : List String}
    (h : Writes unit ({ indentation := childIndentation unit stack, isFragment := false } ::
      (announce stack).1) tokens texts) :
    Writes unit stack (start :: (tokens ++ [stop]))
      [(Piece.spaces (childIndentation unit stack)).shown ++
        shownText (head (childIndentation unit stack)) ++
        (String.join (texts.map ("\n" ++ ·)) ++ shownText (tail
          { indentation := childIndentation unit stack, isFragment := false,
            hasChildren := !texts.isEmpty }))] := by
  intro behind
  rw [List.cons_append, textFrom_cons, hstart, List.append_assoc]
  simp only [openNode, childIndentation_announce]
  rw [h, List.singleton_append, textFrom_cons]
  by_cases ht : texts = []
  · simp [ht, rowText, settled, hstop, String.append_assoc]
  · have hchildren : (!texts.isEmpty) = true := by simp [ht]
    simp [ht, hchildren, rowText, settled, hstop, announce, Frame.isPending, Frame.separator,
      Frame.withChild, String.append_assoc, ← newline_intercalate ht]

end Pretty

end Markup

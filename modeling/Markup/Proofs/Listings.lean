import Markup.Proofs.Frames
import Markup.Proofs.Tags
import Markup.Proofs.Tokens
import Markup.Render.Listing

/-!
# Compact output in any order of attributes

Compact output with the open tags in given orders is read off the tokens of a tree as ever, and only
what an open tag shows depends on the orders. Output as `Forest.output` has it is the one in the
canonical orders, whatever tags are remembered.

* `shownIn`: the text of pieces with open tags in given orders.
* `Reachable.compactIn_eq`: compact output in given orders, by the tokens of the tree.
* `Reachable.compactIn_canonical`: in the canonical orders it is compact output.
-/

namespace Markup

/-- The text of pieces, with open tags in the given orders. -/
def shownIn (ls : Listings) (pieces : List Piece) : String :=
  String.join (pieces.map (Piece.shownIn ls))

section ShownIn

variable (ls : Listings)

@[simp] theorem shownIn_nil : shownIn ls [] = "" := rfl

@[simp] theorem shownIn_cons (p : Piece) (ps : List Piece) :
    shownIn ls (p :: ps) = p.shownIn ls ++ shownIn ls ps := by
  rw [shownIn, List.map_cons, String.join_cons]
  rfl

@[simp] theorem shownIn_append (ps qs : List Piece) :
    shownIn ls (ps ++ qs) = shownIn ls ps ++ shownIn ls qs := by
  rw [shownIn, List.map_append, String.join_append]
  rfl

/-- Only open tags depend on the orders. -/
theorem shownIn_map_text (texts : List String) :
    shownIn ls (texts.map .text) = shownText (texts.map .text) := by
  rw [shownIn, shownText, List.map_map, List.map_map]
  rfl

theorem shownIn_closeTag (e : Element) : shownIn ls (closeTag e) = shownText (closeTag e) := by
  unfold closeTag
  split <;> rfl

end ShownIn

/-! ## The canonical orders -/

theorem Element.TagCurrent.shownIn_canonical {e : Element} (he : e.TagCurrent) (h : Handle) :
    (Piece.tag h e).shownIn .canonical = (Piece.tag h e).shown := by
  rw [Piece.shownIn, Listings.canonical, Element.Listing.tag_canonical]
  exact he.currentTag_eq.symm

namespace Content

variable {c : Content}

/-- Where a node starts, the canonical orders show what is remembered. -/
theorem TagCurrent.shownIn_openToken (hc : c.TagCurrent) (env : Option Environment) (h : Handle) :
    shownIn .canonical (Compact.tokenPieces (c.openToken env h)) =
      shownText (Compact.tokenPieces (c.openToken env h)) := by
  cases c with
  | document root =>
    have htag := (hc root rfl).shownIn_canonical h
    simp only [openToken, Compact.tokenPieces, shownIn_cons, shownText_cons, htag]
    rfl
  | element e =>
    have htag := (hc e rfl).shownIn_canonical h
    simp only [openToken, Compact.tokenPieces, shownIn_cons, shownText_cons, htag]
    rfl
  | template t => exact shownIn_map_text .canonical _
  | _ => rfl

theorem shownIn_stopToken? (c : Content) (ls : Listings) :
    shownIn ls (Compact.pieces c.stopToken?.toList) =
      shownText (Compact.pieces c.stopToken?.toList) := by
  cases c with
  | document root => simp [stopToken?, Compact.pieces, Compact.tokenPieces, shownIn_closeTag]
  | element e => simp [stopToken?, Compact.pieces, Compact.tokenPieces, shownIn_closeTag]
  | _ => rfl

end Content

/-- Trees whose remembered tags are current show the same in the canonical orders. -/
theorem Forest.Grows.shownIn_canonical {f : Forest} {k : Kinship} {row : List Handle} {g : Grove}
    (hf : ∀ {h c}, f.cell? h = some c → c.content.TagCurrent) (env : Option Environment)
    (hg : f.Grows k row g) :
    shownIn .canonical (Compact.pieces (g.tokens env)) =
      shownText (Compact.pieces (g.tokens env)) := by
  induction hg with
  | nil => rfl
  | @tree h c row below rest hc _ _ ihb ihr =>
    simp only [Compact.pieces] at ihb ihr ⊢
    rw [Grove.tokens, List.flatMap_append, shownIn_append, shownText_append, ihr]
    congr 1
    split
    · rfl
    · have hopen := (hf hc).shownIn_openToken env h
      have hstop := c.content.shownIn_stopToken? .canonical
      simp only [Compact.pieces] at hstop
      rw [List.flatMap_cons, List.flatMap_append, shownIn_append, shownIn_append, hopen, ihb, hstop,
        shownText_append, shownText_append]

namespace Reachable

variable {f : Forest} {h : Handle}

/-- Compact output in given orders, by the tokens of the tree. -/
theorem compactIn_eq (hf : Reachable f) (hh : f.Lives h) (env : Option Environment)
    (ls : Listings) :
    f.compactIn h env ls = .ok (shownIn ls (Compact.pieces ((f.grove h).tokens env))) := by
  rw [Forest.compactIn, hf.pieces_eq hh]
  rfl

/-- **Compact output is one of many**: that in the canonical orders. -/
theorem compactIn_canonical (hf : Reachable f) (h : Handle) (env : Option Environment) :
    f.compactIn h env .canonical = f.output h .compact env := by
  cases hh : f.cell? h with
  | none =>
    rw [Forest.compactIn, Forest.output, Forest.pieces, Forest.live, hh]
    rfl
  | some c =>
    obtain ⟨k, hw⟩ := hf.wellFormed
    have hlives : f.Lives h := ⟨c, hh⟩
    rw [hf.compactIn_eq hlives, (hw.shows.grows_grove hlives).shownIn_canonical hf.tagCurrent,
      Forest.output, hf.pieces_eq hlives]
    rfl

end Reachable

end Markup

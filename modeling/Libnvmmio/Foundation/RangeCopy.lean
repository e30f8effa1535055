import Mathlib.Tactic.Common

/-! # Range copies and overlays on total memories

A memory is a total function from positions. `blit` is the copy of a range,
`overlay` reads a logged extent over a base memory. Nothing here knows what
the cells hold or which program copies them.
-/

namespace Libnvmmio.RangeCopy

set_option autoImplicit false

universe u
variable {α : Type u}

/-- Copy `n` cells of `src`, from position `srcPos`, to position `dstPos` of `dst`. -/
def blit (dst : Nat → α) (dstPos : Nat) (src : Nat → α) (srcPos n : Nat) : Nat → α :=
  fun i => if dstPos ≤ i ∧ i < dstPos + n then src (srcPos + (i - dstPos)) else dst i

theorem blit_inside {dst src : Nat → α} {dstPos srcPos n i : Nat}
    (hLow : dstPos ≤ i) (hHigh : i < dstPos + n) :
    blit dst dstPos src srcPos n i = src (srcPos + (i - dstPos)) := by
  rw [blit, if_pos ⟨hLow, hHigh⟩]

theorem blit_outside {dst src : Nat → α} {dstPos srcPos n i : Nat}
    (h : i < dstPos ∨ dstPos + n ≤ i) : blit dst dstPos src srcPos n i = dst i := by
  rw [blit, if_neg (by omega)]

theorem blit_congr {dst src src' : Nat → α} {dstPos srcPos srcPos' n : Nat}
    (h : ∀ i, i < n → src (srcPos + i) = src' (srcPos' + i)) :
    blit dst dstPos src srcPos n = blit dst dstPos src' srcPos' n := by
  funext i
  unfold blit
  split
  · exact h _ (by omega)
  · rfl

@[simp] theorem blit_zero (dst : Nat → α) (dstPos : Nat) (src : Nat → α) (srcPos : Nat) :
    blit dst dstPos src srcPos 0 = dst := by
  funext i
  exact blit_outside (by omega)

structure Extent where
  offset : Nat
  len : Nat
  deriving DecidableEq, Repr

namespace Extent

def Covers (r : Extent) (i : Nat) : Prop := r.offset ≤ i ∧ i < r.offset + r.len

instance (r : Extent) (i : Nat) : Decidable (r.Covers i) :=
  inferInstanceAs (Decidable (_ ∧ _))

theorem Covers.len_pos {r : Extent} {i : Nat} (h : r.Covers i) : 0 < r.len := by
  obtain ⟨hLow, hHigh⟩ := h
  omega

theorem not_covers_of_len_eq_zero {r : Extent} (h : r.len = 0) (i : Nat) : ¬ r.Covers i :=
  fun hCovers => absurd hCovers.len_pos (by omega)

/-- The least extent that contains both, an empty one being ignored. -/
def hull (r p : Extent) : Extent :=
  if r.len = 0 then p
  else if p.len = 0 then r
  else ⟨min r.offset p.offset, max (r.offset + r.len) (p.offset + p.len) - min r.offset p.offset⟩

theorem Covers.hull_left {r : Extent} {i : Nat} (p : Extent) (h : r.Covers i) :
    (r.hull p).Covers i := by
  have hLen := h.len_pos
  obtain ⟨hLow, hHigh⟩ := h
  unfold hull Covers
  split
  · omega
  · split
    · omega
    · constructor <;> dsimp only <;> omega

theorem Covers.hull_right {p : Extent} {i : Nat} (r : Extent) (h : p.Covers i) :
    (r.hull p).Covers i := by
  have hLen := h.len_pos
  obtain ⟨hLow, hHigh⟩ := h
  unfold hull Covers
  split
  · omega
  · split
    · omega
    · constructor <;> dsimp only <;> omega

theorem hull_end_le {r p : Extent} {bound : Nat} (hr : 0 < r.len → r.offset + r.len ≤ bound)
    (hp : p.offset + p.len ≤ bound) : (r.hull p).offset + (r.hull p).len ≤ bound := by
  unfold hull
  split
  · exact hp
  · rename_i hLen
    have hEnd := hr (Nat.pos_of_ne_zero hLen)
    split
    · exact hEnd
    · dsimp only
      omega

theorem hull_eq_right {r p : Extent} (hPos : 0 < p.len)
    (h : 0 < r.len → p.offset ≤ r.offset ∧ r.offset + r.len ≤ p.offset + p.len) : r.hull p = p := by
  unfold hull
  split
  · rfl
  · rename_i hLen
    have hInside := h (Nat.pos_of_ne_zero hLen)
    rw [if_neg (Nat.ne_of_gt hPos)]
    cases p
    dsimp only at *
    rw [Extent.mk.injEq]
    omega

theorem hull_len_pos {r p : Extent} (h : 0 < p.len) : 0 < (r.hull p).len := by
  unfold hull
  split
  · exact h
  · split
    · omega
    · dsimp only
      omega

end Extent

/-- Read `top` on the extent and `base` elsewhere. -/
def overlay (r : Extent) (top base : Nat → α) : Nat → α :=
  fun i => if r.Covers i then top i else base i

theorem overlay_covered {r : Extent} {top base : Nat → α} {i : Nat} (h : r.Covers i) :
    overlay r top base i = top i := if_pos h

theorem overlay_uncovered {r : Extent} {top base : Nat → α} {i : Nat} (h : ¬ r.Covers i) :
    overlay r top base i = base i := if_neg h

/-- A log that held `r` over `base` has taken in the piece `p` with contents
`data`: the piece is stored, the rest of the old extent is kept and whatever
the new extent covers besides is copied from the base. -/
structure Absorbs (r r' p : Extent) (top top' data base : Nat → α) : Prop where
  extent : r' = r.hull p
  piece : ∀ i, p.Covers i → top' i = data i
  kept : ∀ i, r.Covers i → ¬ p.Covers i → top' i = top i
  gap : ∀ i, r'.Covers i → ¬ r.Covers i → ¬ p.Covers i → top' i = base i

theorem Absorbs.overlay_eq {r r' p : Extent} {top top' data base : Nat → α}
    (h : Absorbs r r' p top top' data base) :
    overlay r' top' base = overlay p data (overlay r top base) := by
  funext i
  by_cases hp : p.Covers i
  · rw [overlay_covered hp, overlay_covered (h.extent ▸ hp.hull_right r), h.piece i hp]
  · rw [overlay_uncovered hp]
    by_cases hr : r.Covers i
    · rw [overlay_covered hr, overlay_covered (h.extent ▸ hr.hull_left p), h.kept i hr hp]
    · rw [overlay_uncovered hr]
      by_cases hr' : r'.Covers i
      · rw [overlay_covered hr', h.gap i hr' hr hp]
      · rw [overlay_uncovered hr']

/-- If the piece, the old log and the base agree with one image where they are
stored, so does the new log. -/
theorem Absorbs.image {r r' p : Extent} {top top' data base image : Nat → α}
    (h : Absorbs r r' p top top' data base) (hPiece : ∀ i, p.Covers i → data i = image i)
    (hOld : ∀ i, r.Covers i → top i = image i)
    (hGap : ∀ i, r'.Covers i → ¬ r.Covers i → ¬ p.Covers i → base i = image i) :
    ∀ i, r'.Covers i → top' i = image i := by
  intro i hi
  by_cases hp : p.Covers i
  · exact (h.piece i hp).trans (hPiece i hp)
  · by_cases hr : r.Covers i
    · exact (h.kept i hr hp).trans (hOld i hr)
    · exact (h.gap i hi hr hp).trans (hGap i hi hr hp)

end Libnvmmio.RangeCopy

import Libnvmmio.Mmio.Write
import Libnvmmio.Foundation.Outcome

/-! # The six overlap cases of a write

`mmio_write` stores the piece first and then repairs the header. Whatever the
overlap, the entry afterwards has absorbed the piece: its extent is the hull of
the two, and the gap between them comes from the file.
-/

namespace Libnvmmio.Mmio

open RangeCopy RadixLog

set_option autoImplicit false

theorem checkLog_cases (reqStart reqEnd logStart logEnd : Nat) :
    (checkLog reqStart reqEnd logStart logEnd = .before ∧ reqStart ≤ logStart ∧ reqEnd < logStart) ∨
    (checkLog reqStart reqEnd logStart logEnd = .overHead ∧ reqStart ≤ logStart ∧
      logStart ≤ reqEnd ∧ reqEnd < logEnd) ∨
    (checkLog reqStart reqEnd logStart logEnd = .covers ∧ reqStart ≤ logStart ∧
      logStart ≤ reqEnd ∧ logEnd ≤ reqEnd) ∨
    (checkLog reqStart reqEnd logStart logEnd = .inside ∧ logStart < reqStart ∧ reqEnd ≤ logEnd) ∨
    (checkLog reqStart reqEnd logStart logEnd = .overTail ∧ logStart < reqStart ∧
      logEnd < reqEnd ∧ reqStart ≤ logEnd) ∨
    (checkLog reqStart reqEnd logStart logEnd = .after ∧ logStart < reqStart ∧
      logEnd < reqEnd ∧ logEnd < reqStart) := by
  unfold checkLog
  split_ifs <;> simp <;> omega

structure SameTag (e e' : IdxEntry) : Prop where
  epoch : e'.epoch = e.epoch
  policy : e'.policy = e.policy
  dst : e'.dst = e.dst
  logSize : e'.logSize = e.logSize

theorem mergeEntry_sameTag {m : Mmio} {e e' : IdxEntry} {dst logOffset n : Nat}
    (h : m.mergeEntry e dst logOffset n = .ok e') : SameTag e e' := by
  unfold mergeEntry at h
  dsimp only at h
  split at h
  · obtain ⟨data, _, hData⟩ := Outcome.bind_eq_ok h
    cases hData
    exact ⟨rfl, rfl, rfl, rfl⟩
  · cases h
    exact ⟨rfl, rfl, rfl, rfl⟩
  · cases h
    exact ⟨rfl, rfl, rfl, rfl⟩
  · cases h
    exact ⟨rfl, rfl, rfl, rfl⟩
  · cases h
    exact ⟨rfl, rfl, rfl, rfl⟩
  · obtain ⟨data, _, hData⟩ := Outcome.bind_eq_ok h
    cases hData
    exact ⟨rfl, rfl, rfl, rfl⟩

theorem setOffset_eq {e : IdxEntry} {offset : Nat} (h : offset < 2 ^ lmdShift) :
    e.setOffset offset = { e with offset := offset } := by
  rw [lmdShift] at h
  rw [IdxEntry.setOffset, Nat.mod_eq_of_lt h]

theorem setLen_eq {e : IdxEntry} {len : Nat} (h : len ≤ 2 ^ lmdShift) :
    e.setLen len = { e with len := len } := by
  rw [IdxEntry.setLen, Nat.mod_eq_of_lt (Nat.lt_of_le_of_lt h (by decide))]

/-- The situation of the second switch: the piece `[lo, lo + n)` of the block
that starts at `b` is in the log, which was `top` before. -/
structure PieceStored (m : Mmio) (e : IdxEntry) (top piece : Nat → UInt8) (b lo n : Nat) : Prop where
  len_pos : 0 < e.len
  piece_pos : 0 < n
  fits : e.offset + e.len ≤ e.logSize.size
  piece_fits : lo + n ≤ e.logSize.size
  stored : ∀ i, (⟨lo, n⟩ : Extent).Covers i → e.log i = piece i
  kept : ∀ i, ¬ (⟨lo, n⟩ : Extent).Covers i → e.log i = top i
  piece_mapped : b + lo + n ≤ m.mapLen
  old_mapped : b + e.offset ≤ m.mapLen

section Cases

variable {m : Mmio} {e : IdxEntry} {top piece : Nat → UInt8} {b lo n : Nat}

theorem PieceStored.absorbs_of_no_gap (h : PieceStored m e top piece b lo n) {offset len : Nat}
    (hOffset : offset = min e.offset lo) (hEnd : offset + len = max (e.offset + e.len) (lo + n))
    (hNoGap : lo ≤ e.offset + e.len ∧ e.offset ≤ lo + n) :
    Absorbs e.extent ⟨offset, len⟩ ⟨lo, n⟩ top e.log piece (fun i => m.disk.bytes (b + i)) where
  extent := by
    have hLen := h.len_pos
    have hPos := h.piece_pos
    rw [Extent.hull, IdxEntry.extent, if_neg (by dsimp only; omega), if_neg (by dsimp only; omega)]
    dsimp only
    rw [Extent.mk.injEq]
    omega
  piece := h.stored
  kept i _ hPiece := h.kept i hPiece
  gap i hNew hOld hPiece := by
    simp only [Extent.Covers, IdxEntry.extent] at hNew hOld hPiece
    omega

/-- A new header whose extent is the hull, over a log into which the gap was copied. -/
theorem PieceStored.absorbs_of_gap (h : PieceStored m e top piece b lo n) (offset len pos k : Nat)
    (hOffset : offset = min e.offset lo) (hEnd : offset + len = max (e.offset + e.len) (lo + n))
    (hGap : (pos = lo + n ∧ pos + k = e.offset) ∨ (pos = e.offset + e.len ∧ pos + k = lo)) :
    Absorbs e.extent ⟨offset, len⟩ ⟨lo, n⟩ top
      (blit e.log pos (fun i => m.disk.bytes (b + pos + i)) 0 k) piece
      (fun i => m.disk.bytes (b + i)) where
  extent := by
    have hLen := h.len_pos
    have hPos := h.piece_pos
    rw [Extent.hull, IdxEntry.extent, if_neg (by dsimp only; omega), if_neg (by dsimp only; omega)]
    dsimp only
    rw [Extent.mk.injEq]
    omega
  piece i hi := by
    rw [blit_outside, h.stored i hi]
    simp only [Extent.Covers] at hi
    omega
  kept i hOld hPiece := by
    rw [blit_outside, h.kept i hPiece]
    simp only [Extent.Covers, IdxEntry.extent] at hOld
    omega
  gap i hNew hOld hPiece := by
    simp only [Extent.Covers, IdxEntry.extent] at hNew hOld hPiece
    rw [blit_inside (by omega) (by omega)]
    congr 1
    omega

theorem mergeEntry_absorbs (h : PieceStored m e top piece b lo n) :
    ∃ e', m.mergeEntry e (m.start + (b + lo)) lo n = .ok e' ∧ SameTag e e' ∧
      Absorbs e.extent e'.extent ⟨lo, n⟩ top e'.log piece (fun i => m.disk.bytes (b + i)) := by
  have hSize := e.logSize.size_le
  have hLen := h.len_pos
  have hPos := h.piece_pos
  have hFits := h.fits
  have hPieceFits := h.piece_fits
  have hMapped := h.piece_mapped
  have hOldMapped := h.old_mapped
  suffices hMerge : ∃ e', m.mergeEntry e (m.start + (b + lo)) lo n = .ok e' ∧
      Absorbs e.extent e'.extent ⟨lo, n⟩ top e'.log piece (fun i => m.disk.bytes (b + i)) by
    obtain ⟨e', hOk, hAbsorbs⟩ := hMerge
    exact ⟨e', hOk, mergeEntry_sameTag hOk, hAbsorbs⟩
  unfold mergeEntry
  dsimp only
  rcases checkLog_cases lo (lo + n) e.offset (e.offset + e.len) with
    ⟨hCase, _, _⟩ | ⟨hCase, _, _, _⟩ | ⟨hCase, _, _, _⟩ | ⟨hCase, _, _⟩ | ⟨hCase, _, _, _⟩ |
    ⟨hCase, _, _, _⟩ <;> rw [hCase] <;> dsimp only
  · -- (1) the gap after the piece comes from the file
    have hSrc : m.start + (b + lo) + n = m.start + (b + (lo + n)) := by omega
    rw [hSrc, load_file (by omega), Outcome.ok_bind, setLen_eq (by omega), setOffset_eq (by omega)]
    refine ⟨_, rfl, ?_⟩
    exact h.absorbs_of_gap lo (e.offset + e.len - lo) (lo + n) (e.offset - (lo + n)) (by omega)
      (by omega) (by omega)
  · rw [setLen_eq (by omega), setOffset_eq (by omega)]
    exact ⟨_, rfl, h.absorbs_of_no_gap (by dsimp only; omega) (by dsimp only; omega) (by omega)⟩
  · rw [setLen_eq (by omega), setOffset_eq (by omega)]
    exact ⟨_, rfl, h.absorbs_of_no_gap (by dsimp only; omega) (by dsimp only; omega) (by omega)⟩
  · exact ⟨_, rfl, h.absorbs_of_no_gap (by omega) (by omega) (by omega)⟩
  · rw [setLen_eq (by omega)]
    exact ⟨_, rfl, h.absorbs_of_no_gap (by dsimp only; omega) (by dsimp only; omega) (by omega)⟩
  · -- (6) the gap before the piece comes from the file
    have hSrc : m.start + (b + lo) - (lo - (e.offset + e.len)) =
        m.start + (b + (e.offset + e.len)) := by omega
    rw [hSrc, load_file (by omega), Outcome.ok_bind, setLen_eq (by omega)]
    refine ⟨_, rfl, ?_⟩
    exact h.absorbs_of_gap e.offset (lo + n - e.offset) (e.offset + e.len)
      (lo - (e.offset + e.len)) (by omega) (by omega) (by omega)

end Cases

end Libnvmmio.Mmio

import Libnvmmio.Mmio.ReadOverlay

/-! # One iteration of `mmio_write` under REDO

An entry of the current epoch takes a piece in: its log over the file changes
in the piece and nowhere else, and the file does not change.
-/

namespace Libnvmmio.Mmio

open RangeCopy RadixLog Outcome

set_option autoImplicit false

def Cursor.pieceLen (c : Cursor) (e : IdxEntry) : Nat :=
  min c.n (e.logSize.size - c.off % e.logSize.size)

theorem Cursor.clip_eq_pieceLen (c : Cursor) (e : IdxEntry) :
    (if e.logSize.size - c.off % e.logSize.size < c.n then
      e.logSize.size - c.off % e.logSize.size else c.n) = c.pieceLen e := by
  rw [Cursor.pieceLen]
  split <;> omega

def Cursor.advance (c : Cursor) (n : Nat) : Cursor := ⟨n, c.off + n, c.dst + n, c.src + n, c.ret + n⟩

def Cursor.rest (c : Cursor) (buf : Nat → UInt8) : Nat → UInt8 := fun i => buf (c.src + i)

theorem logPiece_rest (m : Mmio) (buf : Nat → UInt8) (e : IdxEntry) (c : Cursor) (dst lo n : Nat) :
    m.logPiece buf e dst c.src lo n = m.logPiece (c.rest buf) e dst 0 lo n := by
  unfold logPiece
  cases m.policy with
  | undo => rfl
  | redo =>
    have hBlit : blit e.log lo buf c.src n = blit e.log lo (c.rest buf) 0 n := by
      apply blit_congr
      intro i _
      rw [Nat.zero_add, Cursor.rest]
    dsimp only
    rw [hBlit]

theorem storePiece_rest (m : Mmio) (buf : Nat → UInt8) (e e' : IdxEntry) (c : Cursor)
    (h : m.storePiece (c.rest buf) e ⟨c.pieceLen e, c.off, c.dst, 0, 0⟩ =
      .ok (e', Cursor.advance ⟨c.pieceLen e, c.off, c.dst, 0, 0⟩ (c.pieceLen e))) :
    m.storePiece buf e c = .ok (e', c.advance (c.pieceLen e)) := by
  have hWhole : ¬ e.logSize.size - c.off % e.logSize.size < c.pieceLen e :=
    Nat.not_lt.mpr (Nat.min_le_right _ _)
  unfold storePiece at h ⊢
  dsimp only at h ⊢
  rw [if_neg hWhole] at h
  rw [Cursor.clip_eq_pieceLen, logPiece_rest]
  obtain ⟨e₁, hLog, hHeader⟩ := bind_eq_ok h
  obtain ⟨e₂, hHeader, hDone⟩ := bind_eq_ok hHeader
  rw [Except.ok.injEq, Prod.mk.injEq] at hDone
  rw [hLog, ok_bind, hHeader, ok_bind, hDone.1]
  rfl

/-- The entry `e'` has taken in the `n` bytes of `data` at the offset. -/
structure TakesIn (m : Mmio) (data : Nat → UInt8) (off n : Nat) (e e' : IdxEntry) : Prop where
  view : m.blockOverlay e' off =
    overlay ⟨off % e.logSize.size, n⟩ (fun i => data (i - off % e.logSize.size)) (m.blockOverlay e off)
  piece : ∀ i, (⟨off % e.logSize.size, n⟩ : Extent).Covers i → e'.extent.Covers i
  old : ∀ i, e.extent.Covers i → e'.extent.Covers i
  logSize : e'.logSize = e.logSize
  fits : e'.offset + e'.len ≤ e'.logSize.size
  -- the header holds the whole hull, not its low bits
  header : e'.extent = e.extent.hull ⟨off % e.logSize.size, n⟩
  offset_lt : e'.offset < 2 ^ 21
  len_lt : e'.len < 2 ^ 22

theorem Stored.takesIn {m : Mmio} {data : Nat → UInt8} {off n : Nat} {e e' : IdxEntry}
    (h : m.Stored data off n e e') (hRedo : m.policy = .redo) (hPos : 0 < n)
    (hPiece : off % e.logSize.size + n ≤ e.logSize.size)
    (hFits : e.offset + e.len ≤ e.logSize.size) : m.TakesIn data off n e e' := by
  have hSize := e.logSize.size_le
  rw [lmdShift] at hSize
  have hEnd : e'.offset + e'.len ≤ e.logSize.size := by
    have hHull := Extent.hull_end_le (r := e.extent) (p := ⟨off % e.logSize.size, n⟩)
      (fun _ => hFits) hPiece
    rw [← h.absorbs.extent] at hHull
    exact hHull
  have hLen : 0 < e'.len := by
    have hHull := Extent.hull_len_pos (r := e.extent) (p := ⟨off % e.logSize.size, n⟩) hPos
    rw [← h.absorbs.extent] at hHull
    exact hHull
  have hData : m.pieceData data e.logSize off = fun i => data (i - off % e.logSize.size) := by
    unfold pieceData
    rw [hRedo]
  refine ⟨?_, fun i hi => ?_, fun i hi => ?_, h.logSize, ?_, h.absorbs.extent, ?_, ?_⟩
  · unfold blockOverlay
    rw [h.logSize, ← hData]
    exact h.absorbs.overlay_eq
  · rw [h.absorbs.extent]
    exact hi.hull_right e.extent
  · rw [h.absorbs.extent]
    exact hi.hull_left _
  · rw [h.logSize]
    exact hEnd
  · omega
  · omega

/-- One iteration on an entry of the current epoch. -/
theorem writeEntry_takesIn (m : Mmio) (buf : Nat → UInt8) (slot : Slot) (e : IdxEntry) (c : Cursor)
    (hRedo : m.policy = .redo) (hEntry : m.radixlog.entryAt slot = some e)
    (hCurrent : e.epoch = m.epoch) (hFits : e.offset + e.len ≤ e.logSize.size)
    (hPos : 0 < c.n) (hDst : c.dst = m.start + c.off)
    (hMapped : c.off + c.pieceLen e ≤ m.mapLen)
    (hMappedOld : 0 < e.len → e.logSize.blockStart c.off + e.offset ≤ m.mapLen) :
    ∃ e', m.writeEntry buf slot c =
        .ok ({ m with radixlog := m.radixlog.setEntry slot (some e') }, c.advance (c.pieceLen e)) ∧
      m.TakesIn (c.rest buf) c.off (c.pieceLen e) e e' := by
  have hMod : c.off % e.logSize.size < e.logSize.size := Nat.mod_lt _ e.logSize.size_pos
  have hPiecePos : 0 < c.pieceLen e := by
    rw [Cursor.pieceLen]
    omega
  have hPiece : c.off % e.logSize.size + c.pieceLen e ≤ e.logSize.size := by
    rw [Cursor.pieceLen]
    omega
  obtain ⟨e', hStore, hStored⟩ := storePiece_stored m (c.rest buf) hPiecePos hPiece hMapped
    (fun _ => hFits) hMappedOld
  refine ⟨e', ?_, hStored.takesIn hRedo hPiecePos hPiece hFits⟩
  rw [← hDst] at hStore
  have hCursor := storePiece_rest m buf e e' c hStore
  unfold writeEntry
  rw [hEntry]
  dsimp only
  rw [retireStale, if_neg (by omega), ok_bind]
  dsimp only
  rw [hCursor, ok_bind]

/-- Three bytes at offset 4 join the byte logged at offset 1. -/
theorem writeEntry_takesIn_threeBytes :
    ∃ e', writeEntry
        { eightByteFile with radixlog := eightByteFile.radixlog.setEntry ⟨3, 0⟩ (some loggedByte) }
        (fun _ => 7) ⟨3, 0⟩ ⟨3, 4, 2 ^ 21 + 4, 0, 0⟩ =
        .ok ({ eightByteFile with
          radixlog := (eightByteFile.radixlog.setEntry ⟨3, 0⟩ (some loggedByte)).setEntry ⟨3, 0⟩
            (some e') }, ⟨3, 7, 2 ^ 21 + 7, 3, 3⟩) ∧
      TakesIn { eightByteFile with radixlog := eightByteFile.radixlog.setEntry ⟨3, 0⟩ (some loggedByte) }
        (fun _ => 7) 4 3 loggedByte e' :=
  writeEntry_takesIn _ (fun _ => 7) ⟨3, 0⟩ loggedByte ⟨3, 4, 2 ^ 21 + 4, 0, 0⟩ rfl
    (entryAt_setEntry_self _ _ _) rfl (by decide) (by decide) rfl (by decide) (fun _ => by decide)

end Libnvmmio.Mmio

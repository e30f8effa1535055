import Libnvmmio.Mmio.Requests

/-! # One iteration of `read_redolog`

The bytes that an iteration should deliver are the log over the file. It does
deliver them when no tail behind the log is left to copy, and otherwise only
when the file happens to repeat itself: the tail is read as far behind its
place as the log ends behind the start of the request.
-/

namespace Libnvmmio.Mmio

open RangeCopy RadixLog Outcome

set_option autoImplicit false

def ReadCursor.pieceLen (c : ReadCursor) (e : IdxEntry) : Nat :=
  min c.len (e.logSize.size - c.offset % e.logSize.size)

theorem ReadCursor.clip_eq_pieceLen (c : ReadCursor) (e : IdxEntry) :
    (if e.logSize.size - c.offset % e.logSize.size < c.len then
      e.logSize.size - c.offset % e.logSize.size else c.len) = c.pieceLen e := by
  rw [ReadCursor.pieceLen]
  split <;> omega

def blockOverlay (m : Mmio) (e : IdxEntry) (offset : Nat) : Nat → UInt8 :=
  overlay e.extent e.log (fun i => m.disk.bytes (e.logSize.blockStart offset + i))

/-- The cursor has taken `n` bytes off its length. A subtraction that wraps
would leave `dst + len` larger than before. -/
structure Moved (c c' : ReadCursor) (n : Nat) : Prop where
  dst : c'.dst = c.dst + n
  offset : c'.offset = c.offset + n
  len : c'.len + n = c.len

theorem Moved.trans {c c' c'' : ReadCursor} {n k : Nat} (h : Moved c c' n) (h' : Moved c' c'' k) :
    Moved c c'' (n + k) where
  dst := by rw [h'.dst, h.dst, Nat.add_assoc]
  offset := by rw [h'.offset, h.offset, Nat.add_assoc]
  len := by
    have hFirst := h.len
    have hSecond := h'.len
    omega

theorem Moved.of_eq {c c' : ReadCursor} {n k : Nat} (h : Moved c c' n) (hEq : n = k) : Moved c c' k :=
  hEq ▸ h

theorem moved_of_copy {c : ReadCursor} (src : Nat → UInt8) (srcPos : Nat) {n : Nat} (hLen : n ≤ c.len) :
    Moved c (c.copy src srcPos n) n :=
  ⟨rfl, rfl, Nat.sub_add_cancel hLen⟩

theorem moved_of_copyFile {m : Mmio} {c c' : ReadCursor} {src n : Nat}
    (h : m.copyFile c src n = .ok c') (hLen : n ≤ c.len) : Moved c c' n := by
  obtain ⟨data, _, hCopy⟩ := bind_eq_ok h
  cases hCopy
  exact moved_of_copy data 0 hLen

/-- Whatever the log covers, the counters move over the part in the block. -/
theorem readEntry_moved {m : Mmio} {e : IdxEntry} {c c' : ReadCursor} (h : m.readEntry e c = .ok c') :
    Moved c c' (c.pieceLen e) := by
  have hShort : c.pieceLen e ≤ c.len := Nat.min_le_left _ _
  unfold readEntry at h
  dsimp only at h
  rw [ReadCursor.clip_eq_pieceLen] at h
  generalize c.pieceLen e = n at *
  generalize c.offset % e.logSize.size = lo at *
  by_cases hLen : 0 < e.len
  · rw [if_pos hLen] at h
    rcases checkLog_cases lo (lo + n) e.offset (e.offset + e.len) with
      ⟨hCase, _, _⟩ | ⟨hCase, _, _, _⟩ | ⟨hCase, _, _, _⟩ | ⟨hCase, _, _⟩ | ⟨hCase, _, _, _⟩ |
      ⟨hCase, _, _, _⟩ <;> rw [hCase] at h <;> dsimp only at h
    · exact moved_of_copyFile h hShort
    · obtain ⟨c₁, hHead, hLog⟩ := bind_eq_ok h
      cases hLog
      have hFirst := moved_of_copyFile hHead (by omega)
      have hLeft := hFirst.len
      exact (hFirst.trans (moved_of_copy e.log e.offset (by omega))).of_eq (by omega)
    · obtain ⟨c₁, hHead, hRest⟩ := bind_eq_ok h
      have hFirst := moved_of_copyFile hHead (by omega)
      have hLeft := hFirst.len
      have hSecond := hFirst.trans
        (moved_of_copy e.log e.offset (n := e.offset + e.len - e.offset) (by omega))
      have hLeft' := hSecond.len
      exact (hSecond.trans (moved_of_copyFile hRest (by omega))).of_eq (by omega)
    · cases h
      exact (moved_of_copy e.log lo (by omega)).of_eq (by omega)
    · have hFirst := moved_of_copy (c := c) e.log lo (n := e.offset + e.len - lo) (by omega)
      have hLeft := hFirst.len
      exact (hFirst.trans (moved_of_copyFile h (by omega))).of_eq (by omega)
    · exact (moved_of_copyFile h (by omega)).of_eq (by omega)
  · rw [if_neg hLen] at h
    exact moved_of_copyFile h hShort

/-- One iteration has done its part: the bytes of the overlay are delivered,
and the counters have moved over them. -/
def DeliversOverlay (m : Mmio) (e : IdxEntry) (c : ReadCursor) : Prop :=
  ∃ c', m.readEntry e c = .ok c' ∧ Moved c c' (c.pieceLen e) ∧
    c'.buf = blit c.buf c.dst (m.blockOverlay e c.offset) (c.offset % e.logSize.size) (c.pieceLen e)

/-- The tail that is read too far behind is mapped and equals the one at its place. -/
def TailRepeats (m : Mmio) (e : IdxEntry) (c : ReadCursor) : Prop :=
  let done := e.offset + e.len - c.offset % e.logSize.size
  c.offset + done + c.pieceLen e ≤ m.mappedLen ∧
    ∀ i, done ≤ i → i < c.pieceLen e →
      m.disk.bytes (c.offset + done + i) = m.disk.bytes (c.offset + i)

section Overlay

variable {m : Mmio} {e : IdxEntry} {c : ReadCursor}

def overlayView (m : Mmio) (e : IdxEntry) (offset : Nat) : Nat → UInt8 :=
  fun x => m.blockOverlay e offset (x - e.logSize.blockStart offset)

theorem overlayView_add (m : Mmio) (e : IdxEntry) (offset i : Nat) :
    m.overlayView e offset (offset + i) = m.blockOverlay e offset (offset % e.logSize.size + i) := by
  have hSplit := e.logSize.blockStart_add_mod offset
  rw [overlayView]
  congr 1
  omega

theorem blockOverlay_covered {offset i : Nat} (h : e.extent.Covers (offset % e.logSize.size + i)) :
    m.blockOverlay e offset (offset % e.logSize.size + i) = e.log (offset % e.logSize.size + i) :=
  overlay_covered h

theorem blockOverlay_uncovered {offset i : Nat} (h : ¬ e.extent.Covers (offset % e.logSize.size + i)) :
    m.blockOverlay e offset (offset % e.logSize.size + i) = m.disk.bytes (offset + i) := by
  have hSplit := e.logSize.blockStart_add_mod offset
  rw [blockOverlay, overlay_uncovered h]
  congr 1
  omega

theorem blockView_overlayView {n : Nat} (hMapped : c.offset + n ≤ m.mapLen) :
    BlockView m e (c.offset % e.logSize.size) { c with len := n } (m.overlayView e c.offset) where
  mapped := hMapped
  logged i _ hCovers := by rw [overlayView_add, blockOverlay_covered hCovers]
  stored i _ hCovers := by rw [overlayView_add, blockOverlay_uncovered hCovers]

theorem deliversOverlay_of_copied {c' : ReadCursor} (hOk : m.readEntry e c = .ok c')
    (hCopied : Copied (m.overlayView e c.offset) c c' (c.pieceLen e)) : m.DeliversOverlay e c := by
  refine ⟨c', hOk, readEntry_moved hOk, hCopied.buf.trans ?_⟩
  apply blit_congr
  intro i _
  rw [Nat.zero_add]
  exact overlayView_add m e c.offset i

theorem LogInside.checkLog_eq {n : Nat} (h : LogInside e c.offset n) :
    checkLog (c.offset % e.logSize.size) (c.offset % e.logSize.size + n) e.offset
      (e.offset + e.len) = .covers := by
  obtain ⟨_, hLow, hHigh⟩ := h
  rw [checkLog, if_pos hLow, if_pos (by omega), if_neg (by omega)]

/-- The iteration up to the misplaced tail, and the tail. -/
theorem readEntry_of_logInside (hMapped : c.offset + c.pieceLen e ≤ m.mapLen)
    (hInside : LogInside e c.offset (c.pieceLen e)) :
    ∃ c₁, Copied (m.overlayView e c.offset) c c₁ (e.offset + e.len - c.offset % e.logSize.size) ∧
      m.readEntry e c =
        m.copyFile c₁
          (m.start + (c.offset + 2 * (e.offset + e.len - c.offset % e.logSize.size)))
          (c.pieceLen e - (e.offset + e.len - c.offset % e.logSize.size)) := by
  have hView := blockView_overlayView (e := e) hMapped
  have hCase := hInside.checkLog_eq
  obtain ⟨hLen, hLow, hHigh⟩ := hInside
  unfold readEntry
  dsimp only
  rw [ReadCursor.clip_eq_pieceLen, if_pos hLen, hCase]
  dsimp only
  generalize c.pieceLen e = n at *
  have hStart : Copied (m.overlayView e c.offset) { c with len := n } c 0 :=
    ⟨(blit_zero _ _ _ _).symm, rfl, rfl⟩
  obtain ⟨c₁, hOk, hHead⟩ := hView.copy_file hStart (e.offset - c.offset % e.logSize.size)
    (e.offset - c.offset % e.logSize.size) (by omega) (by dsimp only; omega) (by omega)
  have hLog := hView.copy_log hHead e.offset (e.offset + e.len - e.offset)
    (e.offset + e.len - c.offset % e.logSize.size) (by omega) (by omega) (by dsimp only; omega)
    (by omega)
  refine ⟨c₁.copy e.log e.offset (e.offset + e.len - e.offset),
    ⟨hLog.buf, hLog.dst, hLog.offset⟩, ?_⟩
  rw [hOk, ok_bind, hLog.offset]
  congr 1
  · dsimp only
    omega
  · omega

/-- Whether the misplaced tail does no harm. -/
theorem deliversOverlay_iff_of_logInside (hMapped : c.offset + c.pieceLen e ≤ m.mapLen)
    (hInside : LogInside e c.offset (c.pieceLen e)) : m.DeliversOverlay e c ↔ m.TailRepeats e c := by
  obtain ⟨c₁, hCopied, hRead⟩ := readEntry_of_logInside hMapped hInside
  have hSplit := e.logSize.blockStart_add_mod c.offset
  obtain ⟨hLen, hLow, hHigh⟩ := hInside
  unfold TailRepeats
  dsimp only
  generalize hDone : e.offset + e.len - c.offset % e.logSize.size = done at *
  -- Behind the log the overlay is the file.
  have hTail : ∀ i, done ≤ i → ¬ e.extent.Covers (c.offset % e.logSize.size + i) := by
    intro i hi hCovers
    have hEnd := hCovers.2
    dsimp only [IdxEntry.extent] at hEnd
    omega
  constructor
  · rintro ⟨c', hOk, _, hBuf⟩
    rw [hRead] at hOk
    obtain ⟨data, hLoad, hCopy⟩ := bind_eq_ok hOk
    obtain ⟨hAccess, hData⟩ := load_eq_ok hLoad
    cases hCopy
    have hIn : c.offset + done + c.pieceLen e ≤ m.mappedLen := by
      rcases hAccess with hNone | ⟨_, hEnd⟩ <;> omega
    refine ⟨hIn, fun i hFrom hTo => ?_⟩
    have hByte := congrFun hBuf (c.dst + i)
    dsimp only [ReadCursor.copy] at hByte
    rw [hCopied.dst, blit_inside (by omega) (by omega), blit_inside (by omega) (by omega), hData,
      Nat.add_sub_cancel_left, Nat.add_sub_cancel_left, blockOverlay_uncovered (hTail i hFrom)] at hByte
    rw [← hByte]
    congr 1
    omega
  · rintro ⟨hIn, hSame⟩
    have hAccess : m.Accessible (m.start + (c.offset + 2 * done)) (c.pieceLen e - done) :=
      .inr ⟨Nat.le_add_right _ _, by omega⟩
    have hOk : m.readEntry e c = .ok (c₁.copy
        (fun i => m.disk.bytes (m.start + (c.offset + 2 * done) - m.start + i)) 0
        (c.pieceLen e - done)) := by
      rw [hRead, copyFile, load, if_pos hAccess, ok_bind]
    have hRest : Copied (m.overlayView e c.offset) c₁ (c₁.copy
        (fun i => m.disk.bytes (m.start + (c.offset + 2 * done) - m.start + i)) 0
        (c.pieceLen e - done)) (c.pieceLen e - done) := by
      apply copied_of_copy
      intro i hi
      rw [hCopied.offset, Nat.add_assoc, overlayView_add,
        blockOverlay_uncovered (hTail _ (Nat.le_add_right _ _)),
        ← hSame _ (Nat.le_add_right _ _) (by omega)]
      congr 1
      omega
    have hBoth := hCopied.trans hRest
    rw [Nat.add_sub_cancel' (by omega)] at hBoth
    exact deliversOverlay_of_copied hOk hBoth

/-- One iteration delivers the log over the file exactly if no part of the
request is left behind the log, or the file repeats itself there. -/
theorem deliversOverlay_iff (m : Mmio) (e : IdxEntry) (c : ReadCursor)
    (hMapped : c.offset + c.pieceLen e ≤ m.mapLen) :
    m.DeliversOverlay e c ↔ ¬ LogInside e c.offset (c.pieceLen e) ∨ m.TailRepeats e c := by
  by_cases hInside : LogInside e c.offset (c.pieceLen e)
  · rw [deliversOverlay_iff_of_logInside hMapped hInside]
    exact ⟨Or.inr, fun h => h.resolve_left (not_not_intro hInside)⟩
  · refine ⟨fun _ => .inl hInside, fun _ => ?_⟩
    obtain ⟨c', hOk, hCopied⟩ := readEntry_delivers rfl (blockView_overlayView hMapped) hInside
    exact deliversOverlay_of_copied hOk hCopied

end Overlay

def eightByteFile : Mmio := firstOpen .redo (2 ^ 21) ⟨8, fun i => if i = 4 then 1 else 0⟩

def loggedByte : IdxEntry :=
  { IdxEntry.alloc (fun _ => 9) with offset := 1, len := 1, policy := .redo, dst := 2 ^ 21 }

theorem deliversOverlay_twoBytes : eightByteFile.DeliversOverlay loggedByte ⟨fun _ => 0, 0, 0, 2⟩ :=
  (deliversOverlay_iff eightByteFile loggedByte ⟨fun _ => 0, 0, 0, 2⟩ (by decide)).mpr
    (.inl (by unfold LogInside; decide))

/-- A read of four bytes finds byte 4 of the file in the place of byte 2. -/
theorem deliversOverlay_fails_tail :
    loggedByte.offset + loggedByte.len ≤ loggedByte.logSize.size ∧
      ¬ eightByteFile.DeliversOverlay loggedByte ⟨fun _ => 0, 0, 0, 4⟩ := by
  have hInside : LogInside loggedByte 0 4 := ⟨by decide, by decide, by decide⟩
  refine ⟨by decide, fun hDelivers => ?_⟩
  have hRepeats := (deliversOverlay_iff_of_logInside (m := eightByteFile) (e := loggedByte)
    (c := ⟨fun _ => 0, 0, 0, 4⟩) (by decide) hInside).mp hDelivers
  have hByte := hRepeats.2 2 (by decide) (by decide)
  exact absurd hByte (by decide)

end Libnvmmio.Mmio

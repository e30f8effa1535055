import Libnvmmio.Mmio.SettledRuns

/-! # The image in the undo logs

Under UNDO a write logs bytes of the file before it updates them, over whatever
its entry held there. Runs are observed together with the bytes that the file
held at the last commit: the logs hold these bytes as long as no byte that has
changed is written again.
-/

namespace Libnvmmio.Mmio

open RangeCopy RadixLog Outcome GuardedRun

set_option autoImplicit false

/-- The byte at an offset is covered by the log of its block, under the present epoch. -/
def LoggedAt (m : Mmio) (j : Nat) : Prop :=
  ∃ e, m.radixlog.entryOf j = some e ∧ e.epoch = m.epoch ∧ e.extent.Covers (j % e.logSize.size)

structure Imprint (epoch : Nat) (image : Nat → UInt8) (a : Nat) (e : IdxEntry) : Prop where
  tag_le : e.epoch ≤ epoch
  shows : e.epoch = epoch → e.extent.Covers (a % e.logSize.size) →
    e.log (a % e.logSize.size) = image a

/-- The invariant under which the logs and the file determine the image. -/
structure ImageKept (image : Nat → UInt8) (m : Mmio) : Prop where
  tidy : m.Tidy
  undo : m.policy = .undo
  small : m.epoch < 2 ^ 20
  imprint : m.radixlog.EachEntry (Imprint m.epoch image)
  covered : ∀ j, m.disk.bytes j ≠ image j → j < m.radixlog.skipType.span ∧ m.LoggedAt j

section ImageKept

variable {image : Nat → UInt8} {m : Mmio}

theorem ImageKept.settled (h : ImageKept image m) : m.Settled False where
  tidy := h.tidy
  watched hRedo := by
    rw [h.undo] at hRedo
    cases hRedo
  at_home := False.elim

theorem ImageKept.log_eq (h : ImageKept image m) {slot : Slot} {s : LogSize} {b i : Nat}
    {e : IdxEntry} (hSlot : m.radixlog.SlotOf slot s b) (hEntry : m.radixlog.entryAt slot = some e)
    (hCurrent : e.epoch = m.epoch) (hCovers : e.extent.Covers i) :
    e.log i = image (s.blockStart b + i) := by
  obtain ⟨hs, hIn, hOf, hPos⟩ := h.tidy.entryOf_covered hSlot hEntry hCovers
  have hShows := (h.imprint _ e hIn hOf).shows hCurrent
  rw [hs, hPos] at hShows
  exact hShows hCovers

/-- Where no log of the epoch covers the block, the file still shows the image. -/
theorem ImageKept.byte_eq (h : ImageKept image m) {slot : Slot} {s : LogSize} {b i : Nat}
    (hSlot : m.radixlog.SlotOf slot s b) (hi : i < s.size)
    (hNone : ∀ e, m.radixlog.entryAt slot = some e → e.epoch = m.epoch → ¬ e.extent.Covers i) :
    m.disk.bytes (s.blockStart b + i) = image (s.blockStart b + i) := by
  obtain ⟨hBlock, hPos⟩ := s.block_add b hi
  by_contra hChanged
  obtain ⟨_, e, hOf, hCurrent, hCovers⟩ := h.covered _ hChanged
  have hSlot' := hSlot.congr hBlock
  have hs : e.logSize = s := h.tidy.sound.entryOf_size hOf hSlot'.find hSlot'.size
  rw [hs, hPos] at hCovers
  exact hNone e (hSlot'.entryOf.symm.trans hOf) hCurrent hCovers

theorem ImageKept.grown (h : ImageKept image m) (remap : Nat → Nat) (target : Nat) :
    ImageKept image (m.grown remap target) where
  tidy := h.tidy.grown remap target
  undo := h.undo
  small := h.small
  imprint := h.imprint
  covered j hChanged := by
    rw [grown_bytes] at hChanged
    exact h.covered j hChanged

theorem ImageKept.locked {m' : Mmio} {head : List Slot} (h : ImageKept image m)
    (hLocked : LockRun m [] m' head) : ImageKept image m' := by
  have hTidy := hLocked.tidy h.tidy
  have hAcq := hLocked.acquires
  have hMod := Nat.mod_le m.epoch (2 ^ 20)
  obtain ⟨⟨r, k, rfl⟩, _, _⟩ := hLocked
  refine ⟨hTidy, h.undo, h.small, ?_, fun j hChanged => ?_⟩
  · apply hAcq.eachEntry h.tidy.sound h.imprint
    intro a e hFresh
    refine ⟨by rw [hFresh.epoch]; exact hMod, fun _ hCovers => ?_⟩
    exact absurd hCovers (Extent.not_covers_of_len_eq_zero hFresh.len _)
  · obtain ⟨hSpan, e, hOf, hCurrent, hCovers⟩ := h.covered j hChanged
    refine ⟨by rw [hAcq.skipType h.tidy.sound]; exact hSpan, e, ?_, hCurrent, hCovers⟩
    rcases hAcq.entryOf h.tidy.sound j with hSame | ⟨hNone, _⟩
    · exact hSame.trans hOf
    · rw [hOf] at hNone
      cases hNone

section Written

variable {remap : Nat → Nat} {off len : Nat} {buf : Nat → UInt8} {m₁ m' : Mmio} {slot : Slot}
  {s : LogSize} {bytes : Nat → UInt8} {e₁ e : IdxEntry}

/-- The entry of a write carries the tag of the epoch. -/
theorem ImageKept.written_tag (h : ImageKept image m₁)
    (hStages : WriteStages m remap off buf len m₁ slot s bytes e₁ e m') : e.epoch = m₁.epoch := by
  rw [hStages.stored.epoch]
  rcases hStages.prepared.tag with hTag | ⟨hEntry, hCurrent⟩
  · rw [hTag, Nat.mod_eq_of_lt h.small]
  · have hOf : m₁.radixlog.entryOf off = some e₁ := hStages.slot_of.entryOf.trans hEntry
    have hLe := (h.imprint off e₁ hStages.slot_of.in_span hOf).tag_le
    omega

/-- The log of a write holds the bytes that the file held before it. -/
theorem WriteStages.piece_logged (hStages : WriteStages m remap off buf len m₁ slot s bytes e₁ e m')
    (hUndo : m₁.policy = .undo) {i : Nat} (hPiece : (⟨off % s.size, len⟩ : Extent).Covers i) :
    e.extent.Covers i ∧ e.log i = m.disk.bytes (s.blockStart off + i) := by
  have hAbsorbs := hStages.stored.absorbs
  have hBytes : bytes = m.disk.bytes := by
    obtain ⟨r, k, hFrame⟩ := hStages.frame
    rw [hStages.prepared.undo hUndo, hFrame]
    exact grown_bytes m remap (off + len)
  rw [hStages.prepared.size] at hAbsorbs
  refine ⟨hAbsorbs.extent ▸ hPiece.hull_right _, ?_⟩
  rw [hAbsorbs.piece i hPiece, pieceData, hUndo, hBytes]

theorem ImageKept.written_log (h : ImageKept image m₁)
    (hStages : WriteStages m remap off buf len m₁ slot s bytes e₁ e m')
    (hUnchanged : ∀ j, off ≤ j → j < off + len → m.disk.bytes j = image j) :
    ∀ i, e.extent.Covers i → e.log i = image (s.blockStart off + i) := by
  have hAbsorbs := hStages.stored.absorbs
  have hSplit := s.blockStart_add_mod off
  have hFits := hStages.lodged.fits
  rw [hStages.logSize] at hFits
  rw [hStages.prepared.size] at hAbsorbs
  refine hAbsorbs.image ?_ ?_ ?_
  · intro i hPiece
    rw [← hAbsorbs.piece i hPiece, (hStages.piece_logged h.undo hPiece).2]
    obtain ⟨hLow, hHigh⟩ := hPiece
    dsimp only at hLow hHigh
    exact hUnchanged _ (by omega) (by omega)
  · intro i hOld
    obtain ⟨hOf, hCurrent⟩ := hStages.prepared.live hOld.len_pos
    have hLe := (h.imprint off e₁ hStages.slot_of.in_span hOf).tag_le
    exact h.log_eq hStages.slot_of (hStages.slot_of.entryOf.symm.trans hOf) (by omega) hOld
  · -- a byte of the gap is not logged, so it still shows the image
    intro i hNew hOld _
    change bytes (s.blockStart off + i) = image (s.blockStart off + i)
    rw [hStages.prepared.undo h.undo]
    apply h.byte_eq hStages.slot_of
    · obtain ⟨_, hHigh⟩ := hNew
      dsimp only [IdxEntry.extent] at hHigh
      omega
    · intro e₂ hEntry hCurrent hCovered
      have hKept := hStages.prepared.kept e₂ hEntry (by omega)
      rw [← hKept] at hCovered
      exact hOld hCovered

/-- What was logged in this epoch stays logged, and the piece is logged now. -/
theorem ImageKept.written_covers (h : ImageKept image m₁)
    (hStages : WriteStages m remap off buf len m₁ slot s bytes e₁ e m') {j : Nat}
    (hj : (off ≤ j ∧ j < off + len) ∨ (j < m₁.radixlog.skipType.span ∧ m₁.LoggedAt j)) :
    j < m₁.radixlog.skipType.span ∧ m'.LoggedAt j := by
  have hAbsorbs := hStages.stored.absorbs
  have hSplit := s.blockStart_add_mod off
  have hFits := hStages.piece_fits
  have hEpoch : m'.epoch = m₁.epoch := by rw [hStages.result]
  have hTag := (h.written_tag hStages).trans hEpoch.symm
  rw [hStages.prepared.size] at hAbsorbs
  rcases hj with ⟨hLow, hHigh⟩ | ⟨hSpan, e₂, hOf, hCurrent, hCovers⟩
  · have hBlock : j / s.size = off / s.size := by
      rw [s.block_eq_iff]
      omega
    have hPos := LogSize.mod_eq_sub hBlock
    have hSpan := (hStages.slot_of.congr hBlock).in_span
    refine ⟨hSpan, e, by rw [hStages.entryOf hSpan, if_pos hBlock], hTag, ?_⟩
    rw [hStages.logSize, hAbsorbs.extent]
    apply Extent.Covers.hull_right
    constructor <;> dsimp only <;> omega
  · refine ⟨hSpan, ?_⟩
    by_cases hBlock : j / s.size = off / s.size
    · have hSlot := hStages.slot_of.congr hBlock
      have hs : e₂.logSize = s := h.tidy.sound.entryOf_size hOf hSlot.find hSlot.size
      have hKept := hStages.prepared.kept e₂ (hSlot.entryOf.symm.trans hOf) (by omega)
      refine ⟨e, by rw [hStages.entryOf hSpan, if_pos hBlock], hTag, ?_⟩
      rw [hStages.logSize, hAbsorbs.extent, hKept, ← hs]
      exact hCovers.hull_left _
    · exact ⟨e₂, by rw [hStages.entryOf hSpan, if_neg hBlock, hOf], hCurrent.trans hEpoch.symm, hCovers⟩

theorem ImageKept.written (h : ImageKept image m)
    (hStages : WriteStages m remap off buf len m₁ slot s bytes e₁ e m')
    (hUnchanged : ∀ j, off ≤ j → j < off + len → m.disk.bytes j = image j) : ImageKept image m' := by
  have h₁ := (h.grown remap (off + len)).locked hStages.locked
  have hTidy' := hStages.tidy h.tidy
  have hTag := h₁.written_tag hStages
  have hSize := hStages.logSize
  have hLog := h₁.written_log hStages hUnchanged
  have hSplit := s.blockStart_add_mod off
  have hResult := hStages.result
  have hSame := sameDirectory_setEntry m₁.radixlog slot (some e)
  have hFile : fileAfter m₁.policy bytes off buf len = blit m₁.disk.bytes off buf 0 len := by
    rw [h₁.undo, fileAfter, hStages.prepared.undo h₁.undo]
  rw [hFile] at hResult
  refine ⟨hTidy', by rw [hResult]; exact h₁.undo, by rw [hResult]; exact h₁.small, ?_, fun j hChanged => ?_⟩
  · rw [hResult]
    apply h₁.imprint.setEntry h₁.tidy.sound.wellFormed hStages.slot_of
    rintro a e' hBlock ⟨⟩
    refine ⟨Nat.le_of_eq hTag, fun _ hCovers => ?_⟩
    have hStart := s.blockStart_add_mod a
    rw [hSize] at hCovers ⊢
    rw [hLog _ hCovers, ← LogSize.blockStart_congr hBlock, hStart]
  · have hLogged : j < m₁.radixlog.skipType.span ∧ m'.LoggedAt j := by
      apply h₁.written_covers hStages
      by_cases hPiece : off ≤ j ∧ j < off + len
      · exact .inl hPiece
      · right
        apply h₁.covered
        rw [hResult] at hChanged
        dsimp only at hChanged
        rwa [blit_outside (by omega)] at hChanged
    refine ⟨?_, hLogged.2⟩
    rw [hResult]
    dsimp only
    rw [hSame.skipType]
    exact hLogged.1

end Written

theorem ImageKept.commit (h : ImageKept image m) (hNext : m.epoch + 1 < 2 ^ 20) :
    ImageKept m.disk.bytes { m with
      epoch := (m.epoch + 1) % 2 ^ 64, read := 0, write := 0, wrlocked := false } := by
  have hEpoch : (m.epoch + 1) % 2 ^ 64 = m.epoch + 1 := Nat.mod_eq_of_lt (by omega)
  rw [hEpoch]
  refine ⟨⟨h.tidy.sound, h.tidy.lodged, rfl, h.tidy.mapped⟩, h.undo, hNext, ?_, ?_⟩
  · -- no log has been written in the new epoch
    intro a e ha hEntry
    have hLe := (h.imprint a e ha hEntry).tag_le
    dsimp only
    exact ⟨by omega, fun hCurrent => by omega⟩
  · intro j hChanged
    exact absurd rfl hChanged

theorem ImageKept.checkpoint {m' : Mmio} (h : ImageKept image m) (hDone : m.CheckpointDone m') :
    ImageKept image m' := by
  have hTidy := hDone.tidy
  have hChecked := hDone.checkpointed
  have hType := hChecked.same.skipType
  have hUndo' : m'.policy = .undo := by
    obtain ⟨r, bytes, rfl⟩ := hChecked.frame
    exact h.undo
  have hBytes : ∀ j, m'.disk.bytes j = m.disk.bytes j := by
    intro j
    rcases Nat.lt_or_ge j m.radixlog.skipType.span with hIn | hOut
    · rw [← contents_of_undo hTidy hUndo' (by rwa [hType]), hDone.contents j hIn,
        contents_of_undo h.tidy h.undo hIn]
    · exact hDone.beyond j hOut
  refine ⟨hTidy, hUndo', by rw [hChecked.epoch]; exact h.small, fun a e ha hEntry => ?_, fun j hChanged => ?_⟩
  · rw [hType] at ha
    rw [hChecked.epoch]
    rcases hChecked.entryOf a with hSame | ⟨hNone, _⟩
    · exact h.imprint a e ha (hSame ▸ hEntry)
    · rw [hNone] at hEntry
      cases hEntry
  · rw [hBytes] at hChanged
    obtain ⟨hSpan, e, hOf, hCurrent, hCovers⟩ := h.covered j hChanged
    refine ⟨by rwa [hType], e, ?_, hCurrent.trans hChecked.epoch.symm, hCovers⟩
    rcases hChecked.entryOf j with hSame | ⟨_, e', hOld, hStale⟩
    · exact hSame.trans hOf
    · rw [hOf] at hOld
      cases hOld
      omega

end ImageKept

structure Imaged where
  mmio : Mmio
  atCommit : Nat → UInt8

namespace Imaged

def after (o : Imaged) (request : Request) (m' : Mmio) : Imaged :=
  match request with
  | .write _ _ _ _ _ => ⟨m', o.atCommit⟩
  | .read _ _ _ => ⟨m', o.atCommit⟩
  | .commit => ⟨m', m'.disk.bytes⟩
  | .checkpoint => ⟨m', o.atCommit⟩

def Step (o : Imaged) (request : Request) (o' : Imaged) : Prop :=
  ∃ m' reply, o.mmio.perform request = .ok (m', reply) ∧ o' = o.after request m'

def Current (o : Imaged) (slot : Slot) (e : IdxEntry) : Prop :=
  o.mmio.radixlog.entryAt slot = some e ∧ e.epoch = o.mmio.epoch

/-- The logs of the present epoch hold what the file held at the last commit,
and they cover every byte that has changed since. -/
structure UndoImage (o : Imaged) : Prop where
  logged : ∀ slot s b e i, o.mmio.radixlog.SlotOf slot s b → o.Current slot e → e.extent.Covers i →
    e.log i = o.atCommit (s.blockStart b + i)
  covered : ∀ j, o.mmio.disk.bytes j ≠ o.atCommit j →
    ∃ slot s e, o.mmio.radixlog.SlotOf slot s j ∧ o.Current slot e ∧ e.extent.Covers (j % s.size)

def Unchanged (o : Imaged) (off len : Nat) : Prop :=
  ∀ j, off ≤ j → j < off + len → o.mmio.disk.bytes j = o.atCommit j

/-- The requests under which the undo logs keep the image. -/
def FirstTouch (o : Imaged) : Request → Prop
  | .write _ _ off _ len => o.mmio.InBlock off len ∧ o.Unchanged off len
  | .read _ _ _ => True
  | .commit => o.mmio.epoch + 1 < 2 ^ 20
  | .checkpoint => True

end Imaged

theorem ImageKept.undoImage {o : Imaged} (h : ImageKept o.atCommit o.mmio) : o.UndoImage where
  logged _ _ _ _ _ hSlot hCurrent hCovers := h.log_eq hSlot hCurrent.1 hCurrent.2 hCovers
  covered j hChanged := by
    obtain ⟨hSpan, e, hOf, hCurrent, hCovers⟩ := h.covered j hChanged
    obtain ⟨slot, s, hSlot, hEntry⟩ := exists_slotOf hSpan hOf
    have hs : e.logSize = s := h.tidy.sound.entryOf_size hOf hSlot.find hSlot.size
    exact ⟨slot, s, e, hSlot, ⟨hEntry, hCurrent⟩, hs ▸ hCovers⟩

theorem ImageKept.step {o o' : Imaged} {request : Request} (h : ImageKept o.atCommit o.mmio)
    (hStep : Guarded Imaged.FirstTouch Imaged.Step o request o') : ImageKept o'.atCommit o'.mmio := by
  obtain ⟨hGuard, m', reply, hOk, rfl⟩ := hStep
  rcases perform_cases h.tidy.sound hOk with
    ⟨fdWritable, remap, off, buf, len, n, m₁, m₂, rfl, _, _⟩ |
    ⟨off, buf, len, n, buf', m₁, head, rfl, _, hLocked, rfl⟩ | ⟨rfl, _, rfl⟩ |
    ⟨rfl, _, hCheckpoint, _⟩
  · obtain ⟨⟨m₃, n₃⟩, hWrite, hDone⟩ := bind_eq_ok hOk
    cases hDone
    obtain ⟨hBlock, hUnchanged⟩ := hGuard
    rcases mmioWrite_inBlock h.settled hBlock False.elim hWrite with
      ⟨rfl, rfl⟩ | ⟨_, _, m₁, slot, s, bytes, e₁, e, hStages⟩
    · obtain ⟨⟨hSound, hLodged, hUnlocked, hMapped⟩, hUndo, hSmall, hImprint, hCovered⟩ := h.grown remap off
      exact ⟨⟨hSound, hLodged, hUnlocked, hMapped⟩, hUndo, hSmall, hImprint, hCovered⟩
    · exact h.written hStages hUnchanged
  · obtain ⟨⟨hSound, hLodged, hUnlocked, hMapped⟩, hUndo, hSmall, hImprint, hCovered⟩ := h.locked hLocked
    exact ⟨⟨hSound, hLodged, hUnlocked, hMapped⟩, hUndo, hSmall, hImprint, hCovered⟩
  · exact h.commit hGuard
  · exact h.checkpoint (checkpointMmio_eq_ok h.tidy h.settled.homeForRedo hCheckpoint)

theorem Opened.imageKept {m : Mmio} (h : m.Opened) (hUndo : m.policy = .undo)
    (hSmall : m.epoch < 2 ^ 20) : ImageKept m.disk.bytes m where
  tidy := h.tidy
  undo := hUndo
  small := hSmall
  imprint a e _ hEntry := by
    rw [h.entryOf] at hEntry
    cases hEntry
  covered j hChanged := absurd rfl hChanged

namespace Imaged

def first (m : Mmio) : Imaged := ⟨m, m.disk.bytes⟩

/-- In a kept state, a write in one block keeps the image exactly when it is the
first to touch its bytes. -/
theorem undoImage_written_iff {o o' : Imaged} {fdWritable : Bool} {remap : Nat → Nat} {off len : Nat}
    {buf : Nat → UInt8} (h : ImageKept o.atCommit o.mmio) (hBlock : o.mmio.InBlock off len)
    (hStep : o.Step (.write fdWritable remap off buf len) o') : o'.UndoImage ↔ o.Unchanged off len := by
  constructor
  · intro hImage j hLow hHigh
    obtain ⟨m', reply, hOk, rfl⟩ := hStep
    obtain ⟨⟨m₃, n₃⟩, hWrite, hDone⟩ := bind_eq_ok hOk
    cases hDone
    rcases mmioWrite_inBlock h.settled hBlock False.elim hWrite with
      ⟨rfl, _⟩ | ⟨_, _, m₁, slot, s, bytes, e₁, e, hStages⟩
    · omega
    · have h₁ := (h.grown remap (off + len)).locked hStages.locked
      have hSplit := s.blockStart_add_mod off
      have hTag := h₁.written_tag hStages
      have hSlot := hStages.slot_of.setEntry slot (some e)
      have hEntry := entryAt_setEntry_self m₁.radixlog slot (some e)
      have hPiece : (⟨off % s.size, len⟩ : Extent).Covers (j - s.blockStart off) := by
        constructor <;> dsimp only <;> omega
      have hPos : s.blockStart off + (j - s.blockStart off) = j := by omega
      obtain ⟨hCovers, hLog⟩ := hStages.piece_logged h₁.undo hPiece
      have hShown := hImage.logged slot s off e (j - s.blockStart off)
      rw [after, hStages.result] at hShown
      have hImageByte := hShown hSlot ⟨hEntry, hTag⟩ hCovers
      rw [hPos] at hLog hImageByte
      exact hLog.symm.trans hImageByte
  · intro hUnchanged
    have hFirst : o.FirstTouch (.write fdWritable remap off buf len) := ⟨hBlock, hUnchanged⟩
    exact (h.step ⟨hFirst, hStep⟩).undoImage

/-- In every state of a run whose writes stay in one block and touch no byte
that has changed since the last commit, the logs hold the image. -/
theorem undoImage_of_firstTouch {m : Mmio} {requests : List Request} {o : Imaged} (hOpen : m.Opened)
    (hUndo : m.policy = .undo) (hSmall : m.epoch < 2 ^ 20)
    (hRun : Run (Guarded FirstTouch Step) (first m) requests o) : o.UndoImage := by
  have hKept : ImageKept o.atCommit o.mmio :=
    hRun.invariant (fun o => ImageKept o.atCommit o.mmio) (fun _ _ _ h hStep => h.step hStep)
      (hOpen.imageKept hUndo hSmall)
  exact hKept.undoImage

theorem firstByte_inBlock (m : Mmio) : m.InBlock 0 1 := inBlock_of_le_page m (by decide)

/-- A kept object writes its first byte, whatever it held. -/
theorem exists_step_write {o : Imaged} (h : ImageKept o.atCommit o.mmio) (byte : UInt8) :
    ∃ m', o.Step (.write true (fun _ => 2 ^ 21) 0 (fun _ => byte) 1) ⟨m', o.atCommit⟩ ∧
      m'.disk.bytes 0 = byte := by
  obtain ⟨m₁, slot, s, bytes, e₁, e, m', hOk, hStages⟩ := mmioWrite_stages (fun _ => 2 ^ 21)
    (fun _ => byte) h.tidy h.settled.homeForRedo (firstByte_inBlock o.mmio)
    (fun hRedo => False.elim (h.settled.watched hRedo)) Nat.zero_lt_one
  refine ⟨m', ⟨m', .wrote 1, by rw [perform, hOk, ok_bind], rfl⟩, ?_⟩
  have hUndo : m₁.policy = .undo := by
    obtain ⟨r, k, hFrame⟩ := hStages.frame
    rw [hFrame]
    exact h.undo
  rw [hStages.result, hUndo]
  change blit bytes 0 (fun _ => byte) 0 1 0 = byte
  rw [blit_inside (Nat.le_refl 0) (by decide)]

theorem undoImage_oneByteFile : ∃ o, Run (Guarded FirstTouch Step) (first oneByteFile)
    [.write true (fun _ => 2 ^ 21) 0 (fun _ => 1) 1] o ∧ o.UndoImage := by
  have hKept := oneByteFile_opened.imageKept rfl (by decide)
  obtain ⟨m', hStep, _⟩ := exists_step_write (o := first oneByteFile) hKept 1
  have hFirst : (first oneByteFile).FirstTouch (.write true (fun _ => 2 ^ 21) 0 (fun _ => 1) 1) :=
    ⟨firstByte_inBlock _, fun _ _ _ => rfl⟩
  have hRun : Run (Guarded FirstTouch Step) (first oneByteFile)
      [.write true (fun _ => 2 ^ 21) 0 (fun _ => 1) 1] ⟨m', oneByteFile.disk.bytes⟩ :=
    .cons ⟨hFirst, hStep⟩ (.nil _)
  exact ⟨_, hRun, undoImage_of_firstTouch oneByteFile_opened rfl (by decide) hRun⟩

/-- The second of two writes to one byte logs what the first one stored. -/
theorem undoImage_fails_rewrite : ∃ o, Run Step (first oneByteFile)
    [.write true (fun _ => 2 ^ 21) 0 (fun _ => 1) 1, .write true (fun _ => 2 ^ 21) 0 (fun _ => 2) 1] o ∧
      ¬ o.UndoImage := by
  have hKept := oneByteFile_opened.imageKept rfl (by decide)
  obtain ⟨m₁, hStep, hOne⟩ := exists_step_write (o := first oneByteFile) hKept 1
  have hFirst : (first oneByteFile).FirstTouch (.write true (fun _ => 2 ^ 21) 0 (fun _ => 1) 1) :=
    ⟨firstByte_inBlock _, fun _ _ _ => rfl⟩
  have hKept₁ : ImageKept oneByteFile.disk.bytes m₁ := hKept.step ⟨hFirst, hStep⟩
  obtain ⟨m₂, hStep', _⟩ := exists_step_write (o := ⟨m₁, oneByteFile.disk.bytes⟩) hKept₁ 2
  refine ⟨_, .cons hStep (.cons hStep' (.nil _)), fun hImage => ?_⟩
  have hUnchanged := (undoImage_written_iff hKept₁ (firstByte_inBlock m₁) hStep').mp hImage
  have hZero : m₁.disk.bytes 0 = 0 := hUnchanged 0 (Nat.le_refl 0) Nat.zero_lt_one
  rw [hOne] at hZero
  exact absurd hZero (by decide)

end Imaged

end Libnvmmio.Mmio

import Libnvmmio.Mmio.OneBlock

/-! # `mmio_write` in one log block

A request that stays in one log block within the span goes through five
stages: growth, the lock of its entry, the retirement of a stale log, the
logging of the piece and the update of the file. The specification names the
state between them; the invariants are derived from it.
-/

namespace Libnvmmio.Mmio

open RangeCopy RadixLog Outcome

set_option autoImplicit false

/-- The request touches one log block, and no other region shares its table. -/
structure InBlock (m : Mmio) (off len : Nat) : Prop where
  one_block : m.OneBlock off len
  in_span : off + len ≤ m.radixlog.skipType.span

/-- The base address of the mapping is aligned to the log size of the block,
and growth moves it only while no entry holds data. -/
structure SteadyBase (m : Mmio) (remap : Nat → Nat) (off len : Nat) : Prop where
  aligned : m.grownStart remap (off + len) % (m.radixlog.locate off len).2.1.size = 0
  still : m.grownStart remap (off + len) = m.start ∨ m.NoData

def fileAfter (policy : Policy) (bytes : Nat → UInt8) (off : Nat) (buf : Nat → UInt8) (len : Nat) :
    Nat → UInt8 :=
  match policy with
  | .undo => blit bytes off buf 0 len
  | .redo => bytes

/-- A write of at least one byte in one block: `m₁` holds the lock of `slot`,
`bytes` is the file once the entry is no longer stale, `e₁` that entry, and
`e` the entry in the end. -/
structure WriteStages (m : Mmio) (remap : Nat → Nat) (off : Nat) (buf : Nat → UInt8) (len : Nat)
    (m₁ : Mmio) (slot : Slot) (s : LogSize) (bytes : Nat → UInt8) (e₁ e : IdxEntry) (m' : Mmio) :
    Prop where
  lock : lockEntries .wr (m.grown remap (off + len)) (toInt len) off [] = .ok (m₁, [slot])
  locked : LockRun (m.grown remap (off + len)) [] m₁ [slot]
  slot_of : m₁.radixlog.SlotOf slot s off
  size_eq : s = (m.radixlog.locate off len).2.1
  piece_fits : off % s.size + len ≤ s.size
  prepared : m₁.Prepared slot s off bytes e₁
  stored : Stored { m₁ with disk := { m₁.disk with bytes := bytes } } buf off len e₁ e
  result : m' = { m₁ with
    radixlog := m₁.radixlog.setEntry slot (some e), write := m₁.write + 1
    disk := { m₁.disk with bytes := fileAfter m₁.policy bytes off buf len }
    fsize := max m₁.fsize (off + len) }

theorem updateFile_spec {m : Mmio} {off len : Nat} (buf : Nat → UInt8) (h : off + len ≤ m.mapLen) :
    m.updateFile off buf len = .ok { m with
      disk := { m.disk with bytes := fileAfter m.policy m.disk.bytes off buf len } } := by
  unfold updateFile
  split
  · rename_i hPolicy
    have hAfter : fileAfter m.policy m.disk.bytes off buf len = blit m.disk.bytes off buf 0 len := by
      rw [hPolicy]
      rfl
    rw [hAfter, ntstore_file h]
  · rename_i hPolicy
    have hAfter : fileAfter m.policy m.disk.bytes off buf len = m.disk.bytes := by
      rw [hPolicy]
      rfl
    rw [hAfter]

theorem finishWrite_spec {m : Mmio} {off len : Nat} (buf : Nat → UInt8) (h : off + len ≤ m.mapLen) :
    m.finishWrite off buf len len = .ok { m with
      write := m.write + 1
      disk := { m.disk with bytes := fileAfter m.policy m.disk.bytes off buf len }
      fsize := max m.fsize (off + len) } := by
  rw [finishWrite, updateFile_spec buf (by exact h), ok_bind]
  dsimp only
  split
  · rename_i hLonger
    rw [Nat.max_eq_right (Nat.le_of_lt hLonger)]
  · rename_i hShorter
    rw [Nat.max_eq_left (Nat.le_of_not_lt hShorter)]

theorem fileAfter_zero (policy : Policy) (bytes : Nat → UInt8) (off : Nat) (buf : Nat → UInt8) :
    fileAfter policy bytes off buf 0 = bytes := by
  cases policy with
  | undo => exact blit_zero _ _ _ _
  | redo => rfl

/-- An empty write locks nothing, but it grows the mapping to its offset. -/
theorem mmioWrite_zero (m : Mmio) (remap : Nat → Nat) (off : Nat) (buf : Nat → UInt8) :
    mmioWrite true remap m off buf 0 =
      .ok ({ m.grown remap off with write := m.write + 1, fsize := max m.fsize off }, 0) := by
  have hMapped := (le_grownLen m.mapLen off).2
  have hInt : toInt 0 = 0 := rfl
  rw [mmioWrite, ensureMapped_true, ok_bind, hInt, lockEntries_zero, ok_bind]
  dsimp only [writeEntries]
  rw [ok_bind]
  dsimp only
  rw [finishWrite_spec buf (by exact hMapped), ok_bind, fileAfter_zero]
  rfl

/-- A write that returns does not depend on the mode of the descriptor. -/
theorem mmioWrite_true_of_ok {m : Mmio} {fdWritable : Bool} {remap : Nat → Nat} {off len : Nat}
    {buf : Nat → UInt8} {result : Mmio × Nat}
    (h : mmioWrite fdWritable remap m off buf len = .ok result) :
    mmioWrite true remap m off buf len = .ok result := by
  obtain ⟨m₀, hGrow, hRest⟩ := bind_eq_ok h
  rw [ensureMapped_eq_ok hGrow] at hRest
  rw [mmioWrite, ensureMapped_true, ok_bind]
  exact hRest

theorem mmioWrite_stages {m : Mmio} (remap : Nat → Nat) {off len : Nat} (buf : Nat → UInt8)
    (hTidy : m.Tidy) (hHome : m.HomeForRedo) (hBlock : m.InBlock off len)
    (hStill : m.policy = .redo → m.grownStart remap (off + len) = m.start ∨ m.NoData)
    (hPos : 0 < len) :
    ∃ m₁ slot s bytes e₁ e m', mmioWrite true remap m off buf len = .ok (m', len) ∧
      WriteStages m remap off buf len m₁ slot s bytes e₁ e m' := by
  have hGrown := hTidy.grown remap (off + len)
  have hSpan := hBlock.in_span
  obtain ⟨slot, s, m₁, hLock, hStep, hs, hFits⟩ :=
    lockEntries_oneBlock .wr hGrown.sound hPos hBlock.one_block
  have hRun := lockEntries_run hGrown.sound hLock
  have hTidy₁ := hRun.tidy hGrown
  have hSlot : m₁.radixlog.SlotOf slot s off := by
    apply hStep.slotOf hGrown.sound
    exact Nat.lt_of_lt_of_le (by omega) hSpan
  obtain ⟨e₀, hEntry⟩ := hStep.installed
  obtain ⟨r, k, hFrame⟩ := hStep.frame
  have hHome₁ : m₁.HomeForRedo := by
    intro hRedo
    rw [hFrame] at hRedo
    exact hRun.atHome hGrown.sound
      ((hHome hRedo).grown remap (off + len) (hStill hRedo))
  obtain ⟨bytes, e₁, hRetire, hPrepared⟩ := retireStale_spec hTidy₁ hHome₁ hSlot hEntry
  have hMapped : off + len ≤ m₁.mapLen := by
    rw [hFrame]
    exact (le_grownLen m.mapLen (off + len)).2
  obtain ⟨e, hStore, hStored⟩ := storePiece_spec
    { m₁ with disk := { m₁.disk with bytes := bytes } } buf hPos
    (by rw [hPrepared.size]; exact hFits) hMapped hPrepared.lodged
  have hInt : toInt len = len := by
    apply toInt_of_lt
    have hSize := s.size_le
    rw [lmdShift] at hSize
    omega
  rw [← hInt] at hLock
  refine ⟨m₁, slot, s, bytes, e₁, e, _, ?_, hLock, hRun, hSlot, hs, hFits, hPrepared, hStored, rfl⟩
  rw [mmioWrite, ensureMapped_true, ok_bind, hLock, ok_bind, hInt]
  dsimp only [writeEntries, writeEntry]
  rw [hEntry]
  dsimp only
  rw [hRetire, ok_bind, Int.toNat_natCast]
  dsimp only
  rw [hStore, ok_bind]
  dsimp only
  rw [ok_bind]
  dsimp only
  rw [ok_bind, Nat.zero_add, finishWrite_spec buf (by exact hMapped), ok_bind]

section Stages

variable {m : Mmio} {remap : Nat → Nat} {off : Nat} {buf : Nat → UInt8} {len : Nat} {m₁ : Mmio}
  {slot : Slot} {s : LogSize} {bytes : Nat → UInt8} {e₁ e : IdxEntry} {m' : Mmio}

theorem WriteStages.frame (h : WriteStages m remap off buf len m₁ slot s bytes e₁ e m') :
    ∃ r k, m₁ = { m.grown remap (off + len) with radixlog := r, nextLog := k } := h.locked.frame

theorem WriteStages.skipType (h : WriteStages m remap off buf len m₁ slot s bytes e₁ e m')
    (hTidy : m.Tidy) : m₁.radixlog.skipType = m.radixlog.skipType :=
  h.locked.acquires.skipType hTidy.sound

theorem WriteStages.entryOf (h : WriteStages m remap off buf len m₁ slot s bytes e₁ e m')
    {a : Nat} (ha : a < m₁.radixlog.skipType.span) :
    m'.radixlog.entryOf a = if a / s.size = off / s.size then some e else m₁.radixlog.entryOf a := by
  rw [h.result]
  exact h.slot_of.entryOf_setEntry h.locked.acquires.sound.wellFormed ha _

theorem WriteStages.logSize (h : WriteStages m remap off buf len m₁ slot s bytes e₁ e m') :
    e.logSize = s := h.stored.logSize.trans h.prepared.size

theorem WriteStages.policy (h : WriteStages m remap off buf len m₁ slot s bytes e₁ e m') :
    e.policy = m₁.policy := h.stored.policy fun hLen => (h.prepared.lodged hLen).policy_eq

theorem WriteStages.mapped (h : WriteStages m remap off buf len m₁ slot s bytes e₁ e m') :
    off + len ≤ m₁.mapLen := by
  obtain ⟨r, k, hFrame⟩ := h.frame
  rw [hFrame]
  exact (le_grownLen m.mapLen (off + len)).2

theorem WriteStages.lodged (h : WriteStages m remap off buf len m₁ slot s bytes e₁ e m') :
    e.Lodged m₁.policy m₁.mapLen off where
  fits := by
    have hEnd : e.extent.offset + e.extent.len ≤ s.size := by
      rw [h.stored.absorbs.extent, h.prepared.size]
      apply Extent.hull_end_le _ h.piece_fits
      intro hLen
      rw [← h.prepared.size]
      exact (h.prepared.lodged hLen).fits
    rw [h.logSize]
    exact hEnd
  mapped := by
    have hSplit := s.blockStart_add_mod off
    have hMapped := h.mapped
    have hEnd : e.extent.offset + e.extent.len ≤ m₁.mapLen - s.blockStart off := by
      rw [h.stored.absorbs.extent, h.prepared.size]
      apply Extent.hull_end_le
      · intro hLen
        have hOld := (h.prepared.lodged hLen).mapped
        rw [h.prepared.size] at hOld
        dsimp only [IdxEntry.extent]
        omega
      · dsimp only
        omega
    rw [h.logSize]
    dsimp only [IdxEntry.extent] at hEnd
    omega
  policy_eq := h.policy

theorem WriteStages.tidy (h : WriteStages m remap off buf len m₁ slot s bytes e₁ e m')
    (hTidy : m.Tidy) : m'.Tidy := by
  have hTidy₁ := h.locked.tidy (hTidy.grown remap (off + len))
  have hSize := h.logSize
  have hLodged := h.lodged
  have hSlotLt := hTidy₁.sound.wellFormed.shape.find_lt h.slot_of.find
  rw [h.result]
  refine ⟨?_, ?_, hTidy₁.unlocked, hTidy₁.mapped⟩
  · apply hTidy₁.sound.setEntry hSlotLt
    rintro e' ⟨⟩
    rw [hSize]
    exact h.slot_of.size
  · apply hTidy₁.lodged.setEntry hTidy₁.sound.wellFormed h.slot_of
    rintro a e' hBlock ⟨⟩ _
    refine ⟨hLodged.fits, ?_, hLodged.policy_eq⟩
    rw [hSize, LogSize.blockStart_congr hBlock, ← hSize]
    exact hLodged.mapped

theorem WriteStages.atHome (h : WriteStages m remap off buf len m₁ slot s bytes e₁ e m')
    (hTidy : m.Tidy) (hHome : m.AtHome) (hSteady : m.SteadyBase remap off len) : m'.AtHome := by
  have hGrown := hTidy.grown remap (off + len)
  have hTidy₁ := h.locked.tidy hGrown
  have hHome₁ := h.locked.atHome hGrown.sound (hHome.grown remap (off + len) hSteady.still)
  have hSize := h.logSize
  obtain ⟨r, k, hFrame⟩ := h.frame
  have hAligned : m₁.start % e₁.logSize.size = 0 := by
    rw [h.prepared.size, h.size_eq, hFrame]
    exact hSteady.aligned
  have hDst : e.dst = m₁.start + s.blockStart off := by
    rw [← h.prepared.size]
    apply h.stored.dst _ hAligned
    intro hLen
    rw [h.prepared.size]
    exact h.prepared.home hHome₁ hLen
  rw [h.result]
  apply EachEntry.setEntry hHome₁ hTidy₁.sound.wellFormed h.slot_of
  rintro a e' hBlock ⟨⟩ _
  rw [hSize, hDst, LogSize.blockStart_congr hBlock]

theorem WriteStages.contents_of_redo (h : WriteStages m remap off buf len m₁ slot s bytes e₁ e m')
    (hTidy : m.Tidy) (hRedo : m₁.policy = .redo) {a : Nat} (ha : a < m₁.radixlog.skipType.span) :
    m'.contents a = if off ≤ a ∧ a < off + len then buf (a - off) else m₁.contents a := by
  have hTidy₁ := h.locked.tidy (hTidy.grown remap (off + len))
  have hSplit := s.blockStart_add_mod off
  have hFits := h.piece_fits
  have hNew := h.entryOf ha
  have hBytes : m'.disk.bytes = bytes := by
    rw [h.result, hRedo]
    rfl
  have hOld := h.slot_of.entryOf_setEntry hTidy₁.sound.wellFormed ha (some e₁)
  rw [← h.prepared.through a ha, contents, hBytes]
  by_cases hBlock : a / s.size = off / s.size
  · rw [if_pos hBlock] at hNew hOld
    have hStart := (s.block_eq_iff a off).mp hBlock
    have hPos := LogSize.mod_eq_sub hBlock
    have hOverlay := congrFun h.stored.absorbs.overlay_eq (a % s.size)
    rw [h.prepared.size] at hOverlay
    rw [through_overlay hNew (fun _ => h.policy.trans hRedo), through_overlay hOld
      (fun hLen => (h.prepared.lodged hLen).policy_eq.trans hRedo), h.logSize, h.prepared.size,
      LogSize.blockStart_congr hBlock, hOverlay]
    by_cases hPiece : (⟨off % s.size, len⟩ : Extent).Covers (a % s.size)
    · rw [overlay_covered hPiece]
      obtain ⟨hLow, hHigh⟩ := hPiece
      dsimp only at hLow hHigh
      rw [if_pos (by omega), pieceData, hRedo]
      dsimp only
      congr 1
      omega
    · rw [overlay_uncovered hPiece, if_neg]
      intro hInside
      apply hPiece
      constructor <;> dsimp only <;> omega
  · rw [if_neg hBlock] at hNew hOld
    rw [if_neg]
    · exact through_congr bytes (hNew.trans hOld.symm)
    · intro hInside
      apply hBlock
      rw [s.block_eq_iff]
      omega

theorem WriteStages.contents (h : WriteStages m remap off buf len m₁ slot s bytes e₁ e m')
    (hTidy : m.Tidy) {a : Nat} (ha : a < m.radixlog.skipType.span) :
    m'.contents a = if off ≤ a ∧ a < off + len then buf (a - off) else m.contents a := by
  have hGrown := hTidy.grown remap (off + len)
  have ha₁ : a < m₁.radixlog.skipType.span := by rwa [h.skipType hTidy]
  have hKept : m₁.contents a = m.contents a := by
    rw [h.locked.contents hGrown.sound, contents_grown]
  rw [← hKept]
  cases hPolicy : m₁.policy with
  | redo => exact h.contents_of_redo hTidy hPolicy ha₁
  | undo =>
    have hPolicy' : m'.policy = .undo := by
      rw [h.result]
      exact hPolicy
    have ha' : a < m'.radixlog.skipType.span := by
      rw [h.result]
      dsimp only
      rwa [(sameDirectory_setEntry _ _ _).skipType]
    rw [contents_of_undo (h.tidy hTidy) hPolicy' ha',
      contents_of_undo (h.locked.tidy hGrown) hPolicy ha₁, h.result]
    dsimp only
    rw [hPolicy, fileAfter, h.prepared.undo hPolicy, blit]
    simp only [Nat.zero_add]

structure WriteFrame (m : Mmio) (remap : Nat → Nat) (target : Nat) (m' : Mmio) : Prop where
  start : m'.start = m.grownStart remap target
  mapLen : m'.mapLen = grownLen m.mapLen target
  length : m'.disk.length = (m.grown remap target).disk.length
  epoch : m'.epoch = m.epoch
  policy : m'.policy = m.policy
  fsize : m'.fsize = max m.fsize target
  skipType : m'.radixlog.skipType = m.radixlog.skipType

theorem WriteStages.writeFrame (h : WriteStages m remap off buf len m₁ slot s bytes e₁ e m')
    (hTidy : m.Tidy) : WriteFrame m remap (off + len) m' := by
  have hType : m'.radixlog.skipType = m.radixlog.skipType := by
    rw [h.result]
    exact (sameDirectory_setEntry _ _ _).skipType.trans (h.skipType hTidy)
  obtain ⟨r, k, hFrame⟩ := h.frame
  have hResult := h.result
  rw [hFrame] at hResult
  refine ⟨?_, ?_, ?_, ?_, ?_, ?_, hType⟩ <;> rw [hResult] <;> rfl

end Stages

end Libnvmmio.Mmio

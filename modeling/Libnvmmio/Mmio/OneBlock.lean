import Libnvmmio.Mmio.Contents
import Libnvmmio.Mmio.WriteSteps

/-! # A write in one log block

The iteration on the entry of the block retires it when it is stale, stores
the piece and repairs the header. Afterwards the entry has absorbed the piece:
the user's bytes under REDO, the bytes of the file under UNDO.
-/

namespace Libnvmmio.Mmio

open RangeCopy RadixLog Outcome

set_option autoImplicit false

/-- A redo log at home is copied to its block and nowhere else. -/
theorem storeRedo_home {m : Mmio} {e : IdxEntry} {b : Nat}
    (hLodged : 0 < e.len → e.Lodged m.policy m.mapLen b)
    (hHome : e.policy = .redo → 0 < e.len → e.dst = m.start + e.logSize.blockStart b) :
    ∃ bytes, m.storeRedo e = .ok { m with disk := { m.disk with bytes := bytes } } ∧
      ∀ a, bytes a =
        if e.policy = .redo ∧ a / e.logSize.size = b / e.logSize.size ∧
            e.extent.Covers (a % e.logSize.size) then
          e.log (a % e.logSize.size)
        else m.disk.bytes a := by
  unfold storeRedo
  cases hPolicy : e.policy with
  | undo => exact ⟨m.disk.bytes, rfl, fun a => by simp⟩
  | redo =>
    dsimp only
    rcases Nat.eq_zero_or_pos e.len with hLen | hLen
    · refine ⟨m.disk.bytes, ?_, fun a => ?_⟩
      · rw [hLen, ntstore, if_pos (.inl rfl), blit_zero]
      · rw [if_neg]
        rintro ⟨_, _, hCovers⟩
        exact Extent.not_covers_of_len_eq_zero hLen _ hCovers
    · obtain ⟨hFits, hMapped, _⟩ := hLodged hLen
      have hDst : e.dst + e.offset = m.start + (e.logSize.blockStart b + e.offset) := by
        rw [hHome hPolicy hLen]
        omega
      refine ⟨blit m.disk.bytes (e.logSize.blockStart b + e.offset) e.log e.offset e.len, ?_,
        fun a => ?_⟩
      · rw [hDst, ntstore_file (by omega)]
      · rw [blit_home hFits]
        simp

/-- The entry of a block once it is not stale, over a file that may have
received its log. -/
structure Prepared (m : Mmio) (slot : Slot) (s : LogSize) (b : Nat) (bytes : Nat → UInt8)
    (e : IdxEntry) : Prop where
  size : e.logSize = s
  lodged : 0 < e.len → e.Lodged m.policy m.mapLen b
  home : m.AtHome → 0 < e.len → e.dst = m.start + s.blockStart b
  live : 0 < e.len → m.radixlog.entryOf b = some e ∧ ¬ e.epoch < m.epoch
  tag : e.epoch = m.epoch % 2 ^ 20 ∨ m.radixlog.entryAt slot = some e ∧ ¬ e.epoch < m.epoch
  kept : ∀ e₀, m.radixlog.entryAt slot = some e₀ → ¬ e₀.epoch < m.epoch → e = e₀
  through : ∀ a, a < m.radixlog.skipType.span →
    (m.radixlog.setEntry slot (some e)).through (fun e => e.policy = .redo) bytes a = m.contents a
  undo : m.policy = .undo → bytes = m.disk.bytes

theorem retireStale_spec {m : Mmio} {slot : Slot} {s : LogSize} {b : Nat} {e : IdxEntry}
    (hTidy : m.Tidy) (hHome : m.HomeForRedo) (hSlot : m.radixlog.SlotOf slot s b)
    (hEntry : m.radixlog.entryAt slot = some e) :
    ∃ bytes e₁, m.retireStale e = .ok ({ m with disk := { m.disk with bytes := bytes } }, e₁) ∧
      m.Prepared slot s b bytes e₁ := by
  have hOf : m.radixlog.entryOf b = some e := hSlot.entryOf.trans hEntry
  have hs : e.logSize = s := hTidy.sound.entryOf_size hOf hSlot.find hSlot.size
  have hLodged := hTidy.lodged b e hSlot.in_span hOf
  unfold retireStale
  by_cases hStale : e.epoch < m.epoch
  · rw [if_pos hStale]
    have hRedoHome : e.policy = .redo → 0 < e.len → e.dst = m.start + e.logSize.blockStart b := by
      intro hRedo hLen
      exact hHome ((hLodged hLen).policy_eq.symm.trans hRedo) b e hSlot.in_span hOf hLen
    obtain ⟨bytes, hStore, hBytes⟩ := storeRedo_home hLodged hRedoHome
    refine ⟨bytes, m.emptied e, ?_, ⟨hs, fun hLen => ?_, fun _ hLen => ?_, fun hLen => ?_,
      .inl rfl, fun e₀ hOld hCurrent => ?_, fun a ha => ?_, fun hUndo => ?_⟩⟩
    · rw [checkpointEntry, hStore]
      rfl
    · exact absurd hLen (Nat.lt_irrefl 0)
    · exact absurd hLen (Nat.lt_irrefl 0)
    · exact absurd hLen (Nat.lt_irrefl 0)
    · rw [hEntry] at hOld
      cases hOld
      exact absurd hStale hCurrent
    · rw [hs] at hBytes
      apply hSlot.through_retire hTidy.sound hEntry _ hBytes ha
      rintro e' ⟨⟩
      rfl
    · funext a
      rw [hBytes, if_neg]
      rintro ⟨hRedo, _, hCovers⟩
      have hPolicy := (hLodged hCovers.len_pos).policy_eq
      rw [hRedo, hUndo] at hPolicy
      cases hPolicy
  · rw [if_neg hStale]
    refine ⟨m.disk.bytes, e, rfl, ⟨hs, hLodged, fun hAt hLen => ?_, fun _ => ⟨hOf, hStale⟩,
      .inr ⟨hEntry, hStale⟩, fun e₀ hOld _ => ?_, fun a ha => ?_, fun _ => rfl⟩⟩
    · rw [← hs]
      exact hAt b e hSlot.in_span hOf hLen
    · rw [hEntry] at hOld
      exact Option.some.inj hOld
    · apply through_congr
      rw [hSlot.entryOf_setEntry hTidy.sound.wellFormed ha]
      split
      · rename_i hBlock
        exact (hTidy.sound.entryOf_congr_block hOf (by rw [hs]; exact hBlock.symm)).symm
      · rfl

/-- What the log receives: new data under REDO, original data under UNDO. -/
def pieceData (m : Mmio) (buf : Nat → UInt8) (s : LogSize) (off : Nat) : Nat → UInt8 :=
  fun i =>
    match m.policy with
    | .undo => m.disk.bytes (s.blockStart off + i)
    | .redo => buf (i - off % s.size)

theorem logPiece_spec {m : Mmio} (buf : Nat → UInt8) (e : IdxEntry) {off n : Nat}
    (hMapped : off + n ≤ m.mapLen) :
    ∃ log, m.logPiece buf e (m.start + off) 0 (off % e.logSize.size) n =
        .ok { e with log := log } ∧
      (∀ i, (⟨off % e.logSize.size, n⟩ : Extent).Covers i → log i = m.pieceData buf e.logSize off i) ∧
      ∀ i, ¬ (⟨off % e.logSize.size, n⟩ : Extent).Covers i → log i = e.log i := by
  have hSplit := e.logSize.blockStart_add_mod off
  unfold logPiece pieceData
  cases hPolicy : m.policy with
  | undo =>
    dsimp only
    rw [load_file hMapped, ok_bind]
    refine ⟨_, rfl, fun i hi => ?_, fun i hi => ?_⟩
    · obtain ⟨hLow, hHigh⟩ := hi
      dsimp only at hLow hHigh
      rw [blit_inside hLow hHigh]
      congr 1
      omega
    · apply blit_outside
      simp only [Extent.Covers] at hi
      omega
  | redo =>
    refine ⟨_, rfl, fun i hi => ?_, fun i hi => ?_⟩
    · obtain ⟨hLow, hHigh⟩ := hi
      dsimp only at hLow hHigh
      rw [blit_inside hLow hHigh, Nat.zero_add]
    · apply blit_outside
      simp only [Extent.Covers] at hi
      omega

structure Stored (m : Mmio) (buf : Nat → UInt8) (off n : Nat) (e e' : IdxEntry) : Prop where
  absorbs : Absorbs e.extent e'.extent ⟨off % e.logSize.size, n⟩ e.log e'.log
    (m.pieceData buf e.logSize off) (fun i => m.disk.bytes (e.logSize.blockStart off + i))
  epoch : e'.epoch = e.epoch
  logSize : e'.logSize = e.logSize
  policy : (0 < e.len → e.policy = m.policy) → e'.policy = m.policy
  dst : (0 < e.len → e.dst = m.start + e.logSize.blockStart off) →
    m.start % e.logSize.size = 0 → e'.dst = m.start + e.logSize.blockStart off
  dst_masked : e.len = 0 → e'.dst = m.start + off - (m.start + off) % e.logSize.size

theorem freshEntry_stored {m : Mmio} {buf : Nat → UInt8} {e : IdxEntry} {log : Nat → UInt8}
    {off n : Nat} (hPos : 0 < n) (hPiece : off % e.logSize.size + n ≤ e.logSize.size)
    (hOld : 0 < e.len → e.offset + e.len ≤ e.logSize.size)
    (hWhole : e.len = 0 ∨ n = e.logSize.size)
    (hStored : ∀ i, (⟨off % e.logSize.size, n⟩ : Extent).Covers i →
      log i = m.pieceData buf e.logSize off i)
    (hKept : ∀ i, ¬ (⟨off % e.logSize.size, n⟩ : Extent).Covers i → log i = e.log i) :
    m.Stored buf off n e (m.freshEntry { e with log := log } (m.start + off) (off % e.logSize.size) n) := by
  have hSize := e.logSize.size_le
  have hFresh : m.freshEntry { e with log := log } (m.start + off) (off % e.logSize.size) n =
      { e with
        offset := off % e.logSize.size, len := n, log := log, policy := m.policy
        dst := m.start + off - (m.start + off) % e.logSize.size } := by
    rw [freshEntry, setOffset_eq (by omega), setLen_eq (by omega)]
  rw [hFresh]
  refine ⟨⟨?_, hStored, fun i _ hOut => hKept i hOut, fun i hIn _ hOut => absurd hIn hOut⟩,
    rfl, rfl, fun _ => rfl, fun _ hAligned => ?_, fun _ => rfl⟩
  · symm
    apply Extent.hull_eq_right hPos
    intro hLen
    have hFits := hOld hLen
    have hAll := hWhole.resolve_left (Nat.ne_of_gt hLen)
    dsimp only [IdxEntry.extent]
    omega
  · have hSplit := e.logSize.blockStart_add_mod off
    have hMod : (m.start + off) % e.logSize.size = off % e.logSize.size := by
      rw [Nat.add_mod, hAligned, Nat.zero_add, Nat.mod_mod]
    dsimp only
    rw [hMod]
    omega

/-- Only where the old log lies matters to the piece, not whether it still counts. -/
theorem storePiece_stored (m : Mmio) (buf : Nat → UInt8) {e : IdxEntry} {off n : Nat}
    (hPos : 0 < n) (hPiece : off % e.logSize.size + n ≤ e.logSize.size)
    (hMapped : off + n ≤ m.mapLen) (hFits : 0 < e.len → e.offset + e.len ≤ e.logSize.size)
    (hMappedOld : 0 < e.len → e.logSize.blockStart off + e.offset ≤ m.mapLen) :
    ∃ e', m.storePiece buf e ⟨n, off, m.start + off, 0, 0⟩ =
        .ok (e', ⟨n, off + n, m.start + off + n, 0 + n, 0 + n⟩) ∧ m.Stored buf off n e e' := by
  have hSplit := e.logSize.blockStart_add_mod off
  obtain ⟨log, hLog, hStored, hKept⟩ := logPiece_spec buf e hMapped
  have hWhole : ¬ e.logSize.size - off % e.logSize.size < n := by omega
  suffices hHeader : ∃ e', m.updateHeader { e with log := log } (m.start + off)
      (off % e.logSize.size) n = .ok e' ∧ m.Stored buf off n e e' by
    obtain ⟨e', hOk, hSpec⟩ := hHeader
    refine ⟨e', ?_, hSpec⟩
    rw [storePiece]
    dsimp only
    rw [if_neg hWhole, hLog, ok_bind, hOk, ok_bind]
  unfold updateHeader
  dsimp only
  split
  · rename_i hMerge
    obtain ⟨hLen, _⟩ := hMerge
    have hSituation : PieceStored m { e with log := log } e.log (m.pieceData buf e.logSize off)
        (e.logSize.blockStart off) (off % e.logSize.size) n :=
      ⟨hLen, hPos, hFits hLen, hPiece, hStored, hKept, by omega, hMappedOld hLen⟩
    obtain ⟨e', hOk, hTag, hAbsorbs⟩ := mergeEntry_absorbs hSituation
    rw [hSplit] at hOk
    exact ⟨e', hOk, hAbsorbs, hTag.epoch, hTag.logSize, fun hPolicy => hTag.policy.trans (hPolicy hLen),
      fun hDst _ => hTag.dst.trans (hDst hLen), fun hEmpty => absurd hLen (by omega)⟩
  · rename_i hFresh
    refine ⟨_, rfl, freshEntry_stored hPos hPiece hFits ?_ hStored hKept⟩
    omega

theorem storePiece_spec (m : Mmio) (buf : Nat → UInt8) {e : IdxEntry} {off n : Nat}
    (hPos : 0 < n) (hPiece : off % e.logSize.size + n ≤ e.logSize.size)
    (hMapped : off + n ≤ m.mapLen) (hOld : 0 < e.len → e.Lodged m.policy m.mapLen off) :
    ∃ e', m.storePiece buf e ⟨n, off, m.start + off, 0, 0⟩ =
        .ok (e', ⟨n, off + n, m.start + off + n, 0 + n, 0 + n⟩) ∧ m.Stored buf off n e e' := by
  apply storePiece_stored m buf hPos hPiece hMapped
  · exact fun hLen => (hOld hLen).fits
  · intro hLen
    have hEnd := (hOld hLen).mapped
    omega

end Libnvmmio.Mmio

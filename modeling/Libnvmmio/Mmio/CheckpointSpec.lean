import Libnvmmio.Mmio.CheckpointSteps
import Libnvmmio.Mmio.OneBlock

/-! # Checkpoint and commit on a tidy object

When every redo log is at home, a checkpoint succeeds, changes no byte of the
contents, and leaves in the file exactly the committed logs. `commit_mmio`
holds the lock for writing, so the checkpoint inside it visits nothing.
-/

namespace Libnvmmio

open RangeCopy RadixLog Outcome

set_option autoImplicit false

/-- The table of a file within one region has its log size. -/
def RadixLog.SkipSized (r : RadixLog) : Prop :=
  r.skipType = .table → (r.tables r.skip).logSize ≠ none

theorem RadixLog.Sound.sized {r : RadixLog} (h : r.Sound) (hSkip : r.SkipSized) {offset table : Nat}
    (hFind : r.findLogTable offset = some table) : (r.tables table).logSize ≠ none := by
  have hShape := h.wellFormed.shape
  have hType := hShape.find_type hFind
  by_cases hTable : table = r.skip
  · subst hTable
    exact hSkip hType
  · exact h.wellFormed.sized table (hShape.find_lt hFind) hType hTable

theorem RadixLog.SlotOf.skipSized {r : RadixLog} {slot : Slot} {s : LogSize} {b : Nat}
    (h : r.SlotOf slot s b) : r.SkipSized := by
  intro hType hNone
  have hFind : r.findLogTable b = some r.skip := by
    rw [findLogTable_eq_follow, hType]
    rfl
  have hTable : r.skip = slot.table := Option.some.inj (hFind.symm.trans h.find)
  rw [hTable, h.size] at hNone
  cases hNone

theorem Mmio.Checkpointed.skipSized {currentEpoch : Nat} {m m' : Mmio}
    (h : Checkpointed currentEpoch m m') (hSkip : m.radixlog.SkipSized) : m'.radixlog.SkipSized := by
  intro hType
  rw [h.same.skipType] at hType
  rw [h.same.skip, h.sizes]
  exact hSkip hType

namespace Mmio

structure Checkpointing (m m' : Mmio) : Prop where
  tidy : m'.Tidy
  checkpointed : Checkpointed m.epoch m m'
  home : m.HomeForRedo → m'.HomeForRedo
  at_home : m.AtHome → m'.AtHome
  contents : ∀ a, a < m.radixlog.skipType.span → m'.contents a = m.contents a
  drained : ∀ a, a < m.radixlog.skipType.span → m'.drained a = m.drained a
  beyond : ∀ a, m.radixlog.skipType.span ≤ a → m'.disk.bytes a = m.disk.bytes a

theorem Checkpointing.refl {m : Mmio} (h : m.Tidy) : m.Checkpointing m :=
  ⟨h, Checkpointed.refl _ _, id, id, fun _ _ => rfl, fun _ _ => rfl, fun _ _ => rfl⟩

theorem Checkpointed.epoch {currentEpoch : Nat} {m m' : Mmio} (h : Checkpointed currentEpoch m m') :
    m'.epoch = m.epoch := by
  obtain ⟨r, bytes, rfl⟩ := h.frame
  rfl

theorem Checkpointing.trans {m m' m'' : Mmio} (h : m.Checkpointing m')
    (h' : m'.Checkpointing m'') : m.Checkpointing m'' where
  tidy := h'.tidy
  checkpointed := h.checkpointed.trans (h.checkpointed.epoch ▸ h'.checkpointed)
  home := h'.home ∘ h.home
  at_home := h'.at_home ∘ h.at_home
  contents a ha := by
    rw [h'.contents a (by rwa [h.checkpointed.same.skipType]), h.contents a ha]
  drained a ha := by
    rw [h'.drained a (by rwa [h.checkpointed.same.skipType]), h.drained a ha]
  beyond a ha := by
    rw [h'.beyond a (by rwa [h.checkpointed.same.skipType]), h.beyond a ha]

theorem checkpointSlot_spec {m : Mmio} {slot : Slot} {s : LogSize} {b : Nat} (hTidy : m.Tidy)
    (hHome : m.HomeForRedo) (hSlot : m.radixlog.SlotOf slot s b) :
    ∃ m', checkpointSlot m.epoch m slot = .ok m' ∧ m.Checkpointing m' := by
  unfold checkpointSlot
  cases hEntry : m.radixlog.entryAt slot with
  | none => exact ⟨m, rfl, Checkpointing.refl hTidy⟩
  | some e =>
    dsimp only
    by_cases hStale : e.epoch < m.epoch
    · rw [if_pos hStale]
      have hOf : m.radixlog.entryOf b = some e := hSlot.entryOf.trans hEntry
      have hs : e.logSize = s := hTidy.sound.entryOf_size hOf hSlot.find hSlot.size
      have hLodged := hTidy.lodged b e hSlot.in_span hOf
      have hWellFormed := hTidy.sound.wellFormed
      have hRedoHome : e.policy = .redo → 0 < e.len → e.dst = m.start + e.logSize.blockStart b := by
        intro hRedo hLen
        exact hHome ((hLodged hLen).policy_eq.symm.trans hRedo) b e hSlot.in_span hOf hLen
      obtain ⟨bytes, hStore, hBytes⟩ := storeRedo_home hLodged hRedoHome
      rw [hs] at hBytes
      have hOk : checkpointSlot m.epoch m slot = .ok { m with
          radixlog := m.radixlog.setEntry slot none, disk := { m.disk with bytes := bytes } } := by
        rw [checkpointSlot, hEntry]
        dsimp only
        rw [if_pos hStale, hStore]
        rfl
      rw [hStore, ok_bind]
      refine ⟨_, rfl, ⟨hTidy.sound.setEntry_none slot, hTidy.lodged.cleared hWellFormed hSlot,
        hTidy.unlocked, hTidy.mapped⟩, checkpointSlot_checkpointed hOk, fun hHome hRedo => ?_,
        fun hAt => ?_, fun a ha => ?_, fun a ha => ?_, fun a ha => ?_⟩
      · exact EachEntry.cleared (hHome hRedo) hWellFormed hSlot
      · exact EachEntry.cleared hAt hWellFormed hSlot
      · apply hSlot.through_retire hTidy.sound hEntry _ hBytes ha
        rintro e' ⟨⟩
      · apply hSlot.through_retire hTidy.sound hEntry _ _ ha
        · rintro e' ⟨⟩
        · simpa only [hStale, and_true] using hBytes
      · dsimp only
        rw [hBytes, if_neg]
        rintro ⟨_, hBlock, _⟩
        exact absurd (LogSize.lt_span_of_block_eq hBlock hSlot.in_span) (Nat.not_lt.mpr ha)
    · rw [if_neg hStale]
      exact ⟨m, rfl, Checkpointing.refl hTidy⟩

theorem checkpointFrom_spec {m : Mmio} (hTidy : m.Tidy) (hHome : m.HomeForRedo)
    (hSkip : m.radixlog.SkipSized) (endoff offset : Nat) :
    ∃ m', checkpointFrom m.epoch endoff m offset = .ok m' ∧ m.Checkpointing m' := by
  apply checkpointFrom_succeeds
  · intro m₁ slot s b hInv hSlot
    obtain ⟨m₂, hOk, hStep⟩ := checkpointSlot_spec hInv.tidy (hInv.home hHome) hSlot
    rw [hInv.checkpointed.epoch] at hOk
    exact ⟨m₂, hOk, hInv.trans hStep⟩
  · intro m₁ offset table hInv hFind
    exact hInv.tidy.sound.sized (hInv.checkpointed.skipSized hSkip) hFind
  · exact Checkpointing.refl hTidy

theorem drained_of_swept {m : Mmio} {a : Nat}
    (h : ∀ e, m.radixlog.entryOf a = some e → ¬ e.epoch < m.epoch) : m.drained a = m.disk.bytes a := by
  cases hEntry : m.radixlog.entryOf a with
  | none => exact through_none hEntry
  | some e =>
    rw [drained, through_some hEntry, if_neg]
    rintro ⟨⟨_, hStale⟩, _⟩
    exact h e hEntry hStale

/-- Past the mapping no log holds data. -/
theorem drained_of_mapLen_le {m : Mmio} (h : m.Tidy) {a : Nat} (ha : a < m.radixlog.skipType.span)
    (hPast : m.mapLen ≤ a) : m.drained a = m.disk.bytes a := by
  cases hEntry : m.radixlog.entryOf a with
  | none => exact through_none hEntry
  | some e =>
    rw [drained, through_some hEntry, if_neg]
    rintro ⟨_, hCovers⟩
    have hMapped := (h.lodged a e ha hEntry hCovers.len_pos).mapped
    have hSplit := e.logSize.blockStart_add_mod a
    obtain ⟨_, hHigh⟩ := hCovers
    dsimp only [IdxEntry.extent] at hHigh
    omega

structure CheckpointDone (m m' : Mmio) : Prop extends Checkpointing m m' where
  swept : ∀ a e, a < m.mapLen → m'.radixlog.entryOf a = some e → ¬ e.epoch < m.epoch
  bytes : ∀ a, a < m.radixlog.skipType.span → m'.disk.bytes a = m.drained a

theorem checkpointMmio_spec {m : Mmio} (hTidy : m.Tidy) (hHome : m.HomeForRedo)
    (hSkip : m.radixlog.SkipSized) :
    ∃ m', m.checkpointMmio = .ok m' ∧ m.CheckpointDone m' := by
  obtain ⟨m', hOk, hInv⟩ := checkpointFrom_spec hTidy hHome hSkip m.mapLen 0
  have hSwept : ∀ a e, a < m.mapLen → m'.radixlog.entryOf a = some e → ¬ e.epoch < m.epoch :=
    fun a e ha hEntry => checkpointFrom_swept hTidy.unlocked (Nat.zero_mod _) hOk (Nat.zero_le a) ha hEntry
  refine ⟨m', hOk, hInv, hSwept, fun a ha => ?_⟩
  have ha' : a < m'.radixlog.skipType.span := by rwa [hInv.checkpointed.same.skipType]
  rw [← hInv.drained a ha]
  by_cases hMapped : a < m.mapLen
  · refine (drained_of_swept fun e hEntry => ?_).symm
    rw [hInv.checkpointed.epoch]
    exact hSwept a e hMapped hEntry
  · have hLen : m'.mapLen = m.mapLen := by
      obtain ⟨r, bytes, rfl⟩ := hInv.checkpointed.frame
      rfl
    exact (drained_of_mapLen_le hInv.tidy ha' (by omega)).symm

/-- A checkpoint that returns has met no table without a log size. -/
theorem skipSized_of_checkpointMmio {m m' : Mmio} (hUnlocked : m.wrlocked = false)
    (hMapped : 0 < m.mapLen) (h : m.checkpointMmio = .ok m') : m.radixlog.SkipSized := by
  intro hType hSize
  have hFind : m.radixlog.findLogTable 0 = some m.radixlog.skip := by
    rw [findLogTable_eq_follow, hType]
    rfl
  rw [checkpointMmio, checkpointFrom_unsized hMapped hUnlocked hFind hSize] at h
  cases h

theorem checkpointMmio_eq_ok {m m' : Mmio} (hTidy : m.Tidy) (hHome : m.HomeForRedo)
    (h : m.checkpointMmio = .ok m') : m.CheckpointDone m' := by
  obtain ⟨m₁, hOk, hDone⟩ := checkpointMmio_spec hTidy hHome
    (skipSized_of_checkpointMmio hTidy.unlocked hTidy.mapped h)
  rw [h] at hOk
  cases hOk
  exact hDone

section Commit

theorem checkpointFrom_locked {m : Mmio} (currentEpoch endoff offset : Nat)
    (h : m.wrlocked = true) : checkpointFrom currentEpoch endoff m offset = .ok m := by
  have hLocked : ¬ m.wrlocked = false := by
    rw [h]
    decide
  induction m, offset using regions_induction endoff with
  | skip m offset hMore hSkip ih =>
    rw [checkpointFrom_skip hMore hSkip]
    exact ih h hLocked
  | unsized m offset table hMore hUnlocked hFind hSize => exact absurd hUnlocked hLocked
  | sized m offset table s hMore hUnlocked hFind hSize ih => exact absurd hUnlocked hLocked
  | done m offset hDone => rw [checkpointFrom_done hDone]

theorem determinePolicy_locked {m : Mmio} (h : m.wrlocked = true) :
    m.determinePolicy = .ok { m with read := 0, write := 0 } := by
  have hNothing : checkpointMmio { m with read := 0, write := 0 } =
      .ok { m with read := 0, write := 0 } := checkpointFrom_locked _ _ _ h
  rw [determinePolicy]
  dsimp only
  split
  · rw [hNothing, ite_self]
  · rename_i hNone
    have hRead : m.read = 0 := by omega
    have hWrite : m.write = 0 := by omega
    cases m
    dsimp only at hRead hWrite
    subst hRead hWrite
    rfl

/-- `commit_mmio` advances the epoch and restarts the counters; nothing else changes. -/
theorem commitMmio_spec (m : Mmio) :
    m.commitMmio = .ok { m with
      epoch := (m.epoch + 1) % 2 ^ 64, read := 0, write := 0, wrlocked := false } := by
  rw [commitMmio, determinePolicy_locked rfl, ok_bind]

end Commit

end Mmio

end Libnvmmio

import Libnvmmio.Mmio.CheckpointSteps
import Libnvmmio.Mmio.WriteParts

/-! # When a checkpoint returns

The loop stops at a table without a log size and at a stale REDO log whose
destination is not mapped, and at nothing else. What it clears on the way has
passed both checks, so the condition can be read off the state before.
-/

namespace Libnvmmio.Mmio

open RadixLog Outcome

set_option autoImplicit false

def HomeMapped (m : Mmio) (currentEpoch : Nat) (e : IdxEntry) : Prop :=
  e.epoch < currentEpoch → e.policy = .redo → m.Accessible (e.dst + e.offset) e.len

def Scannable (m : Mmio) (currentEpoch offset endoff : Nat) : Prop :=
  ∀ a, offset ≤ a → a < endoff → ∀ table, m.radixlog.findLogTable a = some table →
    ∃ s, (m.radixlog.tables table).logSize = some s ∧ ∀ index, index < s.nrEntries →
      ∀ e, m.radixlog.entryAt ⟨table, index⟩ = some e → m.HomeMapped currentEpoch e

section Table

variable {m m' : Mmio} {currentEpoch table : Nat} {s : LogSize}

theorem Checkpointed.homeMapped (h : Checkpointed currentEpoch m m') (e : IdxEntry) :
    m'.HomeMapped currentEpoch e ↔ m.HomeMapped currentEpoch e := by
  obtain ⟨r, bytes, rfl⟩ := h.frame
  exact Iff.rfl

theorem mem_slotsOf {slot : Slot} : slot ∈ slotsOf table s ↔ slot.table = table ∧ slot.index < s.nrEntries := by
  rw [slotsOf, List.mem_map]
  constructor
  · rintro ⟨index, hIndex, rfl⟩
    exact ⟨rfl, List.mem_range.mp hIndex⟩
  · rintro ⟨rfl, hIndex⟩
    exact ⟨slot.index, List.mem_range.mpr hIndex, rfl⟩

theorem checkpointSlot_isOk (slot : Slot) : (∃ m', checkpointSlot currentEpoch m slot = .ok m') ↔
    ∀ e, m.radixlog.entryAt slot = some e → m.HomeMapped currentEpoch e := by
  unfold checkpointSlot
  cases hEntry : m.radixlog.entryAt slot with
  | none => exact ⟨fun _ e he => (by cases he), fun _ => ⟨m, rfl⟩⟩
  | some e =>
    dsimp only
    have hOnly : (∀ e', some e = some e' → m.HomeMapped currentEpoch e') ↔ m.HomeMapped currentEpoch e :=
      ⟨fun h => h e rfl, fun h e' he' => by cases he'; exact h⟩
    rw [hOnly, HomeMapped]
    split
    · rename_i hStale
      rw [bind_isOk, storeRedo_isOk]
      exact ⟨fun h _ => h, fun h => h hStale⟩
    · rename_i hCurrent
      exact ⟨fun _ hStale => absurd hStale hCurrent, fun _ => ⟨m, rfl⟩⟩

/-- What is gone after some iterations was stale, and its copy stayed in the mapping. -/
theorem slots_gone {slots : List Slot} (h : slots.foldlM (checkpointSlot currentEpoch) m = .ok m') :
    Checkpointed currentEpoch m m' ∧ ∀ slot e, m.radixlog.entryAt slot = some e →
      m'.radixlog.entryAt slot = none → m.HomeMapped currentEpoch e := by
  apply foldlM_keeps (fun a => Checkpointed currentEpoch m a ∧ ∀ slot e,
    m.radixlog.entryAt slot = some e → a.radixlog.entryAt slot = none → m.HomeMapped currentEpoch e) _ _ h
  · rintro a slot b _ ⟨hDone, hGone⟩ hStep
    refine ⟨hDone.trans (checkpointSlot_checkpointed hStep), fun slot' e hEntry hNone => ?_⟩
    have hMapped := (checkpointSlot_isOk slot).mp ⟨b, hStep⟩
    rcases hDone.entries slot' with hSame | ⟨hNone', _⟩
    · rw [hEntry] at hSame
      by_cases hSlot : slot' = slot
      · subst hSlot
        exact (hDone.homeMapped e).mp (hMapped e hSame)
      · -- another slot is left alone
        rcases checkpointSlot_cases hStep with ⟨rfl, _⟩ | ⟨_, bytes, _, _, _, rfl⟩
        · exact hGone slot' e hEntry hNone
        · dsimp only at hNone
          rw [entryAt_setEntry_of_ne _ hSlot, hSame] at hNone
          cases hNone
    · exact hGone slot' e hEntry hNone'
  · refine ⟨Checkpointed.refl currentEpoch m, fun slot e hEntry hNone => ?_⟩
    rw [hEntry] at hNone
    cases hNone

theorem checkpointTable_isOk : (∃ m', checkpointTable currentEpoch m table s = .ok m') ↔
    ∀ index, index < s.nrEntries → ∀ e, m.radixlog.entryAt ⟨table, index⟩ = some e →
      m.HomeMapped currentEpoch e := by
  constructor
  · rintro ⟨m', hOk⟩ index hIndex e hEntry hStale
    have hSwept := (checkpointTable_checkpointed hOk).2 index hIndex
    obtain ⟨hDone, hGone⟩ := slots_gone hOk
    rcases hDone.entries ⟨table, index⟩ with hSame | ⟨hNone, _⟩
    · exact absurd hStale (hSwept e (hSame.trans hEntry))
    · exact hGone _ e hEntry hNone hStale
  · intro hMapped
    have hSlot : ∀ a slot, slot ∈ slotsOf table s → Checkpointed currentEpoch m a →
        ∃ b, checkpointSlot currentEpoch a slot = .ok b ∧ Checkpointed currentEpoch m b := by
      intro a slot hMem hDone
      obtain ⟨rfl, hIndex⟩ := mem_slotsOf.mp hMem
      have hCopies : ∀ e, a.radixlog.entryAt slot = some e → a.HomeMapped currentEpoch e := by
        intro e hEntry
        rw [hDone.homeMapped]
        exact hMapped slot.index hIndex e (hDone.entry_before hEntry)
      obtain ⟨b, hStep⟩ := (checkpointSlot_isOk slot).mpr hCopies
      exact ⟨b, hStep, hDone.trans (checkpointSlot_checkpointed hStep)⟩
    obtain ⟨m', hOk, _⟩ := foldlM_succeeds (Checkpointed currentEpoch m) hSlot (Checkpointed.refl _ m)
    exact ⟨m', hOk⟩

end Table

section Loop

variable {m m' : Mmio} {currentEpoch offset endoff : Nat}

theorem Checkpointed.scannable (h : Checkpointed currentEpoch m m')
    (hGone : ∀ slot e, m.radixlog.entryAt slot = some e → m'.radixlog.entryAt slot = none →
      m.HomeMapped currentEpoch e) :
    m'.Scannable currentEpoch offset endoff ↔ m.Scannable currentEpoch offset endoff := by
  refine forall₃_congr fun a _ _ => ?_
  refine forall_congr' fun table => ?_
  rw [h.same.find, h.sizes]
  refine imp_congr_right fun _ => exists_congr fun s => and_congr_right fun _ => ?_
  refine forall₃_congr fun index _ e => ?_
  rw [h.homeMapped]
  constructor
  · intro hAfter hEntry
    rcases h.entries ⟨table, index⟩ with hSame | ⟨hNone, _⟩
    · exact hAfter (hSame.trans hEntry)
    · exact hGone _ e hEntry hNone
  · intro hBefore hEntry
    exact hBefore (h.entry_before hEntry)

/-- A region is done when its table is. -/
theorem scannable_next (hMore : offset < endoff) (hAligned : offset % 2 ^ lmdShift = 0) :
    m.Scannable currentEpoch offset endoff ↔
      (∀ table, m.radixlog.findLogTable offset = some table →
        ∃ s, (m.radixlog.tables table).logSize = some s ∧ ∀ index, index < s.nrEntries →
          ∀ e, m.radixlog.entryAt ⟨table, index⟩ = some e → m.HomeMapped currentEpoch e) ∧
      m.Scannable currentEpoch (offset + 2 ^ lmdShift) endoff := by
  constructor
  · intro h
    exact ⟨h offset (Nat.le_refl _) hMore, fun a hLow => h a (by omega)⟩
  · rintro ⟨hHere, hRest⟩ a hLow hHigh table hFind
    by_cases hIn : a < offset + 2 ^ lmdShift
    · rw [m.radixlog.findLogTable_congr_region (region_of_lt hAligned hLow hIn)] at hFind
      exact hHere table hFind
    · exact hRest a (by omega) hHigh table hFind

theorem checkpointFrom_isOk (hUnlocked : m.wrlocked = false) (hAligned : offset % 2 ^ lmdShift = 0) :
    (∃ m', checkpointFrom currentEpoch endoff m offset = .ok m') ↔
      m.Scannable currentEpoch offset endoff := by
  induction m, offset using regions_induction endoff with
  | skip m offset hMore hSkip ih =>
    have hFind := hSkip.resolve_left (Bool.eq_false_iff.mp hUnlocked)
    have hRest := ih hUnlocked (aligned_next hAligned)
    rw [checkpointFrom_skip hMore hSkip, hRest, scannable_next hMore hAligned, hFind]
    exact ⟨fun h => ⟨fun table ht => (by cases ht), h⟩, fun h => h.2⟩
  | unsized m offset table hMore hUnlocked' hFind hSize =>
    rw [checkpointFrom_unsized hMore hUnlocked hFind hSize]
    constructor
    · rintro ⟨_, h⟩
      cases h
    · intro h
      obtain ⟨s, hSome, _⟩ := h offset (Nat.le_refl _) hMore table hFind
      rw [hSize] at hSome
      cases hSome
  | sized m offset table s hMore hUnlocked' hFind hSize ih =>
    have hHere : (∀ table', m.radixlog.findLogTable offset = some table' →
        ∃ s, (m.radixlog.tables table').logSize = some s ∧ ∀ index, index < s.nrEntries →
          ∀ e, m.radixlog.entryAt ⟨table', index⟩ = some e → m.HomeMapped currentEpoch e) ↔
        ∃ m₁, checkpointTable currentEpoch m table s = .ok m₁ := by
      rw [checkpointTable_isOk, hFind]
      constructor
      · intro h
        obtain ⟨s', hSize', hMapped⟩ := h table rfl
        rw [hSize, Option.some.injEq] at hSize'
        exact hSize' ▸ hMapped
      · rintro h table' ⟨⟩
        exact ⟨s, hSize, h⟩
    -- the later regions may be judged before the table is done or after it
    have hLater : ∀ m₁, checkpointTable currentEpoch m table s = .ok m₁ →
        ((∃ m', checkpointFrom currentEpoch endoff m₁ (offset + 2 ^ lmdShift) = .ok m') ↔
          m.Scannable currentEpoch (offset + 2 ^ lmdShift) endoff) := by
      intro m₁ hTable
      obtain ⟨hDone, hGone⟩ := slots_gone hTable
      rw [← hDone.scannable hGone]
      apply ih m₁ _ (aligned_next hAligned)
      obtain ⟨r, bytes, rfl⟩ := hDone.frame
      exact hUnlocked
    rw [checkpointFrom_sized hMore hUnlocked hFind hSize, scannable_next hMore hAligned, hHere]
    constructor
    · rintro ⟨m', hOk⟩
      obtain ⟨m₁, hTable, hRest⟩ := bind_eq_ok hOk
      exact ⟨⟨m₁, hTable⟩, (hLater m₁ hTable).mp ⟨m', hRest⟩⟩
    · rintro ⟨⟨m₁, hTable⟩, hRest⟩
      obtain ⟨m', hOk⟩ := (hLater m₁ hTable).mpr hRest
      exact ⟨m', by rw [hTable, ok_bind, hOk]⟩
  | done m offset hDone =>
    rw [checkpointFrom_done hDone]
    exact ⟨fun _ a hLow hHigh => absurd hHigh (by omega), fun _ => ⟨m, rfl⟩⟩

end Loop

end Libnvmmio.Mmio

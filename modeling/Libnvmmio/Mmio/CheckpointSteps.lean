import Libnvmmio.Mmio.Checkpoint
import Libnvmmio.Mmio.WriteSteps
import Libnvmmio.Radixlog.Through

/-! # What any checkpoint does

Each iteration leaves its slot alone or clears it of a stale entry whose REDO
log went to the address in the entry. So the loop keeps the directories and
every entry that is not stale, and it copies nothing but stale REDO logs.
-/

namespace Libnvmmio

open RangeCopy RadixLog Outcome

set_option autoImplicit false

theorem RadixLog.SameDirectory.refl (r : RadixLog) : SameDirectory r r :=
  ⟨rfl, rfl, rfl, rfl, rfl, rfl, rfl⟩

theorem RadixLog.SameDirectory.trans {r r' r'' : RadixLog} (h : SameDirectory r r')
    (h' : SameDirectory r' r'') : SameDirectory r r'' where
  links := h'.links.trans h.links
  typeOf := h'.typeOf.trans h.typeOf
  lgd := h'.lgd.trans h.lgd
  skip := h'.skip.trans h.skip
  next := h'.next.trans h.next
  prevTable := h'.prevTable.trans h.prevTable
  prevTableIndex := h'.prevTableIndex.trans h.prevTableIndex

namespace Mmio

theorem checkpointSlot_cases {currentEpoch : Nat} {m m' : Mmio} {slot : Slot}
    (h : checkpointSlot currentEpoch m slot = .ok m') :
    (m' = m ∧ ∀ e, m.radixlog.entryAt slot = some e → ¬ e.epoch < currentEpoch) ∨
    ∃ e bytes, m.radixlog.entryAt slot = some e ∧ e.epoch < currentEpoch ∧
      m.storeRedo e = .ok { m with disk := { m.disk with bytes := bytes } } ∧
      m' = { m with
        radixlog := m.radixlog.setEntry slot none, disk := { m.disk with bytes := bytes } } := by
  unfold checkpointSlot at h
  cases hEntry : m.radixlog.entryAt slot with
  | none =>
    rw [hEntry] at h
    exact .inl ⟨(Except.ok.inj h).symm, fun e he => by cases he⟩
  | some e =>
    rw [hEntry] at h
    dsimp only at h
    split at h
    · rename_i hStale
      obtain ⟨m₁, hStore, hDone⟩ := bind_eq_ok h
      obtain ⟨bytes, rfl⟩ := storeRedo_eq_ok hStore
      exact .inr ⟨e, bytes, rfl, hStale, hStore, (Except.ok.inj hDone).symm⟩
    · rename_i hCurrent
      refine .inl ⟨(Except.ok.inj h).symm, fun e' he' => ?_⟩
      cases he'
      exact hCurrent

/-- The byte at file position `j` after a checkpoint under the epoch comes from the file
or from a stale REDO log that is copied to its address. -/
def CopiedOrKept (currentEpoch : Nat) (m : Mmio) (bytes : Nat → UInt8) (j : Nat) : Prop :=
  bytes j = m.disk.bytes j ∨
    ∃ slot e i, m.radixlog.entryAt slot = some e ∧ e.epoch < currentEpoch ∧ e.policy = .redo ∧
      e.extent.Covers i ∧ e.dst + i = m.start + j ∧ bytes j = e.log i

theorem storeRedo_copied {m : Mmio} {currentEpoch : Nat} {slot : Slot} {e : IdxEntry}
    {bytes : Nat → UInt8} (hEntry : m.radixlog.entryAt slot = some e) (hStale : e.epoch < currentEpoch)
    (h : m.storeRedo e = .ok { m with disk := { m.disk with bytes := bytes } }) (j : Nat) :
    CopiedOrKept currentEpoch m bytes j := by
  unfold storeRedo at h
  split at h
  · rename_i hRedo
    obtain ⟨hAccess, hBytes⟩ := ntstore_eq_ok h
    have hBlit : bytes = blit m.disk.bytes (e.dst + e.offset - m.start) e.log e.offset e.len :=
      congrArg (fun m : Mmio => m.disk.bytes) hBytes
    by_cases hInside : e.dst + e.offset - m.start ≤ j ∧ j < e.dst + e.offset - m.start + e.len
    · rcases hAccess with hLen | ⟨hLow, _⟩
      · omega
      · refine .inr ⟨slot, e, e.offset + (j - (e.dst + e.offset - m.start)), hEntry, hStale, hRedo,
          ⟨Nat.le_add_right _ _, ?_⟩, by omega, ?_⟩
        · dsimp only [IdxEntry.extent]
          omega
        · rw [hBlit, blit_inside hInside.1 hInside.2]
    · left
      rw [hBlit, blit_outside (by omega)]
  · have hSame : m.disk.bytes = bytes := congrArg (fun m : Mmio => m.disk.bytes) (Except.ok.inj h)
    exact .inl (by rw [hSame])

structure Checkpointed (currentEpoch : Nat) (m m' : Mmio) : Prop where
  frame : ∃ r bytes, m' = { m with radixlog := r, disk := { m.disk with bytes := bytes } }
  same : SameDirectory m.radixlog m'.radixlog
  sizes : ∀ t, (m'.radixlog.tables t).logSize = (m.radixlog.tables t).logSize
  sound : m.radixlog.Sound → m'.radixlog.Sound
  entries : ∀ slot, m'.radixlog.entryAt slot = m.radixlog.entryAt slot ∨
    m'.radixlog.entryAt slot = none ∧ ∃ e, m.radixlog.entryAt slot = some e ∧ e.epoch < currentEpoch
  bytes : ∀ j, CopiedOrKept currentEpoch m m'.disk.bytes j

theorem Checkpointed.refl (currentEpoch : Nat) (m : Mmio) : Checkpointed currentEpoch m m where
  frame := ⟨m.radixlog, m.disk.bytes, rfl⟩
  same := SameDirectory.refl _
  sizes _ := rfl
  sound h := h
  entries _ := .inl rfl
  bytes _ := .inl rfl

theorem Checkpointed.entry_before {currentEpoch : Nat} {m m' : Mmio}
    (h : Checkpointed currentEpoch m m') {slot : Slot} {e : IdxEntry}
    (hEntry : m'.radixlog.entryAt slot = some e) : m.radixlog.entryAt slot = some e := by
  rcases h.entries slot with hSame | ⟨hNone, _⟩
  · rw [← hSame, hEntry]
  · rw [hNone] at hEntry
    cases hEntry

theorem Checkpointed.entry_kept {currentEpoch : Nat} {m m' : Mmio}
    (h : Checkpointed currentEpoch m m') {slot : Slot} {e : IdxEntry}
    (hEntry : m.radixlog.entryAt slot = some e) (hCurrent : ¬ e.epoch < currentEpoch) :
    m'.radixlog.entryAt slot = some e := by
  rcases h.entries slot with hSame | ⟨_, e', hOld, hStale⟩
  · rw [hSame, hEntry]
  · rw [hEntry] at hOld
    cases hOld
    exact absurd hStale hCurrent

theorem Checkpointed.trans {currentEpoch : Nat} {m m' m'' : Mmio}
    (h : Checkpointed currentEpoch m m') (h' : Checkpointed currentEpoch m' m'') :
    Checkpointed currentEpoch m m'' where
  frame := by
    obtain ⟨r, bytes, rfl⟩ := h.frame
    obtain ⟨r', bytes', rfl⟩ := h'.frame
    exact ⟨r', bytes', rfl⟩
  same := h.same.trans h'.same
  sizes t := (h'.sizes t).trans (h.sizes t)
  sound hSound := h'.sound (h.sound hSound)
  entries slot := by
    rcases h'.entries slot with hSame | ⟨hNone, e, hEntry, hStale⟩
    · rw [hSame]
      exact h.entries slot
    · exact .inr ⟨hNone, e, h.entry_before hEntry, hStale⟩
  bytes j := by
    have hStart : m'.start = m.start := by
      obtain ⟨r, bytes, rfl⟩ := h.frame
      rfl
    rcases h'.bytes j with hSame | ⟨slot, e, i, hEntry, hStale, hRedo, hCovers, hDst, hLog⟩
    · unfold CopiedOrKept
      rw [hSame]
      exact h.bytes j
    · exact .inr ⟨slot, e, i, h.entry_before hEntry, hStale, hRedo, hCovers, hStart ▸ hDst, hLog⟩

theorem checkpointSlot_checkpointed {currentEpoch : Nat} {m m' : Mmio} {slot : Slot}
    (h : checkpointSlot currentEpoch m slot = .ok m') : Checkpointed currentEpoch m m' := by
  rcases checkpointSlot_cases h with ⟨rfl, _⟩ | ⟨e, bytes, hEntry, hStale, hStore, rfl⟩
  · exact Checkpointed.refl currentEpoch m'
  · refine ⟨⟨_, _, rfl⟩, sameDirectory_setEntry _ _ _, logSize_setEntry _ _ _,
      fun hSound => hSound.setEntry_none slot, fun slot' => ?_, storeRedo_copied hEntry hStale hStore⟩
    rw [entryAt_setEntry]
    split
    · rename_i heq
      exact .inr ⟨rfl, e, heq ▸ hEntry, hStale⟩
    · exact .inl rfl

theorem Checkpointed.entryOf {currentEpoch : Nat} {m m' : Mmio} (h : Checkpointed currentEpoch m m')
    (a : Nat) : m'.radixlog.entryOf a = m.radixlog.entryOf a ∨
      m'.radixlog.entryOf a = none ∧ ∃ e, m.radixlog.entryOf a = some e ∧ e.epoch < currentEpoch := by
  have hFind := h.same.find a
  cases hTable : m.radixlog.findLogTable a with
  | none =>
    rw [hTable] at hFind
    exact .inl (by simp only [RadixLog.entryOf, hTable, hFind])
  | some table =>
    rw [hTable] at hFind
    cases hSize : (m.radixlog.tables table).logSize with
    | none =>
      have hSize' := (h.sizes table).trans hSize
      exact .inl (by simp only [RadixLog.entryOf, hTable, hFind, hSize, hSize'])
    | some s =>
      have hSize' := (h.sizes table).trans hSize
      rw [entryOf_of_find hFind hSize', entryOf_of_find hTable hSize]
      exact h.entries _

def Swept (currentEpoch : Nat) (slot : Slot) (m : Mmio) : Prop :=
  ∀ e, m.radixlog.entryAt slot = some e → ¬ e.epoch < currentEpoch

theorem Checkpointed.swept {currentEpoch : Nat} {m m' : Mmio} (h : Checkpointed currentEpoch m m')
    {slot : Slot} (hSwept : Swept currentEpoch slot m) : Swept currentEpoch slot m' :=
  fun e hEntry => hSwept e (h.entry_before hEntry)

theorem checkpointSlot_swept {currentEpoch : Nat} {m m' : Mmio} {slot : Slot}
    (h : checkpointSlot currentEpoch m slot = .ok m') : Swept currentEpoch slot m' := by
  rcases checkpointSlot_cases h with ⟨rfl, hSwept⟩ | ⟨e, bytes, _, _, _, rfl⟩
  · exact hSwept
  · intro e' hEntry
    dsimp only at hEntry
    rw [entryAt_setEntry_self] at hEntry
    cases hEntry

theorem checkpointTable_checkpointed {currentEpoch table : Nat} {m m' : Mmio} {s : LogSize}
    (h : checkpointTable currentEpoch m table s = .ok m') :
    Checkpointed currentEpoch m m' ∧
      ∀ index, index < s.nrEntries → Swept currentEpoch ⟨table, index⟩ m' := by
  constructor
  · apply foldlM_keeps (Checkpointed currentEpoch m) _ (Checkpointed.refl currentEpoch m) h
    intro a slot b _ hInv hStep
    exact hInv.trans (checkpointSlot_checkpointed hStep)
  · intro index hIndex
    apply foldlM_establishes (Swept currentEpoch) _ _ h
    · rw [slotsOf, List.mem_map]
      exact ⟨index, List.mem_range.mpr hIndex, rfl⟩
    · intro a slot b hStep
      exact checkpointSlot_swept hStep
    · intro a slot slot' b hDone hStep
      exact (checkpointSlot_checkpointed hStep).swept hDone

theorem checkpointFrom_checkpointed {currentEpoch endoff : Nat} {m m' : Mmio} {offset : Nat}
    (h : checkpointFrom currentEpoch endoff m offset = .ok m') : Checkpointed currentEpoch m m' := by
  induction m, offset using regions_induction endoff with
  | skip m offset hMore hSkip ih =>
    rw [checkpointFrom_skip hMore hSkip] at h
    exact ih h
  | unsized m offset table hMore hUnlocked hFind hSize =>
    rw [checkpointFrom_unsized hMore hUnlocked hFind hSize] at h
    cases h
  | sized m offset table s hMore hUnlocked hFind hSize ih =>
    rw [checkpointFrom_sized hMore hUnlocked hFind hSize] at h
    obtain ⟨m₁, hTable, hRest⟩ := bind_eq_ok h
    exact (checkpointTable_checkpointed hTable).1.trans (ih m₁ hRest)
  | done m offset hDone =>
    rw [checkpointFrom_done hDone] at h
    cases h
    exact Checkpointed.refl _ _

theorem checkpointFrom_swept {currentEpoch endoff : Nat} {m m' : Mmio} {offset : Nat}
    (hUnlocked : m.wrlocked = false) (hAligned : offset % 2 ^ lmdShift = 0)
    (h : checkpointFrom currentEpoch endoff m offset = .ok m') {a : Nat} (hLow : offset ≤ a)
    (hHigh : a < endoff) {e : IdxEntry} (hEntry : m'.radixlog.entryOf a = some e) :
    ¬ e.epoch < currentEpoch := by
  induction m, offset using regions_induction endoff with
  | skip m offset hMore hSkip ih =>
    have hSame := checkpointFrom_checkpointed h
    rw [checkpointFrom_skip hMore hSkip] at h
    by_cases hHere : a < offset + 2 ^ lmdShift
    · -- no table, no entry
      have hFind := hSkip.resolve_left (Bool.eq_false_iff.mp hUnlocked)
      obtain ⟨table, s, hFound, _, _⟩ := entryOf_eq_some hEntry
      rw [hSame.same.find, m.radixlog.findLogTable_congr_region (region_of_lt hAligned hLow hHere),
        hFind] at hFound
      cases hFound
    · exact ih hUnlocked (aligned_next hAligned) h (by omega)
  | unsized m offset table hMore hUnlocked' hFind hSize =>
    rw [checkpointFrom_unsized hMore hUnlocked hFind hSize] at h
    cases h
  | sized m offset table s hMore hUnlocked' hFind hSize ih =>
    have hSame := checkpointFrom_checkpointed h
    rw [checkpointFrom_sized hMore hUnlocked hFind hSize] at h
    obtain ⟨m₁, hTable, hRest⟩ := bind_eq_ok h
    obtain ⟨hFirst, hSwept⟩ := checkpointTable_checkpointed hTable
    by_cases hHere : a < offset + 2 ^ lmdShift
    · have hFound : m'.radixlog.findLogTable a = some table := by
        rw [hSame.same.find, m.radixlog.findLogTable_congr_region (region_of_lt hAligned hLow hHere), hFind]
      rw [entryOf_of_find hFound ((hSame.sizes table).trans hSize)] at hEntry
      exact (checkpointFrom_checkpointed hRest).swept (hSwept _ (tableIndex_lt s a)) e hEntry
    · apply ih m₁ _ (aligned_next hAligned) hRest (by omega)
      obtain ⟨r, bytes, rfl⟩ := hFirst.frame
      exact hUnlocked
  | done m offset hDone => omega

section Total

variable {currentEpoch : Nat} {Inv : Mmio → Prop}
  (hSlot : ∀ m slot s b, Inv m → m.radixlog.SlotOf slot s b →
    ∃ m', checkpointSlot currentEpoch m slot = .ok m' ∧ Inv m')

include hSlot

theorem checkpointTable_succeeds {m : Mmio} {table offset : Nat} {s : LogSize} (hInv : Inv m)
    (hFind : m.radixlog.findLogTable offset = some table)
    (hSize : (m.radixlog.tables table).logSize = some s) :
    ∃ m', checkpointTable currentEpoch m table s = .ok m' ∧ Inv m' := by
  have hLoop := foldlM_succeeds (f := checkpointSlot currentEpoch) (l := slotsOf table s)
    (fun m => Inv m ∧ m.radixlog.findLogTable offset = some table ∧
      (m.radixlog.tables table).logSize = some s) ?_ ⟨hInv, hFind, hSize⟩
  · obtain ⟨m', hOk, hInv', _⟩ := hLoop
    exact ⟨m', hOk, hInv'⟩
  · rintro m slot hMem ⟨hInv, hFind, hSize⟩
    rw [slotsOf, List.mem_map] at hMem
    obtain ⟨index, hIndex, rfl⟩ := hMem
    obtain ⟨b, hSpan, hBlock, hEq⟩ :=
      exists_block_of_slot ⟨table, index⟩ hFind (List.mem_range.mp hIndex)
    obtain ⟨m', hOk, hInv'⟩ := hSlot m ⟨table, index⟩ s b hInv ⟨hSpan, hBlock, hSize, hEq⟩
    have hSame := checkpointSlot_checkpointed hOk
    exact ⟨m', hOk, hInv', (hSame.same.find offset).trans hFind, (hSame.sizes table).trans hSize⟩

/-- If each iteration succeeds and restores the invariant, and every table that
is found has its log size, then the whole checkpoint does. -/
theorem checkpointFrom_succeeds
    (hSized : ∀ m offset table, Inv m → m.radixlog.findLogTable offset = some table →
      (m.radixlog.tables table).logSize ≠ none)
    (endoff : Nat) {m : Mmio} (offset : Nat) (hInv : Inv m) :
    ∃ m', checkpointFrom currentEpoch endoff m offset = .ok m' ∧ Inv m' := by
  induction m, offset using regions_induction endoff with
  | skip m offset hMore hSkip ih =>
    rw [checkpointFrom_skip hMore hSkip]
    exact ih hInv
  | unsized m offset table hMore hUnlocked hFind hSize =>
    exact absurd hSize (hSized m offset table hInv hFind)
  | sized m offset table s hMore hUnlocked hFind hSize ih =>
    obtain ⟨m₁, hTable, hInv₁⟩ := checkpointTable_succeeds hSlot hInv hFind hSize
    obtain ⟨m', hRest, hInv'⟩ := ih m₁ hInv₁
    refine ⟨m', ?_, hInv'⟩
    rw [checkpointFrom_sized hMore hUnlocked hFind hSize, hTable, ok_bind, hRest]
  | done m offset hDone =>
    rw [checkpointFrom_done hDone]
    exact ⟨m, rfl, hInv⟩

end Total

end Mmio

end Libnvmmio

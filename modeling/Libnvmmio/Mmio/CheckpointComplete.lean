import Libnvmmio.Mmio.CheckpointScan
import Libnvmmio.Mmio.SettledRuns
import Libnvmmio.Mmio.VisitOrder

/-! # When a checkpoint is total and complete

A scan that returns stays within the word, the tables and the regions. How often
it examines an entry depends on the number of regions that find its table: an
entry that stays is met in each of them, one that is cleared in the first only.
-/

namespace Libnvmmio

open RadixLog Outcome

set_option autoImplicit false

def RadixLog.visits (r : RadixLog) (table endoff offset : Nat) : Nat :=
  if offset < endoff then
    (if r.findLogTable offset = some table then 1 else 0) +
      r.visits table endoff (offset + 2 ^ lmdShift)
  else 0
termination_by endoff - offset
decreasing_by
  have hRegion : 0 < 2 ^ lmdShift := by decide
  omega

namespace RadixLog

section Visits

variable {r r' : RadixLog} {table endoff offset : Nat}

theorem visits_congr (h : SameDirectory r r') (table endoff offset : Nat) :
    r'.visits table endoff offset = r.visits table endoff offset := by
  induction offset using visits.induct endoff with
  | case1 offset hMore ih =>
    rw [visits, if_pos hMore, ih, h.find]
    conv_rhs => rw [visits, if_pos hMore]
  | case2 offset hDone => rw [visits, if_neg hDone, visits, if_neg hDone]

theorem visits_pos_iff (hAligned : offset % 2 ^ lmdShift = 0) : 0 < r.visits table endoff offset ↔
    ∃ a, offset ≤ a ∧ a < endoff ∧ r.findLogTable a = some table := by
  induction offset using visits.induct endoff with
  | case1 offset hMore ih =>
    have hNext := ih (aligned_next hAligned)
    rw [visits, if_pos hMore]
    constructor
    · intro hPos
      split at hPos
      · exact ⟨offset, Nat.le_refl _, hMore, ‹_›⟩
      · obtain ⟨a, hLow, hHigh, hFind⟩ := hNext.mp (by omega)
        exact ⟨a, by omega, hHigh, hFind⟩
    · rintro ⟨a, hLow, hHigh, hFind⟩
      by_cases hHere : a < offset + 2 ^ lmdShift
      · rw [r.findLogTable_congr_region (region_of_lt hAligned hLow hHere)] at hFind
        rw [if_pos hFind]
        omega
      · have hLater := hNext.mpr ⟨a, by omega, hHigh, hFind⟩
        omega
  | case2 offset hDone =>
    rw [visits, if_neg hDone]
    exact ⟨fun h => absurd h (Nat.lt_irrefl 0), fun ⟨a, hLow, hHigh, _⟩ => absurd hHigh (by omega)⟩

theorem visits_le_one_iff (hAligned : offset % 2 ^ lmdShift = 0) : r.visits table endoff offset ≤ 1 ↔
    ∀ a b, offset ≤ a → a < endoff → offset ≤ b → b < endoff → r.findLogTable a = some table →
      r.findLogTable b = some table → a / 2 ^ lmdShift = b / 2 ^ lmdShift := by
  induction offset using visits.induct endoff with
  | case1 offset hMore ih =>
    have hAligned' := aligned_next hAligned
    have hNext := ih hAligned'
    have hSome : 0 < r.visits table endoff (offset + 2 ^ lmdShift) ↔
        ∃ a, offset + 2 ^ lmdShift ≤ a ∧ a < endoff ∧ r.findLogTable a = some table :=
      visits_pos_iff hAligned'
    rw [visits, if_pos hMore]
    split
    · rename_i hHere
      -- the table is found here, so it must not be found again
      constructor
      · intro hOne
        have hOwn : ∀ a, offset ≤ a → a < endoff → r.findLogTable a = some table →
            a / 2 ^ lmdShift = offset / 2 ^ lmdShift := by
          intro a hLow hHigh hFind
          apply region_of_lt hAligned hLow
          apply Nat.not_le.mp
          intro hLater
          have hTwice := hSome.mpr ⟨a, hLater, hHigh, hFind⟩
          omega
        intro a b ha ha' hb hb' hFind hFind'
        exact (hOwn a ha ha' hFind).trans (hOwn b hb hb' hFind').symm
      · intro hSame
        apply Nat.not_lt.mp
        intro hTwice
        obtain ⟨a, hLow, hHigh, hFind⟩ := hSome.mp (by omega)
        have hRegion := hSame a offset (by omega) hHigh (Nat.le_refl _) hMore hFind hHere
        rw [lmdShift] at *
        omega
    · rename_i hElsewhere
      rw [Nat.zero_add, hNext]
      constructor
      · intro hSame a b ha ha' hb hb' hFind hFind'
        have hLater : ∀ x, offset ≤ x → r.findLogTable x = some table → offset + 2 ^ lmdShift ≤ x := by
          intro x hx hFound
          apply Nat.not_lt.mp
          intro hHere
          rw [r.findLogTable_congr_region (region_of_lt hAligned hx hHere)] at hFound
          exact hElsewhere hFound
        exact hSame a b (hLater a ha hFind) ha' (hLater b hb hFind') hb' hFind hFind'
      · intro hSame a b ha ha' hb hb'
        exact hSame a b (by omega) ha' (by omega) hb'
  | case2 offset hDone =>
    rw [visits, if_neg hDone]
    exact ⟨fun _ a b ha ha' => absurd ha' (by omega), fun _ => Nat.zero_le 1⟩

end Visits

end RadixLog

namespace Mmio

/-! ## Events within the bounds -/

/-- A shift within the word, an access within the table, a step of one region. -/
def ScanEvent.Regular : ScanEvent → Prop
  | .shift amount => amount < 64
  | .load slot _ => slot.index < ptrsPerTable
  | .step offset offset' => offset' = offset + 2 ^ lmdShift

section Regular

variable {m m' : Mmio} {currentEpoch offset endoff : Nat}

theorem stepEvents_regular (offset : Nat) (s : LogSize) : ∀ event ∈ stepEvents offset s.val, event.Regular := by
  have hShift := s.shift_le
  rw [lmdShift] at hShift
  intro event hMem
  simp only [stepEvents, List.mem_cons, List.not_mem_nil, or_false] at hMem
  rcases hMem with rfl | rfl | rfl
  · rw [entriesShift_eq, ScanEvent.Regular, lmdShift]
    omega
  · rw [logShift_eq, ScanEvent.Regular]
    omega
  · exact nextOffset_eq offset s

theorem scanSlots_events (slots : List Slot) (m : Mmio) :
    ∀ event ∈ (scanSlots currentEpoch m slots).1, ∃ slot ∈ slots, ∃ seen, event = .load slot seen := by
  induction slots generalizing m with
  | nil =>
    intro event hMem
    cases hMem
  | cons slot slots ih =>
    intro event hMem
    rw [scanSlots, Scan.andThen] at hMem
    have hFirst : event ∈ [ScanEvent.load slot (m.radixlog.entryAt slot).isSome] →
        ∃ slot' ∈ slot :: slots, ∃ seen, event = .load slot' seen :=
      fun h => ⟨slot, List.mem_cons_self, _, List.mem_singleton.mp h⟩
    cases hStep : checkpointSlot currentEpoch m slot with
    | error err =>
      rw [hStep] at hMem
      exact hFirst hMem
    | ok m₁ =>
      rw [hStep] at hMem
      rcases List.mem_append.mp hMem with hHead | hTail
      · exact hFirst hHead
      · obtain ⟨slot', hSlot, hEvent⟩ := ih m₁ event hTail
        exact ⟨slot', List.mem_cons_of_mem _ hSlot, hEvent⟩

theorem scanTable_regular (m : Mmio) (table : Nat) (s : LogSize) :
    ∀ event ∈ (scanTable currentEpoch m table s.val).1, event.Regular := by
  intro event hMem
  rw [scanTable_sized] at hMem
  rcases List.mem_append.mp hMem with hBound | hLoad
  · exact stepEvents_regular 0 s event (List.mem_cons.mpr (.inl (List.mem_singleton.mp hBound)))
  · obtain ⟨slot, hSlot, seen, rfl⟩ := scanSlots_events _ m event hLoad
    have hEntries : s.nrEntries ≤ ptrsPerTable := by
      have hShift := LogSize.shift_eq s
      rw [LogSize.nrEntries, ptrsPerTable, lmdShift]
      exact Nat.pow_le_pow_right (by decide) (by omega)
    exact Nat.lt_of_lt_of_le (mem_slotsOf.mp hSlot).2 hEntries

theorem scanFrom_regular (hOk : ∃ m', checkpointFrom currentEpoch endoff m offset = .ok m') :
    ∀ event ∈ (scanFrom currentEpoch endoff m offset).1, event.Regular := by
  induction m, offset using regions_induction endoff with
  | skip m offset hMore hSkip ih =>
    rw [checkpointFrom_skip hMore hSkip] at hOk
    rw [scanFrom_skip hMore hSkip]
    intro event hMem
    rcases List.mem_append.mp hMem with hStep | hRest
    · exact stepEvents_regular offset .log4K event hStep
    · exact ih hOk event hRest
  | unsized m offset table hMore hUnlocked hFind hSize =>
    obtain ⟨m', hOk⟩ := hOk
    rw [checkpointFrom_unsized hMore hUnlocked hFind hSize] at hOk
    cases hOk
  | sized m offset table s hMore hUnlocked hFind hSize ih =>
    obtain ⟨m', hOk⟩ := hOk
    rw [checkpointFrom_sized hMore hUnlocked hFind hSize] at hOk
    obtain ⟨m₁, hTable, hRest⟩ := bind_eq_ok hOk
    rw [scanFrom_sized hMore hUnlocked hFind hSize, andThen_ok ((scanTable_outcome m table s).trans hTable)]
    intro event hMem
    rcases List.mem_append.mp hMem with hHere | hLater
    · exact scanTable_regular m table s event hHere
    · rcases List.mem_append.mp hLater with hEvents | hTail
      · exact stepEvents_regular offset s event hEvents
      · exact ih m₁ ⟨m', hRest⟩ event hTail
  | done m offset hDone =>
    rw [scanFrom_done hDone]
    intro event hMem
    cases hMem

end Regular

/-! ## How often an entry is examined -/

section Count

variable {m m' : Mmio} {currentEpoch offset endoff table : Nat} {slot : Slot}

theorem nodup_slotsOf (table : Nat) (s : LogSize) : (slotsOf table s).Nodup := by
  rw [slotsOf]
  refine List.Pairwise.map _ ?_ List.nodup_range
  intro i j hNe hSame
  exact hNe (congrArg Slot.index hSame)

theorem count_bound (amount : Nat) : [ScanEvent.shift amount].count (.load slot true) = 0 := by
  rw [List.count_eq_zero]
  simp

theorem count_stepEvents (offset raw : Nat) : (stepEvents offset raw).count (.load slot true) = 0 := by
  rw [List.count_eq_zero]
  intro hMem
  simp [stepEvents] at hMem

theorem entryAt_checkpointSlot {other : Slot} (hOther : slot ≠ other)
    (h : checkpointSlot currentEpoch m other = .ok m') :
    m'.radixlog.entryAt slot = m.radixlog.entryAt slot := by
  rcases checkpointSlot_cases h with ⟨rfl, _⟩ | ⟨_, bytes, _, _, _, rfl⟩
  · rfl
  · exact entryAt_setEntry_of_ne m.radixlog hOther none

theorem entryAt_checkpointTable {s : LogSize} (hTable : slot.table ≠ table)
    (h : checkpointTable currentEpoch m table s = .ok m') :
    m'.radixlog.entryAt slot = m.radixlog.entryAt slot := by
  apply foldlM_keeps (fun a => a.radixlog.entryAt slot = m.radixlog.entryAt slot) _ rfl h
  intro a other b hMem hSame hStep
  have hOther : slot ≠ other := by
    rintro rfl
    exact hTable (mem_slotsOf.mp hMem).1
  exact (entryAt_checkpointSlot hOther hStep).trans hSame

theorem count_scanSlots_of_notMem {slots : List Slot} (hNot : slot ∉ slots) :
    (scanSlots currentEpoch m slots).1.count (.load slot true) = 0 := by
  rw [List.count_eq_zero]
  intro hMem
  obtain ⟨slot', hSlot, seen, hEvent⟩ := scanSlots_events slots m _ hMem
  cases hEvent
  exact hNot hSlot

theorem count_scanSlots {slots : List Slot} (hNodup : slots.Nodup) (hMem : slot ∈ slots)
    (hOk : slots.foldlM (checkpointSlot currentEpoch) m = .ok m') :
    (scanSlots currentEpoch m slots).1.count (.load slot true) =
      if (m.radixlog.entryAt slot).isSome then 1 else 0 := by
  induction slots generalizing m with
  | nil => cases hMem
  | cons other slots ih =>
    rw [List.foldlM_cons] at hOk
    obtain ⟨m₁, hStep, hRest⟩ := bind_eq_ok hOk
    obtain ⟨hNew, hNodup'⟩ := List.nodup_cons.mp hNodup
    rw [scanSlots, andThen_ok hStep, Scan.after, List.count_append, List.count_singleton]
    by_cases hSlot : slot = other
    · subst hSlot
      rw [count_scanSlots_of_notMem hNew]
      cases (m.radixlog.entryAt slot).isSome <;> simp
    · have hTail := ih hNodup' ((List.mem_cons.mp hMem).resolve_left hSlot) hRest
      rw [entryAt_checkpointSlot hSlot hStep] at hTail
      rw [hTail, if_neg, Nat.zero_add]
      intro hEvent
      simp only [beq_iff_eq, ScanEvent.load.injEq] at hEvent
      exact hSlot hEvent.1.symm

theorem count_scanTable {s : LogSize} (hIndex : slot.index < s.nrEntries)
    (hOk : checkpointTable currentEpoch m slot.table s = .ok m') :
    (scanTable currentEpoch m slot.table s.val).1.count (.load slot true) =
      if (m.radixlog.entryAt slot).isSome then 1 else 0 := by
  rw [scanTable_sized, Scan.after, List.count_append, count_bound, Nat.zero_add]
  exact count_scanSlots (nodup_slotsOf _ s) (mem_slotsOf.mpr ⟨rfl, hIndex⟩) hOk

theorem count_scanTable_of_ne {s : LogSize} (hTable : slot.table ≠ table) :
    (scanTable currentEpoch m table s.val).1.count (.load slot true) = 0 := by
  rw [scanTable_sized, Scan.after, List.count_append, count_bound, Nat.zero_add]
  exact count_scanSlots_of_notMem fun hMem => hTable (mem_slotsOf.mp hMem).1

def examinations (currentEpoch : Nat) (entry : Option IdxEntry) (visits : Nat) : Nat :=
  match entry with
  | none => 0
  | some e => if e.epoch < currentEpoch then min 1 visits else visits

/-- The table is done once, and what remains of the entry is left to the later regions. -/
theorem examinations_succ {s : LogSize} (hIndex : slot.index < s.nrEntries)
    (hOk : checkpointTable currentEpoch m slot.table s = .ok m') (visits : Nat) :
    (if (m.radixlog.entryAt slot).isSome then 1 else 0) +
        examinations currentEpoch (m'.radixlog.entryAt slot) visits =
      examinations currentEpoch (m.radixlog.entryAt slot) (1 + visits) := by
  obtain ⟨hDone, hSwept⟩ := checkpointTable_checkpointed hOk
  have hGone : Swept currentEpoch slot m' := hSwept slot.index hIndex
  cases hEntry : m.radixlog.entryAt slot with
  | none =>
    have hNone : m'.radixlog.entryAt slot = none := by
      rcases hDone.entries slot with hSame | ⟨hNone, _⟩
      · exact hSame.trans hEntry
      · exact hNone
    rw [hNone]
    rfl
  | some e =>
    rw [Option.isSome_some, if_pos rfl]
    by_cases hStale : e.epoch < currentEpoch
    · have hNone : m'.radixlog.entryAt slot = none := by
        rcases hDone.entries slot with hSame | ⟨hNone, _⟩
        · exact absurd hStale (hGone e (hSame.trans hEntry))
        · exact hNone
      rw [hNone, examinations, examinations, if_pos hStale]
      omega
    · rw [hDone.entry_kept hEntry hStale, examinations, examinations, if_neg hStale, if_neg hStale]

theorem count_scanFrom (hUnlocked : m.wrlocked = false)
    (hIndex : ∀ s, (m.radixlog.tables slot.table).logSize = some s → slot.index < s.nrEntries)
    (hOk : ∃ m', checkpointFrom currentEpoch endoff m offset = .ok m') :
    (scanFrom currentEpoch endoff m offset).1.count (.load slot true) =
      examinations currentEpoch (m.radixlog.entryAt slot)
        (m.radixlog.visits slot.table endoff offset) := by
  induction m, offset using regions_induction endoff with
  | skip m offset hMore hSkip ih =>
    have hFind := hSkip.resolve_left (Bool.eq_false_iff.mp hUnlocked)
    have hNone : ¬ (none : Option Nat) = some slot.table := by rintro ⟨⟩
    rw [checkpointFrom_skip hMore hSkip] at hOk
    rw [scanFrom_skip hMore hSkip, Scan.after, List.count_append, count_stepEvents, Nat.zero_add,
      ih hUnlocked hIndex hOk]
    conv_rhs => rw [RadixLog.visits, if_pos hMore, hFind, if_neg hNone, Nat.zero_add]
  | unsized m offset table hMore hUnlocked' hFind hSize =>
    obtain ⟨m', hOk⟩ := hOk
    rw [checkpointFrom_unsized hMore hUnlocked hFind hSize] at hOk
    cases hOk
  | sized m offset table s hMore hUnlocked' hFind hSize ih =>
    obtain ⟨m', hOk⟩ := hOk
    rw [checkpointFrom_sized hMore hUnlocked hFind hSize] at hOk
    obtain ⟨m₁, hTable, hRest⟩ := bind_eq_ok hOk
    obtain ⟨hDone, _⟩ := checkpointTable_checkpointed hTable
    have hUnlocked₁ : m₁.wrlocked = false := by
      obtain ⟨r, bytes, rfl⟩ := hDone.frame
      exact hUnlocked
    have hIndex₁ : ∀ s', (m₁.radixlog.tables slot.table).logSize = some s' → slot.index < s'.nrEntries := by
      intro s' hSize'
      exact hIndex s' ((hDone.sizes slot.table).symm.trans hSize')
    have hLater := ih m₁ hUnlocked₁ hIndex₁ ⟨m', hRest⟩
    rw [visits_congr hDone.same] at hLater
    rw [scanFrom_sized hMore hUnlocked hFind hSize, andThen_ok ((scanTable_outcome m table s).trans hTable),
      Scan.after, List.count_append, Scan.after, List.count_append, count_stepEvents, Nat.zero_add, hLater]
    conv_rhs => rw [RadixLog.visits, if_pos hMore, hFind]
    by_cases hSame : table = slot.table
    · subst hSame
      rw [if_pos rfl, ← examinations_succ (hIndex s hSize) hTable, count_scanTable (hIndex s hSize) hTable]
    · have hOther : ¬ some table = some slot.table := fun h => hSame (Option.some.inj h)
      rw [if_neg hOther, Nat.zero_add, entryAt_checkpointTable (fun h => hSame h.symm) hTable,
        count_scanTable_of_ne (fun h => hSame h.symm), Nat.zero_add]
  | done m offset hDone =>
    rw [scanFrom_done hDone, RadixLog.visits, if_neg hDone, List.count_nil]
    unfold examinations
    split
    · rfl
    · rw [Nat.min_zero, ite_self]

theorem count_scanFrom_locked (hLocked : m.wrlocked = true) :
    (scanFrom currentEpoch endoff m offset).1.count (.load slot true) = 0 := by
  induction m, offset using regions_induction endoff with
  | skip m offset hMore hSkip ih =>
    rw [scanFrom_skip hMore hSkip, Scan.after, List.count_append, count_stepEvents, Nat.zero_add]
    exact ih hLocked
  | unsized m offset table hMore hUnlocked hFind hSize => exact absurd hLocked (Bool.eq_false_iff.mp hUnlocked)
  | sized m offset table s hMore hUnlocked hFind hSize ih => exact absurd hLocked (Bool.eq_false_iff.mp hUnlocked)
  | done m offset hDone =>
    rw [scanFrom_done hDone]
    rfl

end Count

/-! ## Total and complete -/

def InMapping (m : Mmio) (slot : Slot) : Prop :=
  ∃ a, a < m.mapLen ∧ m.radixlog.slotAt a = some slot

/-- The scan stays within the word, the tables and the regions, it returns, and it examines
each entry of the mapping once. -/
structure ScanComplete (m : Mmio) : Prop where
  shifts : ∀ amount, .shift amount ∈ m.checkpointScan.1 → amount < 64
  accesses : ∀ slot seen, .load slot seen ∈ m.checkpointScan.1 → slot.index < ptrsPerTable
  steps : ∀ offset offset', .step offset offset' ∈ m.checkpointScan.1 → offset' = offset + 2 ^ lmdShift
  ends : ∃ m', m.checkpointScan.2 = .ok m'
  once : ∀ slot, m.InMapping slot → (m.radixlog.entryAt slot).isSome →
    m.checkpointScan.1.count (.load slot true) = 1

/-- A table with an entry that a checkpoint keeps is found for one region of the mapping. -/
def OneRegion (m : Mmio) : Prop :=
  ∀ slot e, m.InMapping slot → m.radixlog.entryAt slot = some e → ¬ e.epoch < m.epoch →
    ∀ a b, a < m.mapLen → b < m.mapLen → m.radixlog.findLogTable a = some slot.table →
      m.radixlog.findLogTable b = some slot.table → a / 2 ^ lmdShift = b / 2 ^ lmdShift

/-- No writer holds the lock, the tables have their log sizes and keep to their regions, and the
copies stay in the mapping; or a writer holds the lock and there is nothing to examine. -/
def ScanFits (m : Mmio) : Prop :=
  if m.wrlocked then ∀ slot, m.InMapping slot → m.radixlog.entryAt slot = none
  else m.Scannable m.epoch 0 m.mapLen ∧ m.OneRegion

section Complete

variable {m : Mmio} {slot : Slot}

theorem InMapping.find (h : m.InMapping slot) : ∃ a s, a < m.mapLen ∧
    m.radixlog.findLogTable a = some slot.table ∧ (m.radixlog.tables slot.table).logSize = some s ∧
      slot.index < s.nrEntries := by
  obtain ⟨a, ha, hSlot⟩ := h
  rw [slotAt, Option.bind_eq_some_iff] at hSlot
  obtain ⟨table, hFind, hSize⟩ := hSlot
  obtain ⟨s, hSized, rfl⟩ := Option.map_eq_some_iff.mp hSize
  exact ⟨a, s, ha, hFind, hSized, tableIndex_lt s a⟩

/-- An entry is examined once if it goes or if its table is found in one region. -/
theorem examinations_eq_one {currentEpoch visits : Nat} (e : IdxEntry) (hVisits : 0 < visits) :
    examinations currentEpoch (some e) visits = 1 ↔ (¬ e.epoch < currentEpoch → visits ≤ 1) := by
  rw [examinations]
  split
  · rename_i hStale
    exact ⟨fun _ hCurrent => absurd hStale hCurrent, fun _ => by omega⟩
  · rename_i hCurrent
    exact ⟨fun hOne _ => by omega, fun h => by have hOne := h hCurrent; omega⟩

theorem checkpointScan_isOk (hUnlocked : m.wrlocked = false) :
    (∃ m', m.checkpointScan.2 = .ok m') ↔ m.Scannable m.epoch 0 m.mapLen := by
  rw [checkpointScan, scanFrom_outcome]
  exact checkpointFrom_isOk hUnlocked (Nat.zero_mod _)

theorem examined_once_iff (hUnlocked : m.wrlocked = false) (hEnds : ∃ m', m.checkpointScan.2 = .ok m')
    {e : IdxEntry} (hIn : m.InMapping slot) (hEntry : m.radixlog.entryAt slot = some e) :
    m.checkpointScan.1.count (.load slot true) = 1 ↔ (¬ e.epoch < m.epoch →
      ∀ a b, a < m.mapLen → b < m.mapLen → m.radixlog.findLogTable a = some slot.table →
        m.radixlog.findLogTable b = some slot.table → a / 2 ^ lmdShift = b / 2 ^ lmdShift) := by
  obtain ⟨a, s, ha, hFind, hSize, hIndex⟩ := hIn.find
  have hSized : ∀ s', (m.radixlog.tables slot.table).logSize = some s' → slot.index < s'.nrEntries := by
    intro s' hSize'
    rw [hSize, Option.some.injEq] at hSize'
    exact hSize' ▸ hIndex
  have hAligned : 0 % 2 ^ lmdShift = 0 := Nat.zero_mod _
  have hVisits := (visits_pos_iff hAligned).mpr ⟨a, Nat.zero_le a, ha, hFind⟩
  rw [checkpointScan, scanFrom_outcome] at hEnds
  rw [checkpointScan, count_scanFrom hUnlocked hSized hEnds, hEntry, examinations_eq_one e hVisits,
    visits_le_one_iff hAligned]
  refine imp_congr_right fun _ => forall₂_congr fun a b => ?_
  exact ⟨fun h ha hb => h (Nat.zero_le a) ha (Nat.zero_le b) hb, fun h _ ha _ hb => h ha hb⟩

/-- A settled object whose mapping has not outgrown its lookup fits once the table of a file
within one region has its log size. -/
theorem Settled.scanFits {home : Prop} (h : m.Settled home) (hSkip : m.radixlog.SkipSized)
    (hLen : m.mapLen ≤ m.radixlog.skipType.span) : m.ScanFits := by
  have hUnlocked := h.tidy.unlocked
  have hShape := h.tidy.sound.wellFormed.shape
  rw [ScanFits, if_neg (by rw [hUnlocked]; decide)]
  constructor
  · obtain ⟨m', hOk, _⟩ := checkpointMmio_spec h.tidy h.homeForRedo hSkip
    exact (checkpointFrom_isOk hUnlocked (Nat.zero_mod _)).mp ⟨m', hOk⟩
  · intro slot e _ _ _ a b ha hb hFind hFind'
    exact hShape.region_eq_of_find_eq (by omega) (by omega) hFind hFind'

theorem SafeRun.scanFits {home : Prop} {m₀ : Mmio} {requests : List Request} (hOpen : m₀.Opened)
    (hWatched : m₀.policy = .redo → home) (hRun : SafeRun home m₀ requests m)
    (hSkip : m.radixlog.SkipSized) (hLen : m.mapLen ≤ m.radixlog.skipType.span) : m.ScanFits :=
  (hRun.settled (hOpen.settled hWatched)).scanFits hSkip hLen

/-- `checkpoint_mmio` is total and complete exactly when the scan fits. -/
theorem scanComplete_iff (m : Mmio) : m.ScanComplete ↔ m.ScanFits := by
  rw [ScanFits]
  split
  · rename_i hLocked
    have hOk : ∃ m', checkpointFrom m.epoch m.mapLen m 0 = .ok m' := ⟨m, checkpointFrom_locked _ _ _ hLocked⟩
    have hRegular := scanFrom_regular hOk
    constructor
    · intro h slot hIn
      apply Option.not_isSome_iff_eq_none.mp
      intro hSome
      have hOnce := h.once slot hIn hSome
      rw [checkpointScan, count_scanFrom_locked hLocked] at hOnce
      cases hOnce
    · intro hNone
      refine ⟨fun _ hMem => hRegular _ hMem, fun _ _ hMem => hRegular _ hMem,
        fun _ _ hMem => hRegular _ hMem, ?_, fun slot hIn hSome => ?_⟩
      · rw [checkpointScan, scanFrom_outcome]
        exact hOk
      · rw [hNone slot hIn] at hSome
        cases hSome
  · rename_i hLocked
    have hUnlocked := Bool.eq_false_iff.mpr hLocked
    rw [← checkpointScan_isOk hUnlocked]
    constructor
    · intro h
      refine ⟨h.ends, fun slot e hIn hEntry => ?_⟩
      exact (examined_once_iff hUnlocked h.ends hIn hEntry).mp (h.once slot hIn (by rw [hEntry]; rfl))
    · rintro ⟨hEnds, hRegions⟩
      have hOk := hEnds
      rw [checkpointScan, scanFrom_outcome] at hOk
      have hRegular := scanFrom_regular hOk
      refine ⟨fun _ hMem => hRegular _ hMem, fun _ _ hMem => hRegular _ hMem,
        fun _ _ hMem => hRegular _ hMem, hEnds, fun slot hIn hSome => ?_⟩
      obtain ⟨e, hEntry⟩ := Option.isSome_iff_exists.mp hSome
      exact (examined_once_iff hUnlocked hEnds hIn hEntry).mpr (hRegions slot e hIn hEntry)

/-- A file of one byte that has just been opened has its table without a log size. -/
theorem scanComplete_fails_opened : oneByteFile.Opened ∧
    oneByteFile.checkpointScan = ([.shift (2 ^ 32 - 1)], .error .badShift) ∧
      ¬ oneByteFile.ScanComplete := by
  have hFind : oneByteFile.radixlog.findLogTable 0 = some 3 := by decide
  have hScan : oneByteFile.checkpointScan = ([.shift (2 ^ 32 - 1)], .error .badShift) :=
    scanFrom_unsized (by decide) rfl hFind rfl
  refine ⟨oneByteFile_opened, hScan, fun h => ?_⟩
  obtain ⟨m', hEnds⟩ := h.ends
  rw [hScan] at hEnds
  cases hEnds

end Complete

end Mmio

end Libnvmmio

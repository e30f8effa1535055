import Libnvmmio.File.FreeLists

/-! # The exchange of a call, object by object

`exchange` compares the tables before and after a call. `LOCK_ENTRIES` takes
the same objects one by one: a table for each level that is missing, and an
entry with its buffer for a slot that is empty. `checkpoint_mmio` gives back an
entry for each slot that it clears, and so finds enough objects always.
-/

namespace Libnvmmio.FreeLists

open Mmio RadixLog Outcome

set_option autoImplicit false

def popTables (free : FreeLists) (n : Nat) : Except Failure FreeLists :=
  if n ≤ free.table then .ok { free with table := free.table - n } else .error .exit

/-- `alloc_idx_entry` for a log size: an entry, and a buffer for it. -/
def popEntry (free : FreeLists) (s : LogSize) : Except Failure FreeLists :=
  if 0 < free.idx ∧ 0 < free.log s then
    .ok { free with
      idx := free.idx - 1
      log := Function.update free.log s (free.log s - 1) }
  else .error .exit

def payEntry (free : FreeLists) (r : RadixLog) (slot : Slot) (s : LogSize) : Except Failure FreeLists :=
  if (r.entryAt slot).isSome then .ok free else free.popEntry s

def pushEntry (free : FreeLists) (s : LogSize) : FreeLists :=
  { free with
    idx := free.idx + 1
    log := Function.update free.log s (free.log s + 1) }

/-- `LOCK_ENTRIES` with the free lists that it takes its objects from. -/
def lockEntries (type : LockType) (m : Mmio) (free : FreeLists) (n : Int) (off : Nat)
    (head : List Slot) : Except Failure (Mmio × FreeLists × List Slot) :=
  if 0 < n then
    let (slot, s, radixlog) := m.radixlog.locate off n.toNat
    do
      let free ← free.popTables (radixlog.nextTable - m.radixlog.nextTable)
      if slot ∈ head then .error type.again
      else
        let free ← free.payEntry radixlog slot s
        let logLen := s.size - off % s.size
        lockEntries type (takeEntry { m with radixlog := radixlog } slot s) free (n - logLen)
          (off + logLen) (slot :: head)
  else .ok (m, free, head)
termination_by n.toNat
decreasing_by
  have hLen := Nat.mod_lt off (LogSize.size_pos s)
  omega

section Exchange

variable {free free' : FreeLists} {r r' : RadixLog}

/-- A table with an entry keeps its log size. -/
theorem ofSize_congr (hSound : r.Sound) (hExt : Extended r r') (s : LogSize) {slots : Finset (Nat × Nat)}
    (hSub : slots ⊆ r.slots) : r'.ofSize s slots = r.ofSize s slots := by
  apply Finset.filter_congr
  intro x hx
  obtain ⟨⟨hTable, _⟩, hSome⟩ := mem_slots.mp (hSub hx)
  obtain ⟨e, hEntry⟩ := Option.isSome_iff_exists.mp hSome
  have hOld : (r.tables x.1).logSize = some e.logSize := hSound.sizes _ _ hEntry
  have hNew := hExt.size_kept _ _ hTable hOld
  rw [hOld, hNew]

theorem card_ofSize_exchange (hSound : r.Sound) (hExt : Extended r r') (s : LogSize) :
    (r'.ofSize s (r'.slots \ r.slots)).card + (r.ofSize s r.slots).card =
      (r.ofSize s (r.slots \ r'.slots)).card + (r'.ofSize s r'.slots).card := by
  rw [← ofSize_congr hSound hExt s (Finset.Subset.refl _), ← ofSize_congr hSound hExt s Finset.sdiff_subset]
  unfold ofSize
  rw [← Finset.card_union_of_disjoint, ← Finset.card_union_of_disjoint, ← Finset.filter_union,
    ← Finset.filter_union, Finset.sdiff_union_self_eq_union, Finset.sdiff_union_self_eq_union,
    Finset.union_comm]
  · exact Finset.disjoint_filter_filter Finset.sdiff_disjoint
  · exact Finset.disjoint_filter_filter Finset.sdiff_disjoint

/-- What is in the lists and what the tables hold add up to the same before and
after a call that finds enough. -/
theorem exchange_eq_ok_iff (hSound : r.Sound) (hExt : Extended r r') : free.exchange r r' = .ok free' ↔
    free'.mmio = free.mmio ∧ free'.table + r'.nextTable = free.table + r.nextTable ∧
      free'.idx + r'.slots.card = free.idx + r.slots.card ∧
        ∀ s, free'.log s + (r'.ofSize s r'.slots).card = free.log s + (r.ofSize s r.slots).card := by
  have hNext := hExt.next_le
  have hIdx : (r'.slots \ r.slots).card + r.slots.card = (r.slots \ r'.slots).card + r'.slots.card := by
    rw [Finset.card_sdiff_add_card, Finset.card_sdiff_add_card, Finset.union_comm]
  have hLog := card_ofSize_exchange hSound hExt
  unfold exchange
  dsimp only
  constructor
  · intro h
    split at h
    · rename_i hEnough
      cases h
      refine ⟨rfl, ?_, ?_, fun s => ?_⟩
      · dsimp only
        omega
      · dsimp only
        omega
      · have hHave := hEnough.2.2 s
        have hSum := hLog s
        dsimp only
        omega
    · cases h
  · rintro ⟨hMmio, hTable, hEntries, hBuffers⟩
    rw [if_pos]
    · refine congrArg Except.ok (FreeLists.ext hMmio.symm ?_ ?_ ?_)
      · dsimp only
        omega
      · dsimp only
        omega
      · funext s
        have hSum := hLog s
        have hHave := hBuffers s
        dsimp only
        omega
    · refine ⟨by omega, by omega, fun s => ?_⟩
      have hSum := hLog s
      have hHave := hBuffers s
      omega

/-- What a call takes and gives one after the other comes to its exchange. -/
theorem exchange_trans {free₁ : FreeLists} {r₁ : RadixLog} (hSound : r.Sound) (hExt : Extended r r₁)
    (hSound₁ : r₁.Sound) (hExt₁ : Extended r₁ r') (h : free.exchange r r₁ = .ok free₁)
    (h₁ : free₁.exchange r₁ r' = .ok free') : free.exchange r r' = .ok free' := by
  obtain ⟨hMmio, hTable, hIdx, hLog⟩ := (exchange_eq_ok_iff hSound hExt).mp h
  obtain ⟨hMmio₁, hTable₁, hIdx₁, hLog₁⟩ := (exchange_eq_ok_iff hSound₁ hExt₁).mp h₁
  refine (exchange_eq_ok_iff hSound (hExt.trans hExt₁)).mpr
    ⟨hMmio₁.trans hMmio, by omega, by omega, fun s => ?_⟩
  have hFirst := hLog s
  have hSecond := hLog₁ s
  omega

/-- Two parts that only take find enough one after the other just when the whole does. -/
theorem exchange_then_iff {r₁ : RadixLog} (hSound : r.Sound) (hExt : Extended r r₁) (hSound₁ : r₁.Sound)
    (hExt₁ : Extended r₁ r') (hSub : r.slots ⊆ r₁.slots) (hSub₁ : r₁.slots ⊆ r'.slots) :
    (∃ free₁, free.exchange r r₁ = .ok free₁ ∧ free₁.exchange r₁ r' = .ok free') ↔
      free.exchange r r' = .ok free' := by
  constructor
  · rintro ⟨free₁, h, h₁⟩
    exact exchange_trans hSound hExt hSound₁ hExt₁ h h₁
  · intro h
    obtain ⟨hMmio, hTable, hIdx, hLog⟩ := (exchange_eq_ok_iff hSound (hExt.trans hExt₁)).mp h
    have hNext := hExt.next_le
    have hNext₁ := hExt₁.next_le
    have hCard := Finset.card_le_card hSub
    have hCard₁ := Finset.card_le_card hSub₁
    have hSize (s : LogSize) : (r.ofSize s r.slots).card ≤ (r₁.ofSize s r₁.slots).card := by
      rw [← ofSize_congr hSound hExt s (Finset.Subset.refl _)]
      exact Finset.card_le_card (Finset.filter_subset_filter _ hSub)
    have hSize₁ (s : LogSize) : (r₁.ofSize s r₁.slots).card ≤ (r'.ofSize s r'.slots).card := by
      rw [← ofSize_congr hSound₁ hExt₁ s (Finset.Subset.refl _)]
      exact Finset.card_le_card (Finset.filter_subset_filter _ hSub₁)
    let free₁ : FreeLists := ⟨free.mmio, free.table + r.nextTable - r₁.nextTable,
      free.idx + r.slots.card - r₁.slots.card,
      fun s => free.log s + (r.ofSize s r.slots).card - (r₁.ofSize s r₁.slots).card⟩
    refine ⟨free₁, (exchange_eq_ok_iff hSound hExt).mpr ⟨rfl, ?_, ?_, fun s => ?_⟩,
      (exchange_eq_ok_iff hSound₁ hExt₁).mpr ⟨hMmio, ?_, ?_, fun s => ?_⟩⟩
    · dsimp only [free₁]
      omega
    · dsimp only [free₁]
      omega
    · have hHave := hLog s
      have hHere := hSize s
      have hThere := hSize₁ s
      dsimp only [free₁]
      omega
    · dsimp only [free₁]
      omega
    · dsimp only [free₁]
      omega
    · have hHave := hLog s
      have hHere := hSize s
      have hThere := hSize₁ s
      dsimp only [free₁]
      omega

variable {slot : Slot} {e : IdxEntry} {s : LogSize}

theorem slots_setEntry_of_ne (entry : Option IdxEntry) {x : Nat × Nat} (hne : x ≠ (slot.table, slot.index)) :
    x ∈ (r.setEntry slot entry).slots ↔ x ∈ r.slots := by
  have hSlot : (⟨x.1, x.2⟩ : Slot) ≠ slot := by
    rintro rfl
    exact hne rfl
  rw [mem_slots, mem_slots, entryAt_setEntry_of_ne r hSlot]
  exact Iff.rfl

theorem slots_setEntry_some (hTable : slot.table < r.nextTable) (hIndex : slot.index < ptrsPerTable) :
    (r.setEntry slot (some e)).slots = insert (slot.table, slot.index) r.slots := by
  ext x
  rw [Finset.mem_insert]
  by_cases hx : x = (slot.table, slot.index)
  · rw [hx, mem_slots, entryAt_setEntry_self]
    exact iff_of_true ⟨⟨hTable, hIndex⟩, rfl⟩ (.inl rfl)
  · rw [slots_setEntry_of_ne _ hx, or_iff_right hx]

theorem slots_setEntry_none : (r.setEntry slot none).slots = r.slots.erase (slot.table, slot.index) := by
  ext x
  rw [Finset.mem_erase]
  by_cases hx : x = (slot.table, slot.index)
  · rw [hx, mem_slots, entryAt_setEntry_self]
    exact iff_of_false (fun h => Bool.false_ne_true h.2) (fun h => h.1 rfl)
  · rw [slots_setEntry_of_ne _ hx, and_iff_right hx]

theorem card_ofSize_single (hSize : (r.tables slot.table).logSize = some s) (s' : LogSize) :
    (r.ofSize s' {(slot.table, slot.index)}).card = if s' = s then 1 else 0 := by
  unfold ofSize
  rw [Finset.filter_singleton, hSize]
  by_cases hs : s' = s
  · rw [if_pos hs, if_pos (by rw [hs]), Finset.card_singleton]
  · rw [if_neg hs, if_neg (fun hEq => hs (Option.some.inj hEq).symm), Finset.card_empty]

theorem exchange_fill (hTable : slot.table < r.nextTable) (hIndex : slot.index < ptrsPerTable)
    (hSize : (r.tables slot.table).logSize = some s) (hEmpty : r.entryAt slot = none) :
    free.exchange r (r.setEntry slot (some e)) = free.popEntry s := by
  have hOut : (slot.table, slot.index) ∉ r.slots := by
    rw [mem_slots, hEmpty]
    nofun
  have hNew : ((r.setEntry slot (some e)).tables slot.table).logSize = some s := by
    rw [logSize_setEntry, hSize]
  have hFilled : (r.setEntry slot (some e)).slots \ r.slots = {(slot.table, slot.index)} := by
    rw [slots_setEntry_some hTable hIndex, Finset.insert_sdiff_cancel hOut]
  have hCleared : r.slots \ (r.setEntry slot (some e)).slots = ∅ := by
    rw [slots_setEntry_some hTable hIndex, Finset.sdiff_eq_empty_iff_subset]
    exact Finset.subset_insert _ _
  have hTables : (r.setEntry slot (some e)).nextTable = r.nextTable := rfl
  unfold exchange popEntry
  simp only [hFilled, hCleared, card_ofSize_single hNew, ofSize_empty, hTables, Finset.card_singleton,
    Finset.card_empty, Nat.sub_self, Nat.sub_zero, Nat.add_zero, Nat.zero_le, true_and]
  refine if_congr (and_congr Iff.rfl ⟨fun h => ?_, fun h s' => ?_⟩) (congrArg Except.ok ?_) rfl
  · have hMine := h s
    rw [if_pos rfl] at hMine
    exact hMine
  · split
    · rename_i hs
      rw [hs]
      exact h
    · exact Nat.zero_le _
  · refine FreeLists.ext rfl rfl rfl (funext fun s' => ?_)
    dsimp only
    rw [Function.update_apply]
    split
    · rename_i hs
      rw [hs]
    · rfl

theorem exchange_clear (hTable : slot.table < r.nextTable) (hIndex : slot.index < ptrsPerTable)
    (hSize : (r.tables slot.table).logSize = some s) (hEntry : r.entryAt slot = some e) :
    free.exchange r (r.setEntry slot none) = .ok (free.pushEntry s) := by
  have hIn : (slot.table, slot.index) ∈ r.slots := by
    rw [mem_slots, hEntry]
    exact ⟨⟨hTable, hIndex⟩, rfl⟩
  have hFilled : (r.setEntry slot none).slots \ r.slots = ∅ := by
    rw [slots_setEntry_none, Finset.sdiff_eq_empty_iff_subset]
    exact Finset.erase_subset _ _
  have hCleared : r.slots \ (r.setEntry slot none).slots = {(slot.table, slot.index)} := by
    rw [slots_setEntry_none, Finset.sdiff_erase_self hIn]
  have hTables : (r.setEntry slot none).nextTable = r.nextTable := rfl
  unfold exchange pushEntry
  simp only [hFilled, hCleared, card_ofSize_single hSize, ofSize_empty, hTables, Finset.card_singleton,
    Finset.card_empty, Nat.sub_self, Nat.sub_zero, Nat.zero_le, true_and, implies_true, if_true]
  refine congrArg Except.ok (FreeLists.ext rfl rfl rfl (funext fun s' => ?_))
  dsimp only
  rw [Function.update_apply]
  split
  · rename_i hs
    rw [hs]
  · rfl

theorem exchange_takeEntry {m : Mmio} (hTable : slot.table < m.radixlog.nextTable)
    (hIndex : slot.index < ptrsPerTable) (hSize : (m.radixlog.tables slot.table).logSize = some s) :
    free.exchange m.radixlog (m.takeEntry slot s).radixlog = free.payEntry m.radixlog slot s := by
  unfold takeEntry getLogEntry payEntry
  cases hEntry : m.radixlog.entryAt slot with
  | none =>
    dsimp only
    rw [setEntry_setEntry, exchange_fill hTable hIndex hSize hEntry]
    rfl
  | some e =>
    have hIn : (slot.table, slot.index) ∈ m.radixlog.slots := by
      rw [mem_slots, hEntry]
      exact ⟨⟨hTable, hIndex⟩, rfl⟩
    refine exchange_of_slots_eq ?_ rfl
    rw [slots_setEntry_some hTable hIndex, Finset.insert_eq_of_mem hIn]

theorem exchange_checkpointSlot {m m' : Mmio} {epoch : Nat} (hTable : slot.table < m.radixlog.nextTable)
    (hIndex : slot.index < ptrsPerTable) (hSize : (m.radixlog.tables slot.table).logSize = some s)
    (hOk : checkpointSlot epoch m slot = .ok m') : free.exchange m.radixlog m'.radixlog =
      .ok (if (m.radixlog.entryAt slot).any (·.epoch < epoch) then free.pushEntry s else free) := by
  rcases checkpointSlot_cases hOk with ⟨rfl, hFresh⟩ | ⟨e, bytes, hEntry, hStale, _, rfl⟩
  · rw [exchange_of_slots_eq rfl rfl, if_neg]
    intro hAny
    cases hEntry : m'.radixlog.entryAt slot with
    | none =>
      rw [hEntry] at hAny
      cases hAny
    | some e =>
      rw [hEntry] at hAny
      exact hFresh e hEntry (of_decide_eq_true hAny)
  · have hAny : (m.radixlog.entryAt slot).any (·.epoch < epoch) = true := by
      rw [hEntry]
      exact decide_eq_true hStale
    rw [if_pos hAny]
    exact exchange_clear hTable hIndex hSize hEntry

/-! ## `LOCK_ENTRIES` -/

theorem nrEntries_le_ptrsPerTable (s : LogSize) : s.nrEntries ≤ ptrsPerTable := by
  revert s
  decide

theorem Acquires.slots_subset {epoch : Nat} (h : Acquires epoch r r') : r.slots ⊆ r'.slots := by
  intro x hx
  obtain ⟨⟨hTable, hIndex⟩, hSome⟩ := mem_slots.mp hx
  refine mem_slots.mpr ⟨⟨Nat.lt_of_lt_of_le hTable h.extended.next_le, hIndex⟩, ?_⟩
  rcases h.entries ⟨x.1, x.2⟩ with hSame | ⟨hNone, _⟩
  · rw [hSame]
    exact hSome
  · rw [hNone] at hSome
    cases hSome

theorem slots_locate {off : Nat} (hSound : r.Sound) (hLoc : Located r off slot s r') : r'.slots = r.slots := by
  have hEntries := (hSound.locate hLoc).2.1
  ext x
  rw [mem_slots, mem_slots, hEntries]
  refine and_congr_left fun hSome => and_congr_left fun _ => ?_
  obtain ⟨e, hEntry⟩ := Option.isSome_iff_exists.mp hSome
  have hTable := hSound.allocated _ _ hEntry
  exact iff_of_true (Nat.lt_of_lt_of_le hTable hLoc.grows.next_le) hTable

theorem exchange_locate {off : Nat} (hSound : r.Sound) (hLoc : Located r off slot s r') :
    free.exchange r r' = free.popTables (r'.nextTable - r.nextTable) := by
  have hNone : r.slots \ r.slots = ∅ := Finset.sdiff_self _
  unfold exchange popTables
  simp only [slots_locate hSound hLoc, hNone, ofSize_empty, Finset.card_empty, Nat.zero_le, implies_true,
    and_true, Nat.add_zero, Nat.sub_zero]

/-- One iteration takes the tables that the lookup adds, and an entry if the slot is empty. -/
theorem exchange_lockStep {m : Mmio} {off : Nat} (hSound : m.radixlog.Sound)
    (hLoc : Located m.radixlog off slot s r) :
    free.exchange m.radixlog (takeEntry { m with radixlog := r } slot s).radixlog = .ok free' ↔
      ∃ free₁, free.popTables (r.nextTable - m.radixlog.nextTable) = .ok free₁ ∧
        free₁.payEntry r slot s = .ok free' := by
  obtain ⟨hSound₁, _, _⟩ := hSound.locate hLoc
  obtain ⟨r', k, hTake, hAcq, _⟩ := takeEntry_spec { m with radixlog := r } hSound₁ hLoc.lt hLoc.size
  have hIndex : slot.index < ptrsPerTable := by
    rw [hLoc.index]
    exact Nat.lt_of_lt_of_le (tableIndex_lt s off) (nrEntries_le_ptrsPerTable s)
  have hTaken (free₁ : FreeLists) : free₁.exchange r (takeEntry { m with radixlog := r } slot s).radixlog =
      free₁.payEntry r slot s :=
    exchange_takeEntry (m := { m with radixlog := r }) hLoc.lt hIndex hLoc.size
  rw [hTake] at hTaken ⊢
  rw [← exchange_then_iff hSound hLoc.grows.toExtended hSound₁ hAcq.extended
    (slots_locate hSound hLoc).ge (Acquires.slots_subset hAcq)]
  refine exists_congr fun free₁ => ?_
  rw [exchange_locate hSound hLoc, hTaken]

/-- The loop of `LOCK_ENTRIES` finds the objects it takes just when the exchange
of the whole loop does, and leaves the same lists. -/
theorem lockEntries_iff {type : LockType} {m m' : Mmio} {n : Int} {off : Nat} {head head' : List Slot}
    (hSound : m.radixlog.Sound) :
    lockEntries type m free n off head = .ok (m', free', head') ↔
      Mmio.lockEntries type m n off head = .ok (m', head') ∧
        free.exchange m.radixlog m'.radixlog = .ok free' := by
  induction hn : n.toNat using Nat.strongRecOn generalizing m free n off head with
  | ind k ih =>
    rw [lockEntries, Mmio.lockEntries]
    split
    · rename_i hPos
      have hLoc := locate_spec hSound.wellFormed off n.toNat
      have hStep := lockStep hSound off n.toNat
      generalize m.radixlog.locate off n.toNat = found at *
      obtain ⟨slot, s, r⟩ := found
      dsimp only at hLoc hStep ⊢
      by_cases hHeld : slot ∈ head
      · refine iff_of_false (fun h => ?_) (fun h => ?_)
        · obtain ⟨free₁, _, hAgain⟩ := bind_eq_ok h
          rw [if_pos hHeld] at hAgain
          cases hAgain
        · rw [if_pos hHeld] at h
          cases h.1
      · rw [if_neg hHeld]
        have hLen := Nat.mod_lt off s.size_pos
        constructor
        · intro h
          obtain ⟨free₁, hTables, h⟩ := bind_eq_ok h
          rw [if_neg hHeld] at h
          obtain ⟨free₂, hEntry, h⟩ := bind_eq_ok h
          obtain ⟨hRun, hRest⟩ := (ih _ (by omega) hStep.acquires.sound rfl).mp h
          have hAcq := (lockEntries_run hStep.acquires.sound hRun).acquires
          have hHere := (exchange_lockStep hSound hLoc).mpr ⟨free₁, hTables, hEntry⟩
          exact ⟨hRun, exchange_trans hSound hStep.acquires.extended hStep.acquires.sound hAcq.extended
            hHere hRest⟩
        · rintro ⟨hRun, hWhole⟩
          have hAcq := (lockEntries_run hStep.acquires.sound hRun).acquires
          obtain ⟨free₂, hHere, hRest⟩ := (exchange_then_iff hSound hStep.acquires.extended
            hStep.acquires.sound hAcq.extended (Acquires.slots_subset hStep.acquires)
            (Acquires.slots_subset hAcq)).mpr hWhole
          obtain ⟨free₁, hTables, hEntry⟩ := (exchange_lockStep hSound hLoc).mp hHere
          rw [hTables, ok_bind, if_neg hHeld, hEntry, ok_bind]
          exact (ih _ (by omega) hStep.acquires.sound rfl).mpr ⟨hRun, hRest⟩
    · constructor
      · intro h
        cases h
        exact ⟨rfl, exchange_of_slots_eq rfl rfl⟩
      · rintro ⟨h, hSame⟩
        cases h
        rw [exchange_of_slots_eq rfl rfl] at hSame
        cases hSame
        rfl

theorem exists_lockEntries_iff {type : LockType} {m m' : Mmio} {n : Int} {off : Nat} {head : List Slot}
    (hSound : m.radixlog.Sound) (hLock : Mmio.lockEntries type m n off [] = .ok (m', head)) :
    (∃ m₁ head₁, lockEntries type m free n off [] = .ok (m₁, free', head₁)) ↔
      free.exchange m.radixlog m'.radixlog = .ok free' := by
  constructor
  · rintro ⟨m₁, head₁, hPaid⟩
    obtain ⟨hSame, hExchange⟩ := (lockEntries_iff hSound).mp hPaid
    rw [hLock] at hSame
    cases hSame
    exact hExchange
  · exact fun hExchange => ⟨m', head, (lockEntries_iff hSound).mpr ⟨hLock, hExchange⟩⟩

theorem exchange_mmioRead {m m' : Mmio} {offset len n : Nat} {buf buf' : Nat → UInt8}
    (hSound : m.radixlog.Sound) (hRead : m.mmioRead offset buf len = .ok (m', n, buf')) :
    free.exchange m.radixlog m'.radixlog = .ok free' ↔
      ∃ m₁ head, lockEntries .rd m free (toInt len) offset [] = .ok (m₁, free', head) := by
  obtain ⟨m₁, head, hLock, rfl⟩ := mmioRead_phases hRead
  exact (exists_lockEntries_iff hSound hLock).symm

theorem slots_setEntry_of_installed {e' : IdxEntry} (hEntry : r.entryAt slot = some e) :
    (r.setEntry slot (some e')).slots = r.slots := by
  ext x
  by_cases hx : x = (slot.table, slot.index)
  · rw [hx, mem_slots, mem_slots, entryAt_setEntry_self, hEntry]
    exact Iff.rfl
  · exact slots_setEntry_of_ne _ hx

theorem slots_writeEntries {m m' : Mmio} {buf : Nat → UInt8} {slots : List Slot} {c c' : Cursor}
    (h : m.writeEntries buf slots c = .ok (m', c')) :
    m'.radixlog.slots = m.radixlog.slots ∧ m'.radixlog.nextTable = m.radixlog.nextTable := by
  induction slots generalizing m c with
  | nil =>
    cases h
    exact ⟨rfl, rfl⟩
  | cons slot slots ih =>
    obtain ⟨⟨m₁, c₁⟩, hHead, hTail⟩ := bind_eq_ok h
    obtain ⟨e, e', bytes, hEntry, _, rfl⟩ := writeEntry_eq_ok hHead
    obtain ⟨hSlots, hTables⟩ := ih hTail
    exact ⟨hSlots.trans (slots_setEntry_of_installed hEntry), hTables⟩

theorem exchange_mmioWrite {m m' : Mmio} {fdWritable : Bool} {remap : Nat → Nat} {offset len n : Nat}
    {buf : Nat → UInt8} (hSound : m.radixlog.Sound)
    (hWrite : mmioWrite fdWritable remap m offset buf len = .ok (m', n)) :
    free.exchange m.radixlog m'.radixlog = .ok free' ↔
      ∃ m₁ head, lockEntries .wr (m.grown remap (offset + len)) free (toInt len) offset [] =
        .ok (m₁, free', head) := by
  obtain ⟨m₀, m₁, head, m₂, c, hGrow, hLock, hStore, hFinish, rfl⟩ := mmioWrite_phases hWrite
  obtain ⟨bytes, rfl⟩ := finishWrite_eq_ok hFinish
  obtain rfl := ensureMapped_eq_ok hGrow
  have hAcq := (lockEntries_run (m := m.grown remap (offset + len)) hSound hLock).acquires
  have hEntries := writeEntries_written hAcq.sound hStore
  obtain ⟨hSlots, hTables⟩ := slots_writeEntries hStore
  rw [exists_lockEntries_iff (m := m.grown remap (offset + len)) hSound hLock]
  refine Iff.trans (exchange_then_iff hSound hAcq.extended hAcq.sound hEntries.extended
    (Acquires.slots_subset hAcq) hSlots.ge).symm ⟨?_, fun h => ⟨free', h, exchange_of_slots_eq hSlots hTables⟩⟩
  rintro ⟨free₁, hTaken, hSame⟩
  rw [exchange_of_slots_eq hSlots hTables] at hSame
  cases hSame
  exact hTaken

/-! ## `checkpoint_mmio` -/

theorem Checkpointed.slots_subset {epoch : Nat} {m m' : Mmio} (h : Checkpointed epoch m m') :
    m'.radixlog.slots ⊆ m.radixlog.slots := by
  intro x hx
  obtain ⟨hAllocated, hSome⟩ := mem_slots.mp hx
  obtain ⟨e, hEntry⟩ := Option.isSome_iff_exists.mp hSome
  rw [h.same.next] at hAllocated
  exact mem_slots.mpr ⟨hAllocated, Option.isSome_iff_exists.mpr ⟨e, h.entry_before hEntry⟩⟩

theorem exchange_checkpointMmio {m m' : Mmio} (hOk : m.checkpointMmio = .ok m') :
    free.exchange m.radixlog m'.radixlog = .ok { free with
      idx := free.idx + (m.radixlog.slots \ m'.radixlog.slots).card
      log := fun s => free.log s + (m.radixlog.ofSize s (m.radixlog.slots \ m'.radixlog.slots)).card } := by
  have hDone := checkpointFrom_checkpointed hOk
  have hFilled : m'.radixlog.slots \ m.radixlog.slots = ∅ := by
    rw [Finset.sdiff_eq_empty_iff_subset]
    exact Checkpointed.slots_subset hDone
  unfold exchange
  simp only [hFilled, hDone.same.next, ofSize_empty, Finset.card_empty, Nat.sub_self, Nat.sub_zero, Nat.zero_le,
    implies_true, and_self, if_true]

end Exchange

end Libnvmmio.FreeLists

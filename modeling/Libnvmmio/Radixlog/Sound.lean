import Libnvmmio.Radixlog.Locate

/-! # Entries of log blocks

The invariant of a radix root with its entries, and the entry of the block
that contains an offset. Lookups leave every entry where it is; storing an
entry in the slot of one block changes the entry of that block only, as far as
the span of `skip` reaches.
-/

namespace Libnvmmio.RadixLog

set_option autoImplicit false

/-- Entries lie in handed out tables and carry the log size of their table. -/
structure Sound (r : RadixLog) : Prop where
  wellFormed : r.WellFormed
  allocated : r.EntriesAllocated
  sizes : ∀ slot e, r.entryAt slot = some e → (r.tables slot.table).logSize = some e.logSize

def entryOf (r : RadixLog) (offset : Nat) : Option IdxEntry :=
  match r.findLogTable offset with
  | none => none
  | some table =>
    match (r.tables table).logSize with
    | none => none
    | some s => r.entryAt ⟨table, tableIndex s offset⟩

theorem entryOf_eq_some {r : RadixLog} {offset : Nat} {e : IdxEntry} (h : r.entryOf offset = some e) :
    ∃ table s, r.findLogTable offset = some table ∧ (r.tables table).logSize = some s ∧
      r.entryAt ⟨table, tableIndex s offset⟩ = some e := by
  unfold entryOf at h
  cases hFind : r.findLogTable offset with
  | none => simp [hFind] at h
  | some table =>
    cases hSize : (r.tables table).logSize with
    | none => simp [hFind, hSize] at h
    | some s => exact ⟨table, s, rfl, hSize, by simpa [hFind, hSize] using h⟩

theorem entryOf_of_find {r : RadixLog} {offset table : Nat} {s : LogSize}
    (hFind : r.findLogTable offset = some table) (hSize : (r.tables table).logSize = some s) :
    r.entryOf offset = r.entryAt ⟨table, tableIndex s offset⟩ := by
  simp only [entryOf, hFind, hSize]

theorem Located.entryOf {r r' : RadixLog} {offset : Nat} {slot : Slot} {s : LogSize}
    (h : Located r offset slot s r') : r'.entryOf offset = r'.entryAt slot := by
  rw [entryOf_of_find h.find h.size, ← h.index]

theorem Located.lt {r r' : RadixLog} {offset : Nat} {slot : Slot} {s : LogSize}
    (h : Located r offset slot s r') : slot.table < r'.nextTable :=
  h.wellFormed.shape.find_lt h.find

/-- If growing directories add only entries of one kind, then so do the blocks. -/
theorem Sound.entryOf_extended {r r' : RadixLog} (h : r.Sound) (hExt : Extended r r')
    (New : IdxEntry → Prop) (hEntries : ∀ slot, r'.entryAt slot = r.entryAt slot ∨
      r.entryAt slot = none ∧ ∃ e, r'.entryAt slot = some e ∧ New e) (offset : Nat) :
    r'.entryOf offset = r.entryOf offset ∨
      r.entryOf offset = none ∧ ∃ e, r'.entryOf offset = some e ∧ New e := by
  have hShape := h.wellFormed.shape
  cases hOld : r.entryOf offset with
  | some e =>
    obtain ⟨table, s, hFind, hSize, hEntry⟩ := entryOf_eq_some hOld
    have hLt := hShape.find_lt hFind
    have hKept : r'.entryAt ⟨table, tableIndex s offset⟩ = some e := by
      rcases hEntries ⟨table, tableIndex s offset⟩ with hSame | ⟨hNone, _⟩
      · rw [hSame, hEntry]
      · rw [hNone] at hEntry
        cases hEntry
    rw [entryOf_of_find (hExt.find hShape hFind) (hExt.size_kept _ _ hLt hSize), hKept]
    exact .inl rfl
  | none =>
    cases hNew : r'.entryOf offset with
    | none => exact .inl rfl
    | some e =>
      obtain ⟨table, s, hFind, hSize, hEntry⟩ := entryOf_eq_some hNew
      rcases hEntries ⟨table, tableIndex s offset⟩ with hSame | ⟨_, e', hAdded, hProp⟩
      · rw [hSame] at hEntry
        have hLt := h.allocated _ _ hEntry
        have hOldSize := h.sizes _ _ hEntry
        have hs := hExt.size_kept _ _ hLt hOldSize
        rw [hSize, Option.some.injEq] at hs
        rcases hExt.find_fresh hShape hFind with hFound | hFresh
        · rw [entryOf_of_find hFound hOldSize, ← hs, hEntry] at hOld
          cases hOld
        · exact absurd hLt (by dsimp only; omega)
      · rw [hAdded] at hEntry
        cases hEntry
        exact .inr ⟨rfl, e, rfl, hProp⟩

theorem Sound.locate {r : RadixLog} (h : r.Sound) {offset : Nat} {slot : Slot} {s : LogSize}
    {r' : RadixLog} (hLoc : Located r offset slot s r') :
    r'.Sound ∧ (∀ slot', r'.entryAt slot' = r.entryAt slot') ∧
      ∀ o, r'.entryOf o = r.entryOf o := by
  have hEntries := hLoc.grows.entryAt h.allocated
  refine ⟨⟨hLoc.wellFormed, hLoc.grows.entriesAllocated h.allocated, ?_⟩, hEntries, ?_⟩
  · intro slot' e hEntry
    rw [hEntries] at hEntry
    exact hLoc.grows.size_kept _ _ (h.allocated _ _ hEntry) (h.sizes _ _ hEntry)
  · intro o
    rcases h.entryOf_extended hLoc.grows.toExtended (fun _ => False)
      (fun slot => .inl (hEntries slot)) o with hSame | ⟨_, _, _, hFalse⟩
    · exact hSame
    · exact hFalse.elim

theorem extended_setEntry (r : RadixLog) (slot : Slot) (entry : Option IdxEntry) :
    Extended r (r.setEntry slot entry) where
  lgd := rfl
  skip := rfl
  next_le := Nat.le_refl _
  extends_links := by
    rw [(sameDirectory_setEntry r slot entry).links]
    exact IndexTrie.Extends.refl _ _
  type_kept t _ := congrFun (sameDirectory_setEntry r slot entry).typeOf t
  size_kept t s _ hs := by rwa [logSize_setEntry]

theorem setEntry_setEntry (r : RadixLog) (slot : Slot) (a b : Option IdxEntry) :
    (r.setEntry slot a).setEntry slot b = r.setEntry slot b := by
  unfold setEntry setTable
  congr 1
  funext t
  by_cases ht : t = slot.table
  · simp only [ht, if_true]
    congr 1
    funext i
    by_cases hi : i = slot.index
    · rw [if_pos hi, if_pos hi]
    · rw [if_neg hi, if_neg hi, if_neg hi]
  · simp only [if_neg ht]

theorem Sound.setEntry {r : RadixLog} (h : r.Sound) {slot : Slot} {entry : Option IdxEntry}
    (hSlot : slot.table < r.nextTable)
    (hSize : ∀ e, entry = some e → (r.tables slot.table).logSize = some e.logSize) :
    (r.setEntry slot entry).Sound where
  wellFormed := h.wellFormed.setEntry slot entry
  allocated slot' e hEntry := by
    rw [entryAt_setEntry] at hEntry
    split at hEntry
    · rename_i heq
      exact heq ▸ hSlot
    · exact h.allocated slot' e hEntry
  sizes slot' e hEntry := by
    rw [logSize_setEntry]
    rw [entryAt_setEntry] at hEntry
    split at hEntry
    · rename_i heq
      exact heq ▸ hSize e hEntry
    · exact h.sizes slot' e hEntry

theorem Sound.setEntry_none {r : RadixLog} (h : r.Sound) (slot : Slot) :
    (r.setEntry slot none).Sound where
  wellFormed := h.wellFormed.setEntry slot none
  allocated slot' e hEntry := by
    rw [entryAt_setEntry] at hEntry
    split at hEntry
    · cases hEntry
    · exact h.allocated slot' e hEntry
  sizes slot' e hEntry := by
    rw [logSize_setEntry]
    rw [entryAt_setEntry] at hEntry
    split at hEntry
    · cases hEntry
    · exact h.sizes slot' e hEntry

theorem entryOf_setEntry {r : RadixLog} {slot : Slot} {s : LogSize}
    (hSize : (r.tables slot.table).logSize = some s) (entry : Option IdxEntry) (offset : Nat) :
    (r.setEntry slot entry).entryOf offset =
      if r.findLogTable offset = some slot.table ∧ tableIndex s offset = slot.index then entry
      else r.entryOf offset := by
  cases hFind : r.findLogTable offset with
  | none => simp [entryOf, (sameDirectory_setEntry r slot entry).find, hFind]
  | some table =>
    cases hTableSize : (r.tables table).logSize with
    | none =>
      have hne : table ≠ slot.table := by
        rintro rfl
        rw [hSize] at hTableSize
        cases hTableSize
      simp [entryOf, (sameDirectory_setEntry r slot entry).find, hFind, logSize_setEntry,
        hTableSize, hne]
    | some s' =>
      have hFind' := ((sameDirectory_setEntry r slot entry).find offset).trans hFind
      have hSize' := (logSize_setEntry r slot entry table).trans hTableSize
      rw [entryOf_of_find hFind' hSize', entryOf_of_find hFind hTableSize, entryAt_setEntry]
      by_cases hTable : table = slot.table
      · subst hTable
        rw [hSize, Option.some.injEq] at hTableSize
        subst hTableSize
        cases slot
        simp
      · have hSlot : (⟨table, tableIndex s' offset⟩ : Slot) ≠ slot :=
          fun h => hTable (congrArg Slot.table h)
        simp [hSlot, hTable]

/-- Within the span, the slot of a block belongs to that block alone. -/
theorem WellFormed.same_slot_iff {r : RadixLog} (h : r.WellFormed) {a b table : Nat} (s : LogSize)
    (ha : a < r.skipType.span) (hb : b < r.skipType.span) (hFind : r.findLogTable b = some table) :
    (r.findLogTable a = some table ∧ tableIndex s a = tableIndex s b) ↔ a / s.size = b / s.size := by
  constructor
  · rintro ⟨hFindA, hIndex⟩
    have hRegion := h.shape.region_eq_of_find_eq ha hb hFindA hFind
    exact (tableIndex_eq_iff s hRegion).mp hIndex
  · intro hBlock
    have hRegion := region_eq_of_block_eq s hBlock
    exact ⟨(r.findLogTable_congr_region hRegion).trans hFind, (tableIndex_eq_iff s hRegion).mpr hBlock⟩

/-- Storing an entry in the slot of the block of `b` changes no other block. -/
theorem WellFormed.entryOf_setEntry {r : RadixLog} (h : r.WellFormed) {a b : Nat} {slot : Slot}
    {s : LogSize} (ha : a < r.skipType.span) (hb : b < r.skipType.span)
    (hFind : r.findLogTable b = some slot.table) (hSize : (r.tables slot.table).logSize = some s)
    (hIndex : slot.index = tableIndex s b) (entry : Option IdxEntry) :
    (r.setEntry slot entry).entryOf a = if a / s.size = b / s.size then entry else r.entryOf a := by
  rw [RadixLog.entryOf_setEntry hSize, hIndex]
  congr 1
  exact propext (h.same_slot_iff s ha hb hFind)

theorem Sound.entryOf_congr_block {r : RadixLog} (h : r.Sound) {a b : Nat} {e : IdxEntry}
    (hEntry : r.entryOf a = some e) (hBlock : a / e.logSize.size = b / e.logSize.size) :
    r.entryOf b = some e := by
  obtain ⟨table, s, hFind, hSize, hAt⟩ := entryOf_eq_some hEntry
  have hs := h.sizes _ _ hAt
  rw [hSize, Option.some.injEq] at hs
  subst hs
  have hRegion := region_eq_of_block_eq _ hBlock
  rw [entryOf_of_find ((r.findLogTable_congr_region hRegion).symm.trans hFind) hSize,
    ← (tableIndex_eq_iff _ hRegion).mpr hBlock, hAt]

theorem Sound.entryOf_size {r : RadixLog} (h : r.Sound) {offset table : Nat} {e : IdxEntry}
    {s : LogSize} (hEntry : r.entryOf offset = some e) (hFind : r.findLogTable offset = some table)
    (hSize : (r.tables table).logSize = some s) : e.logSize = s := by
  rw [entryOf_of_find hFind hSize] at hEntry
  have hs := h.sizes _ _ hEntry
  rw [hSize, Option.some.injEq] at hs
  exact hs.symm

/-- Every slot of a table that is found is the slot of a block within the span. -/
theorem exists_block_of_slot {r : RadixLog} {offset : Nat} (slot : Slot) {s : LogSize}
    (hFind : r.findLogTable offset = some slot.table) (hIndex : slot.index < s.nrEntries) :
    ∃ b, b < r.skipType.span ∧ r.findLogTable b = some slot.table ∧ slot.index = tableIndex s b := by
  have hRegionPos : 0 < 2 ^ lmdShift := Nat.pow_pos (by decide)
  have hInner : slot.index * s.size < 2 ^ lmdShift := by
    rw [← s.size_mul_nrEntries, Nat.mul_comm]
    exact Nat.mul_lt_mul_of_pos_left hIndex s.size_pos
  let region := offset / 2 ^ lmdShift % ptrsPerTable ^ r.skipType.depth
  have hRegion : region < ptrsPerTable ^ r.skipType.depth :=
    Nat.mod_lt _ (Nat.pow_pos (by decide))
  have hDiv : (region * 2 ^ lmdShift + slot.index * s.size) / 2 ^ lmdShift = region := by
    rw [Nat.add_comm, Nat.add_mul_div_right _ _ hRegionPos, Nat.div_eq_of_lt hInner, Nat.zero_add]
  refine ⟨region * 2 ^ lmdShift + slot.index * s.size, ?_, ?_, ?_⟩
  · rw [TableType.span]
    calc region * 2 ^ lmdShift + slot.index * s.size
        < region * 2 ^ lmdShift + 2 ^ lmdShift := Nat.add_lt_add_left hInner _
      _ = 2 ^ lmdShift * (region + 1) := by rw [Nat.mul_add, Nat.mul_comm, Nat.mul_one]
      _ ≤ 2 ^ lmdShift * ptrsPerTable ^ r.skipType.depth := Nat.mul_le_mul_left _ hRegion
  · rw [← hFind]
    apply findLogTable_congr_path
    rw [path_eq_iff, hDiv]
    exact Nat.mod_mod _ _
  · rw [tableIndex_eq, Nat.mul_comm region, Nat.mul_add_mod, Nat.mod_eq_of_lt hInner,
      Nat.mul_div_cancel _ s.size_pos]

end Libnvmmio.RadixLog

import Libnvmmio.Radixlog.Walk

/-! # Slots of log blocks

`get_log_size` and the updates of an entry slot leave the directories alone.
Together with the walk they locate the slot of a block: two offsets below a
length share a slot exactly when they share the block, as long as the length
does not exceed the span of `skip`.
-/

namespace Libnvmmio.RadixLog

open IndexTrie

set_option autoImplicit false

/-- Updates that leave the directories alone: those of a log size or of an entry slot. -/
structure SameDirectory (r r' : RadixLog) : Prop where
  links : r'.links = r.links
  typeOf : r'.typeOf = r.typeOf
  lgd : r'.lgd = r.lgd
  skip : r'.skip = r.skip
  next : r'.nextTable = r.nextTable
  prevTable : r'.prevTable = r.prevTable
  prevTableIndex : r'.prevTableIndex = r.prevTableIndex

theorem SameDirectory.find {r r' : RadixLog} (h : SameDirectory r r') (offset : Nat) :
    r'.findLogTable offset = r.findLogTable offset := by
  rw [findLogTable_eq_follow, findLogTable_eq_follow, h.links, h.skip, skipType, skipType, h.typeOf,
    h.skip]

theorem SameDirectory.skipType {r r' : RadixLog} (h : SameDirectory r r') :
    r'.skipType = r.skipType := by
  rw [RadixLog.skipType, RadixLog.skipType, h.typeOf, h.skip]

theorem SameDirectory.shape {r r' : RadixLog} (h : SameDirectory r r') (hShape : r.Shape) :
    r'.Shape where
  forest := by rw [h.links, h.next]; exact hShape.forest
  skip_lt := by rw [h.skip, h.next]; exact hShape.skip_lt
  typed := by rw [h.links, h.typeOf]; exact hShape.typed

theorem SameDirectory.cache {r r' : RadixLog} (h : SameDirectory r r')
    (hCache : ∀ o, checkPrevTable r.prevTableIndex o = true → r.findLogTable o = some r.prevTable) :
    ∀ o, checkPrevTable r'.prevTableIndex o = true → r'.findLogTable o = some r'.prevTable := by
  intro o ho
  rw [h.find, h.prevTable]
  rw [h.prevTableIndex] at ho
  exact hCache o ho

theorem sameDirectory_setTable (r : RadixLog) (t : Nat) (size : Option LogSize)
    (entries : Nat → Option IdxEntry) :
    SameDirectory r (r.setTable t ⟨size, (r.tables t).type, (r.tables t).children, entries⟩) where
  links := by
    funext n i
    unfold RadixLog.links
    by_cases hn : n = t
    · rw [hn, setTable_self]
    · rw [setTable_of_ne _ hn]
  typeOf := by
    funext n
    unfold RadixLog.typeOf
    by_cases hn : n = t
    · rw [hn, setTable_self]
    · rw [setTable_of_ne _ hn]
  lgd := rfl
  skip := rfl
  next := rfl
  prevTable := rfl
  prevTableIndex := rfl

theorem sameDirectory_setEntry (r : RadixLog) (slot : Slot) (entry : Option IdxEntry) :
    SameDirectory r (r.setEntry slot entry) :=
  sameDirectory_setTable r slot.table (r.tables slot.table).logSize _

theorem logSize_setEntry (r : RadixLog) (slot : Slot) (entry : Option IdxEntry) (t : Nat) :
    ((r.setEntry slot entry).tables t).logSize = (r.tables t).logSize := by
  rw [setEntry]
  by_cases ht : t = slot.table
  · rw [ht, setTable_self]
  · rw [setTable_of_ne _ ht]

@[simp] theorem entryAt_setEntry_self (r : RadixLog) (slot : Slot) (entry : Option IdxEntry) :
    (r.setEntry slot entry).entryAt slot = entry := by
  rw [entryAt, setEntry, setTable_self]
  exact if_pos rfl

theorem entryAt_setEntry_of_ne (r : RadixLog) {slot slot' : Slot} (h : slot' ≠ slot)
    (entry : Option IdxEntry) : (r.setEntry slot entry).entryAt slot' = r.entryAt slot' := by
  rw [entryAt, entryAt, setEntry]
  by_cases ht : slot'.table = slot.table
  · have hIndex : slot'.index ≠ slot.index := fun hi => h (by cases slot; cases slot'; simp_all)
    rw [ht, setTable_self]
    exact if_neg hIndex
  · rw [setTable_of_ne _ ht]

theorem entryAt_setEntry (r : RadixLog) (slot slot' : Slot) (entry : Option IdxEntry) :
    (r.setEntry slot entry).entryAt slot' = if slot' = slot then entry else r.entryAt slot' := by
  split
  · rename_i h
    rw [h, entryAt_setEntry_self]
  · rename_i h
    exact entryAt_setEntry_of_ne r h entry

theorem WellFormed.setEntry {r : RadixLog} (h : r.WellFormed) (slot : Slot)
    (entry : Option IdxEntry) : (r.setEntry slot entry).WellFormed where
  shape := (sameDirectory_setEntry r slot entry).shape h.shape
  cache := (sameDirectory_setEntry r slot entry).cache h.cache
  sized t ht hType hSkip := by
    rw [logSize_setEntry]
    exact h.sized t ht (by rwa [(sameDirectory_setEntry r slot entry).typeOf] at hType) hSkip

structure SizeFixed (r : RadixLog) (t : Nat) (s : LogSize) (r' : RadixLog) : Prop where
  same : SameDirectory r r'
  entries : ∀ u, (r'.tables u).entries = (r.tables u).entries
  size : (r'.tables t).logSize = some s
  size_kept : ∀ u s', (r.tables u).logSize = some s' → (r'.tables u).logSize = some s'

theorem getLogSize_spec (r : RadixLog) (t offset len : Nat) :
    SizeFixed r t (r.getLogSize t offset len).1 (r.getLogSize t offset len).2 := by
  rw [getLogSize]
  cases hSize : (r.tables t).logSize with
  | some s => exact ⟨⟨rfl, rfl, rfl, rfl, rfl, rfl, rfl⟩, fun _ => rfl, hSize, fun _ _ h => h⟩
  | none =>
    dsimp only
    refine ⟨sameDirectory_setTable r t _ _, ?_, ?_, ?_⟩
    · intro u
      by_cases hu : u = t
      · rw [hu, setTable_self]
      · rw [setTable_of_ne _ hu]
    · rw [setTable_self]
    · intro u s' hs'
      have hu : u ≠ t := by
        rintro rfl
        rw [hSize] at hs'
        cases hs'
      rwa [setTable_of_ne _ hu]

theorem SizeFixed.grows {r r' : RadixLog} {t : Nat} {s : LogSize} (h : SizeFixed r t s r') :
    Grows r r' where
  lgd := h.same.lgd
  skip := h.same.skip
  next_le := Nat.le_of_eq h.same.next.symm
  extends_links := by rw [h.same.links]; exact Extends.refl _ _
  type_kept u _ := congrFun h.same.typeOf u
  size_kept u s' _ hs' := h.size_kept u s' hs'
  entries_kept u _ := h.entries u
  entries_fresh u i hLow hHigh := by
    rw [h.same.next] at hHigh
    omega
  entries_beyond u _ := h.entries u

structure Located (r : RadixLog) (offset : Nat) (slot : Slot) (s : LogSize) (r' : RadixLog) :
    Prop where
  wellFormed : r'.WellFormed
  grows : Grows r r'
  find : r'.findLogTable offset = some slot.table
  size : (r'.tables slot.table).logSize = some s
  index : slot.index = tableIndex s offset

theorem locate_spec {r : RadixLog} (h : r.WellFormed) (offset len : Nat) :
    Located r offset (r.locate offset len).1 (r.locate offset len).2.1 (r.locate offset len).2.2 := by
  obtain ⟨hWalked, hFind, hCache⟩ := getLogTable_spec h offset
  have hFixed := getLogSize_spec (r.getLogTable offset).2 (r.getLogTable offset).1 offset len
  rw [locate]
  dsimp only
  generalize r.getLogTable offset = found at *
  generalize found.2.getLogSize found.1 offset len = sized at *
  have hGrows := hWalked.grows.trans hFixed.grows
  refine ⟨⟨hFixed.same.shape hWalked.shape, hFixed.same.cache hCache, ?_⟩, hGrows,
    (hFixed.same.find offset).trans hFind, hFixed.size, rfl⟩
  intro t ht hType hSkip
  by_cases hFound : t = found.1
  · rw [hFound, hFixed.size]
    simp
  · rw [hFixed.same.next] at ht
    rw [hFixed.same.typeOf] at hType
    have hOld : t < r.nextTable := by
      by_contra hFresh
      exact hFound (hWalked.fresh_table t (by omega) ht hType)
    rw [hWalked.grows.type_kept t hOld] at hType
    rw [hGrows.skip] at hSkip
    cases hSize : (r.tables t).logSize with
    | none => exact absurd hSize (h.sized t hOld hType hSkip)
    | some s =>
      rw [hGrows.size_kept t s hOld hSize]
      simp

theorem tableIndex_add_span (s : LogSize) (type : TableType) (offset : Nat) :
    tableIndex s (offset + type.span) = tableIndex s offset := by
  rw [tableIndex_eq, tableIndex_eq, Nat.add_mod, Nat.mod_eq_zero_of_dvd type.region_dvd_span,
    Nat.add_zero, Nat.mod_mod]

/-- The slots of two located offsets coincide exactly when a table and a log
block are shared. -/
theorem Located.slot_eq_iff {r r' r'' : RadixLog} {a b : Nat} {slotA slotB : Slot} {s s' : LogSize}
    (h : Located r a slotA s r') (h' : Located r' b slotB s' r'') :
    slotA = slotB ↔
      r''.findLogTable a = r''.findLogTable b ∧ tableIndex s a = tableIndex s b := by
  have hFindA := h'.grows.find h.wellFormed.shape h.find
  have hTableLt := h.wellFormed.shape.find_lt h.find
  have hSize := h'.grows.size_kept _ _ hTableLt h.size
  rw [hFindA, h'.find, Option.some.injEq]
  constructor
  · rintro rfl
    have hs : s = s' := Option.some.inj (hSize.symm.trans h'.size)
    subst hs
    exact ⟨rfl, h.index.symm.trans h'.index⟩
  · rintro ⟨hTable, hIndex⟩
    rw [hTable, h'.size] at hSize
    cases hSize
    cases slotA
    cases slotB
    simp only [Slot.mk.injEq]
    exact ⟨hTable, h.index.trans (hIndex.trans h'.index.symm)⟩

/-- The law that the lookup is meant to obey below a mapping length. -/
def SlotPerBlock (r : RadixLog) (mapLen : Nat) : Prop :=
  ∀ a b lenA lenB, a < mapLen → b < mapLen →
    ((r.locate a lenA).1 = ((r.locate a lenA).2.2.locate b lenB).1 ↔
      a / 2 ^ lmdShift = b / 2 ^ lmdShift ∧
        a / (r.locate a lenA).2.1.size = b / (r.locate a lenA).2.1.size)

theorem slotPerBlock_iff {r : RadixLog} (h : r.WellFormed) (mapLen : Nat) :
    r.SlotPerBlock mapLen ↔ mapLen ≤ r.skipType.span := by
  constructor
  · intro hLaw
    by_contra hLong
    have hShort : r.skipType.span < mapLen := by omega
    have hPos := r.skipType.span_pos
    -- offset 0 and the first offset past the span are confused
    have hLaw' := hLaw 0 r.skipType.span 0 0 (by omega) hShort
    have hLoc := locate_spec h 0 0
    have hLoc' := locate_spec hLoc.wellFormed r.skipType.span 0
    have hType := (hLoc.grows.trans hLoc'.grows).skipType h.shape
    have hPath : path r.skipType r.skipType.span = path r.skipType 0 := by
      have h := path_add_span r.skipType 0
      rwa [Nat.zero_add] at h
    have hIndex : tableIndex (r.locate 0 0).2.1 r.skipType.span = tableIndex (r.locate 0 0).2.1 0 := by
      have h := tableIndex_add_span (r.locate 0 0).2.1 r.skipType 0
      rwa [Nat.zero_add] at h
    have hSlot := (hLoc.slot_eq_iff hLoc').mpr
      ⟨findLogTable_congr_path _ (by rw [hType, hPath]), hIndex.symm⟩
    have hRegion := (hLaw'.mp hSlot).1
    have hStart : 0 / 2 ^ lmdShift = 0 := Nat.zero_div _
    have hPast : 0 < r.skipType.span / 2 ^ lmdShift :=
      Nat.div_pos r.skipType.region_le_span (Nat.pow_pos (by decide))
    omega
  · intro hFits a b lenA lenB ha hb
    have hLoc := locate_spec h a lenA
    have hLoc' := locate_spec hLoc.wellFormed b lenB
    have hType := (hLoc.grows.trans hLoc'.grows).skipType h.shape
    rw [hLoc.slot_eq_iff hLoc']
    constructor
    · rintro ⟨hFind, hIndex⟩
      have hFindA := hLoc'.grows.find hLoc.wellFormed.shape hLoc.find
      have hRegion := hLoc'.wellFormed.shape.region_eq_of_find_eq (by rw [hType]; omega)
        (by rw [hType]; omega) hFindA (hFind ▸ hFindA)
      exact ⟨hRegion, (tableIndex_eq_iff _ hRegion).mp hIndex⟩
    · rintro ⟨hRegion, hBlock⟩
      exact ⟨findLogTable_congr_region _ hRegion, (tableIndex_eq_iff _ hRegion).mpr hBlock⟩

end Libnvmmio.RadixLog

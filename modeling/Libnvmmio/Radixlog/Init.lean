import Libnvmmio.Radixlog.Locate

/-! # The radix root after `init_radixlog` -/

namespace Libnvmmio.RadixLog

set_option autoImplicit false

structure InitChain (r : RadixLog) (type : TableType) : Prop where
  shape : r.Shape
  type : r.skipType = type
  last : r.skip + 1 = r.nextTable
  directories : ∀ t, t < r.nextTable → t ≠ r.skip → r.typeOf t ≠ .table
  entries : ∀ slot, r.entryAt slot = none
  unset : ∀ t, (r.tables t).logSize = none
  index : r.prevTableIndex = ulongMax

theorem initLevels_cons {r : RadixLog} {parentType type : TableType} (h : InitChain r parentType)
    (maxoff : Nat) (hType : type.depth + 1 = parentType.depth) :
    InitChain { (r.allocTable type r.skip (initIndex type maxoff)).2 with
      skip := (r.allocTable type r.skip (initIndex type maxoff)).1 } type := by
  have hDepth : type.depth + 1 = (r.typeOf r.skip).depth := by
    rw [← skipType, h.type, hType]
  have hShape : (r.allocTable type r.skip (initIndex type maxoff)).2.Shape :=
    allocTable_shape h.shape h.shape.skip_lt hDepth
  have hNext : (r.allocTable type r.skip (initIndex type maxoff)).1 = r.nextTable := rfl
  refine ⟨⟨hShape.forest, Nat.lt_succ_self _, hShape.typed⟩,
    allocTable_typeOf_fresh h.shape.skip_lt, rfl, ?_, ?_, ?_, h.index⟩
  · intro t ht hSkip
    change t < r.nextTable + 1 at ht
    change t ≠ r.nextTable at hSkip
    have hOld : t < r.nextTable := by omega
    have hKept : (r.allocTable type r.skip (initIndex type maxoff)).2.typeOf t = r.typeOf t :=
      allocTable_typeOf hOld h.shape.skip_lt
    change (r.allocTable type r.skip (initIndex type maxoff)).2.typeOf t ≠ .table
    rw [hKept]
    by_cases hts : t = r.skip
    · rw [hts]
      intro hTable
      rw [hTable] at hDepth
      cases hDepth
    · exact h.directories t hOld hts
  · intro slot
    change ((r.allocTable type r.skip (initIndex type maxoff)).2.tables slot.table).entries
      slot.index = none
    by_cases hn : slot.table = r.skip
    · rw [hn, allocTable_tables_parent h.shape.skip_lt]
      exact h.entries ⟨r.skip, slot.index⟩
    · by_cases hFresh : slot.table = r.nextTable
      · rw [hFresh, allocTable_tables_fresh h.shape.skip_lt]
      · rw [allocTable_tables_of_ne hn hFresh]
        exact h.entries slot
  · intro t
    change ((r.allocTable type r.skip (initIndex type maxoff)).2.tables t).logSize = none
    by_cases hn : t = r.skip
    · rw [hn, allocTable_tables_parent h.shape.skip_lt]
      exact h.unset r.skip
    · by_cases hFresh : t = r.nextTable
      · rw [hFresh, allocTable_tables_fresh h.shape.skip_lt]
      · rw [allocTable_tables_of_ne hn hFresh]
        exact h.unset t

theorem initRadixlog_chain (filesize : Nat) :
    InitChain (initRadixlog filesize) (getDeepestTableType (filesize - 1)) := by
  have hRoot : InitChain
      ⟨0, 0, 0, ulongMax, fun u => if u = 0 then ⟨none, .lgd, fun _ => none, fun _ => none⟩
        else ⟨none, .lgd, fun _ => none, fun _ => none⟩, 1⟩ .lgd := by
    refine ⟨⟨⟨?_, ?_, ?_⟩, Nat.zero_lt_one, ?_⟩, rfl, rfl, ?_, ?_, ?_, rfl⟩
    · intro n i c h
      simp [links] at h
    · intro n i c h
      simp [links] at h
    · intro n i m j c h
      simp [links] at h
    · intro n i c h
      simp [links] at h
    · intro t _ _
      simp [typeOf]
    · intro slot
      simp [entryAt]
    · intro t
      simp
  unfold initRadixlog
  dsimp only
  cases getDeepestTableType (filesize - 1) with
  | lgd => exact hRoot
  | lud => exact initLevels_cons hRoot _ rfl
  | lmd => exact initLevels_cons (initLevels_cons hRoot _ rfl) _ rfl
  | table => exact initLevels_cons (initLevels_cons (initLevels_cons hRoot _ rfl) _ rfl) _ rfl

theorem initRadixlog_wellFormed (filesize : Nat) : (initRadixlog filesize).WellFormed where
  shape := (initRadixlog_chain filesize).shape
  cache offset h := by
    rw [(initRadixlog_chain filesize).index, checkPrevTable, decide_eq_true_eq] at h
    have hLt : offset / 2 ^ lmdShift % tableMask < tableMask := Nat.mod_lt _ (by decide)
    have hMask : tableMask < ulongMax := by decide
    omega
  sized t ht hType hSkip := absurd hType ((initRadixlog_chain filesize).directories t ht hSkip)

end Libnvmmio.RadixLog

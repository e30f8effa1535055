import Mathlib.Algebra.Group.Int.Defs
import Mathlib.Algebra.GroupWithZero.Nat
import Mathlib.Tactic.Common

/-! # Log sizes and table types

The constants and macros of `radixlog.h`, and `set_log_size`. An `unsigned
long` is a natural number; where a value can wrap, the wrap is written out.
-/

namespace Libnvmmio

set_option autoImplicit false

def pageShift : Nat := 12
def lmdShift : Nat := 21
def ludShift : Nat := 30
def lgdShift : Nat := 39
def ptrsPerTable : Nat := 2 ^ 9
def tableMask : Nat := 2 ^ 27
def ulongMax : Nat := 2 ^ 64 - 1

/-- `NR_LOG_SIZES`: the classes `LOG_4K` to `LOG_2M`. -/
def nrLogSizes : Nat := 10

/-- A real log size class. A table whose `log_size` is still `NR_LOG_SIZES` has none. -/
abbrev LogSize := Fin nrLogSizes

namespace LogSize

def log4K : LogSize := ⟨0, by decide⟩

def shift (s : LogSize) : Nat := lmdShift - ((lmdShift - pageShift) - s.val)

def size (s : LogSize) : Nat := 2 ^ s.shift

def nrEntries (s : LogSize) : Nat := 2 ^ (lmdShift - s.shift)

theorem shift_eq (s : LogSize) : s.shift = 12 + s.val := by
  have hs : s.val < 10 := s.isLt
  simp only [shift, lmdShift, pageShift]
  omega

theorem shift_le (s : LogSize) : s.shift ≤ lmdShift := by
  have hs : s.val < 10 := s.isLt
  rw [shift_eq, lmdShift]
  omega

theorem size_pos (s : LogSize) : 0 < s.size := Nat.pow_pos (by decide)

theorem nrEntries_pos (s : LogSize) : 0 < s.nrEntries := Nat.pow_pos (by decide)

theorem size_mul_nrEntries (s : LogSize) : s.size * s.nrEntries = 2 ^ lmdShift := by
  rw [size, nrEntries, ← Nat.pow_add, Nat.add_sub_cancel' s.shift_le]

theorem nrEntries_mul_size (s : LogSize) : s.nrEntries * s.size = 2 ^ lmdShift := by
  rw [Nat.mul_comm, s.size_mul_nrEntries]

theorem size_dvd (s : LogSize) : s.size ∣ 2 ^ lmdShift := ⟨s.nrEntries, s.size_mul_nrEntries.symm⟩

theorem size_le (s : LogSize) : s.size ≤ 2 ^ lmdShift :=
  Nat.le_of_dvd (Nat.pow_pos (by decide)) s.size_dvd

theorem page_le_size (s : LogSize) : 2 ^ pageShift ≤ s.size := by
  rw [size, shift_eq]
  exact Nat.pow_le_pow_right (by decide) (by simp [pageShift])

end LogSize

/-- The shift loop of `set_log_size`: the number of increments of `log_size`
while `len` is not zero and `room` classes are left. -/
def growLogSize : (room len : Nat) → Nat
  | 0, _ => 0
  | room + 1, len => if len = 0 then 0 else growLogSize room (len / 2) + 1

theorem growLogSize_le (room len : Nat) : growLogSize room len ≤ room := by
  induction room generalizing len with
  | zero => exact Nat.le_refl 0
  | succ room ih =>
    rw [growLogSize]
    split
    · omega
    · exact Nat.succ_le_succ (ih (len / 2))

/-- `set_log_size`; the `len - 1` of an empty page-aligned request wraps. -/
def setLogSize (offset len : Nat) : LogSize :=
  let len := (len + offset % LogSize.log4K.size) % 2 ^ 64
  let len := (len + ulongMax) % 2 ^ 64 / 2 ^ LogSize.log4K.shift
  ⟨growLogSize (nrLogSizes - 1) len, Nat.lt_succ_of_le (growLogSize_le _ len)⟩

inductive TableType where
  | table | lmd | lud | lgd
  deriving DecidableEq, Repr

def TableType.depth : TableType → Nat
  | .table => 0
  | .lmd => 1
  | .lud => 2
  | .lgd => 3

/-- The file length that the indices below a table of the type tell apart. -/
def TableType.span (type : TableType) : Nat := 2 ^ lmdShift * ptrsPerTable ^ type.depth

theorem TableType.span_pos (type : TableType) : 0 < type.span := by
  cases type <;> decide

theorem TableType.region_le_span (type : TableType) : 2 ^ lmdShift ≤ type.span := by
  cases type <;> decide

theorem TableType.span_le (type : TableType) : type.span ≤ 2 ^ 48 := by
  cases type <;> decide

theorem TableType.region_dvd_span (type : TableType) : 2 ^ lmdShift ∣ type.span := Nat.dvd_mul_right _ _

def lgdIndex (offset : Nat) : Nat := offset / 2 ^ lgdShift % ptrsPerTable
def ludIndex (offset : Nat) : Nat := offset / 2 ^ ludShift % ptrsPerTable
def lmdIndex (offset : Nat) : Nat := offset / 2 ^ lmdShift % ptrsPerTable

def tableIndex (s : LogSize) (offset : Nat) : Nat := offset / 2 ^ s.shift % s.nrEntries

theorem tableIndex_eq (s : LogSize) (offset : Nat) :
    tableIndex s offset = offset % 2 ^ lmdShift / s.size := by
  rw [tableIndex, ← s.size_mul_nrEntries, LogSize.size, Nat.mod_mul_right_div_self]

theorem tableIndex_lt (s : LogSize) (offset : Nat) : tableIndex s offset < s.nrEntries :=
  Nat.mod_lt _ s.nrEntries_pos

theorem tableIndex_eq_iff (s : LogSize) {a b : Nat} (h : a / 2 ^ lmdShift = b / 2 ^ lmdShift) :
    tableIndex s a = tableIndex s b ↔ a / s.size = b / s.size := by
  have hSplit (x : Nat) : x / s.size = x / 2 ^ lmdShift * s.nrEntries + tableIndex s x := by
    have hDiv : x / 2 ^ lmdShift = x / s.size / s.nrEntries := by
      rw [Nat.div_div_eq_div_mul, s.size_mul_nrEntries]
    rw [hDiv, tableIndex, ← LogSize.size, Nat.div_add_mod']
  rw [hSplit a, hSplit b, h]
  omega

theorem region_eq_of_block_eq (s : LogSize) {a b : Nat} (h : a / s.size = b / s.size) :
    a / 2 ^ lmdShift = b / 2 ^ lmdShift := by
  rw [← s.size_mul_nrEntries, ← Nat.div_div_eq_div_mul, ← Nat.div_div_eq_div_mul, h]

theorem region_of_lt {offset a : Nat} (hAligned : offset % 2 ^ lmdShift = 0) (hLow : offset ≤ a)
    (hHigh : a < offset + 2 ^ lmdShift) : a / 2 ^ lmdShift = offset / 2 ^ lmdShift := by
  rw [lmdShift] at *
  omega

theorem aligned_next {offset : Nat} (hAligned : offset % 2 ^ lmdShift = 0) :
    (offset + 2 ^ lmdShift) % 2 ^ lmdShift = 0 := by
  rw [Nat.add_mod_right]
  exact hAligned

def getDeepestTableType (maxoff : Nat) : TableType :=
  if maxoff / 2 ^ lmdShift ≠ 0 then
    if maxoff / 2 ^ ludShift ≠ 0 then
      if maxoff / 2 ^ lgdShift ≠ 0 then .lgd else .lud
    else .lmd
  else .table

/-- The type chosen for a length up to 2^48 tells all its offsets apart. -/
theorem lt_span_getDeepestTableType {maxoff : Nat} (h : maxoff < 2 ^ 48) :
    maxoff < (getDeepestTableType maxoff).span := by
  have hSpans : TableType.table.span = 2 ^ 21 ∧ TableType.lmd.span = 2 ^ 30 ∧
      TableType.lud.span = 2 ^ 39 ∧ TableType.lgd.span = 2 ^ 48 := by decide
  obtain ⟨hTable, hLmd, hLud, hLgd⟩ := hSpans
  unfold getDeepestTableType lmdShift ludShift lgdShift
  split_ifs with hRegion hUpper hTop
  · rw [hLgd]; omega
  · rw [hLud]; omega
  · rw [hLmd]; omega
  · rw [hTable]; omega

end Libnvmmio

import Libnvmmio.Radixlog.Sound

/-! # A file read through its entries

What a file contains is spread over its bytes and the logs of its entries.
Both the contents that a read delivers and the bytes that a checkpoint leaves
are the file read through the entries of some kind. Such a view does not
change when an entry is copied home and retired.
-/

namespace Libnvmmio

open RangeCopy

set_option autoImplicit false

def LogSize.blockStart (s : LogSize) (offset : Nat) : Nat := offset / s.size * s.size

theorem LogSize.blockStart_add_mod (s : LogSize) (offset : Nat) :
    s.blockStart offset + offset % s.size = offset := Nat.div_add_mod' offset s.size

theorem LogSize.blockStart_congr {s : LogSize} {a b : Nat} (h : a / s.size = b / s.size) :
    s.blockStart a = s.blockStart b := by rw [blockStart, blockStart, h]

theorem LogSize.block_eq_iff (s : LogSize) (a b : Nat) :
    a / s.size = b / s.size ↔ s.blockStart b ≤ a ∧ a < s.blockStart b + s.size := by
  rw [Nat.div_eq_iff s.size_pos, blockStart]
  have hPos := s.size_pos
  omega

theorem LogSize.lt_span_of_block_eq {s : LogSize} {a b : Nat} {type : TableType}
    (h : a / s.size = b / s.size) (hb : b < type.span) : a < type.span := by
  have hRegion := region_eq_of_block_eq s h
  have hb' : b / 2 ^ lmdShift < ptrsPerTable ^ type.depth := Nat.div_lt_of_lt_mul hb
  have ha := Nat.div_add_mod a (2 ^ lmdShift)
  have hMod := Nat.mod_lt a (Nat.pow_pos (a := 2) (n := lmdShift) (by decide))
  rw [hRegion] at ha
  calc a < 2 ^ lmdShift * (b / 2 ^ lmdShift) + 2 ^ lmdShift := by omega
    _ = 2 ^ lmdShift * (b / 2 ^ lmdShift + 1) := by rw [Nat.mul_add, Nat.mul_one]
    _ ≤ type.span := Nat.mul_le_mul_left _ hb'

theorem LogSize.mod_eq_sub {s : LogSize} {a b : Nat} (h : a / s.size = b / s.size) :
    a % s.size = a - s.blockStart b := by
  have hSplit := s.blockStart_add_mod a
  rw [blockStart_congr h] at hSplit
  omega

theorem LogSize.block_add (s : LogSize) (b : Nat) {i : Nat} (hi : i < s.size) :
    (s.blockStart b + i) / s.size = b / s.size ∧ (s.blockStart b + i) % s.size = i := by
  have hBlock : (s.blockStart b + i) / s.size = b / s.size := by
    rw [s.block_eq_iff]
    omega
  refine ⟨hBlock, ?_⟩
  rw [mod_eq_sub hBlock]
  omega

theorem blit_home {bytes : Nat → UInt8} {e : IdxEntry} (hFits : e.offset + e.len ≤ e.logSize.size)
    (a b : Nat) :
    blit bytes (e.logSize.blockStart b + e.offset) e.log e.offset e.len a =
      if a / e.logSize.size = b / e.logSize.size ∧ e.extent.Covers (a % e.logSize.size) then
        e.log (a % e.logSize.size)
      else bytes a := by
  split
  · rename_i h
    obtain ⟨hBlock, hLow, hHigh⟩ := h
    have hStart := ((e.logSize.block_eq_iff a b).mp hBlock).1
    rw [LogSize.mod_eq_sub hBlock] at hLow hHigh ⊢
    dsimp only [IdxEntry.extent] at hLow hHigh
    rw [blit_inside (by omega) (by omega)]
    congr 1
    omega
  · rename_i h
    apply blit_outside
    by_contra hInside
    apply h
    have hBlock : a / e.logSize.size = b / e.logSize.size := by
      rw [LogSize.block_eq_iff]
      omega
    refine ⟨hBlock, ?_⟩
    rw [LogSize.mod_eq_sub hBlock, Extent.Covers, IdxEntry.extent]
    dsimp only
    omega

namespace RadixLog

/-- A property of every entry and the offsets within the span that reach it. -/
def EachEntry (r : RadixLog) (P : Nat → IdxEntry → Prop) : Prop :=
  ∀ a e, a < r.skipType.span → r.entryOf a = some e → P a e

/-- The byte at an offset, read through the entries of the kind `Q`. -/
def through (r : RadixLog) (Q : IdxEntry → Prop) [DecidablePred Q] (bytes : Nat → UInt8) (a : Nat) :
    UInt8 :=
  match r.entryOf a with
  | none => bytes a
  | some e =>
    if Q e ∧ e.extent.Covers (a % e.logSize.size) then e.log (a % e.logSize.size) else bytes a

section Through

variable {r : RadixLog} {Q : IdxEntry → Prop} [DecidablePred Q] {bytes : Nat → UInt8} {a : Nat}

theorem through_none (h : r.entryOf a = none) : r.through Q bytes a = bytes a := by
  simp only [through, h]

theorem through_some {e : IdxEntry} (h : r.entryOf a = some e) :
    r.through Q bytes a =
      if Q e ∧ e.extent.Covers (a % e.logSize.size) then e.log (a % e.logSize.size) else bytes a := by
  simp only [through, h]

theorem through_empty {e : IdxEntry} (h : r.entryOf a = some e) (hLen : e.len = 0) :
    r.through Q bytes a = bytes a := by
  rw [through_some h, if_neg]
  rintro ⟨_, hCovers⟩
  exact Extent.not_covers_of_len_eq_zero hLen _ hCovers

/-- Within a block, the view is the overlay of the log over the bytes of the block. -/
theorem through_overlay {e : IdxEntry} (h : r.entryOf a = some e) (hQ : 0 < e.len → Q e) :
    r.through Q bytes a =
      overlay e.extent e.log (fun i => bytes (e.logSize.blockStart a + i)) (a % e.logSize.size) := by
  rw [through_some h]
  by_cases hCovers : e.extent.Covers (a % e.logSize.size)
  · rw [if_pos ⟨hQ hCovers.len_pos, hCovers⟩, overlay_covered hCovers]
  · rw [if_neg (fun h => hCovers h.2), overlay_uncovered hCovers, LogSize.blockStart_add_mod]

theorem through_congr {r' : RadixLog} (bytes : Nat → UInt8) (h : r'.entryOf a = r.entryOf a) :
    r'.through Q bytes a = r.through Q bytes a := by
  rw [through, through, h]

theorem through_congr_bytes {bytes' : Nat → UInt8} (h : bytes' a = bytes a) :
    r.through Q bytes' a = r.through Q bytes a := by
  unfold through
  rw [h]

end Through

structure SlotOf (r : RadixLog) (slot : Slot) (s : LogSize) (b : Nat) : Prop where
  in_span : b < r.skipType.span
  find : r.findLogTable b = some slot.table
  size : (r.tables slot.table).logSize = some s
  index : slot.index = tableIndex s b

theorem SlotOf.entryOf {r : RadixLog} {slot : Slot} {s : LogSize} {b : Nat}
    (h : r.SlotOf slot s b) : r.entryOf b = r.entryAt slot := by
  rw [entryOf_of_find h.find h.size, ← h.index]

theorem SlotOf.entryOf_setEntry {r : RadixLog} {slot : Slot} {s : LogSize} {a b : Nat}
    (h : r.SlotOf slot s b) (hr : r.WellFormed) (ha : a < r.skipType.span)
    (entry : Option IdxEntry) :
    (r.setEntry slot entry).entryOf a = if a / s.size = b / s.size then entry else r.entryOf a :=
  hr.entryOf_setEntry ha h.in_span h.find h.size h.index entry

theorem SlotOf.setEntry {r : RadixLog} {slot : Slot} {s : LogSize} {b : Nat}
    (h : r.SlotOf slot s b) (slot' : Slot) (entry : Option IdxEntry) :
    (r.setEntry slot' entry).SlotOf slot s b where
  in_span := by
    rw [(sameDirectory_setEntry r slot' entry).skipType]
    exact h.in_span
  find := ((sameDirectory_setEntry r slot' entry).find b).trans h.find
  size := by rw [logSize_setEntry, h.size]
  index := h.index

theorem SlotOf.extended {r r' : RadixLog} {slot : Slot} {s : LogSize} {b : Nat}
    (h : r.SlotOf slot s b) (hShape : r.Shape) (hExt : Extended r r') : r'.SlotOf slot s b where
  in_span := by
    rw [hExt.skipType hShape]
    exact h.in_span
  find := hExt.find hShape h.find
  size := hExt.size_kept _ _ (hShape.find_lt h.find) h.size
  index := h.index

theorem SlotOf.congr {r : RadixLog} {slot : Slot} {s : LogSize} {a b : Nat} (h : r.SlotOf slot s b)
    (hBlock : a / s.size = b / s.size) : r.SlotOf slot s a where
  in_span := LogSize.lt_span_of_block_eq hBlock h.in_span
  find := (r.findLogTable_congr_region (region_eq_of_block_eq s hBlock)).trans h.find
  size := h.size
  index := h.index.trans ((tableIndex_eq_iff s (region_eq_of_block_eq s hBlock)).mpr hBlock).symm

/-- An offset has one slot. -/
theorem SlotOf.unique {r : RadixLog} {slot slot' : Slot} {s s' : LogSize} {b : Nat} (h : r.SlotOf slot s b)
    (h' : r.SlotOf slot' s' b) : slot = slot' ∧ s = s' := by
  have hTable : slot.table = slot'.table := Option.some.inj (h.find.symm.trans h'.find)
  have hSize : s = s' := by
    have hSame := h.size
    rw [hTable, h'.size] at hSame
    exact (Option.some.inj hSame).symm
  have hIndex : slot.index = slot'.index := by rw [h.index, h'.index, hSize]
  cases slot
  cases slot'
  cases hTable
  cases hIndex
  exact ⟨rfl, hSize⟩

theorem SlotOf.block_eq {r : RadixLog} {slot : Slot} {s s' : LogSize} {a b : Nat}
    (h : r.SlotOf slot s a) (h' : r.SlotOf slot s' b) (hr : r.WellFormed) :
    s = s' ∧ a / s.size = b / s.size := by
  have hs : s = s' := Option.some.inj (h.size.symm.trans h'.size)
  subst hs
  exact ⟨rfl, (hr.same_slot_iff s h.in_span h'.in_span h'.find).mp
    ⟨h.find, h.index.symm.trans h'.index⟩⟩

/-- Every entry reached from an offset of the span sits in the slot of its block. -/
theorem exists_slotOf {r : RadixLog} {a : Nat} {e : IdxEntry} (ha : a < r.skipType.span)
    (h : r.entryOf a = some e) : ∃ slot s, r.SlotOf slot s a ∧ r.entryAt slot = some e := by
  obtain ⟨table, s, hFind, hSize, hEntry⟩ := entryOf_eq_some h
  exact ⟨⟨table, tableIndex s a⟩, s, ⟨ha, hFind, hSize, rfl⟩, hEntry⟩

theorem EachEntry.setEntry {r : RadixLog} {P : Nat → IdxEntry → Prop} (h : r.EachEntry P)
    (hr : r.WellFormed) {slot : Slot} {s : LogSize} {b : Nat} (hSlot : r.SlotOf slot s b)
    {entry : Option IdxEntry}
    (hNew : ∀ a e, a / s.size = b / s.size → entry = some e → P a e) :
    (r.setEntry slot entry).EachEntry P := by
  intro a e ha hEntry
  rw [(sameDirectory_setEntry r slot entry).skipType] at ha
  rw [hSlot.entryOf_setEntry hr ha] at hEntry
  split at hEntry
  · rename_i hBlock
    exact hNew a e hBlock hEntry
  · exact h a e ha hEntry

theorem EachEntry.cleared {r : RadixLog} {P : Nat → IdxEntry → Prop} {slot : Slot} {s : LogSize}
    {b : Nat} (h : r.EachEntry P) (hr : r.WellFormed) (hSlot : r.SlotOf slot s b) :
    (r.setEntry slot none).EachEntry P := by
  apply h.setEntry hr hSlot
  rintro a e _ ⟨⟩

/-- An entry is retired: its log is copied home if it is of the kind `Q`, and
its slot is cleared or keeps an empty header. No view through `Q` changes. -/
theorem SlotOf.through_retire {r : RadixLog} {slot : Slot} {s : LogSize} {b : Nat}
    (h : r.SlotOf slot s b) (hr : r.Sound) {e : IdxEntry} (hEntry : r.entryAt slot = some e)
    {entry : Option IdxEntry} (hEmpty : ∀ e', entry = some e' → e'.len = 0)
    {Q : IdxEntry → Prop} [DecidablePred Q] {bytes bytes' : Nat → UInt8}
    (hBytes : ∀ a, bytes' a =
      if Q e ∧ a / s.size = b / s.size ∧ e.extent.Covers (a % s.size) then e.log (a % s.size)
      else bytes a)
    {a : Nat} (ha : a < r.skipType.span) :
    (r.setEntry slot entry).through Q bytes' a = r.through Q bytes a := by
  have hNew := h.entryOf_setEntry hr.wellFormed ha entry
  by_cases hBlock : a / s.size = b / s.size
  · rw [if_pos hBlock] at hNew
    have hs : e.logSize = s := hr.entryOf_size (h.entryOf.trans hEntry) h.find h.size
    subst hs
    have hOld : r.entryOf a = some e :=
      hr.entryOf_congr_block (h.entryOf.trans hEntry) hBlock.symm
    have hCleared : (r.setEntry slot entry).through Q bytes' a = bytes' a := by
      cases hEntry' : entry with
      | none => exact through_none (hEntry' ▸ hNew)
      | some e' => exact through_empty (hEntry' ▸ hNew) (hEmpty e' hEntry')
    rw [hCleared, through_some hOld, hBytes]
    simp only [hBlock, true_and]
  · rw [if_neg hBlock] at hNew
    rw [through_congr bytes' hNew]
    apply through_congr_bytes
    rw [hBytes, if_neg (fun h => hBlock h.2.1)]

end RadixLog

end Libnvmmio

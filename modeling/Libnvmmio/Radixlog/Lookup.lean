import Libnvmmio.Radixlog.Tables
import Libnvmmio.Foundation.IndexTrie

/-! # The radix lookup as an index trie

The walks of `find_log_table` and `get_log_table` follow the digits of the
region number from `skip`. One structure says what a lookup may change, and
every later invariant of the tables is derived from it.
-/

namespace Libnvmmio.RadixLog

open IndexTrie

set_option autoImplicit false

def links (r : RadixLog) : Links := fun n i => (r.tables n).children i

def typeOf (r : RadixLog) (t : Nat) : TableType := (r.tables t).type

def skipType (r : RadixLog) : TableType := r.typeOf r.skip

def path (type : TableType) (offset : Nat) : List Nat :=
  digits ptrsPerTable type.depth (offset / 2 ^ lmdShift)

theorem path_lmd (offset : Nat) : path .lmd offset = [lmdIndex offset] := by
  simp [path, digits, TableType.depth, lmdIndex]

theorem path_lud (offset : Nat) : path .lud offset = [ludIndex offset, lmdIndex offset] := by
  simp [path, digits, TableType.depth, lmdIndex, ludIndex, Nat.div_div_eq_div_mul, ptrsPerTable,
    lmdShift, ludShift]

theorem path_lgd (offset : Nat) :
    path .lgd offset = [lgdIndex offset, ludIndex offset, lmdIndex offset] := by
  simp [path, digits, TableType.depth, lmdIndex, ludIndex, lgdIndex, Nat.div_div_eq_div_mul,
    ptrsPerTable, lmdShift, ludShift, lgdShift]

@[simp] theorem length_path (type : TableType) (offset : Nat) :
    (path type offset).length = type.depth := length_digits _ _ _

theorem path_eq_iff (type : TableType) (a b : Nat) :
    path type a = path type b ↔
      a / 2 ^ lmdShift % ptrsPerTable ^ type.depth = b / 2 ^ lmdShift % ptrsPerTable ^ type.depth :=
  digits_eq_iff (by decide) _ _ _

/-- Within the span of the type, a path belongs to one region. -/
theorem path_eq_iff_of_lt_span {type : TableType} {a b : Nat} (ha : a < type.span)
    (hb : b < type.span) : path type a = path type b ↔ a / 2 ^ lmdShift = b / 2 ^ lmdShift := by
  rw [path_eq_iff, Nat.mod_eq_of_lt, Nat.mod_eq_of_lt]
  · exact Nat.div_lt_of_lt_mul hb
  · exact Nat.div_lt_of_lt_mul ha

/-- The offsets `o` and `o + span` always share a path. -/
theorem path_add_span (type : TableType) (offset : Nat) :
    path type (offset + type.span) = path type offset := by
  rw [path_eq_iff, TableType.span, Nat.add_mul_div_left _ _ (Nat.pow_pos (by decide)),
    Nat.add_mod_right]

theorem findLogTable_eq_follow (r : RadixLog) (offset : Nat) :
    r.findLogTable offset = follow r.links r.skip (path r.skipType offset) := by
  unfold findLogTable skipType typeOf
  cases (r.tables r.skip).type with
  | table => rfl
  | lmd =>
    rw [path_lmd]
    simp only [follow, links]
    cases (r.tables r.skip).children (lmdIndex offset) <;> rfl
  | lud =>
    rw [path_lud]
    simp only [follow, links]
    cases (r.tables r.skip).children (ludIndex offset) with
    | none => rfl
    | some lmd =>
      dsimp only [Option.bind_some]
      cases (r.tables lmd).children (lmdIndex offset) <;> rfl
  | lgd =>
    rw [path_lgd]
    simp only [follow, links]
    cases (r.tables r.skip).children (lgdIndex offset) with
    | none => rfl
    | some lud =>
      dsimp only [Option.bind_some]
      cases (r.tables lud).children (ludIndex offset) with
      | none => rfl
      | some lmd =>
        dsimp only [Option.bind_some]
        cases (r.tables lmd).children (lmdIndex offset) <;> rfl

structure Shape (r : RadixLog) : Prop where
  forest : Forest r.links r.nextTable
  skip_lt : r.skip < r.nextTable
  typed : ∀ n i c, r.links n i = some c → (r.typeOf c).depth + 1 = (r.typeOf n).depth

theorem Shape.depth_follow {r : RadixLog} (h : r.Shape) {n t : Nat} {p : List Nat}
    (hp : follow r.links n p = some t) : (r.typeOf t).depth + p.length = (r.typeOf n).depth := by
  induction p generalizing n with
  | nil => cases hp; rfl
  | cons i p ih =>
    rw [follow] at hp
    obtain ⟨c, hc, hRest⟩ := Option.bind_eq_some_iff.mp hp
    have hTail := ih hRest
    have hHead := h.typed n i c hc
    rw [List.length_cons]
    omega

theorem depth_eq_zero {type : TableType} (h : type.depth = 0) : type = .table := by
  cases type <;> first | rfl | cases h

theorem Shape.find_type {r : RadixLog} (h : r.Shape) {offset : Nat} {t : Nat}
    (ht : r.findLogTable offset = some t) : r.typeOf t = .table := by
  rw [findLogTable_eq_follow] at ht
  have hDepth := h.depth_follow ht
  rw [length_path] at hDepth
  exact depth_eq_zero (by rw [skipType] at hDepth; omega)

theorem Shape.find_lt {r : RadixLog} (h : r.Shape) {offset : Nat} {t : Nat}
    (ht : r.findLogTable offset = some t) : t < r.nextTable := by
  rw [findLogTable_eq_follow] at ht
  exact h.forest.follow_lt h.skip_lt ht

theorem Shape.region_eq_of_find_eq {r : RadixLog} (h : r.Shape) {a b : Nat} {t : Nat}
    (ha : a < r.skipType.span) (hb : b < r.skipType.span)
    (hFindA : r.findLogTable a = some t) (hFindB : r.findLogTable b = some t) :
    a / 2 ^ lmdShift = b / 2 ^ lmdShift := by
  rw [findLogTable_eq_follow] at hFindA hFindB
  have hPath := h.forest.follow_injective r.skip (path r.skipType a) (path r.skipType b) t
    (by rw [length_path, length_path]) hFindA hFindB
  exact (path_eq_iff_of_lt_span ha hb).mp hPath

theorem findLogTable_congr_path (r : RadixLog) {a b : Nat} (h : path r.skipType a = path r.skipType b) :
    r.findLogTable a = r.findLogTable b := by
  rw [findLogTable_eq_follow, findLogTable_eq_follow, h]

theorem findLogTable_congr_region (r : RadixLog) {a b : Nat}
    (h : a / 2 ^ lmdShift = b / 2 ^ lmdShift) : r.findLogTable a = r.findLogTable b :=
  r.findLogTable_congr_path (by rw [path, path, h])

/-- The directories of `r'` are those of `r` with fresh tables hung in; log sizes
that were fixed stay. -/
structure Extended (r r' : RadixLog) : Prop where
  lgd : r'.lgd = r.lgd
  skip : r'.skip = r.skip
  next_le : r.nextTable ≤ r'.nextTable
  extends_links : Extends r.links r'.links r.nextTable
  type_kept : ∀ t, t < r.nextTable → r'.typeOf t = r.typeOf t
  size_kept : ∀ t s, t < r.nextTable → (r.tables t).logSize = some s →
    (r'.tables t).logSize = some s

theorem Extended.refl (r : RadixLog) : Extended r r where
  lgd := rfl
  skip := rfl
  next_le := Nat.le_refl _
  extends_links := Extends.refl _ _
  type_kept _ _ := rfl
  size_kept _ _ _ h := h

theorem Extended.trans {r r' r'' : RadixLog} (h : Extended r r') (h' : Extended r' r'') :
    Extended r r'' where
  lgd := h'.lgd.trans h.lgd
  skip := h'.skip.trans h.skip
  next_le := Nat.le_trans h.next_le h'.next_le
  extends_links := h.extends_links.trans h'.extends_links h.next_le
  type_kept t ht := (h'.type_kept t (Nat.lt_of_lt_of_le ht h.next_le)).trans (h.type_kept t ht)
  size_kept t s ht hs :=
    h'.size_kept t s (Nat.lt_of_lt_of_le ht h.next_le) (h.size_kept t s ht hs)

/-- What a lookup changes: besides, the fresh tables have no entries and the
old ones keep theirs. -/
structure Grows (r r' : RadixLog) : Prop extends Extended r r' where
  entries_kept : ∀ t, t < r.nextTable → (r'.tables t).entries = (r.tables t).entries
  entries_fresh : ∀ t i, r.nextTable ≤ t → t < r'.nextTable → (r'.tables t).entries i = none
  entries_beyond : ∀ t, r'.nextTable ≤ t → (r'.tables t).entries = (r.tables t).entries

theorem Grows.refl (r : RadixLog) : Grows r r where
  toExtended := Extended.refl r
  entries_kept _ _ := rfl
  entries_fresh t i hLow hHigh := by omega
  entries_beyond _ _ := rfl

theorem Grows.trans {r r' r'' : RadixLog} (h : Grows r r') (h' : Grows r' r'') : Grows r r'' where
  toExtended := h.toExtended.trans h'.toExtended
  entries_kept t ht :=
    (h'.entries_kept t (Nat.lt_of_lt_of_le ht h.next_le)).trans (h.entries_kept t ht)
  entries_fresh t i hLow hHigh := by
    by_cases ht : t < r'.nextTable
    · rw [h'.entries_kept t ht]
      exact h.entries_fresh t i hLow ht
    · exact h'.entries_fresh t i (by omega) hHigh
  entries_beyond t ht :=
    (h'.entries_beyond t ht).trans (h.entries_beyond t (Nat.le_trans h'.next_le ht))

theorem Extended.skipType {r r' : RadixLog} (h : Extended r r') (hShape : r.Shape) :
    r'.skipType = r.skipType := by
  rw [RadixLog.skipType, h.skip, h.type_kept r.skip hShape.skip_lt, RadixLog.skipType]

theorem Extended.find {r r' : RadixLog} (h : Extended r r') (hShape : r.Shape) {offset : Nat}
    {t : Nat} (ht : r.findLogTable offset = some t) : r'.findLogTable offset = some t := by
  rw [findLogTable_eq_follow] at ht ⊢
  rw [h.skipType hShape, h.skip]
  exact h.extends_links.follow ht

/-- A table found after the lookup was found before it, or is fresh. -/
theorem Extended.find_fresh {r r' : RadixLog} (h : Extended r r') (hShape : r.Shape) {offset : Nat}
    {t : Nat} (ht : r'.findLogTable offset = some t) :
    r.findLogTable offset = some t ∨ r.nextTable ≤ t := by
  rw [findLogTable_eq_follow] at ht ⊢
  rw [h.skipType hShape, h.skip] at ht
  exact h.extends_links.follow_fresh hShape.forest _ t ht

def EntriesAllocated (r : RadixLog) : Prop :=
  ∀ slot e, r.entryAt slot = some e → slot.table < r.nextTable

theorem EntriesAllocated.entryAt_eq_none {r : RadixLog} (h : r.EntriesAllocated) {slot : Slot}
    (hSlot : r.nextTable ≤ slot.table) : r.entryAt slot = none := by
  cases hEntry : r.entryAt slot with
  | none => rfl
  | some e => exact absurd (h slot e hEntry) (by omega)

theorem Grows.entryAt {r r' : RadixLog} (h : Grows r r') (hAlloc : r.EntriesAllocated) (slot : Slot) :
    r'.entryAt slot = r.entryAt slot := by
  by_cases hOld : slot.table < r.nextTable
  · rw [RadixLog.entryAt, RadixLog.entryAt, h.entries_kept _ hOld]
  · by_cases hNew : slot.table < r'.nextTable
    · rw [hAlloc.entryAt_eq_none (by omega)]
      exact h.entries_fresh _ _ (by omega) hNew
    · rw [RadixLog.entryAt, RadixLog.entryAt, h.entries_beyond _ (by omega)]

theorem Grows.entriesAllocated {r r' : RadixLog} (h : Grows r r') (hAlloc : r.EntriesAllocated) :
    r'.EntriesAllocated := by
  intro slot e hEntry
  rw [h.entryAt hAlloc] at hEntry
  exact Nat.lt_of_lt_of_le (hAlloc slot e hEntry) h.next_le

end Libnvmmio.RadixLog

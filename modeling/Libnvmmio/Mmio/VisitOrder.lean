import Libnvmmio.Mmio.RequestBlocks
import Libnvmmio.Mmio.Requests

/-! # The order in which the locked entries are visited

`slist_push` puts each entry at the head of the list, and the loops of
`mmio_write` and `read_redolog` take the list from its head. They recompute the
offset of every entry on the way, in ascending order.
-/

namespace Libnvmmio

open RadixLog

set_option autoImplicit false

def RadixLog.slotAt (r : RadixLog) (offset : Nat) : Option Slot :=
  (r.findLogTable offset).bind fun table =>
    (r.tables table).logSize.map fun s => ⟨table, tableIndex s offset⟩

theorem RadixLog.slotAt_of_find {r : RadixLog} {offset table : Nat} {s : LogSize}
    (hFind : r.findLogTable offset = some table) (hSize : (r.tables table).logSize = some s) :
    r.slotAt offset = some ⟨table, tableIndex s offset⟩ := by
  rw [slotAt, hFind, Option.bind_some, hSize, Option.map_some]

namespace Mmio

/-- The list of a request is the list of its log blocks: exactly these, each
once, in ascending order. -/
structure VisitsBlocks (r : RadixLog) (off len : Nat) (head : List Slot) : Prop where
  exactly : ∀ slot, slot ∈ head ↔ ∃ x, off ≤ x ∧ x < off + len ∧ r.slotAt x = some slot
  once : head.Nodup
  ascending : head.Pairwise fun a b => ∀ x y, off ≤ x → x < off + len → off ≤ y → y < off + len →
    r.slotAt x = some a → r.slotAt y = some b → x < y

section Locked

variable {m : Mmio} {off n : Nat}

theorem slotAt_part (hSound : m.radixlog.Sound) {b : BlockPart} (hMem : b ∈ m.requestBlocks off n)
    {x : Nat} (hLow : b.off ≤ x) (hHigh : x < b.off + b.len) :
    (m.lockedBlocks off n).radixlog.slotAt x = some b.slot := by
  obtain ⟨hFind, hSize, hIndex⟩ := (lockedBlocks_slots hSound off n).2 b hMem
  have hBlock := (((requestBlocks_tiles m off n).part_iff hMem x).mp ⟨hLow, hHigh⟩).2.2.1
  have hRegion := region_eq_of_block_eq b.size hBlock
  rw [slotAt_of_find ((findLogTable_congr_region _ hRegion).trans hFind) hSize,
    (tableIndex_eq_iff b.size hRegion).mpr hBlock, ← hIndex]

/-- Whenever locking ends, it has locked the blocks of the request. -/
theorem mem_head_iff (hSound : m.radixlog.Sound) (slot : Slot) :
    slot ∈ ((m.requestBlocks off n).map BlockPart.slot).reverse ↔
      ∃ x, off ≤ x ∧ x < off + n ∧ (m.lockedBlocks off n).radixlog.slotAt x = some slot := by
  rw [List.mem_reverse, List.mem_map]
  constructor
  · rintro ⟨b, hMem, rfl⟩
    have hPart := (requestBlocks_tiles m off n).part hMem
    exact ⟨b.off, hPart.1, by omega, slotAt_part hSound hMem (Nat.le_refl _) (by omega)⟩
  · rintro ⟨x, hLow, hHigh, hSlot⟩
    obtain ⟨b, hMem, hFrom, hTo⟩ := (requestBlocks_tiles m off n).cover hLow hHigh
    rw [slotAt_part hSound hMem hFrom hTo, Option.some.injEq] at hSlot
    exact ⟨b, hMem, hSlot⟩

/-- With two blocks the list begins with the last of them. -/
theorem oneBlock_of_visits (type : LockType) (hSound : m.radixlog.Sound) (hPos : 0 < n)
    {m' : Mmio} {head : List Slot} (hLock : lockEntries type m n off [] = .ok (m', head))
    (hVisits : VisitsBlocks m'.radixlog off n head) :
    off % (m.radixlog.locate off n).2.1.size + n ≤ (m.radixlog.locate off n).2.1.size := by
  obtain ⟨_, _, rfl, rfl⟩ := (lockEntries_eq_ok_iff type m m' off n [] head).mp hLock
  rw [List.append_nil] at hVisits
  have hTiles := requestBlocks_tiles m off n
  obtain ⟨part, hPart, _, hBlocks, _⟩ := m.requestBlocks_pos off hPos
  have hAscending := hVisits.ascending
  rw [List.pairwise_reverse] at hAscending
  generalize hParts : m.requestBlocks off n = parts at *
  cases parts with
  | nil => cases hBlocks
  | cons b rest =>
    cases rest with
    | nil =>
      -- the one part is the whole request
      have hHead := (List.cons.inj hBlocks).1
      have hAll : n - b.len = 0 := hTiles.2.2.2
      have hMod := Nat.mod_lt off (m.radixlog.locate off n).2.1.size_pos
      have hLen : b.len = part := congrArg BlockPart.len hHead
      omega
    | cons c rest =>
      have hMemB : b ∈ m.requestBlocks off n := by
        rw [hParts]
        exact List.mem_cons_self
      have hMemC : c ∈ m.requestBlocks off n := by
        rw [hParts]
        exact List.mem_cons_of_mem _ List.mem_cons_self
      have hB := hTiles.part (b := b) List.mem_cons_self
      have hC := hTiles.part (b := c) (List.mem_cons_of_mem _ List.mem_cons_self)
      have hUp : b.off + b.len ≤ c.off :=
        (List.pairwise_cons.mp hTiles.ascending).1 c List.mem_cons_self
      have hDown := (List.pairwise_cons.mp hAscending).1 c.slot List.mem_cons_self c.off b.off
        hC.1 (by omega) hB.1 (by omega) (slotAt_part hSound hMemC (Nat.le_refl _) (by omega))
        (slotAt_part hSound hMemB (Nat.le_refl _) (by omega))
      omega

theorem visits_of_oneBlock (type : LockType) (hSound : m.radixlog.Sound) (hPos : 0 < n)
    (hBlock : off % (m.radixlog.locate off n).2.1.size + n ≤ (m.radixlog.locate off n).2.1.size) :
    ∃ m' head, lockEntries type m n off [] = .ok (m', head) ∧ VisitsBlocks m'.radixlog off n head := by
  obtain ⟨slot, s, m', hLock, _⟩ := lockEntries_oneBlock type hSound hPos (.inr hBlock)
  obtain ⟨_, _, rfl, hHead⟩ := (lockEntries_eq_ok_iff type m m' off n [] [slot]).mp hLock
  rw [List.append_nil] at hHead
  refine ⟨_, [slot], hLock, fun x => ?_, List.nodup_cons.mpr ⟨nofun, List.nodup_nil⟩, List.pairwise_singleton _ slot⟩
  rw [hHead]
  exact mem_head_iff hSound x

end Locked

/-- The list of a request is right exactly if the request lies in one log
block, of the size that its table has or receives. -/
theorem visitsBlocks_iff_oneBlock (type : LockType) (m : Mmio) (hSound : m.radixlog.Sound)
    (off len : Nat) (hPos : 0 < len) (hInt : len < 2 ^ 31) :
    (∃ m' head, lockEntries type m (toInt len) off [] = .ok (m', head) ∧
        VisitsBlocks m'.radixlog off len head) ↔
      off % (m.radixlog.locate off len).2.1.size + len ≤ (m.radixlog.locate off len).2.1.size := by
  rw [toInt_of_lt hInt]
  constructor
  · rintro ⟨m', head, hLock, hVisits⟩
    exact oneBlock_of_visits type hSound hPos hLock hVisits
  · exact visits_of_oneBlock type hSound hPos

theorem visitsBlocks_oneByteFile :
    ∃ m' head, lockEntries .wr oneByteFile (toInt 1) 0 [] = .ok (m', head) ∧
      VisitsBlocks m'.radixlog 0 1 head :=
  (visitsBlocks_iff_oneBlock .wr oneByteFile oneByteFile_opened.sound 0 1 (by decide)
    (by decide)).mpr (by decide)

def fourPageFile : Mmio := firstOpen .undo (2 ^ 21) ⟨2 ^ 14, fun _ => 0⟩

theorem fourPageFile_sound : fourPageFile.radixlog.Sound :=
  (firstOpen_opened (by decide)).sound

/-- Two bytes around the end of the first block, for which the first touch
chooses blocks of two pages. -/
theorem visitsBlocks_fails_twoBlocks :
    ¬ ∃ m' head, lockEntries .wr fourPageFile (toInt 2) 8191 [] = .ok (m', head) ∧
      VisitsBlocks m'.radixlog 8191 2 head := by
  rintro ⟨m', head, hLock, hVisits⟩
  have hOne := oneBlock_of_visits .wr fourPageFile_sound (by decide) hLock hVisits
  exact absurd hOne (by decide)

end Mmio

end Libnvmmio

import Libnvmmio.Mmio.Contents

/-! # The log blocks of a request

`LOCK_ENTRIES` walks over the blocks of a request in ascending order. Apart from
the list it builds, what it does is to cut the request at the ends of the
blocks, whose sizes the tables have or receive on the way.
-/

namespace Libnvmmio

open RadixLog

set_option autoImplicit false

structure BlockPart where
  slot : Slot
  size : LogSize
  off : Nat
  len : Nat

/-- The parts cut the `n` bytes from `off` at the ends of their blocks. -/
def Tiles : Nat → Nat → List BlockPart → Prop
  | _, n, [] => n = 0
  | off, n, b :: parts =>
    0 < n ∧ b.off = off ∧ b.len = min n (b.size.size - off % b.size.size) ∧
      Tiles (off + b.len) (n - b.len) parts

/-- What is left after a part starts where a block of its size does. -/
theorem LogSize.next_mod_eq_zero (s : LogSize) (off : Nat) :
    (off + (s.size - off % s.size)) % s.size = 0 := by
  have hSplit := Nat.div_add_mod off s.size
  have hMod := Nat.mod_lt off s.size_pos
  have hNext : off + (s.size - off % s.size) = s.size * (off / s.size + 1) := by
    rw [Nat.mul_add, Nat.mul_one]
    omega
  rw [hNext, Nat.mul_mod_right]

namespace Tiles

theorem len_pos {off n : Nat} {b : BlockPart} {parts : List BlockPart} (h : Tiles off n (b :: parts)) :
    0 < b.len := by
  obtain ⟨hPos, _, hLen, _⟩ := h
  have hMod := Nat.mod_lt off b.size.size_pos
  omega

/-- A part lies in the request and in one block. -/
theorem part {off n : Nat} {parts : List BlockPart} (h : Tiles off n parts) {b : BlockPart}
    (hMem : b ∈ parts) : off ≤ b.off ∧ 0 < b.len ∧ b.off + b.len ≤ off + n ∧
      b.len = min (off + n - b.off) (b.size.size - b.off % b.size.size) := by
  induction parts generalizing off n with
  | nil => cases hMem
  | cons c parts ih =>
    have hPos := h.len_pos
    obtain ⟨_, hOff, hLen, hRest⟩ := h
    rcases List.mem_cons.mp hMem with rfl | hTail
    · rw [hOff]
      omega
    · obtain ⟨hLow, hPart, hHigh, hCut⟩ := ih hRest hTail
      have hSum : off + c.len + (n - c.len) = off + n := by omega
      rw [hSum] at hHigh hCut
      exact ⟨by omega, hPart, hHigh, hCut⟩

theorem cover {off n x : Nat} {parts : List BlockPart} (h : Tiles off n parts) (hLow : off ≤ x)
    (hHigh : x < off + n) : ∃ b ∈ parts, b.off ≤ x ∧ x < b.off + b.len := by
  induction parts generalizing off n with
  | nil =>
    have hNone : n = 0 := h
    omega
  | cons b parts ih =>
    obtain ⟨_, hOff, _, hRest⟩ := h
    by_cases hHere : x < off + b.len
    · exact ⟨b, List.mem_cons_self, by omega, by omega⟩
    · obtain ⟨c, hMem, hIn⟩ := ih hRest (by omega) (by omega)
      exact ⟨c, List.mem_cons_of_mem _ hMem, hIn⟩

theorem ascending {off n : Nat} {parts : List BlockPart} (h : Tiles off n parts) :
    parts.Pairwise fun b c => b.off + b.len ≤ c.off := by
  induction parts generalizing off n with
  | nil => exact .nil
  | cons b parts ih =>
    obtain ⟨_, hOff, _, hRest⟩ := h
    refine .cons (fun c hMem => ?_) (ih hRest)
    have hPart := hRest.part hMem
    omega

theorem part_iff {off n : Nat} {parts : List BlockPart} (h : Tiles off n parts) {b : BlockPart}
    (hMem : b ∈ parts) (x : Nat) :
    (b.off ≤ x ∧ x < b.off + b.len) ↔ (off ≤ x ∧ x < off + n ∧ x / b.size.size = b.off / b.size.size ∧
      b.off ≤ x) := by
  obtain ⟨hLow, _, hHigh, hCut⟩ := h.part hMem
  have hSplit := b.size.blockStart_add_mod b.off
  have hMod := Nat.mod_lt b.off b.size.size_pos
  rw [b.size.block_eq_iff]
  omega

theorem sum_len {off n : Nat} {parts : List BlockPart} (h : Tiles off n parts) :
    (parts.map BlockPart.len).sum = n := by
  induction parts generalizing off n with
  | nil => exact h.symm
  | cons b parts ih =>
    obtain ⟨_, _, hLen, hRest⟩ := h
    rw [List.map_cons, List.sum_cons, ih hRest]
    omega

/-- Each part but the first starts where its block does: the sizes differ from
one region to another only, and a region starts with a block of any size. -/
theorem aligned {r : RadixLog} {off n : Nat} {parts : List BlockPart} (h : Tiles off n parts)
    (hSizes : ∀ b ∈ parts, ∃ table, r.findLogTable b.off = some table ∧
      (r.tables table).logSize = some b.size) :
    ∀ b ∈ parts, b.off = off ∨ b.off % b.size.size = 0 := by
  induction parts generalizing off n with
  | nil => intro b hMem; cases hMem
  | cons b parts ih =>
    obtain ⟨_, hOff, hLen, hRest⟩ := h
    intro c hMem
    rcases List.mem_cons.mp hMem with rfl | hTail
    · exact .inl hOff
    · refine .inr ?_
      rcases ih hRest (fun d hd => hSizes d (List.mem_cons_of_mem _ hd)) c hTail with hNext | hStart
      · have hPart := hRest.part hTail
        have hMod := Nat.mod_lt off b.size.size_pos
        have hCut : c.off = off + (b.size.size - off % b.size.size) := by omega
        have hEnd : c.off % b.size.size = 0 := by
          rw [hCut]
          exact b.size.next_mod_eq_zero off
        by_cases hRegion : c.off / 2 ^ lmdShift = b.off / 2 ^ lmdShift
        · obtain ⟨table, hFind, hSize⟩ := hSizes b List.mem_cons_self
          obtain ⟨table', hFind', hSize'⟩ := hSizes c (List.mem_cons_of_mem _ hTail)
          rw [r.findLogTable_congr_region hRegion, hFind] at hFind'
          cases hFind'
          have hSame : b.size = c.size := Option.some.inj (hSize.symm.trans hSize')
          rw [← hSame]
          exact hEnd
        · have hBefore : (c.off - 1) / b.size.size = b.off / b.size.size := by
            have hSplit := b.size.blockStart_add_mod b.off
            rw [b.size.block_eq_iff]
            rw [hOff] at hSplit ⊢
            omega
          have hSame := region_eq_of_block_eq b.size hBefore
          have hFirst : c.off % 2 ^ lmdShift = 0 := by
            rw [lmdShift] at hSame hRegion ⊢
            omega
          exact Nat.mod_eq_zero_of_dvd (Nat.dvd_trans c.size.size_dvd (Nat.dvd_of_mod_eq_zero hFirst))
      · exact hStart

end Tiles

namespace Mmio

/-- The parts of a request, with the slots and sizes that `get_log_table` and
`get_log_size` give to their blocks one after the other. -/
def requestBlocks (m : Mmio) (off n : Nat) : List BlockPart :=
  if 0 < n then
    let found := m.radixlog.locate off n
    let part := min n (found.2.1.size - off % found.2.1.size)
    ⟨found.1, found.2.1, off, part⟩ ::
      requestBlocks (takeEntry { m with radixlog := found.2.2 } found.1 found.2.1) (off + part)
        (n - part)
  else []
termination_by n
decreasing_by
  have hMod := Nat.mod_lt off (m.radixlog.locate off n).2.1.size_pos
  omega

def lockedBlocks (m : Mmio) (off n : Nat) : Mmio :=
  if 0 < n then
    let found := m.radixlog.locate off n
    let part := min n (found.2.1.size - off % found.2.1.size)
    lockedBlocks (takeEntry { m with radixlog := found.2.2 } found.1 found.2.1) (off + part) (n - part)
  else m
termination_by n
decreasing_by
  have hMod := Nat.mod_lt off (m.radixlog.locate off n).2.1.size_pos
  omega

theorem requestBlocks_pos (m : Mmio) (off : Nat) {n : Nat} (h : 0 < n) :
    ∃ part, part = min n ((m.radixlog.locate off n).2.1.size - off % (m.radixlog.locate off n).2.1.size) ∧
      0 < part ∧
      m.requestBlocks off n =
        ⟨(m.radixlog.locate off n).1, (m.radixlog.locate off n).2.1, off, part⟩ ::
          requestBlocks (takeEntry { m with radixlog := (m.radixlog.locate off n).2.2 }
            (m.radixlog.locate off n).1 (m.radixlog.locate off n).2.1) (off + part) (n - part) ∧
      m.lockedBlocks off n =
        lockedBlocks (takeEntry { m with radixlog := (m.radixlog.locate off n).2.2 }
          (m.radixlog.locate off n).1 (m.radixlog.locate off n).2.1) (off + part) (n - part) := by
  have hMod := Nat.mod_lt off (m.radixlog.locate off n).2.1.size_pos
  refine ⟨_, rfl, by omega, ?_, ?_⟩
  · rw [requestBlocks, if_pos h]
  · rw [lockedBlocks, if_pos h]

theorem requestBlocks_zero (m : Mmio) (off : Nat) : m.requestBlocks off 0 = [] := by
  rw [requestBlocks, if_neg (Nat.lt_irrefl 0)]

theorem lockedBlocks_zero (m : Mmio) (off : Nat) : m.lockedBlocks off 0 = m := by
  rw [lockedBlocks, if_neg (Nat.lt_irrefl 0)]

theorem requestBlocks_tiles (m : Mmio) (off n : Nat) : Tiles off n (m.requestBlocks off n) := by
  induction n using Nat.strongRecOn generalizing m off with
  | ind n ih =>
    rcases Nat.eq_zero_or_pos n with rfl | hPos
    · rw [requestBlocks_zero]
      rfl
    · obtain ⟨part, hPart, hPartPos, hBlocks, _⟩ := m.requestBlocks_pos off hPos
      rw [hBlocks]
      exact ⟨hPos, rfl, hPart, ih (n - part) (by omega) _ _⟩

/-- In the end every block of the walk has its slot and its size. -/
theorem lockedBlocks_slots {m : Mmio} (h : m.radixlog.Sound) (off n : Nat) :
    Acquires m.epoch m.radixlog (m.lockedBlocks off n).radixlog ∧
      ∀ b ∈ m.requestBlocks off n,
        (m.lockedBlocks off n).radixlog.findLogTable b.off = some b.slot.table ∧
        ((m.lockedBlocks off n).radixlog.tables b.slot.table).logSize = some b.size ∧
        b.slot.index = tableIndex b.size b.off := by
  induction n using Nat.strongRecOn generalizing m off with
  | ind n ih =>
    rcases Nat.eq_zero_or_pos n with rfl | hPos
    · rw [lockedBlocks_zero, requestBlocks_zero]
      exact ⟨Acquires.refl h m.epoch, fun b hMem => by cases hMem⟩
    · obtain ⟨part, _, hPartPos, hBlocks, hEnd⟩ := m.requestBlocks_pos off hPos
      have hStep := lockStep h off n
      rw [hBlocks, hEnd]
      generalize m.radixlog.locate off n = found at *
      obtain ⟨slot, s, r⟩ := found
      dsimp only at hStep ⊢
      generalize takeEntry { m with radixlog := r } slot s = mid at *
      have hAcq := hStep.acquires
      obtain ⟨hRest, hSlots⟩ := ih (n - part) (by omega) hAcq.sound (off + part)
      have hEpoch : mid.epoch = m.epoch := by
        obtain ⟨_, _, rfl⟩ := hStep.frame
        rfl
      rw [hEpoch] at hRest
      refine ⟨hAcq.trans hRest, fun b hMem => ?_⟩
      rcases List.mem_cons.mp hMem with rfl | hTail
      · have hShape := hAcq.sound.wellFormed.shape
        exact ⟨hRest.extended.find hShape hStep.find,
          hRest.extended.size_kept _ _ (hShape.find_lt hStep.find) hStep.size, hStep.index⟩
      · exact hSlots b hTail

/-- A part is the intersection of the request with the block of its first byte. -/
theorem mem_part_iff {m : Mmio} (h : m.radixlog.Sound) {off n : Nat} {b : BlockPart}
    (hMem : b ∈ m.requestBlocks off n) (x : Nat) :
    (b.off ≤ x ∧ x < b.off + b.len) ↔
      (off ≤ x ∧ x < off + n ∧ x / b.size.size = b.off / b.size.size) := by
  have hTiles := requestBlocks_tiles m off n
  rw [hTiles.part_iff hMem]
  refine ⟨fun ⟨hLow, hHigh, hBlock, _⟩ => ⟨hLow, hHigh, hBlock⟩, fun ⟨hLow, hHigh, hBlock⟩ => ?_⟩
  refine ⟨hLow, hHigh, hBlock, ?_⟩
  have hSlots := (lockedBlocks_slots h off n).2
  rcases hTiles.aligned (fun c hc => ⟨c.slot.table, (hSlots c hc).1, (hSlots c hc).2.1⟩) b hMem with
    hFirst | hStart
  · omega
  · have hSplit := b.size.blockStart_add_mod b.off
    have hIn := (b.size.block_eq_iff x b.off).mp hBlock
    omega

/-- `LOCK_ENTRIES` returns if no block of the request is met twice, and then
the list runs from the last block to the first. -/
theorem lockEntries_eq_ok_iff (type : LockType) (m m' : Mmio) (off n : Nat) (head head' : List Slot) :
    lockEntries type m n off head = .ok (m', head') ↔
      ((m.requestBlocks off n).map BlockPart.slot).Nodup ∧
      (∀ b ∈ m.requestBlocks off n, b.slot ∉ head) ∧
      m' = m.lockedBlocks off n ∧
      head' = ((m.requestBlocks off n).map BlockPart.slot).reverse ++ head := by
  induction n using Nat.strongRecOn generalizing m off head with
  | ind n ih =>
    rw [lockEntries_eq]
    rcases Nat.eq_zero_or_pos n with rfl | hPos
    · rw [if_neg (by decide), requestBlocks_zero, lockedBlocks_zero]
      simp [eq_comm]
    · obtain ⟨part, hPart, hPartPos, hBlocks, hEnd⟩ := m.requestBlocks_pos off hPos
      rw [if_pos (by omega), Int.toNat_natCast, hBlocks, hEnd]
      generalize m.radixlog.locate off n = found at *
      obtain ⟨slot, s, r⟩ := found
      dsimp only at hPart ⊢
      generalize takeEntry { m with radixlog := r } slot s = mid at *
      have hMod := Nat.mod_lt off s.size_pos
      -- past the end of the request the macro counts below zero
      have hNext : lockEntries type mid (n - (s.size - off % s.size : Nat)) (off + (s.size - off % s.size))
          (slot :: head) = lockEntries type mid (n - part : Nat) (off + part) (slot :: head) := by
        rcases Nat.lt_or_ge (s.size - off % s.size) n with hMore | hLast
        · have hCut : part = s.size - off % s.size := by omega
          rw [hCut, Int.ofNat_sub (Nat.le_of_lt hMore)]
        · have hAll : part = n := by omega
          rw [hAll, Nat.sub_self, lockEntries_eq, if_neg (by omega), lockEntries_eq,
            if_neg (by decide)]
      rw [hNext]
      by_cases hHeld : slot ∈ head
      · rw [if_pos hHeld]
        refine ⟨nofun, fun h => ?_⟩
        exact absurd hHeld (h.2.1 _ List.mem_cons_self)
      · rw [if_neg hHeld, ih (n - part) (by omega) mid (off + part) (slot :: head)]
        simp only [List.map_cons, List.nodup_cons, List.mem_cons, List.reverse_cons, List.append_assoc,
          List.singleton_append, List.mem_map, not_or, forall_eq_or_imp]
        constructor
        · rintro ⟨hNodup, hFree, rfl, rfl⟩
          refine ⟨⟨?_, hNodup⟩, ⟨hHeld, fun b hMem => (hFree b hMem).2⟩, rfl, rfl⟩
          rintro ⟨b, hMem, hSlot⟩
          exact (hFree b hMem).1 hSlot
        · rintro ⟨⟨hNew, hNodup⟩, ⟨_, hFree⟩, rfl, rfl⟩
          exact ⟨hNodup, fun b hMem => ⟨fun hSlot => hNew ⟨b, hMem, hSlot⟩, hFree b hMem⟩, rfl, rfl⟩

end Mmio

end Libnvmmio

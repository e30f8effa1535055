import Libnvmmio.Mmio.WriteParts

/-!
# The counts that requests report

A read reports the length it was clipped to. The count of a write is the sum of
its pieces, each cut down from the one before it, so that it depends on the
offset, the length and the sizes of the blocks only, and may exceed the length.
-/

namespace Libnvmmio.Mmio

open RadixLog Outcome

set_option autoImplicit false

theorem toInt_eq_iff (x : Nat) : toInt x = x ↔ x < 2 ^ 31 := by
  constructor
  · intro h
    have hLt : toInt x < (2 ^ 32 + 1) / 2 := Int.bmod_lt (by decide)
    omega
  · exact toInt_of_lt

theorem toInt_lt (x : Nat) : toInt x < 2 ^ 31 := by
  have hLt : toInt x < (2 ^ 32 + 1) / 2 := Int.bmod_lt (by decide)
  omega

/-- From 2 GiB on the conversion yields a negative number. -/
theorem toInt_of_ge {x : Nat} (h : 2 ^ 31 ≤ x) (h' : x < 2 ^ 32) : toInt x = x - 2 ^ 32 := by
  unfold toInt
  rw [← Int.sub_bmod_right]
  exact Int.bmod_eq_of_le_mul_two (by omega) (by omega)

theorem neg_le_toInt (x : Nat) : -(2 ^ 31) ≤ toInt x := by
  have hLe : -((2 ^ 32 : Nat) / 2 : Int) ≤ toInt x := Int.le_bmod (by decide)
  omega

section Blocks

/-- Which blocks a request has is a matter of the radix log and the pool. -/
theorem requestBlocks_congr {m m' : Mmio} (hLog : m'.radixlog = m.radixlog) (hEpoch : m'.epoch = m.epoch)
    (hPool : m'.logPool = m.logPool) (hNext : m'.nextLog = m.nextLog) (off n : Nat) :
    m'.requestBlocks off n = m.requestBlocks off n := by
  induction n using Nat.strongRecOn generalizing m m' off with
  | ind n ih =>
    rcases Nat.eq_zero_or_pos n with rfl | hPos
    · rw [requestBlocks_zero, requestBlocks_zero]
    · obtain ⟨part, hPart, hPartPos, hBlocks, _⟩ := m.requestBlocks_pos off hPos
      obtain ⟨part', hPart', _, hBlocks', _⟩ := m'.requestBlocks_pos off hPos
      rw [hLog] at hPart' hBlocks'
      obtain rfl := hPart.trans hPart'.symm
      rw [hBlocks, hBlocks']
      congr 1
      generalize m.radixlog.locate off n = found
      obtain ⟨slot, s, r⟩ := found
      have hTaken : (takeEntry { m' with radixlog := r } slot s).radixlog =
          (takeEntry { m with radixlog := r } slot s).radixlog := by
        simp only [takeEntry, getLogEntry, hEpoch, hPool, hNext]
        cases r.entryAt slot <;> rfl
      apply ih (n - part) (by omega) hTaken
      · simp only [takeEntry, getLogEntry]
        cases r.entryAt slot <;> exact hEpoch
      · simp only [takeEntry, getLogEntry]
        cases r.entryAt slot <;> exact hPool
      · simp only [takeEntry, getLogEntry]
        cases r.entryAt slot with
        | none => exact congrArg (· + 1) hNext
        | some e => exact hNext

theorem requestBlocks_grown (m : Mmio) (remap : Nat → Nat) (target off n : Nat) :
    (m.grown remap target).requestBlocks off n = m.requestBlocks off n := by
  apply requestBlocks_congr <;> rfl

end Blocks

/-- The sum of the pieces that entries of these sizes receive one after the
other, where each piece is at most as long as the one before it. -/
def carriedCount : Nat → Nat → List LogSize → Nat
  | _, _, [] => 0
  | n, off, s :: sizes =>
    min n (s.size - off % s.size) +
      carriedCount (min n (s.size - off % s.size)) (off + min n (s.size - off % s.size)) sizes

/-- The count of a write: the list of entries runs from the last block to the first. -/
def reportedCount (m : Mmio) (off len : Nat) : Nat :=
  carriedCount len off ((m.requestBlocks off len).reverse.map BlockPart.size)

theorem carriedCount_le (n off : Nat) (sizes : List LogSize) :
    carriedCount n off sizes ≤ (sizes.map LogSize.size).sum := by
  induction sizes generalizing n off with
  | nil => exact Nat.le_refl 0
  | cons s sizes ih =>
    have hRest := ih (min n (s.size - off % s.size)) (off + min n (s.size - off % s.size))
    rw [carriedCount, List.map_cons, List.sum_cons]
    omega

/-- Aligned parts fill their blocks, apart from the last one. -/
theorem sum_size_le_of_aligned {off n : Nat} {parts : List BlockPart} (hTiles : Tiles off n parts)
    (hAligned : ∀ b ∈ parts, b.off % b.size.size = 0) :
    ((parts.map BlockPart.size).map LogSize.size).sum ≤ n + 2 ^ lmdShift := by
  induction parts generalizing off n with
  | nil => exact Nat.zero_le _
  | cons b parts ih =>
    obtain ⟨_, hOff, hLen, hRest⟩ := hTiles
    have hStart := hAligned b List.mem_cons_self
    have hSize := b.size.size_le
    rw [hOff] at hStart
    rw [hStart] at hLen
    rw [List.map_cons, List.map_cons, List.sum_cons]
    cases parts with
    | nil =>
      rw [List.map_nil, List.map_nil, List.sum_nil]
      omega
    | cons c parts =>
      have hMore : 0 < n - b.len := hRest.1
      have hSum := ih hRest fun d hd => hAligned d (List.mem_cons_of_mem _ hd)
      omega

theorem sum_size_le (m : Mmio) (hSound : m.radixlog.Sound) (off n : Nat) :
    (((m.requestBlocks off n).map BlockPart.size).map LogSize.size).sum ≤ n + 2 ^ 22 := by
  have hTiles := requestBlocks_tiles m off n
  have hSlots := (lockedBlocks_slots hSound off n).2
  have hStarts := hTiles.aligned fun c hc => ⟨c.slot.table, (hSlots c hc).1, (hSlots c hc).2.1⟩
  generalize m.requestBlocks off n = parts at hTiles hStarts
  cases parts with
  | nil => exact Nat.zero_le _
  | cons b parts =>
    have hSize := b.size.size_le
    have hPos := hTiles.len_pos
    obtain ⟨_, hOff, hLen, hRest⟩ := hTiles
    have hAligned : ∀ c ∈ parts, c.off % c.size.size = 0 := by
      intro c hc
      have hLater := (hRest.part hc).1
      exact (hStarts c (List.mem_cons_of_mem _ hc)).resolve_left (by omega)
    have hSum := sum_size_le_of_aligned hRest hAligned
    rw [List.map_cons, List.map_cons, List.sum_cons]
    rw [lmdShift] at hSize hSum
    omega

/-- The count exceeds the length by less than two of the largest blocks. -/
theorem reportedCount_le (m : Mmio) (hSound : m.radixlog.Sound) (off len : Nat) :
    m.reportedCount off len ≤ len + 2 ^ 22 := by
  have hSizes := sum_size_le m hSound off len
  rw [← List.sum_reverse, ← List.map_reverse, ← List.map_reverse] at hSizes
  exact Nat.le_trans (carriedCount_le len off _) hSizes

section Write

variable {m m' : Mmio} {buf : Nat → UInt8}

theorem writeEntries_ret {bs : List BlockPart} {c c' : Cursor}
    (hEntries : ∀ b ∈ bs, ∃ e, m.radixlog.entryAt b.slot = some e ∧ e.logSize = b.size)
    (h : m.writeEntries buf (bs.map BlockPart.slot) c = .ok (m', c')) :
    c'.ret = c.ret + carriedCount c.n c.off (bs.map BlockPart.size) := by
  induction bs generalizing m c with
  | nil =>
    cases h
    rfl
  | cons b bs ih =>
    obtain ⟨⟨m₁, c₁⟩, hHead, hTail⟩ := bind_eq_ok h
    obtain ⟨e, hEntry, hSize⟩ := hEntries b List.mem_cons_self
    obtain ⟨e₀, e', bytes, hEntry₀, hTag, hFrame⟩ := writeEntry_eq_ok hHead
    rw [hEntry, Option.some.injEq] at hEntry₀
    subst hEntry₀
    obtain ⟨hCursor, _⟩ := writeEntry_advance hEntry hHead
    rw [hFrame] at hTail
    have hRet := ih (m := { m with
        radixlog := m.radixlog.setEntry b.slot (some e'), disk := { m.disk with bytes := bytes } })
      (fun b' hb' => ?_) hTail
    · rw [hRet, hCursor, List.map_cons, carriedCount, Cursor.advance, Cursor.pieceLen, hSize]
      dsimp only
      omega
    · obtain ⟨e₁, hEntry₁, hSize₁⟩ := hEntries b' (List.mem_cons_of_mem _ hb')
      by_cases hSame : b'.slot = b.slot
      · -- the entry has been visited before and has kept its size
        rw [hSame, hEntry, Option.some.injEq] at hEntry₁
        subst hEntry₁
        refine ⟨e', ?_, hTag.logSize.trans hSize₁⟩
        rw [hSame]
        exact entryAt_setEntry_self _ _ _
      · exact ⟨e₁, (entryAt_setEntry_of_ne _ hSame _).trans hEntry₁, hSize₁⟩

theorem locked_entries (hSound : m.radixlog.Sound) {type : LockType} {off n : Nat} {m₁ : Mmio}
    {head : List Slot} (hLock : lockEntries type m n off [] = .ok (m₁, head)) :
    head = (m.requestBlocks off n).reverse.map BlockPart.slot ∧
      ∀ b ∈ (m.requestBlocks off n).reverse,
        ∃ e, m₁.radixlog.entryAt b.slot = some e ∧ e.logSize = b.size := by
  have hRun := lockEntries_run hSound hLock
  obtain ⟨_, _, hEnd, hHead⟩ := (lockEntries_eq_ok_iff type m m₁ off n [] head).mp hLock
  rw [List.append_nil, ← List.map_reverse] at hHead
  refine ⟨hHead, fun b hb => ?_⟩
  obtain ⟨new, hNew, hEntries⟩ := hRun.pushed
  rw [List.append_nil] at hNew
  obtain ⟨e, he⟩ := hEntries b.slot (by
    rw [← hNew, hHead]
    exact List.mem_map_of_mem hb)
  have hSize := ((lockedBlocks_slots hSound off n).2 b (List.mem_reverse.mp hb)).2.1
  rw [← hEnd, hRun.acquires.sound.sizes _ _ he, Option.some.injEq] at hSize
  exact ⟨e, he, hSize⟩

/-- The count of a write: `LOCK_ENTRIES` and the loop take the length as an `int`. -/
theorem mmioWrite_ret {fdWritable : Bool} {remap : Nat → Nat} {off len n : Nat}
    (hSound : m.radixlog.Sound) (h : mmioWrite fdWritable remap m off buf len = .ok (m', n)) :
    n = m.reportedCount off (toInt len).toNat := by
  obtain ⟨m₀, m₁, head, m₂, c, hGrow, hLock, hWrite, hFinish, rfl⟩ := mmioWrite_phases h
  obtain rfl := ensureMapped_eq_ok hGrow
  have hLocked : lockEntries .wr (m.grown remap (off + len)) ((toInt len).toNat : Int) off [] = .ok (m₁, head) := by
    rw [← hLock]
    rcases Int.le_total 0 (toInt len) with hPos | hNeg
    · rw [Int.toNat_of_nonneg hPos]
    · rw [Int.toNat_of_nonpos hNeg, lockEntries_eq, if_neg (by decide), lockEntries_eq, if_neg (by omega)]
  obtain ⟨rfl, hEntries⟩ := locked_entries (m := m.grown remap (off + len)) hSound hLocked
  have hRet := writeEntries_ret hEntries hWrite
  dsimp only at hRet
  rw [requestBlocks_grown, Nat.zero_add] at hRet
  exact hRet

theorem mmioWrite_count {fdWritable : Bool} {remap : Nat → Nat} {off len n : Nat}
    (hSound : m.radixlog.Sound) (hInt : len < 2 ^ 31)
    (h : mmioWrite fdWritable remap m off buf len = .ok (m', n)) :
    n = m.reportedCount off len := by
  have hLen : (toInt len).toNat = len := by
    rw [toInt_of_lt hInt, Int.toNat_natCast]
  rw [mmioWrite_ret hSound h, hLen]

theorem mmioWrite_fsize {fdWritable : Bool} {remap : Nat → Nat} {off len n : Nat}
    (hSound : m.radixlog.Sound) (h : mmioWrite fdWritable remap m off buf len = .ok (m', n)) :
    m'.fsize = max m.fsize (off + n) := by
  obtain ⟨m₁, m₂, hWritten⟩ := mmioWrite_eq_ok hSound h
  obtain ⟨bytes, rfl⟩ := hWritten.finished
  obtain ⟨r, bytes', hEntries⟩ := hWritten.entries.frame
  obtain ⟨r', k, hLocked⟩ := hWritten.locked.frame
  rw [hEntries, hLocked]
  rfl

end Write

section Read

variable {m m' : Mmio} {off len n : Nat} {buf buf' : Nat → UInt8}

theorem mmioRead_count (hSound : m.radixlog.Sound) (h : m.mmioRead off buf len = .ok (m', n, buf')) :
    n = m.clipLen off len ∧ m'.fsize = m.fsize := by
  obtain ⟨⟨m₁, head⟩, hLock, hRest⟩ := bind_eq_ok h
  obtain ⟨data, _, hDone⟩ := bind_eq_ok hRest
  obtain ⟨r, k, rfl⟩ := (lockEntries_run hSound hLock).frame
  obtain ⟨hState, hResult⟩ := Prod.mk.inj (Except.ok.inj hDone)
  refine ⟨(Prod.mk.inj hResult).1.symm.trans ?_, ?_⟩
  · unfold clipLen checkFsize
    rfl
  · rw [← hState]

theorem clipLen_le (hPos : off ≤ m.fsize) (hFits : off + len < 2 ^ 63) :
    m.clipLen off len ≤ len ∧ off + m.clipLen off len ≤ m.fsize := by
  rw [clipLen, checkFsize, toOffT_of_lt hFits, if_neg (Nat.not_lt.mpr hPos)]
  split
  · rename_i hClip
    rw [decide_eq_true_eq] at hClip
    omega
  · rename_i hWhole
    rw [decide_eq_true_eq] at hWhole
    omega

end Read

end Libnvmmio.Mmio

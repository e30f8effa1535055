import Libnvmmio.Mmio.WriteParts

/-! # When a write logs exactly its request

The loop visits the blocks of a request from the last to the first, while its
running offset ascends. The pieces are the parts of the request in its blocks
when the carried length happens to yield them.
-/

namespace Libnvmmio.Mmio

open RangeCopy RadixLog Outcome

set_option autoImplicit false

/-- The pieces partition the request, and each is the intersection of the
request with the log block of its first byte. -/
structure Partitions (r : RadixLog) (off len : Nat) (pieces : List (Nat × Nat)) : Prop where
  cover : ∀ x, (off ≤ x ∧ x < off + len) ↔ ∃ p ∈ pieces, p.1 ≤ x ∧ x < p.1 + p.2
  disjoint : pieces.Pairwise fun p q => ∀ x, ¬ ((p.1 ≤ x ∧ x < p.1 + p.2) ∧ q.1 ≤ x ∧ x < q.1 + q.2)
  one_block : ∀ p ∈ pieces, ∃ table s, r.findLogTable p.1 = some table ∧
    (r.tables table).logSize = some s ∧
    ∀ x, (p.1 ≤ x ∧ x < p.1 + p.2) ↔ (off ≤ x ∧ x < off + len ∧ x / s.size = p.1 / s.size)

/-- `mmio_write` reports and logs exactly its request. -/
def WritesExactly (fdWritable : Bool) (remap : Nat → Nat) (m : Mmio) (off : Nat) (buf : Nat → UInt8)
    (len : Nat) : Prop :=
  ∃ m' pieces, mmioWrite fdWritable remap m off buf len = .ok (m', len) ∧
    m'.fsize = max m.fsize (off + len) ∧
    (∀ buf', (∀ i, i < len → buf' i = buf i) →
      mmioWrite fdWritable remap m off buf' len = mmioWrite fdWritable remap m off buf len) ∧
    loopPieces fdWritable remap m off buf len = .ok pieces ∧ Partitions m'.radixlog off len pieces

/-- The state before the loop lets the loop store the parts of the request: no
entry is met twice, the carried length yields the parts although the entries are
visited in the reverse order, and the copies besides stay in the mapping. -/
structure WriteFits (m : Mmio) (off len : Nat) : Prop where
  distinct : ((m.requestBlocks off len).map BlockPart.slot).Nodup
  carried : Carried len (m.requestBlocks off len) ((m.requestBlocks off len).reverse.map BlockPart.size)
  mapped : ∀ v ∈ (m.requestBlocks off len).zip (m.requestBlocks off len).reverse,
    ∀ e, m.radixlog.entryAt v.2.slot = some e → m.CopiesMapped e v.1.off v.1.len

theorem ensureMapped_eq_ok_iff (fdWritable : Bool) (remap : Nat → Nat) (m m' : Mmio) (off len : Nat) :
    ensureMapped fdWritable remap m off len = .ok m' ↔
      (fdWritable = true ∨ off + len ≤ m.mapLen) ∧ m' = m.grown remap (off + len) := by
  constructor
  · intro h
    refine ⟨?_, ensureMapped_eq_ok h⟩
    cases fdWritable with
    | true => exact .inl rfl
    | false =>
      refine .inr (Nat.le_of_not_lt fun hShort => ?_)
      rw [ensureMapped, checkExpend_eq, if_pos (decide_eq_true hShort), expendMmio_false remap hShort] at h
      cases h
  · rintro ⟨hMay, rfl⟩
    rcases hMay with rfl | hFits
    · exact ensureMapped_true remap m off len
    · rw [ensureMapped, checkExpend_eq, if_neg (by rw [decide_eq_true_eq]; omega), grown_of_le remap hFits]

section Blocks

variable {m : Mmio} {off n : Nat}

theorem partitions_of_eq_parts (hSound : m.radixlog.Sound) {r : RadixLog}
    (hExt : Extended (m.lockedBlocks off n).radixlog r) :
    Partitions r off n ((m.requestBlocks off n).map fun b => (b.off, b.len)) where
  cover x := by
    have hTiles := requestBlocks_tiles m off n
    constructor
    · rintro ⟨hLow, hHigh⟩
      obtain ⟨b, hMem, hIn⟩ := hTiles.cover hLow hHigh
      exact ⟨(b.off, b.len), List.mem_map.mpr ⟨b, hMem, rfl⟩, hIn⟩
    · rintro ⟨p, hMem, hLow, hHigh⟩
      obtain ⟨b, hPart, rfl⟩ := List.mem_map.mp hMem
      have hPart := hTiles.part hPart
      dsimp only at hLow hHigh
      omega
  disjoint := by
    rw [List.pairwise_map]
    refine (requestBlocks_tiles m off n).ascending.imp fun {b c} hUp x hBoth => ?_
    dsimp only at hBoth
    omega
  one_block p hMem := by
    obtain ⟨b, hPart, rfl⟩ := List.mem_map.mp hMem
    obtain ⟨hAcq, hSlots⟩ := lockedBlocks_slots hSound off n
    obtain ⟨hFind, hSize, _⟩ := hSlots b hPart
    have hShape := hAcq.sound.wellFormed.shape
    exact ⟨b.slot.table, b.size, hExt.find hShape hFind,
      hExt.size_kept _ _ (hShape.find_lt hFind) hSize, mem_part_iff hSound hPart⟩

/-- Pieces that follow one another and agree with the parts where they start
together are the parts. -/
theorem pieces_eq_parts {parts : List BlockPart} {pieces : List (Nat × Nat)}
    (hTiles : Tiles off n parts) (hChain : Chained off pieces) (hCount : pieces.length = parts.length)
    (hSame : ∀ b ∈ parts, ∀ p ∈ pieces, p.1 = b.off →
      ∀ x, (p.1 ≤ x ∧ x < p.1 + p.2) ↔ (b.off ≤ x ∧ x < b.off + b.len)) :
    pieces = parts.map fun b => (b.off, b.len) := by
  induction parts generalizing off n pieces with
  | nil => exact List.length_eq_zero_iff.mp hCount
  | cons b parts ih =>
    cases pieces with
    | nil => cases hCount
    | cons p pieces =>
      have hPos := hTiles.len_pos
      obtain ⟨_, hOff, _, hRest⟩ := hTiles
      obtain ⟨hStart, hChain⟩ := hChain
      have hRange := hSame b List.mem_cons_self p List.mem_cons_self (hStart.trans hOff.symm)
      have hLen : p.2 = b.len := by
        have hShort := (hRange (p.1 + p.2)).mpr
        have hLong := (hRange (b.off + b.len)).mp
        omega
      rw [List.map_cons, List.cons.injEq]
      refine ⟨Prod.ext (hStart.trans hOff.symm) hLen, ?_⟩
      rw [hLen] at hChain
      exact ih hRest hChain (Nat.succ.inj hCount) fun c hc q hq =>
        hSame c (List.mem_cons_of_mem _ hc) q (List.mem_cons_of_mem _ hq)

theorem eq_parts_of_partitions (hSound : m.radixlog.Sound) {r : RadixLog}
    (hExt : Extended (m.lockedBlocks off n).radixlog r) {pieces : List (Nat × Nat)}
    (hPartitions : Partitions r off n pieces) (hChain : Chained off pieces)
    (hCount : pieces.length = (m.requestBlocks off n).length) :
    pieces = (m.requestBlocks off n).map fun b => (b.off, b.len) := by
  refine pieces_eq_parts (requestBlocks_tiles m off n) hChain hCount fun b hb p hp hStart x => ?_
  obtain ⟨table, s, hFind, hSize, hBlock⟩ := hPartitions.one_block p hp
  obtain ⟨hAcq, hSlots⟩ := lockedBlocks_slots hSound off n
  obtain ⟨hFindB, hSizeB, _⟩ := hSlots b hb
  have hShape := hAcq.sound.wellFormed.shape
  rw [hStart, hExt.find hShape hFindB, Option.some.injEq] at hFind
  rw [← hFind, hExt.size_kept _ _ (hShape.find_lt hFindB) hSizeB, Option.some.injEq] at hSize
  rw [hBlock x, hStart, ← hSize, mem_part_iff hSound hb]

end Blocks

section Visits

variable {m : Mmio} {off n : Nat}

/-- Each block with the block whose entry is visited in its iteration. -/
def visits (m : Mmio) (off n : Nat) : List (BlockPart × BlockPart) :=
  (m.requestBlocks off n).zip (m.requestBlocks off n).reverse

theorem visits_fst (m : Mmio) (off n : Nat) : (m.visits off n).map Prod.fst = m.requestBlocks off n :=
  List.map_fst_zip (Nat.le_of_eq List.length_reverse.symm)

theorem visits_snd (m : Mmio) (off n : Nat) :
    (m.visits off n).map Prod.snd = (m.requestBlocks off n).reverse :=
  List.map_snd_zip (Nat.le_of_eq List.length_reverse)

theorem visits_slots (m : Mmio) (off n : Nat) :
    (m.visits off n).map (fun v => v.2.slot) = ((m.requestBlocks off n).map BlockPart.slot).reverse := by
  rw [← List.map_reverse, ← visits_snd, List.map_map]
  rfl

theorem visits_sizes (m : Mmio) (off n : Nat) :
    (m.visits off n).map (fun v => v.2.size) = (m.requestBlocks off n).reverse.map BlockPart.size := by
  rw [← visits_snd, List.map_map]
  rfl

theorem visits_parts (m : Mmio) (off n : Nat) :
    (m.visits off n).map (fun v => (v.1.off, v.1.len)) =
      (m.requestBlocks off n).map fun b => (b.off, b.len) := by
  conv_rhs => rw [← visits_fst, List.map_map]
  rfl

theorem mem_blocks_of_visit {v : BlockPart × BlockPart} (h : v ∈ m.visits off n) :
    v.2 ∈ m.requestBlocks off n := by
  have hSnd : v.2 ∈ (m.visits off n).map Prod.snd := List.mem_map.mpr ⟨v, h, rfl⟩
  rw [visits_snd] at hSnd
  exact List.mem_reverse.mp hSnd

/-- The entries that the request installs are empty and copy nothing. -/
theorem copiesMapped_locked_iff {m₁ : Mmio} {slot : Slot} {head : List Slot}
    (hRun : LockRun m [] m₁ head) {x y : Nat} (hInstalled : ∃ e, m₁.radixlog.entryAt slot = some e) :
    (∀ e, m₁.radixlog.entryAt slot = some e → m₁.CopiesMapped e x y) ↔
      ∀ e, m.radixlog.entryAt slot = some e → m.CopiesMapped e x y := by
  obtain ⟨⟨r, k, rfl⟩, hAcq, _⟩ := hRun
  rcases hAcq.entries slot with hSame | ⟨hNone, e, hSome, hFresh⟩
  · rw [hSame]
    exact Iff.rfl
  · refine ⟨fun _ e' he' => ?_, fun _ e' he' => ?_⟩
    · rw [hNone] at he'
      cases he'
    · rw [hSome] at he'
      cases he'
      unfold CopiesMapped
      dsimp only
      split
      · intro hRedo
        rw [hFresh.policy] at hRedo
        cases hRedo
      · intro hLen
        rw [hFresh.len] at hLen
        cases hLen

/-- The loop over the locked entries stores the parts of the request exactly if
the state before the locking lets it. -/
theorem loop_parts_iff (hSound : m.radixlog.Sound) (buf : Nat → UInt8) (hMapped : off + n ≤ m.mapLen)
    {m₁ : Mmio} {head : List Slot} (hLock : lockEntries .wr m n off [] = .ok (m₁, head)) :
    ((∃ r, m₁.writeEntries buf head ⟨n, off, m₁.start + off, 0, 0⟩ = .ok r) ∧
        m₁.writePieces buf head ⟨n, off, m₁.start + off, 0, 0⟩ =
          (m.requestBlocks off n).map fun b => (b.off, b.len)) ↔
      m.WriteFits off n := by
  have hRun := lockEntries_run hSound hLock
  obtain ⟨hNodup, _, hEnd, hHead⟩ := (lockEntries_eq_ok_iff .wr m m₁ off n [] head).mp hLock
  rw [List.append_nil, ← visits_slots] at hHead
  have hInstalled : ∀ v ∈ m.visits off n, ∃ e, m₁.radixlog.entryAt v.2.slot = some e ∧
      e.logSize = v.2.size := by
    intro v hv
    obtain ⟨new, hNew, hEntries⟩ := hRun.pushed
    rw [List.append_nil] at hNew
    obtain ⟨e, he⟩ := hEntries v.2.slot (by
      rw [← hNew, hHead]
      exact List.mem_map.mpr ⟨v, hv, rfl⟩)
    have hSize := ((lockedBlocks_slots hSound off n).2 v.2 (mem_blocks_of_visit hv)).2.1
    have hOwn := hRun.acquires.sound.sizes _ _ he
    rw [← hEnd, hOwn, Option.some.injEq] at hSize
    exact ⟨e, he, hSize⟩
  have hMapLen : m₁.mapLen = m.mapLen := by
    obtain ⟨⟨r, k, rfl⟩, _, _⟩ := hRun
    rfl
  rw [hHead, ← visits_parts, writePieces_eq_iff (m := m₁) (m.visits off n)
    (c := ⟨n, off, m₁.start + off, 0, 0⟩) (n := n)
    (by rw [visits_fst]; exact requestBlocks_tiles m off n)
    (by rw [visits_slots]; exact List.pairwise_reverse.mpr (hNodup.imp Ne.symm)) hInstalled rfl
    (by dsimp only; omega), visits_fst, visits_sizes]
  have hCopies : (∀ v ∈ m.visits off n, ∀ e, m₁.radixlog.entryAt v.2.slot = some e →
      m₁.CopiesMapped e v.1.off v.1.len) ↔
      ∀ v ∈ m.visits off n, ∀ e, m.radixlog.entryAt v.2.slot = some e →
        m.CopiesMapped e v.1.off v.1.len := by
    refine forall₂_congr fun v hv => ?_
    obtain ⟨e, he, _⟩ := hInstalled v hv
    exact copiesMapped_locked_iff hRun ⟨e, he⟩
  rw [hCopies]
  exact ⟨fun ⟨hCarried, hIn⟩ => ⟨hNodup, hCarried, hIn⟩, fun h => ⟨h.carried, h.mapped⟩⟩

end Visits

theorem loopPieces_eq {fdWritable : Bool} {remap : Nat → Nat} {m m₀ m₁ : Mmio} {off len : Nat}
    {head : List Slot} (buf : Nat → UInt8)
    (hGrow : ensureMapped fdWritable remap m off len = .ok m₀)
    (hLock : lockEntries .wr m₀ (toInt len) off [] = .ok (m₁, head)) :
    loopPieces fdWritable remap m off buf len =
      .ok (m₁.writePieces buf head ⟨(toInt len).toNat, off, m₁.start + off, 0, 0⟩) := by
  rw [loopPieces, hGrow, ok_bind, hLock, ok_bind]

section Call

variable {fdWritable : Bool} {remap : Nat → Nat} {m : Mmio} {off len : Nat} {buf : Nat → UInt8}

/-- A call that writes exactly its request had a state that lets it. -/
theorem writeFits_of_writesExactly (hSound : m.radixlog.Sound) (hInt : len < 2 ^ 31)
    (h : WritesExactly fdWritable remap m off buf len) :
    (fdWritable = true ∨ off + len ≤ m.mapLen) ∧ (m.grown remap (off + len)).WriteFits off len := by
  obtain ⟨m', pieces, hOk, _, _, hPieces, hPartitions⟩ := h
  obtain ⟨m₀, m₁, head, m₂, c, hGrow, hLock, hWrite, hFinish, _⟩ := mmioWrite_phases hOk
  cases (loopPieces_eq buf hGrow hLock).symm.trans hPieces
  rw [toInt_of_lt hInt, Int.toNat_natCast] at hWrite hPartitions
  rw [toInt_of_lt hInt] at hLock
  obtain ⟨hMay, rfl⟩ := (ensureMapped_eq_ok_iff fdWritable remap m m₀ off len).mp hGrow
  have hRun := lockEntries_run (m := m.grown remap (off + len)) hSound hLock
  obtain ⟨_, _, hEnd, hHead⟩ := (lockEntries_eq_ok_iff .wr _ m₁ off len [] head).mp hLock
  have hWritten := writeEntries_written hRun.acquires.sound hWrite
  have hSame : m'.radixlog = m₂.radixlog := by
    obtain ⟨bytes, rfl⟩ := finishWrite_eq_ok hFinish
    rfl
  have hExt := hWritten.extended
  rw [hEnd, ← hSame] at hExt
  have hPieces := eq_parts_of_partitions (m := m.grown remap (off + len)) hSound hExt hPartitions
    (writePieces_chained m₁ buf head ⟨len, off, m₁.start + off, 0, 0⟩) (by
      rw [(writeEntries_counts hWrite).2.2, hHead]
      simp)
  exact ⟨hMay, (loop_parts_iff (m := m.grown remap (off + len)) hSound buf
    (le_grownLen m.mapLen (off + len)).2 hLock).mp ⟨⟨_, hWrite⟩, hPieces⟩⟩

theorem writesExactly_of_writeFits (hSound : m.radixlog.Sound) (hInt : len < 2 ^ 31)
    (hMay : fdWritable = true ∨ off + len ≤ m.mapLen)
    (h : (m.grown remap (off + len)).WriteFits off len) :
    WritesExactly fdWritable remap m off buf len := by
  have hGrow := (ensureMapped_eq_ok_iff fdWritable remap m _ off len).mpr ⟨hMay, rfl⟩
  have hLock := (lockEntries_eq_ok_iff .wr (m.grown remap (off + len)) _ off len [] _).mpr
    ⟨h.distinct, fun _ _ hMem => (by cases hMem), rfl, rfl⟩
  have hMapped : off + len ≤ (m.grown remap (off + len)).mapLen := (le_grownLen m.mapLen (off + len)).2
  obtain ⟨⟨⟨m₂, c⟩, hWrite⟩, hPieces⟩ :=
    (loop_parts_iff (m := m.grown remap (off + len)) hSound buf hMapped hLock).mpr h
  have hPartition : ∀ r, Extended ((m.grown remap (off + len)).lockedBlocks off len).radixlog r →
      Partitions r off len
        (((m.grown remap (off + len)).requestBlocks off len).map fun b => (b.off, b.len)) :=
    fun r hExt => partitions_of_eq_parts (m := m.grown remap (off + len)) hSound hExt
  have hRun := lockEntries_run (m := m.grown remap (off + len)) hSound hLock
  generalize hLocked : (m.grown remap (off + len)).lockedBlocks off len = m₁ at *
  generalize ((m.grown remap (off + len)).requestBlocks off len).map BlockPart.slot = slots at *
  obtain ⟨hSrc, hRet, _⟩ := writeEntries_counts hWrite
  have hSum : ((m₁.writePieces buf (slots.reverse ++ []) ⟨len, off, m₁.start + off, 0, 0⟩).map
      Prod.snd).sum = len := by
    rw [hPieces, List.map_map]
    exact (requestBlocks_tiles (m.grown remap (off + len)) off len).sum_len
  rw [hSum, Nat.zero_add] at hSrc hRet
  have hWritten := writeEntries_written hRun.acquires.sound hWrite
  have hEnd : off + len ≤ m₂.mapLen := by
    obtain ⟨⟨r, bytes, rfl⟩, _⟩ := hWritten
    obtain ⟨⟨r', k, rfl⟩, _⟩ := hRun
    exact hMapped
  have hFsize : m₂.fsize = m.fsize := by
    obtain ⟨⟨r, bytes, rfl⟩, _⟩ := hWritten
    obtain ⟨⟨r', k, rfl⟩, _⟩ := hRun
    rfl
  have hCall : ∀ buf', (∀ i, i < len → buf' i = buf i) →
      mmioWrite fdWritable remap m off buf' len = .ok ({ m₂ with
        write := m₂.write + 1
        disk := { m₂.disk with bytes := fileAfter m₂.policy m₂.disk.bytes off buf len }
        fsize := max m₂.fsize (off + len) }, len) := by
    intro buf' hSame
    have hLoop := writeEntries_congr hWrite (Nat.le_of_eq hSrc) hSame
    rw [mmioWrite, hGrow, ok_bind, toInt_of_lt hInt, hLock, ok_bind]
    dsimp only
    rw [Int.toNat_natCast, hLoop, ok_bind]
    dsimp only
    rw [hRet, finishWrite_congr hSame, finishWrite_spec buf hEnd, ok_bind]
  have hOwn := hCall buf fun _ _ => rfl
  rw [← toInt_of_lt hInt] at hLock
  refine ⟨_, _, hOwn, ?_, fun buf' hSame => (hCall buf' hSame).trans hOwn.symm,
    loopPieces_eq buf hGrow hLock, ?_⟩
  · dsimp only
    rw [hFsize]
  · rw [toInt_of_lt hInt, Int.toNat_natCast, hPieces]
    exact hPartition _ hWritten.extended

/-- A write reports and logs exactly its request if and only if the descriptor
may extend a mapping that is too short, and the state lets the loop store the
parts of the request. -/
theorem writesExactly_iff (fdWritable : Bool) (remap : Nat → Nat) (m : Mmio)
    (hSound : m.radixlog.Sound) (off : Nat) (buf : Nat → UInt8) (len : Nat) (hInt : len < 2 ^ 31) :
    WritesExactly fdWritable remap m off buf len ↔
      (fdWritable = true ∨ off + len ≤ m.mapLen) ∧
        (m.grown remap (off + len)).WriteFits off len :=
  ⟨writeFits_of_writesExactly hSound hInt, fun h => writesExactly_of_writeFits hSound hInt h.1 h.2⟩

end Call

theorem requestBlocks_oneBlock {m : Mmio} {off n : Nat} (hPos : 0 < n)
    (hBlock : off % (m.radixlog.locate off n).2.1.size + n ≤ (m.radixlog.locate off n).2.1.size) :
    m.requestBlocks off n = [⟨(m.radixlog.locate off n).1, (m.radixlog.locate off n).2.1, off, n⟩] := by
  obtain ⟨part, hPart, _, hBlocks, _⟩ := m.requestBlocks_pos off hPos
  have hAll : part = n := by omega
  rw [hBlocks, hAll, Nat.sub_self, requestBlocks_zero]

theorem writeFits_of_oneBlock {m : Mmio} {off n : Nat} (hPos : 0 < n)
    (hBlock : off % (m.radixlog.locate off n).2.1.size + n ≤ (m.radixlog.locate off n).2.1.size)
    (hCopies : ∀ e, m.radixlog.entryAt (m.radixlog.locate off n).1 = some e → m.CopiesMapped e off n) :
    m.WriteFits off n := by
  have hOne := requestBlocks_oneBlock hPos hBlock
  refine ⟨?_, ?_, ?_⟩
  · rw [hOne]
    exact List.nodup_cons.mpr ⟨nofun, List.nodup_nil⟩
  · rw [hOne]
    refine ⟨?_, trivial⟩
    dsimp only
    omega
  · rw [hOne]
    intro v hv
    obtain rfl := List.mem_singleton.mp hv
    exact hCopies

theorem writesExactly_oneByteFile :
    WritesExactly true (fun _ => 2 ^ 21) oneByteFile 0 (fun _ => 1) 1 := by
  refine (writesExactly_iff true (fun _ => 2 ^ 21) oneByteFile oneByteFile_opened.sound 0 (fun _ => 1)
    1 (by decide)).mpr ⟨.inl rfl, ?_⟩
  rw [grown_of_le _ (by decide)]
  refine writeFits_of_oneBlock (by decide) (by decide) fun e he => ?_
  rw [show oneByteFile.radixlog = initRadixlog 1 from rfl, (initRadixlog_chain 1).entries] at he
  cases he

/-- The parts that the carried length yields do not become longer. -/
theorem Carried.le {n : Nat} {b c : BlockPart} {parts : List BlockPart} {sizes : List LogSize}
    (h : Carried n (b :: c :: parts) sizes) : c.len ≤ b.len := by
  cases sizes with
  | nil => exact h.elim
  | cons s sizes =>
    cases sizes with
    | nil => exact h.2.elim
    | cons s' sizes =>
      have hNext := h.2.1
      omega

/-- Three bytes around the end of the first block: the piece of one byte in the
first block is followed by another one of one byte. -/
theorem writesExactly_fails_carriedLength :
    ¬ WritesExactly true (fun _ => 2 ^ 21) fourPageFile 8191 (fun _ => 1) 3 := by
  intro h
  have hFits := (writeFits_of_writesExactly fourPageFile_sound (by decide) h).2
  rw [grown_of_le _ (by decide)] at hFits
  have hCarried := hFits.carried
  obtain ⟨first, hFirst, _, hBlocks, _⟩ := fourPageFile.requestBlocks_pos 8191 (n := 3) (by decide)
  have hSize : (fourPageFile.radixlog.locate 8191 3).2.1.size = 8192 := by decide
  rw [hSize] at hFirst
  have hOne : first = 1 := hFirst
  subst hOne
  obtain ⟨second, hSecond, _, hRest, _⟩ := requestBlocks_pos
    (takeEntry { fourPageFile with radixlog := (fourPageFile.radixlog.locate 8191 3).2.2 }
      (fourPageFile.radixlog.locate 8191 3).1 (fourPageFile.radixlog.locate 8191 3).2.1) (8191 + 1)
    (n := 3 - 1) (by decide)
  have hTwo : second = 2 := hSecond.trans (by decide)
  subst hTwo
  rw [hBlocks, hRest] at hCarried
  exact absurd hCarried.le (by decide)

end Libnvmmio.Mmio

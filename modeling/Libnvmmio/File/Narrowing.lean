import Libnvmmio.File.Positions

/-! # The integers on the path of a request

`LOCK_ENTRIES` and `mmio_write` take the length into an `int`, and `read` and
`write` take the count into one. They hold their values up to 2 GiB.
-/

namespace Libnvmmio.Inode

open Mmio RadixLog Outcome GuardedRun

set_option autoImplicit false

/-! ## What the calls promise -/

/-- Whenever `LOCK_ENTRIES` ends, the locked entries are those of the bytes of the request. -/
def LocksRequest (type : LockType) (m : Mmio) (off len : Nat) : Prop :=
  ∀ m' head, lockEntries type m (toInt len) off [] = .ok (m', head) → ∀ slot, slot ∈ head ↔
    ∃ x, off ≤ x ∧ x < off + len ∧ m'.radixlog.slotAt x = some slot

def movedBy (n : Inode) (fd : Nat) (file : FileT) (m : Mmio) (ref : Int) (count : Nat) : Inode :=
  ⟨n.setFile fd { file with pos := file.pos + count }, .hashed m ref⟩

/-- No integer on the path of `read` loses its value. -/
structure ReadExact (n : Inode) (fd : Nat) (file : FileT) (m : Mmio) (ref : Int) (off : Nat)
    (buf : Nat → UInt8) (len : Nat) : Prop where
  length : toInt len = len
  locks : LocksRequest .rd m off len
  count : ∀ n' ret buf', n.read fd file m ref buf len = .ok (n', .read ret buf') →
    ∃ m' count, m.mmioRead off buf len = .ok (m', count, buf') ∧ ret = (count : Nat) ∧
      n' = n.movedBy fd file m' ref count

/-- No integer on the path of `write` loses its value. -/
structure WriteExact (n : Inode) (fd : Nat) (file : FileT) (m : Mmio) (ref : Int) (off : Nat)
    (remap : Nat → Nat) (buf : Nat → UInt8) (len : Nat) : Prop where
  length : toInt len = len
  locks : ∀ m₀, ensureMapped file.flags.writable remap m off len = .ok m₀ → LocksRequest .wr m₀ off len
  count : ∀ n' ret, n.write fd file m ref remap buf len = .ok (n', .written ret) →
    ∃ m' count, mmioWrite file.flags.writable remap m off buf len = .ok (m', count) ∧
      ret = (count : Nat) ∧ n' = n.movedBy fd file m' ref count

def Exact (n : Inode) (fd : Nat) (file : FileT) (m : Mmio) (ref : Int) (off : Nat) : FileCall → Prop
  | .read buf len => n.ReadExact fd file m ref off buf len
  | .write remap buf len => n.WriteExact fd file m ref off remap buf len
  | .lseek _ _ => True
  | .fsync => True
  | .close => True

/-- The length fits an `int`, and the count of a write that returns does too. -/
def FitsInt (n : Inode) (fd : Nat) (file : FileT) (m : Mmio) (ref : Int) (off : Nat) : FileCall → Prop
  | .read _ len => len < 2 ^ 31
  | .write remap buf len => len < 2 ^ 31 ∧
      ((∃ r, n.write fd file m ref remap buf len = .ok r) → m.reportedCount off len < 2 ^ 31)
  | .lseek _ _ => True
  | .fsync => True
  | .close => True

def EndsBelow (bound pos : Int) : FileCall → Prop
  | .read _ len => pos + len < bound
  | .write _ _ len => pos + len < bound
  | .lseek _ _ => True
  | .fsync => True
  | .close => True

section Requests

variable {n : Inode} {fd : Nat} {file : FileT} {m : Mmio} {ref : Int} {off len : Nat} {buf : Nat → UInt8}

theorem locksRequest_of_int (type : LockType) (hSound : m.radixlog.Sound) (off : Nat) (hInt : len < 2 ^ 31) :
    LocksRequest type m off len := by
  intro m' head hLock slot
  rw [toInt_of_lt hInt] at hLock
  obtain ⟨_, _, rfl, rfl⟩ := (lockEntries_eq_ok_iff type m m' off len [] head).mp hLock
  rw [List.append_nil]
  exact mem_head_iff hSound slot

theorem advance_eq_movedBy (hPos : file.pos = off) (hLow : off < 2 ^ 48) (m' : Mmio) {count : Nat}
    (hCount : count < 2 ^ 31) : n.advance fd file ref m' count = n.movedBy fd file m' ref count := by
  rw [advance, movedBy, toInt_of_lt hCount, addOff_of_lt (by omega) (by omega)]

theorem read_eq (hPos : file.pos = off) : n.read fd file m ref buf len =
    (m.mmioRead off buf len >>= fun r => .ok (n.advance fd file ref r.1 r.2.1, .read (toInt r.2.1) r.2.2)) := by
  unfold read
  rw [hPos]

theorem write_eq (hPos : file.pos = off) (remap : Nat → Nat) : n.write fd file m ref remap buf len =
    (mmioWrite file.flags.writable remap m off buf len >>= fun r =>
      .ok (n.advance fd file ref r.1 r.2, .written (toInt r.2))) := by
  unfold write
  rw [hPos]

theorem readExact_iff (hSound : m.radixlog.Sound) (hPos : file.pos = off) (hIn : off ≤ m.fsize)
    (hEnd : off + len < 2 ^ 48) : n.ReadExact fd file m ref off buf len ↔ len < 2 ^ 31 := by
  refine ⟨fun h => (toInt_eq_iff len).mp h.length, fun hInt => ⟨toInt_of_lt hInt, ?_, ?_⟩⟩
  · exact locksRequest_of_int .rd hSound off hInt
  · intro n' ret buf' hOk
    rw [read_eq hPos] at hOk
    obtain ⟨⟨m', count, buf''⟩, hRead, hDone⟩ := bind_eq_ok hOk
    obtain ⟨hState, hResult⟩ := Prod.mk.inj (Except.ok.inj hDone)
    obtain ⟨hRet, rfl⟩ := Result.read.inj hResult
    obtain ⟨hCount, _⟩ := mmioRead_count hSound hRead
    have hClip := m.clipLen_le hIn (by omega : off + len < 2 ^ 63)
    have hSmall : count < 2 ^ 31 := by omega
    refine ⟨m', count, hRead, ?_, ?_⟩
    · rw [← hRet, toInt_of_lt hSmall]
    · rw [← hState, advance_eq_movedBy hPos (by omega) m' hSmall]

theorem writeExact_iff (hSound : m.radixlog.Sound) (hPos : file.pos = off) (remap : Nat → Nat)
    (hEnd : off + len < 2 ^ 48) : n.WriteExact fd file m ref off remap buf len ↔
      len < 2 ^ 31 ∧ ((∃ r, n.write fd file m ref remap buf len = .ok r) →
        m.reportedCount off len < 2 ^ 31) := by
  constructor
  · intro h
    have hInt : len < 2 ^ 31 := (toInt_eq_iff len).mp h.length
    refine ⟨hInt, ?_⟩
    rintro ⟨⟨n', result⟩, hOk⟩
    have hWrite := hOk
    rw [write_eq hPos] at hWrite
    obtain ⟨⟨m', count⟩, hMmio, hDone⟩ := bind_eq_ok hWrite
    obtain ⟨_, rfl⟩ := Prod.mk.inj (Except.ok.inj hDone)
    obtain ⟨m'', count', hMmio', hRet, _⟩ := h.count n' _ hOk
    rw [hMmio, Except.ok.injEq, Prod.mk.injEq] at hMmio'
    obtain ⟨_, rfl⟩ := hMmio'
    rw [← mmioWrite_count hSound hInt hMmio]
    exact (toInt_eq_iff count).mp hRet
  · rintro ⟨hInt, hCount⟩
    refine ⟨toInt_of_lt hInt, ?_, ?_⟩
    · intro m₀ hGrow
      obtain rfl := ensureMapped_eq_ok hGrow
      exact locksRequest_of_int .wr (m := m.grown remap (off + len)) hSound off hInt
    · intro n' ret hOk
      have hSmall := hCount ⟨_, hOk⟩
      rw [write_eq hPos] at hOk
      obtain ⟨⟨m', count⟩, hMmio, hDone⟩ := bind_eq_ok hOk
      obtain ⟨hState, hResult⟩ := Prod.mk.inj (Except.ok.inj hDone)
      rw [← mmioWrite_count hSound hInt hMmio] at hSmall
      refine ⟨m', count, hMmio, ?_, ?_⟩
      · rw [← Result.written.inj hResult, toInt_of_lt hSmall]
      · rw [← hState, advance_eq_movedBy hPos (by omega) m' hSmall]

end Requests

/-! ## Positions up to the end of the file -/

def Moderate (n : Inode) : Call → Prop
  | .open _ _ _ => True
  | .onFile fd c => ∀ file m ref, n.files.lookup fd = some file → n.backing = .hashed m ref →
      EndsBelow (2 ^ 62) file.pos c

/-- No call takes a position past the end, also where a count turns negative. -/
theorem notPastEnd_kept : Kept (fun pos fsize => pos ≤ fsize) Moderate where
  start size := Int.natCast_nonneg size
  mono pos size size' h hLe := by omega
  keeps n fd c file m ref m' pos hGuard hFile hBacking hSound hPos hArrives := by
    have hEnd := hGuard file m ref hFile hBacking
    cases c with
    | read buf len =>
      obtain ⟨hSize, off, hOff, hMoved⟩ := hArrives
      have hBelow : file.pos + len < 2 ^ 62 := hEnd
      obtain ⟨_, hClip⟩ : m.clipLen off len ≤ len ∧ off + m.clipLen off len ≤ m.fsize :=
        m.clipLen_le (by omega) (by omega)
      have hUp := toInt_le (m.clipLen off len)
      have hTop := toInt_lt (m.clipLen off len)
      have hBottom := neg_le_toInt (m.clipLen off len)
      rw [hMoved, addOff_of_lt (by omega) (by omega)]
      omega
    | write remap buf len =>
      obtain ⟨off, count, hOff, hSize, _, hMoved⟩ := hArrives
      have hBelow : file.pos + len < 2 ^ 62 := hEnd
      have hUp := toInt_le count
      have hTop := toInt_lt count
      have hBottom := neg_le_toInt count
      rw [hMoved, addOff_of_lt (by omega) (by omega), hSize]
      omega
    | lseek offset whence =>
      obtain ⟨hSize, hSeek⟩ := hArrives
      rw [hSize]
      exact (seek_eq_ok hSeek).1
    | fsync =>
      obtain ⟨hSize, rfl⟩ := hArrives
      rw [hSize]
      exact hPos
    | close => exact hArrives.elim

/-- In every run, a request of a descriptor loses no value exactly if its length
fits an `int` and so does the count that the blocks of a write add up to. -/
theorem exact_iff_fitsInt {policy : Policy} {disk : Disk} {calls : List Call} {n : Inode} {fd : Nat}
    {file : FileT} {m : Mmio} {ref : Int} {off : Nat} {c : FileCall}
    (hRun : Run (Guarded Moderate (Guarded FreshFd (Steps (call policy)))) (closed disk) calls n)
    (hFile : n.files.lookup fd = some file) (hBacking : n.backing = .hashed m ref)
    (hPos : file.pos = off) (hEnd : EndsBelow (2 ^ 48) off c) :
    n.Exact fd file m ref off c ↔ n.FitsInt fd file m ref off c := by
  obtain ⟨hCounted, hNotPast⟩ := notPastEnd_kept.run hRun
  obtain ⟨_, _, hBacked⟩ := hCounted.hashed m ref hBacking
  have hIn : file.pos ≤ m.fsize := hNotPast m ref hBacking _ (mem_of_lookup hFile)
  cases c with
  | read buf len =>
    have hBelow : (off : Int) + len < 2 ^ 48 := hEnd
    exact readExact_iff hBacked.sound hPos (by omega) (by omega)
  | write remap buf len =>
    have hBelow : (off : Int) + len < 2 ^ 48 := hEnd
    exact writeExact_iff hBacked.sound hPos remap (by omega)
  | lseek => exact Iff.rfl
  | fsync => exact Iff.rfl
  | close => exact Iff.rfl

theorem moderate_openOneByte :
    Run (Guarded Moderate (Guarded FreshFd (Steps (call .undo)))) (closed ⟨1, fun _ => 0⟩) [openOneByte]
      (oneByteAt 0) :=
  .cons ⟨trivial, step_openOneByte⟩ (.nil _)

theorem exact_oneByte :
    (oneByteAt 0).ReadExact 3 ⟨.rdWr, 0⟩ oneByteFile 1 0 (fun _ => 0) 1 := by
  have hFits : (oneByteAt 0).FitsInt 3 ⟨.rdWr, 0⟩ oneByteFile 1 0 (.read (fun _ => 0) 1) :=
    (by decide : 1 < 2 ^ 31)
  have hEnd : EndsBelow (2 ^ 48) 0 (.read (fun _ => 0) 1) := by
    show ((0 : Nat) : Int) + (1 : Nat) < 2 ^ 48
    decide
  have hExact : (oneByteAt 0).Exact 3 ⟨.rdWr, 0⟩ oneByteFile 1 0 (.read (fun _ => 0) 1) :=
    (exact_iff_fitsInt moderate_openOneByte rfl rfl rfl hEnd).mpr hFits
  exact hExact

/-- A request of 2 GiB at the start of a file just opened locks nothing, since its
length is negative as an `int`. -/
theorem exact_fails_twoGiB :
    Run (Guarded Moderate (Guarded FreshFd (Steps (call .undo)))) (closed ⟨1, fun _ => 0⟩) [openOneByte]
        (oneByteAt 0) ∧
      lockEntries .rd oneByteFile (toInt (2 ^ 31)) 0 [] = .ok (oneByteFile, []) ∧
      ¬ (oneByteAt 0).ReadExact 3 ⟨.rdWr, 0⟩ oneByteFile 1 0 (fun _ => 0) (2 ^ 31) ∧
      ¬ (oneByteAt 0).WriteExact 3 ⟨.rdWr, 0⟩ oneByteFile 1 0 (fun _ => 0) (fun _ => 0) (2 ^ 31) := by
  have hNegative : toInt (2 ^ 31) = -(2 ^ 31) := by decide
  refine ⟨moderate_openOneByte, ?_, fun h => ?_, fun h => ?_⟩
  · rw [lockEntries_eq, hNegative, if_neg (by decide)]
  · exact absurd ((toInt_eq_iff (2 ^ 31)).mp h.length) (by decide)
  · exact absurd ((toInt_eq_iff (2 ^ 31)).mp h.length) (by decide)

end Libnvmmio.Inode

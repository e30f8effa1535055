import Libnvmmio.File.Descriptors
import Libnvmmio.Mmio.ReportedCount

/-! # The positions of the descriptors

`lseek` compares its target with the end of the file only, and a count moves the
position as the `int` that received it. A position is in the file as long as no
call moves it by more than these checks and types hold.
-/

namespace Libnvmmio.Inode

open Mmio RadixLog Outcome GuardedRun

set_option autoImplicit false

theorem addOff_of_lt {a b : Int} (hLow : -(2 ^ 63) ≤ a + b) (hHigh : a + b < 2 ^ 63) :
    addOff a b = a + b := by
  unfold addOff
  exact Int.bmod_eq_of_le_mul_two (by omega) (by omega)

/-- A sum that `off_t` does not hold comes out below zero. -/
theorem addOff_neg {a b : Int} (hHigh : 2 ^ 63 ≤ a + b) (hSum : a + b < 2 ^ 64) : addOff a b < 0 := by
  have hTurn : addOff a b = a + b - 2 ^ 64 := by
    unfold addOff
    rw [← Int.sub_bmod_right]
    exact Int.bmod_eq_of_le_mul_two (by omega) (by omega)
  omega

def Positions (P : Int → Nat → Prop) (n : Inode) : Prop :=
  ∀ m ref, n.backing = .hashed m ref → ∀ f ∈ n.files, P f.2.pos m.fsize

def InFile (n : Inode) : Prop := n.Positions fun pos fsize => 0 ≤ pos ∧ pos ≤ fsize

def seekTarget (fsize pos offset : Int) : Whence → Int
  | .seekSet => offset
  | .seekCur => addOff pos offset
  | .seekEnd => addOff fsize offset

theorem seek_eq_ok {fsize pos offset p : Int} {whence : Whence}
    (h : seek fsize pos offset whence = .ok p) : p ≤ fsize ∧ p = seekTarget fsize pos offset whence := by
  have hCheck : (if fsize < seekTarget fsize pos offset whence then .error Failure.exit
      else .ok (seekTarget fsize pos offset whence)) = Except.ok p := by
    cases whence <;> exact h
  split at hCheck
  · cases hCheck
  · rename_i hEnd
    cases hCheck
    exact ⟨Int.not_lt.mp hEnd, rfl⟩

def Arrives (m m' : Mmio) (pos : Int) : FileCall → Int → Prop
  | .read _ len, pos' => m'.fsize = m.fsize ∧ ∃ off : Nat, pos = off ∧
      pos' = addOff pos (toInt (m.clipLen off len))
  | .write _ _ len, pos' => ∃ off count : Nat, pos = off ∧ m'.fsize = max m.fsize (off + count) ∧
      (len < 2 ^ 31 → count = m.reportedCount off len) ∧ pos' = addOff pos (toInt count)
  | .lseek offset whence, pos' => m'.fsize = m.fsize ∧ seek m.fsize pos offset whence = .ok pos'
  | .fsync, pos' => m'.fsize = m.fsize ∧ pos' = pos
  | .close, _ => False

section Calls

variable {n n' : Inode} {fd : Nat} {file : FileT} {m : Mmio} {ref : Int} {c : FileCall} {result : Result}

theorem setFile_mem (hFile : n.files.lookup fd = some file) (file' : FileT) :
    (fd, file') ∈ n.setFile fd file' :=
  List.mem_map.mpr ⟨(fd, file), mem_of_lookup hFile, if_pos rfl⟩

theorem callFile_arrives (hSound : m.radixlog.Sound) (hFile : n.files.lookup fd = some file)
    (hOpen : c ≠ .close) (hOk : n.callFile fd file m ref c = .ok (n', result)) :
    ∃ m' pos, n'.backing = .hashed m' ref ∧ Arrives m m' file.pos c pos ∧
      (∀ f ∈ n'.files, f ∈ n.files ∨ f = (fd, { file with pos := pos })) ∧
      (fd, { file with pos := pos }) ∈ n'.files := by
  cases c with
  | read buf len =>
    obtain ⟨off, m', count, buf', hOff, hRead, rfl⟩ := read_eq_ok hOk
    obtain ⟨hCount, hSize⟩ := mmioRead_count hSound hRead
    refine ⟨m', addOff file.pos (toInt count), rfl, ⟨hSize, off, hOff, ?_⟩, fun f => mem_setFile,
      setFile_mem hFile _⟩
    rw [hCount]
  | write remap buf len =>
    obtain ⟨off, m', count, hOff, hWrite, rfl⟩ := write_eq_ok hOk
    exact ⟨m', _, rfl, ⟨off, count, hOff, mmioWrite_fsize hSound hWrite,
      fun hInt => mmioWrite_count hSound hInt hWrite, rfl⟩, fun f => mem_setFile, setFile_mem hFile _⟩
  | lseek offset whence =>
    obtain ⟨pos, hSeek, hDone⟩ := bind_eq_ok hOk
    cases hDone
    exact ⟨m, pos, rfl, ⟨rfl, hSeek⟩, fun f => mem_setFile, setFile_mem hFile _⟩
  | fsync =>
    obtain ⟨m', hCommit, hDone⟩ := bind_eq_ok hOk
    rw [commitMmio_spec] at hCommit
    cases hCommit
    cases hDone
    exact ⟨_, file.pos, rfl, ⟨rfl, rfl⟩, fun f hf => .inl hf, mem_of_lookup hFile⟩
  | close => exact absurd rfl hOpen

theorem Arrives.fsize_le {m' : Mmio} {pos pos' : Int} (h : Arrives m m' pos c pos') :
    m.fsize ≤ m'.fsize := by
  cases c with
  | read => exact Nat.le_of_eq h.1.symm
  | write =>
    obtain ⟨off, count, _, hSize, _⟩ := h
    rw [hSize]
    exact Nat.le_max_left _ _
  | lseek => exact Nat.le_of_eq h.1.symm
  | fsync => exact Nat.le_of_eq h.1.symm
  | close => exact h.elim

end Calls

/-! ## The condition -/

/-- The call takes the position to where `off_t` and `int` can take it, and not
before the start. The second alternative of a write is a count that the `int`
turns negative at a position that is still larger. -/
def StaysIn (m : Mmio) (pos : Int) : FileCall → Prop
  | .read _ len => len < 2 ^ 31 ∧ pos + len < 2 ^ 63
  | .write _ _ len => len < 2 ^ 31 ∧ pos + m.reportedCount pos.toNat len < 2 ^ 63 ∧
      (m.reportedCount pos.toNat len < 2 ^ 31 ∨ 2 ^ 32 ≤ pos + m.reportedCount pos.toNat len)
  | .lseek offset .seekSet => 0 ≤ offset
  | .lseek offset .seekCur => 0 ≤ pos + offset ∧ pos + offset < 2 ^ 63
  | .lseek offset .seekEnd => 0 ≤ m.fsize + offset ∧ m.fsize + offset < 2 ^ 63
  | .fsync => True
  | .close => True

section Arrival

variable {m m' : Mmio} {pos pos' : Int} {c : FileCall}

theorem Arrives.in_file (h : Arrives m m' pos c pos') (hSound : m.radixlog.Sound)
    (hPos : 0 ≤ pos ∧ pos ≤ m.fsize) (hStays : StaysIn m pos c) : 0 ≤ pos' ∧ pos' ≤ m'.fsize := by
  cases c with
  | read buf len =>
    obtain ⟨hSize, off, rfl, hMoved⟩ := h
    obtain ⟨hInt, hFits⟩ := hStays
    obtain ⟨hLen, hEnd⟩ : m.clipLen off len ≤ len ∧ off + m.clipLen off len ≤ m.fsize :=
      m.clipLen_le (by omega) (by omega)
    have hCount : toInt (m.clipLen off len) = m.clipLen off len :=
      toInt_of_lt (Nat.lt_of_le_of_lt hLen hInt)
    rw [hMoved, hCount, addOff_of_lt (by omega) (by omega)]
    omega
  | write remap buf len =>
    obtain ⟨off, count, rfl, hSize, hCount, hMoved⟩ := h
    obtain ⟨hInt, hFits, hTurn⟩ := hStays
    have hMost := m.reportedCount_le hSound off len
    rw [Int.toNat_natCast, ← hCount hInt] at hFits hTurn
    rw [← hCount hInt] at hMost
    have hMove : toInt count = count ∨ toInt count = count - 2 ^ 32 ∧ 2 ^ 32 ≤ (off : Int) + count := by
      rcases Nat.lt_or_ge count (2 ^ 31) with hSmall | hLarge
      · exact .inl (toInt_of_lt hSmall)
      · exact .inr ⟨toInt_of_ge hLarge (by omega), hTurn.resolve_left (by omega)⟩
    rw [hMoved, addOff_of_lt (by omega) (by omega), hSize]
    omega
  | lseek offset whence =>
    obtain ⟨hSize, hSeek⟩ := h
    obtain ⟨hEnd, hTarget⟩ := seek_eq_ok hSeek
    refine ⟨?_, by omega⟩
    cases whence with
    | seekSet => exact hTarget ▸ hStays
    | seekCur =>
      obtain ⟨hLow, hHigh⟩ := hStays
      rw [hTarget, seekTarget, addOff_of_lt (by omega) hHigh]
      exact hLow
    | seekEnd =>
      obtain ⟨hLow, hHigh⟩ := hStays
      rw [hTarget, seekTarget, addOff_of_lt (by omega) hHigh]
      exact hLow
  | fsync =>
    obtain ⟨hSize, rfl⟩ := h
    omega
  | close => exact h.elim

/-- Requests and positions that are not longer than their types, or so large that a block more is. -/
def Typed (m : Mmio) (pos : Int) : FileCall → Prop
  | .read _ len => len < 2 ^ 31 ∧ pos + len < 2 ^ 63
  | .write _ _ len => len < 2 ^ 31 ∧ pos + len + 2 ^ 22 < 2 ^ 63
  | .lseek offset _ => -(2 ^ 63) ≤ offset ∧ offset < 2 ^ 63 ∧ m.fsize < 2 ^ 63
  | .fsync => True
  | .close => True

/-- A call of any other kind leaves its position before the start of the file. -/
theorem Arrives.stays_in (h : Arrives m m' pos c pos') (hSound : m.radixlog.Sound)
    (hPos : 0 ≤ pos ∧ pos ≤ m.fsize) (hTyped : Typed m pos c) (hStart : 0 ≤ pos') : StaysIn m pos c := by
  cases c with
  | read buf len => exact hTyped
  | write remap buf len =>
    obtain ⟨off, count, rfl, _, hCount, hMoved⟩ := h
    obtain ⟨hInt, hFits⟩ := hTyped
    have hMost := m.reportedCount_le hSound off len
    rw [StaysIn, Int.toNat_natCast]
    rw [← hCount hInt] at hMost ⊢
    refine ⟨hInt, by omega, ?_⟩
    rcases Nat.lt_or_ge count (2 ^ 31) with hSmall | hLarge
    · exact .inl hSmall
    · have hTurn := toInt_of_ge hLarge (by omega)
      rw [hMoved, addOff_of_lt (by omega) (by omega)] at hStart
      exact .inr (by omega)
  | lseek offset whence =>
    obtain ⟨hLow, hHigh, hSize⟩ := hTyped
    obtain ⟨_, hTarget⟩ := seek_eq_ok h.2
    rw [hTarget] at hStart
    have hSum : ∀ a : Int, 0 ≤ a → a < 2 ^ 63 → 0 ≤ addOff a offset → 0 ≤ a + offset ∧ a + offset < 2 ^ 63 := by
      intro a ha ha' hSum
      have hBelow : a + offset < 2 ^ 63 := by
        apply Int.not_le.mp
        intro hOver
        exact absurd (addOff_neg hOver (by omega)) (Int.not_lt.mpr hSum)
      rw [addOff_of_lt (by omega) hBelow] at hSum
      exact ⟨hSum, hBelow⟩
    cases whence with
    | seekSet => exact hStart
    | seekCur => exact hSum pos hPos.1 (by omega) hStart
    | seekEnd => exact hSum m.fsize (by omega) (by omega) hStart
  | fsync => trivial
  | close => trivial

end Arrival

/-! ## Runs -/

/-- A fact of positions and sizes that an open makes true, a longer file leaves
true, and every guarded call keeps. -/
structure Kept (P : Int → Nat → Prop) (guard : Inode → Call → Prop) : Prop where
  start : ∀ size, P 0 size
  mono : ∀ pos size size', P pos size → size ≤ size' → P pos size'
  keeps : ∀ n fd c file m ref m' pos, guard n (.onFile fd c) → n.files.lookup fd = some file →
    n.backing = .hashed m ref → m.radixlog.Sound → P file.pos m.fsize → Arrives m m' file.pos c pos →
    P pos m'.fsize

section Steps

variable {P : Int → Nat → Prop} {policy : Policy} {n n' : Inode} {fd : Nat} {file : FileT} {m : Mmio}
  {ref : Int}

theorem Positions.open (h : n.Positions P) (hStart : ∀ size, P 0 size) (hCounted : n.Counted)
    {flags : AccMode} {p : Provision} (hOk : n.libnvmmioOpen policy fd flags p = .ok n') :
    n'.Positions P := by
  unfold libnvmmioOpen at hOk
  cases hBacking : n.backing with
  | hashed m ref =>
    rw [hBacking] at hOk
    cases hOk
    rintro m' ref' ⟨⟩ f hf
    rcases List.mem_cons.mp hf with rfl | hOld
    · exact hStart m.fsize
    · exact h m ref hBacking f hOld
  | released disk =>
    rw [hBacking] at hOk
    obtain ⟨m, _, hDone⟩ := bind_eq_ok hOk
    cases hDone
    rintro m' ref' ⟨⟩ f hf
    rw [hCounted.released disk hBacking, List.mem_singleton] at hf
    subst hf
    exact hStart m.fsize

theorem Positions.close (h : n.Positions P) (hBacking : n.backing = .hashed m ref) {result : Result}
    (hOk : n.callFile fd file m ref .close = .ok (n', result)) : n'.Positions P := by
  obtain ⟨backing, hDelete, hDone⟩ := bind_eq_ok hOk
  cases hDone
  rintro m' ref' hHashed f hf
  have hMem : f ∈ n.files := (List.mem_filter.mp hf).1
  unfold deleteMmioHash at hDelete
  dsimp only at hDelete hHashed
  split at hDelete
  · obtain ⟨disk, _, hReleased⟩ := bind_eq_ok hDelete
    cases hReleased
    cases hHashed
  · cases hDelete
    cases hHashed
    exact h m ref hBacking f hMem

theorem Positions.callFile (h : n.Positions P)
    (hMono : ∀ pos size size', P pos size → size ≤ size' → P pos size') (hSound : m.radixlog.Sound)
    (hFile : n.files.lookup fd = some file) (hBacking : n.backing = .hashed m ref) {c : FileCall}
    (hOpen : c ≠ .close) {result : Result} (hOk : n.callFile fd file m ref c = .ok (n', result))
    (hCall : ∀ m' pos, Arrives m m' file.pos c pos → P pos m'.fsize) : n'.Positions P := by
  obtain ⟨m', pos, hBacking', hArrives, hFiles, _⟩ := callFile_arrives hSound hFile hOpen hOk
  intro m'' ref'' hHashed f hf
  cases hBacking'.symm.trans hHashed
  rcases hFiles f hf with hOld | rfl
  · exact hMono _ _ _ (h m ref hBacking f hOld) hArrives.fsize_le
  · exact hCall m' pos hArrives

theorem Kept.step {guard : Inode → Call → Prop} (hKept : Kept P guard) (hCounted : n.Counted)
    (h : n.Positions P) {c : Call} (hGuard : guard n c) {result : Result}
    (hOk : n.call policy c = .ok (n', result)) : n'.Positions P := by
  cases c with
  | «open» fd flags provision =>
    obtain ⟨n₁, hOpen, hDone⟩ := bind_eq_ok hOk
    cases hDone
    exact h.open hKept.start hCounted hOpen
  | onFile fd c =>
    rcases onFile_cases hOk with rfl | ⟨file, m, ref, hFile, hBacking, hCall⟩
    · exact h
    · obtain ⟨_, _, hBacked⟩ := hCounted.hashed m ref hBacking
      by_cases hClose : c = .close
      · subst hClose
        exact h.close hBacking hCall
      · apply h.callFile hKept.mono hBacked.sound hFile hBacking hClose hCall
        intro m' pos hArrives
        exact hKept.keeps n fd c file m ref m' pos hGuard hFile hBacking hBacked.sound
          (h m ref hBacking _ (mem_of_lookup hFile)) hArrives

theorem Kept.run {guard : Inode → Call → Prop} (hKept : Kept P guard) {disk : Disk} {calls : List Call}
    (hRun : Run (Guarded guard (Guarded FreshFd (Steps (call policy)))) (closed disk) calls n) :
    n.Counted ∧ n.Positions P := by
  apply hRun.invariant fun n => n.Counted ∧ n.Positions P
  · rintro s c t ⟨hCounted, hPositions⟩ ⟨hGuard, hStep⟩
    obtain ⟨result, hOk⟩ := hStep.2
    exact ⟨hCounted.step hStep, hKept.step hCounted hPositions hGuard hOk⟩
  · refine ⟨closed_counted disk, ?_⟩
    intro m ref hBacking
    cases hBacking

/-- A call on a descriptor whose arguments fit their types keeps all positions in
the file exactly if it meets the condition. -/
theorem inFile_callFile_iff (h : n.InFile) (hSound : m.radixlog.Sound)
    (hFile : n.files.lookup fd = some file) (hBacking : n.backing = .hashed m ref) {c : FileCall}
    (hOpen : c ≠ .close) (hTyped : Typed m file.pos c) {result : Result}
    (hOk : n.callFile fd file m ref c = .ok (n', result)) : n'.InFile ↔ StaysIn m file.pos c := by
  have hPos := h m ref hBacking _ (mem_of_lookup hFile)
  constructor
  · intro hIn
    obtain ⟨m', pos, hBacking', hArrives, _, hMoved⟩ := callFile_arrives hSound hFile hOpen hOk
    exact hArrives.stays_in hSound hPos hTyped (hIn m' ref hBacking' _ hMoved).1
  · intro hStays
    apply Positions.callFile h (by omega) hSound hFile hBacking hOpen hOk
    intro m' pos hArrives
    exact hArrives.in_file hSound hPos hStays

end Steps

def StaysInside (n : Inode) : Call → Prop
  | .open _ _ _ => True
  | .onFile fd c => ∀ file m ref, n.files.lookup fd = some file → n.backing = .hashed m ref →
      StaysIn m file.pos c

theorem inFile_kept : Kept (fun pos fsize => 0 ≤ pos ∧ pos ≤ fsize) StaysInside where
  start size := ⟨Int.le_refl 0, Int.natCast_nonneg size⟩
  mono pos size size' h hLe := by omega
  keeps n fd c file m ref m' pos hGuard hFile hBacking hSound hPos hArrives :=
    hArrives.in_file hSound hPos (hGuard file m ref hFile hBacking)

/-- In a run whose calls all meet the condition, every position is in the file in every state. -/
theorem inFile_of_run {policy : Policy} {disk : Disk} {calls : List Call} {n : Inode}
    (hRun : Run (Guarded StaysInside (Guarded FreshFd (Steps (call policy)))) (closed disk) calls n) :
    n.InFile :=
  (inFile_kept.run hRun).2

def oneByteAt (pos : Int) : Inode := ⟨[(3, ⟨.rdWr, pos⟩)], .hashed oneByteFile 1⟩

def openOneByte : Call := .open 3 .rdWr ⟨0, fun _ _ => 0, 2 ^ 21⟩

theorem step_openOneByte : Guarded FreshFd (Steps (call .undo)) (closed ⟨1, fun _ => 0⟩) openOneByte
    (oneByteAt 0) :=
  ⟨rfl, .success, rfl⟩

theorem step_seekOneByte (whence : Whence) {pos offset pos' : Int}
    (hSeek : seek 1 pos offset whence = .ok pos') :
    Guarded FreshFd (Steps (call .undo)) (oneByteAt pos) (.onFile 3 (.lseek offset whence)) (oneByteAt pos') := by
  refine ⟨trivial, .position pos', ?_⟩
  change (oneByteAt pos).lseek 3 ⟨.rdWr, pos⟩ oneByteFile 1 offset whence = _
  rw [lseek]
  change (seek 1 pos offset whence >>= _) = _
  rw [hSeek]
  rfl

theorem staysInside_oneByte {pos offset : Int} {whence : Whence}
    (h : StaysIn oneByteFile pos (.lseek offset whence)) :
    (oneByteAt pos).StaysInside (.onFile 3 (.lseek offset whence)) := by
  rintro file m ref ⟨⟩ ⟨⟩
  exact h

/-- To the end and one byte back. -/
theorem inFile_oneByte : (oneByteAt 0).InFile := by
  have hOpen : (closed ⟨1, fun _ => 0⟩).StaysInside openOneByte := trivial
  have hEnd : (oneByteAt 0).StaysInside (.onFile 3 (.lseek 0 .seekEnd)) :=
    staysInside_oneByte ⟨by decide, by decide⟩
  have hBack : (oneByteAt 1).StaysInside (.onFile 3 (.lseek (-1) .seekCur)) :=
    staysInside_oneByte ⟨by decide, by decide⟩
  exact inFile_of_run (.cons ⟨hOpen, step_openOneByte⟩ (.cons ⟨hEnd, step_seekOneByte .seekEnd rfl⟩
    (.cons ⟨hBack, step_seekOneByte .seekCur rfl⟩ (.nil _))))

/-- A seek to before the start is not refused. -/
theorem inFile_fails_negativeSeek :
    ∃ n, Calls .undo (closed ⟨1, fun _ => 0⟩) [openOneByte, .onFile 3 (.lseek (-1) .seekSet)] n ∧
      ¬ n.InFile := by
  refine ⟨oneByteAt (-1), .cons step_openOneByte (.cons (step_seekOneByte .seekSet rfl) (.nil _)), ?_⟩
  intro h
  have hStart := (h oneByteFile 1 rfl _ List.mem_cons_self).1
  exact absurd hStart (by decide)

end Libnvmmio.Inode

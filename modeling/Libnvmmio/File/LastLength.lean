import Libnvmmio.File.Descriptors

/-! # The length of a file after the last close

`posix_fallocate` lengthens the file at open and with the mapping, and
`release_mmio` trims it through the descriptor that happens to close last.
-/

namespace Libnvmmio.Inode

open Mmio RadixLog Outcome GuardedRun

set_option autoImplicit false

/-- The file has the logical length, and whatever open comes next starts from it. -/
structure LengthKept (policy : Policy) (fsize : Nat) (disk : Disk) : Prop where
  length : disk.length = fsize
  reopened : ∀ fd flags provision n', (closed disk).libnvmmioOpen policy fd flags provision = .ok n' →
    ∃ m, n'.backing = .hashed m 1 ∧ m.fsize = fsize

theorem lengthKept_iff {policy : Policy} {fsize : Nat} {disk : Disk} :
    LengthKept policy fsize disk ↔ disk.length = fsize := by
  refine ⟨fun h => h.length, fun hLength => ⟨hLength, fun fd flags p n' hOk => ?_⟩⟩
  obtain ⟨m, hNewMmio, hDone⟩ := bind_eq_ok hOk
  cases hDone
  obtain ⟨len, _, _, _, rfl⟩ := getNewMmio_eq_ok hNewMmio
  exact ⟨_, rfl, hLength⟩

theorem releaseMmio_length {m : Mmio} (h : m.Backed) (fdWritable : Bool) :
    (m.releaseMmio fdWritable).length = m.fsize ↔ fdWritable = true ∨ m.mapLen = m.fsize := by
  have hLength := h.length
  cases fdWritable with
  | true => exact ⟨fun _ => .inl rfl, fun _ => rfl⟩
  | false =>
    change m.disk.length = m.fsize ↔ _
    rw [hLength]
    exact ⟨.inr, fun hEither => hEither.resolve_left (by decide)⟩

theorem closeMmio_length {m : Mmio} (h : m.Backed) {fdWritable : Bool} {disk : Disk}
    (hOk : m.closeMmio fdWritable = .ok disk) :
    disk.length = m.fsize ↔ fdWritable = true ∨ m.mapLen = m.fsize := by
  obtain ⟨m', hCheckpoint, hDone⟩ := bind_eq_ok hOk
  cases hDone
  have hStep : Steps perform m .checkpoint m' := ⟨.done, by rw [perform, hCheckpoint, ok_bind]⟩
  have hBacked := h.step hStep
  have hSame : m'.fsize = m.fsize ∧ m'.mapLen = m.mapLen := by
    obtain ⟨r, bytes, rfl⟩ := (checkpointFrom_checkpointed hCheckpoint).frame
    exact ⟨rfl, rfl⟩
  rw [← hSame.1, ← hSame.2]
  exact releaseMmio_length hBacked fdWritable

section LastClose

variable {policy : Policy} {n n' : Inode} {fd : Nat} {file : FileT} {m : Mmio} {ref : Int}

theorem Counted.last_close (h : n.Counted) (hLast : n.files = [(fd, file)])
    (hBacking : n.backing = .hashed m ref) {result : Result}
    (hOk : n.call policy (.onFile fd .close) = .ok (n', result)) :
    ∃ disk, n' = closed disk ∧ m.closeMmio file.flags.writable = .ok disk := by
  obtain ⟨hRef, _, _⟩ := h.hashed m ref hBacking
  have hFile : n.files.lookup fd = some file := by
    rw [hLast, List.lookup_cons_self]
  have hOne : ref - 1 ≤ 0 := by
    rw [hRef, hLast, List.length_singleton]
    decide
  unfold call at hOk
  dsimp only at hOk
  rw [hFile, hBacking] at hOk
  obtain ⟨backing, hDelete, hDone⟩ := bind_eq_ok hOk
  cases hDone
  rw [deleteMmioHash, if_pos hOne] at hDelete
  obtain ⟨disk, hClose, hReleased⟩ := bind_eq_ok hDelete
  cases hReleased
  refine ⟨disk, ?_, hClose⟩
  rw [hLast, closed]
  simp

end LastClose

/-- In every run, the last close leaves the file with its logical length exactly
when it goes through a descriptor that is open for writing, or nothing is to be trimmed. -/
theorem lengthKept_iff_writable {policy : Policy} {disk₀ : Disk} {calls : List Call} {n n' : Inode}
    {fd : Nat} {file : FileT} {m : Mmio} {ref : Int} {result : Result}
    (hRun : Calls policy (closed disk₀) calls n) (hLast : n.files = [(fd, file)])
    (hBacking : n.backing = .hashed m ref)
    (hClose : n.call policy (.onFile fd .close) = .ok (n', result)) :
    ∃ disk, n' = closed disk ∧
      (LengthKept policy m.fsize disk ↔ file.flags.writable = true ∨ m.mapLen = m.fsize) := by
  have hCounted := Calls.counted hRun
  obtain ⟨_, _, hBacked⟩ := hCounted.hashed m ref hBacking
  obtain ⟨disk, hClosed, hOk⟩ := hCounted.last_close hLast hBacking hClose
  exact ⟨disk, hClosed, lengthKept_iff.trans (closeMmio_length hBacked hOk)⟩

section SharedFile

def emptyFile : Mmio :=
  ⟨2 ^ 21, defaultMmapSize, 0, .undo, initRadixlog defaultMmapSize, 0, 0, 0, false,
    ⟨defaultMmapSize, fun _ => 0⟩, fun _ _ => 0, 0⟩

def emptyProvision : Provision := ⟨0, fun _ _ => 0, 2 ^ 21⟩

theorem getNewMmio_emptyFile :
    getNewMmio .undo 0 (fun _ _ => 0) (2 ^ 21) true ⟨0, fun _ => 0⟩ = .ok emptyFile := rfl

theorem emptyFile_opened : emptyFile.Opened := ⟨_, _, _, _, _, _, getNewMmio_emptyFile⟩

/-- A file created empty, open through a writable and a read-only descriptor,
after a write of one byte. -/
def sharedFile (m : Mmio) : Inode := ⟨[(4, ⟨.rdOnly, 0⟩), (3, ⟨.rdWr, 1⟩)], .hashed m 2⟩

def sharedCalls : List Call :=
  [.open 3 .rdWr emptyProvision, .open 4 .rdOnly emptyProvision,
    .onFile 3 (.write (fun _ => 2 ^ 21) (fun _ => 1) 1)]

theorem exists_sharedFile : ∃ m, Calls .undo (closed ⟨0, fun _ => 0⟩) sharedCalls (sharedFile m) ∧
    m.fsize = 1 ∧ m.mapLen = defaultMmapSize ∧
    ∀ fdWritable, ∃ disk, m.closeMmio fdWritable = .ok disk := by
  have hOpen := emptyFile_opened
  have hBlock : emptyFile.InBlock 0 1 := inBlock_of_le_page emptyFile (by decide)
  obtain ⟨m₁, slot, s, bytes, e₁, e, m, hWrite, hStages⟩ := mmioWrite_stages (fun _ => 2 ^ 21)
    (fun _ => 1) hOpen.tidy (fun _ => hOpen.atHome) hBlock (fun _ => .inl rfl) Nat.zero_lt_one
  have hFrame := hStages.writeFrame hOpen.tidy
  have hStep : Steps perform emptyFile (.write true (fun _ => 2 ^ 21) 0 (fun _ => 1) 1) m :=
    ⟨.wrote 1, by rw [perform, hWrite, ok_bind]⟩
  have hClosable : m.Closable := by
    apply (hOpen.closable (by decide)).step ⟨fun hRedo => ?_, hStep⟩
    cases hRedo
  have hSkip : m.radixlog.SkipSized := by
    rw [hStages.result]
    exact (hStages.slot_of.setEntry slot (some e)).skipSized
  refine ⟨m, ?_, hFrame.fsize, ?_, fun fdWritable => ?_⟩
  · refine .cons ⟨rfl, .success, rfl⟩ (.cons ⟨rfl, .success, rfl⟩ (.cons ⟨trivial, .written 1, ?_⟩ (.nil _)))
    change write ⟨_, _⟩ 3 ⟨.rdWr, 0⟩ emptyFile 2 (fun _ => 2 ^ 21) (fun _ => 1) 1 = _
    change (mmioWrite true (fun _ => 2 ^ 21) emptyFile 0 (fun _ => 1) 1 >>= _) = _
    rw [hWrite, ok_bind]
    rfl
  · rw [hFrame.mapLen, grownLen, if_neg (by decide)]
    rfl
  · obtain ⟨m', hOk, _⟩ := hClosable.checkpoint_of_undo hFrame.policy hSkip
    exact ⟨_, by rw [closeMmio, hOk, ok_bind]⟩

theorem sharedFile_close (m : Mmio) :
    call .undo (sharedFile m) (.onFile 3 .close) = .ok (⟨[(4, ⟨.rdOnly, 0⟩)], .hashed m 1⟩, .success) ∧
    call .undo (sharedFile m) (.onFile 4 .close) = .ok (⟨[(3, ⟨.rdWr, 1⟩)], .hashed m 1⟩, .success) :=
  ⟨rfl, rfl⟩

theorem last_close_succeeds {m : Mmio} (fd : Nat) (file : FileT) {disk : Disk}
    (hOk : m.closeMmio file.flags.writable = .ok disk) :
    call .undo ⟨[(fd, file)], .hashed m 1⟩ (.onFile fd .close) = .ok (closed disk, .success) := by
  unfold call
  dsimp only
  rw [List.lookup_cons_self]
  dsimp only [callFile, close, deleteMmioHash]
  rw [if_pos (by decide), hOk, ok_bind, ok_bind, closed]
  simp

/-- The writable descriptor closes last. -/
theorem lengthKept_sharedFile : ∃ n m disk, Calls .undo (closed ⟨0, fun _ => 0⟩)
    (sharedCalls ++ [.onFile 4 .close]) n ∧ n.backing = .hashed m 1 ∧
    n.call .undo (.onFile 3 .close) = .ok (closed disk, .success) ∧ LengthKept .undo m.fsize disk := by
  obtain ⟨m, hRun, _, _, hClose⟩ := exists_sharedFile
  obtain ⟨disk, hOk⟩ := hClose true
  have hRun' : Calls .undo (closed ⟨0, fun _ => 0⟩) (sharedCalls ++ [.onFile 4 .close])
      ⟨[(3, ⟨.rdWr, 1⟩)], .hashed m 1⟩ :=
    hRun.snoc ⟨trivial, .success, (sharedFile_close m).2⟩
  have hLast := last_close_succeeds 3 ⟨.rdWr, 1⟩ hOk
  obtain ⟨disk', hClosed, hIff⟩ := lengthKept_iff_writable hRun' rfl rfl hLast
  cases hClosed
  exact ⟨_, m, disk, hRun', rfl, hLast, hIff.mpr (.inl rfl)⟩

/-- The read-only descriptor closes last, and a file of one byte stays 1 MiB long. -/
theorem lengthKept_fails_readOnly : ∃ n m disk, Calls .undo (closed ⟨0, fun _ => 0⟩)
    (sharedCalls ++ [.onFile 3 .close]) n ∧ n.backing = .hashed m 1 ∧
    n.call .undo (.onFile 4 .close) = .ok (closed disk, .success) ∧
    ¬ LengthKept .undo m.fsize disk := by
  obtain ⟨m, hRun, hFsize, hMapLen, hClose⟩ := exists_sharedFile
  obtain ⟨disk, hOk⟩ := hClose false
  have hRun' : Calls .undo (closed ⟨0, fun _ => 0⟩) (sharedCalls ++ [.onFile 3 .close])
      ⟨[(4, ⟨.rdOnly, 0⟩)], .hashed m 1⟩ :=
    hRun.snoc ⟨trivial, .success, (sharedFile_close m).1⟩
  have hLast := last_close_succeeds 4 ⟨.rdOnly, 0⟩ hOk
  obtain ⟨_, _, hBacked⟩ := (Calls.counted hRun').hashed m 1 rfl
  refine ⟨_, m, disk, hRun', rfl, hLast, fun hKept => ?_⟩
  rcases (closeMmio_length hBacked hOk).mp hKept.length with hWritable | hTrimmed
  · cases hWritable
  · rw [hMapLen, hFsize] at hTrimmed
    exact absurd hTrimmed (by decide)

end SharedFile

end Libnvmmio.Inode

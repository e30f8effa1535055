import Libnvmmio.Mmio.LastClose

/-! # The descriptors of one inode

The calls of one thread on the descriptors of one inode, as `file.c` makes them
of calls on its object. `file_hash.c` counts the references: the first open
makes the object, the last close releases it.
-/

namespace Libnvmmio

open Mmio RadixLog Outcome GuardedRun

set_option autoImplicit false

/-- `flags & O_ACCMODE` -/
inductive AccMode where
  | rdOnly | wrOnly | rdWr
  deriving DecidableEq, Repr

/-- `(flags & O_ACCMODE) > 0` -/
def AccMode.writable : AccMode → Bool
  | .rdOnly => false
  | .wrOnly => true
  | .rdWr => true

structure FileT where
  flags : AccMode
  pos : Int

/-- What holds the data of the inode: the file alone, or an object in the hash with its `ref`. -/
inductive Backing where
  | released (disk : Disk)
  | hashed (mmio : Mmio) (ref : Int)

structure Inode where
  files : List (Nat × FileT)
  backing : Backing

/-- What `get_new_mmio` is provided with: an object of the pool with the epoch of
its last use, log buffers, and the address that `mmap` returns. -/
structure Provision where
  epoch : Nat
  logPool : Nat → Nat → UInt8
  addr : Nat

inductive Whence where
  | seekSet | seekCur | seekEnd
  deriving DecidableEq, Repr

inductive FileCall where
  | read (buf : Nat → UInt8) (len : Nat)
  | write (remap : Nat → Nat) (buf : Nat → UInt8) (len : Nat)
  | lseek (offset : Int) (whence : Whence)
  | fsync
  | close

/-- The calls of the program. `posix.open` has returned the descriptor of an `open`. -/
inductive Call where
  | «open» (fd : Nat) (flags : AccMode) (provision : Provision)
  | onFile (fd : Nat) (call : FileCall)

/-- What a call returns. A call on another descriptor goes to the file system. -/
inductive Result where
  | read (ret : Int) (buf : Nat → UInt8)
  | written (ret : Int)
  | position (pos : Int)
  | success
  | posix

namespace Inode

def addOff (a b : Int) : Int := Int.bmod (a + b) (2 ^ 64)

def setFile (n : Inode) (fd : Nat) (file : FileT) : List (Nat × FileT) :=
  n.files.map fun f => if f.1 = fd then (fd, file) else f

/-- `libnvmmio_open`: `get_mmio_hash`, or `get_new_mmio` and `put_mmio_hash`. -/
def libnvmmioOpen (policy : Policy) (n : Inode) (fd : Nat) (flags : AccMode) (p : Provision) :
    Except Failure Inode :=
  match n.backing with
  | .hashed m ref => .ok ⟨(fd, ⟨flags, 0⟩) :: n.files, .hashed m (ref + 1)⟩
  | .released disk => do
    let m ← getNewMmio policy p.epoch p.logPool p.addr flags.writable disk
    .ok ⟨(fd, ⟨flags, 0⟩) :: n.files, .hashed m 1⟩

def deleteMmioHash (backing : Backing) (flags : AccMode) : Except Failure Backing :=
  match backing with
  | .hashed m ref =>
    if ref - 1 ≤ 0 then do
      let disk ← m.closeMmio flags.writable
      .ok (.released disk)
    else .ok (.hashed m (ref - 1))
  | .released disk => .ok (.released disk)

/-- The position check of `lseek`; a position past the end exits. -/
def seek (fsize pos offset : Int) (whence : Whence) : Except Failure Int :=
  let target := match whence with
    | .seekSet => offset
    | .seekCur => addOff pos offset
    | .seekEnd => addOff fsize offset
  if fsize < target then .error .exit else .ok target

section Functions

variable (n : Inode) (fd : Nat) (file : FileT) (m : Mmio) (ref : Int)

/-- The state after a read or write of `ret` bytes, as the `int` that receives `ret` has it. -/
def advance (m : Mmio) (ret : Nat) : Inode :=
  ⟨n.setFile fd { file with pos := addOff file.pos (toInt ret) }, .hashed m ref⟩

/-- `read`. At a negative position it accesses the memory before the mapping, and so does `write`. -/
def read (buf : Nat → UInt8) (len : Nat) : Except Failure (Inode × Result) :=
  match file.pos with
  | .negSucc _ => .error .unmapped
  | .ofNat off => do
    let (m, ret, buf) ← m.mmioRead off buf len
    .ok (n.advance fd file ref m ret, .read (toInt ret) buf)

def write (remap : Nat → Nat) (buf : Nat → UInt8) (len : Nat) : Except Failure (Inode × Result) :=
  match file.pos with
  | .negSucc _ => .error .unmapped
  | .ofNat off => do
    let (m, ret) ← mmioWrite file.flags.writable remap m off buf len
    .ok (n.advance fd file ref m ret, .written (toInt ret))

def lseek (offset : Int) (whence : Whence) : Except Failure (Inode × Result) := do
  let pos ← seek m.fsize file.pos offset whence
  .ok (⟨n.setFile fd { file with pos := pos }, .hashed m ref⟩, .position pos)

def fsync : Except Failure (Inode × Result) := do
  let m ← m.commitMmio
  .ok (⟨n.files, .hashed m ref⟩, .success)

def close : Except Failure (Inode × Result) := do
  let backing ← deleteMmioHash (.hashed m ref) file.flags
  .ok (⟨n.files.filter fun f => f.1 != fd, backing⟩, .success)

end Functions

def callFile (n : Inode) (fd : Nat) (file : FileT) (m : Mmio) (ref : Int) :
    FileCall → Except Failure (Inode × Result)
  | .read buf len => n.read fd file m ref buf len
  | .write remap buf len => n.write fd file m ref remap buf len
  | .lseek offset whence => n.lseek fd file m ref offset whence
  | .fsync => n.fsync m ref
  | .close => n.close fd file m ref

def call (policy : Policy) (n : Inode) : Call → Except Failure (Inode × Result)
  | .open fd flags provision => do
    let n ← n.libnvmmioOpen policy fd flags provision
    .ok (n, .success)
  | .onFile fd c =>
    match n.files.lookup fd, n.backing with
    | some file, .hashed m ref => n.callFile fd file m ref c
    | _, _ => .ok (n, .posix)

def FreshFd (n : Inode) : Call → Prop
  | .open fd _ _ => n.files.lookup fd = none
  | .onFile _ _ => True

def closed (disk : Disk) : Inode := ⟨[], .released disk⟩

abbrev Calls (policy : Policy) : Inode → List Call → Inode → Prop :=
  Run (Guarded FreshFd (Steps (call policy)))

/-- The invariant: `ref` counts the descriptors, and the object is there as long as one is open. -/
structure Counted (n : Inode) : Prop where
  nodup : (n.files.map Prod.fst).Nodup
  hashed : ∀ m ref, n.backing = .hashed m ref →
    ref = n.files.length ∧ n.files ≠ [] ∧ m.Backed
  released : ∀ disk, n.backing = .released disk → n.files = []

theorem closed_counted (disk : Disk) : (closed disk).Counted where
  nodup := List.nodup_nil
  hashed m ref h := by cases h
  released _ _ := rfl

section Files

variable {n : Inode} {fd : Nat} {file : FileT}

theorem setFile_keys (n : Inode) (fd : Nat) (file : FileT) :
    (n.setFile fd file).map Prod.fst = n.files.map Prod.fst := by
  rw [setFile, List.map_map]
  apply List.map_congr_left
  intro f _
  dsimp only [Function.comp]
  split
  · rename_i hSame
    exact hSame.symm
  · rfl

theorem mem_of_lookup (hFile : n.files.lookup fd = some file) : (fd, file) ∈ n.files := by
  obtain ⟨before, behind, hSplit, _⟩ := List.lookup_eq_some_iff.mp hFile
  rw [hSplit]
  exact List.mem_append_right _ List.mem_cons_self

theorem mem_setFile {fd' : Nat} {file' : FileT} {f : Nat × FileT} (h : f ∈ n.setFile fd' file') :
    f ∈ n.files ∨ f = (fd', file') := by
  obtain ⟨f', hMem, hEq⟩ := List.mem_map.mp h
  split at hEq
  · exact .inr hEq.symm
  · exact .inl (hEq ▸ hMem)

theorem length_close (hNodup : (n.files.map Prod.fst).Nodup) (hFile : n.files.lookup fd = some file) :
    (n.files.filter fun f => f.1 != fd).length + 1 = n.files.length := by
  obtain ⟨before, behind, hSplit, hOther⟩ := List.lookup_eq_some_iff.mp hFile
  rw [hSplit, List.map_append, List.map_cons] at hNodup
  have hBefore : before.filter (fun f => f.1 != fd) = before := by
    rw [List.filter_eq_self]
    intro f hMem
    have hNe := hOther f hMem
    rw [bne_iff_ne] at hNe ⊢
    exact hNe.symm
  have hBehind : behind.filter (fun f => f.1 != fd) = behind := by
    rw [List.filter_eq_self]
    intro f hMem
    rw [bne_iff_ne]
    intro hSame
    have hKey : f.1 ∈ behind.map Prod.fst := List.mem_map_of_mem hMem
    rw [hSame] at hKey
    exact (List.nodup_cons.mp (List.nodup_append.mp hNodup).2.1).1 hKey
  rw [hSplit, List.filter_append, List.filter_cons_of_neg (by simp), hBefore, hBehind,
    List.length_append, List.length_append, List.length_cons]
  omega

end Files

section Calls

variable {policy : Policy} {n n' : Inode} {fd : Nat} {file : FileT} {m : Mmio} {ref : Int} {result : Result}

theorem read_eq_ok {buf : Nat → UInt8} {len : Nat} (hOk : n.read fd file m ref buf len = .ok (n', result)) :
    ∃ off m' count buf', file.pos = Int.ofNat off ∧ m.mmioRead off buf len = .ok (m', count, buf') ∧
      n' = n.advance fd file ref m' count := by
  unfold read at hOk
  split at hOk
  · cases hOk
  · rename_i off hOff
    obtain ⟨⟨m', count, buf'⟩, hRead, hDone⟩ := bind_eq_ok hOk
    obtain ⟨rfl, _⟩ := Prod.mk.inj (Except.ok.inj hDone)
    exact ⟨off, m', count, buf', hOff, hRead, rfl⟩

theorem write_eq_ok {remap : Nat → Nat} {buf : Nat → UInt8} {len : Nat}
    (hOk : n.write fd file m ref remap buf len = .ok (n', result)) :
    ∃ off m' count, file.pos = Int.ofNat off ∧
      mmioWrite file.flags.writable remap m off buf len = .ok (m', count) ∧
      n' = n.advance fd file ref m' count := by
  unfold write at hOk
  split at hOk
  · cases hOk
  · rename_i off hOff
    obtain ⟨⟨m', count⟩, hWrite, hDone⟩ := bind_eq_ok hOk
    cases hDone
    exact ⟨off, m', count, hOff, hWrite, rfl⟩

/-- A call on a descriptor that is not in the table goes to the file system. -/
theorem onFile_cases {c : FileCall} (hOk : n.call policy (.onFile fd c) = .ok (n', result)) : n' = n ∨
    ∃ file m ref, n.files.lookup fd = some file ∧ n.backing = .hashed m ref ∧
      n.callFile fd file m ref c = .ok (n', result) := by
  unfold call at hOk
  dsimp only at hOk
  split at hOk
  · rename_i file m ref hFile hBacking
    exact .inr ⟨file, m, ref, hFile, hBacking, hOk⟩
  · cases hOk
    exact .inl rfl

end Calls

section Counted

variable {policy : Policy} {n n' : Inode}

theorem libnvmmioOpen_eq_ok {fd : Nat} {flags : AccMode} {p : Provision}
    (hOk : n.libnvmmioOpen policy fd flags p = .ok n') :
    n'.files = (fd, ⟨flags, 0⟩) :: n.files ∧ ∃ m ref, n'.backing = .hashed m ref := by
  unfold libnvmmioOpen at hOk
  split at hOk
  · cases hOk
    exact ⟨rfl, _, _, rfl⟩
  · obtain ⟨m, _, hNew⟩ := bind_eq_ok hOk
    cases hNew
    exact ⟨rfl, _, _, rfl⟩

theorem Counted.open (h : n.Counted) {fd : Nat} {flags : AccMode} {p : Provision}
    (hFresh : n.files.lookup fd = none) (hOk : n.libnvmmioOpen policy fd flags p = .ok n') :
    n'.Counted := by
  have hNew : fd ∉ n.files.map Prod.fst := by
    intro hMem
    obtain ⟨f, hFile, hKey⟩ := List.mem_map.mp hMem
    have hNe := List.lookup_eq_none_iff.mp hFresh f hFile
    rw [bne_iff_ne] at hNe
    exact hNe hKey.symm
  have hNodup : (fd :: n.files.map Prod.fst).Nodup := List.nodup_cons.mpr ⟨hNew, h.nodup⟩
  unfold libnvmmioOpen at hOk
  cases hBacking : n.backing with
  | hashed m ref =>
    rw [hBacking] at hOk
    cases hOk
    obtain ⟨hRef, _, hBacked⟩ := h.hashed m ref hBacking
    refine ⟨hNodup, ?_, fun disk hReleased => by cases hReleased⟩
    rintro m' ref' ⟨⟩
    refine ⟨?_, List.cons_ne_nil _ _, hBacked⟩
    rw [hRef, List.length_cons]
    omega
  | released disk =>
    rw [hBacking] at hOk
    obtain ⟨m, hNewMmio, hDone⟩ := bind_eq_ok hOk
    cases hDone
    have hOpen : m.Opened := ⟨policy, p.epoch, p.logPool, p.addr, flags.writable, disk, hNewMmio⟩
    refine ⟨hNodup, ?_, fun disk hReleased => by cases hReleased⟩
    rintro m' ref' ⟨⟩
    refine ⟨?_, List.cons_ne_nil _ _, hOpen.backed⟩
    rw [h.released disk hBacking]
    rfl

theorem Counted.setFile (h : n.Counted) {m m' : Mmio} {ref : Int} (hBacking : n.backing = .hashed m ref)
    (fd : Nat) (file : FileT) (hBacked : m'.Backed) :
    Counted ⟨n.setFile fd file, .hashed m' ref⟩ := by
  obtain ⟨hRef, hSome, _⟩ := h.hashed m ref hBacking
  have hLength : (n.setFile fd file).length = n.files.length := List.length_map _
  have hNodup : ((n.setFile fd file).map Prod.fst).Nodup := by
    rw [setFile_keys]
    exact h.nodup
  have hStill : n.setFile fd file ≠ [] := by
    rw [← List.length_pos_iff, hLength, List.length_pos_iff]
    exact hSome
  refine ⟨hNodup, ?_, fun disk hReleased => by cases hReleased⟩
  rintro m'' ref' ⟨⟩
  exact ⟨hLength ▸ hRef, hStill, hBacked⟩

theorem Counted.close (h : n.Counted) {fd : Nat} {file : FileT} {m : Mmio} {ref : Int} {result : Result}
    (hFile : n.files.lookup fd = some file) (hBacking : n.backing = .hashed m ref)
    (hOk : n.callFile fd file m ref .close = .ok (n', result)) : n'.Counted := by
  obtain ⟨hRef, hSome, hBacked⟩ := h.hashed m ref hBacking
  have hLength := length_close h.nodup hFile
  have hNodup : ((n.files.filter fun f => f.1 != fd).map Prod.fst).Nodup :=
    h.nodup.sublist (List.filter_sublist.map Prod.fst)
  obtain ⟨backing, hDelete, hDone⟩ := bind_eq_ok hOk
  cases hDone
  unfold deleteMmioHash at hDelete
  dsimp only at hDelete
  split at hDelete
  · obtain ⟨disk, _, hReleased⟩ := bind_eq_ok hDelete
    cases hReleased
    have hNone : (n.files.filter fun f => f.1 != fd) = [] := by
      rw [← List.length_eq_zero_iff]
      omega
    exact ⟨hNodup, fun m' ref' hHashed => (by cases hHashed), fun _ _ => hNone⟩
  · cases hDelete
    refine ⟨hNodup, ?_, fun disk hReleased => by cases hReleased⟩
    rintro m' ref' ⟨⟩
    refine ⟨by dsimp only; omega, ?_, hBacked⟩
    dsimp only
    rw [← List.length_pos_iff]
    omega

theorem Counted.onFile (h : n.Counted) {fd : Nat} {file : FileT} {m : Mmio} {ref : Int} {c : FileCall}
    {result : Result} (hFile : n.files.lookup fd = some file) (hBacking : n.backing = .hashed m ref)
    (hOk : n.callFile fd file m ref c = .ok (n', result)) : n'.Counted := by
  obtain ⟨hRef, hSome, hBacked⟩ := h.hashed m ref hBacking
  cases c with
  | read buf len =>
    obtain ⟨off, m', count, buf', _, hRead, rfl⟩ := read_eq_ok hOk
    have hStep : Steps perform m (.read off buf len) m' :=
      ⟨_, by rw [perform, hRead, ok_bind]⟩
    exact h.setFile hBacking fd _ (hBacked.step hStep)
  | write remap buf len =>
    obtain ⟨off, m', count, _, hWrite, rfl⟩ := write_eq_ok hOk
    have hStep : Steps perform m (.write file.flags.writable remap off buf len) m' :=
      ⟨_, by rw [perform, hWrite, ok_bind]⟩
    exact h.setFile hBacking fd _ (hBacked.step hStep)
  | lseek offset whence =>
    obtain ⟨pos, _, hDone⟩ := bind_eq_ok hOk
    cases hDone
    exact h.setFile hBacking fd _ hBacked
  | fsync =>
    obtain ⟨m', hCommit, hDone⟩ := bind_eq_ok hOk
    cases hDone
    have hStep : Steps perform m .commit m' := ⟨.done, by rw [perform, hCommit, ok_bind]⟩
    refine ⟨h.nodup, ?_, fun disk hReleased => by cases hReleased⟩
    rintro m'' ref' ⟨⟩
    exact ⟨hRef, hSome, hBacked.step hStep⟩
  | close => exact h.close hFile hBacking hOk

theorem Counted.step (h : n.Counted) {c : Call} (hStep : Guarded FreshFd (Steps (call policy)) n c n') :
    n'.Counted := by
  obtain ⟨hFresh, result, hOk⟩ := hStep
  cases c with
  | «open» fd flags provision =>
    obtain ⟨n₁, hOpen, hDone⟩ := bind_eq_ok hOk
    cases hDone
    exact h.open hFresh hOpen
  | onFile fd c =>
    rcases onFile_cases hOk with rfl | ⟨file, m, ref, hFile, hBacking, hCall⟩
    · exact h
    · exact h.onFile hFile hBacking hCall

theorem Calls.counted {disk : Disk} {calls : List Call} (hRun : Calls policy (closed disk) calls n) :
    n.Counted :=
  hRun.invariant Counted (fun _ _ _ h hStep => h.step hStep) (closed_counted disk)

end Counted

end Inode

end Libnvmmio

import Libnvmmio.File.LastLength
import Libnvmmio.File.Positions
import Libnvmmio.Mmio.FileSemantics

/-! # The calls on an inode behave as POSIX says

The abstract file outlives its descriptors: it has a length, bytes, and an
offset for each descriptor that is open. Over a mapping that may be read and
written, one call of the program or one wake-up of the checkpoint thread is
answered as the abstract file answers it.
-/

namespace Libnvmmio

open RangeCopy Mmio RadixLog Outcome GuardedRun

set_option autoImplicit false

structure PosixFile where
  file : PlainFile
  offset : Nat → Option Nat

/-- A call of the program, or `checkpoint_thread_func` after its `usleep`. -/
inductive Inode.Event where
  | call (c : Call)
  | wakeup

namespace PosixFile

def ofDisk (disk : Disk) : PosixFile := ⟨⟨disk.length, disk.bytes⟩, fun _ => none⟩

def move (p : PosixFile) (fd : Nat) (off : Option Nat) : PosixFile :=
  { p with offset := Function.update p.offset fd off }

def target (size off : Nat) (offset : Int) : Whence → Int
  | .seekSet => offset
  | .seekCur => off + offset
  | .seekEnd => size + offset

def serveFile (p : PosixFile) (fd off : Nat) : FileCall → PosixFile × Result
  | .read buf len =>
    let n := min len (p.file.size - off)
    (p.move fd (some (off + n)), .read n (blit buf 0 p.file.bytes off n))
  | .write remap buf len =>
    ({ p.move fd (some (off + len)) with
      file := (p.file.serve (.write true remap off buf len)).1 }, .written len)
  | .lseek offset whence =>
    let pos := target p.file.size off offset whence
    (p.move fd (some pos.toNat), .position pos)
  | .fsync => (p, .success)
  | .close => (p.move fd none, .success)

def serve (p : PosixFile) : Inode.Event → PosixFile × Option Result
  | .call (.open fd _ _) => (p.move fd (some 0), some .success)
  | .call (.onFile fd c) =>
    match p.offset fd with
    | some off => ((p.serveFile fd off c).1, some (p.serveFile fd off c).2)
    | none => (p, some .posix)
  | .wakeup => (p, none)

end PosixFile

namespace Inode

def wakeup (n : Inode) : Except Failure Inode :=
  match n.backing with
  | .hashed m ref => do
    let m ← m.checkpointMmio
    .ok ⟨n.files, .hashed m ref⟩
  | .released disk => .ok ⟨n.files, .released disk⟩

def next (policy : Policy) (n : Inode) : Event → Except Failure (Inode × Option Result)
  | .call c => do
    let (n, result) ← n.call policy c
    .ok (n, some result)
  | .wakeup => do
    let n ← n.wakeup
    .ok (n, none)

/-- The calls on a descriptor that are answered as POSIX says. A write needs a descriptor that
may write and lengthens the file from within or from its end; the last close
finds nothing uncommitted and a file that is trimmed or need not be. -/
def Conforming (policy : Policy) (file : FileT) (m : Mmio) (ref : Int) : FileCall → Prop
  | .read _ len => m.ReadGuard file.pos.toNat len ∧ len < 2 ^ 31
  | .write remap buf len => file.flags.writable = true ∧
      SafeRequest (policy = .redo) m (.write true remap file.pos.toNat buf len)
  | .lseek offset whence =>
      0 ≤ PosixFile.target m.fsize file.pos.toNat offset whence ∧
      PosixFile.target m.fsize file.pos.toNat offset whence ≤ m.fsize
  | .fsync => True
  | .close => ref = 1 → m.radixlog.SkipSized ∧ m.Flushed ∧
      (file.flags.writable = true ∨ m.mapLen = m.fsize)

/-- An open names a descriptor that is not in use; the first one can map the file. -/
def Conforms (policy : Policy) (n : Inode) : Event → Prop
  | .call (.open fd flags _) => n.files.lookup fd = none ∧ ∀ disk, n.backing = .released disk →
      (0 < disk.length ∨ flags.writable = true) ∧ disk.length ≤ 2 ^ 48
  | .call (.onFile fd c) => ∀ file m ref, n.files.lookup fd = some file → n.backing = .hashed m ref →
      Conforming policy file m ref c
  | .wakeup => ∀ m ref, n.backing = .hashed m ref → m.radixlog.SkipSized

/-! ## The descriptors as a partial map -/

section Lookup

theorem lookup_cons_eq (key : Nat) (file : FileT) (files : List (Nat × FileT)) (fd : Nat) :
    ((key, file) :: files).lookup fd = if fd = key then some file else files.lookup fd := by
  split
  · rename_i hSame
    rw [hSame, List.lookup_cons_self]
  · rename_i hOther
    rw [List.lookup_cons, beq_false_of_ne hOther]

theorem lookup_setFile (n : Inode) (fd : Nat) (file : FileT) (fd' : Nat) :
    (n.setFile fd file).lookup fd' =
      if fd' = fd then (n.files.lookup fd).map fun _ => file else n.files.lookup fd' := by
  rw [setFile]
  induction n.files with
  | nil => simp
  | cons f files ih =>
    obtain ⟨key, old⟩ := f
    rw [List.map_cons]
    dsimp only
    split
    · rename_i hKey
      subst hKey
      simp only [lookup_cons_eq, ih, if_pos]
      split <;> rfl
    · rename_i hKey
      simp only [lookup_cons_eq, ih, if_neg (Ne.symm hKey)]
      split <;> split <;> first | rfl | omega

theorem lookup_filter (files : List (Nat × FileT)) (fd fd' : Nat) :
    (files.filter fun f => f.1 != fd).lookup fd' = if fd' = fd then none else files.lookup fd' := by
  induction files with
  | nil => simp
  | cons f files ih =>
    obtain ⟨key, old⟩ := f
    by_cases hKey : key = fd
    · subst hKey
      rw [List.filter_cons_of_neg (by simp), ih, lookup_cons_eq]
      split <;> rfl
    · rw [List.filter_cons_of_pos (by simpa using hKey), lookup_cons_eq, lookup_cons_eq, ih]
      split <;> split <;> first | rfl | omega

end Lookup

end Inode

/-! ## The object and the file on the disk -/

structure Disk.Holds (disk : Disk) (f : PlainFile) : Prop where
  length : disk.length = f.size
  bytes : ∀ i, i < f.size → disk.bytes i = f.bytes i

namespace Mmio

/-- The object answers for the abstract file, and its last close is understood. -/
structure Serves (policy : Policy) (m : Mmio) (f : PlainFile) : Prop where
  represents : Represents (policy = .redo) m f
  closable : m.Closable
  policy_eq : m.policy = policy
  in_span : m.fsize ≤ m.radixlog.skipType.span

section Serves

variable {policy : Policy} {m : Mmio} {f : PlainFile}

theorem InBlock.len_lt {off len : Nat} (h : m.InBlock off len) : len < 2 ^ 31 := by
  have hSize := (m.radixlog.locate off len).2.1.size_le
  rw [lmdShift] at hSize
  rcases h.one_block with hZero | hFits <;> omega

theorem Serves.step (h : Serves policy m f) (request : Request)
    (hServable : m.Servable (policy = .redo) request) :
    ∃ m', m.perform request = .ok (m', (f.serve request).2) ∧ Serves policy m' (f.serve request).1 := by
  obtain ⟨m', hOk, hNext⟩ := h.represents.step hServable
  have hStep : Steps perform m request m' := ⟨_, hOk⟩
  have hSound := h.closable.backed.sound
  have hHome : HomeRequest m request := by
    intro hRedo
    cases request with
    | write fdWritable remap off buf len =>
      obtain ⟨_, _, hBlock, hSteady⟩ := hServable
      exact ⟨hBlock, fun _ => hSteady (h.policy_eq.symm.trans hRedo)⟩
    | read => trivial
    | commit => trivial
    | checkpoint => trivial
  have hType : m'.radixlog.skipType = m.radixlog.skipType :=
    (perform_extends hSound hOk).2.skipType hSound.wellFormed.shape
  refine ⟨m', hOk, hNext, h.closable.step ⟨hHome, hStep⟩,
    (perform_policy hSound hStep).trans h.policy_eq, ?_⟩
  have hSpan := h.in_span
  rw [hNext.size, hType]
  rw [h.represents.size] at hSpan
  cases request with
  | write fdWritable remap off buf len =>
    have hIn := hServable.2.2.1.in_span
    dsimp only [PlainFile.serve]
    split <;> omega
  | read => exact hSpan
  | commit => exact hSpan
  | checkpoint => exact hSpan

/-- What a read of one byte would deliver is the byte of the abstract file. -/
theorem Serves.seen (h : Serves policy m f) {i : Nat} (hi : i < m.fsize) : m.seen i = f.bytes i := by
  have hSpan := h.in_span
  have hGuard : m.ReadGuard i 1 := by
    refine ⟨by omega, fun _ => oneBlock_byte m i, fun _ e _ hInside => ?_⟩
    obtain ⟨hLen, hLow, hHigh⟩ := hInside
    have hShort : m.readLen i 1 ≤ 1 := Nat.min_le_left _ _
    omega
  obtain ⟨m', hOk, _⟩ := h.represents.read (fun _ => 0) (Nat.le_of_lt hi) hGuard
  obtain ⟨⟨m₁, count, buf⟩, hRead, hDone⟩ := bind_eq_ok hOk
  have hOne : min 1 (f.size - i) = 1 := by
    rw [← h.represents.size]
    omega
  dsimp only [PlainFile.serve] at hDone
  rw [hOne] at hDone
  cases hDone
  have hByte : m.ReadsByte i (f.bytes i) := ⟨_, _, hRead, rfl⟩
  exact (hByte.eq_seen h.closable.backed.sound hi h.represents.fsize_le).symm

/-- A last close that finds nothing uncommitted leaves the abstract file. -/
theorem Serves.close (h : Serves policy m f) {fdWritable : Bool} (hSkip : m.radixlog.SkipSized)
    (hFlushed : m.Flushed) (hTrim : fdWritable = true ∨ m.mapLen = m.fsize) :
    ∃ disk, m.closeMmio fdWritable = .ok disk ∧ disk.Holds f := by
  obtain ⟨disk, hOk, hKeeps⟩ :=
    (h.closable.keepsData_iff h.represents.fsize_le fdWritable).mpr ⟨hSkip, hFlushed⟩
  have hLength := (Inode.closeMmio_length h.closable.backed hOk).mpr hTrim
  refine ⟨disk, hOk, hLength.trans h.represents.size, fun i hi => ?_⟩
  rw [← h.represents.size] at hi
  have hByte := (hKeeps i hi).1.eq_seen h.closable.backed.sound hi h.represents.fsize_le
  exact hByte.trans (h.seen hi)

/-- The first open of a file. -/
theorem serves_of_getNewMmio (policy : Policy) (epoch : Nat) (logPool : Nat → Nat → UInt8) (addr : Nat)
    {fdWritable : Bool} {disk : Disk} (hHolds : disk.Holds f) (hMap : 0 < disk.length ∨ fdWritable = true)
    (hSmall : disk.length ≤ 2 ^ 48) :
    ∃ m, getNewMmio policy epoch logPool addr fdWritable disk = .ok m ∧ Serves policy m f := by
  have hExists : ∃ m, getNewMmio policy epoch logPool addr fdWritable disk = .ok m := by
    unfold getNewMmio
    dsimp only
    split
    · rename_i hEmpty
      rw [hMap.resolve_left (by omega)]
      exact ⟨_, rfl⟩
    · exact ⟨_, rfl⟩
  obtain ⟨m, hOk⟩ := hExists
  have hOpen : m.Opened := ⟨_, _, _, _, _, _, hOk⟩
  have hLen : m.mapLen ≤ 2 ^ 48 := by
    unfold getNewMmio at hOk
    dsimp only at hOk
    split at hOk
    · split at hOk
      · cases hOk
        change defaultMmapSize ≤ 2 ^ 48
        decide
      · cases hOk
    · cases hOk
      exact hSmall
  have hSame : m.fsize = disk.length ∧ m.disk.bytes = disk.bytes ∧ m.policy = policy := by
    obtain ⟨len, _, _, _, rfl⟩ := getNewMmio_eq_ok hOk
    exact ⟨rfl, rfl, rfl⟩
  obtain ⟨hFsize, hBytes, hPolicy⟩ := hSame
  have hStart : Represents (policy = .redo) m (PlainFile.ofOpened m) :=
    hOpen.represents fun hRedo => hPolicy.symm.trans hRedo
  have hSpan : m.fsize ≤ m.radixlog.skipType.span := by
    have hMapped := hOpen.tidy.mapped
    have hBelow : m.mapLen - 1 < 2 ^ 48 := by omega
    have hDeep := lt_span_getDeepestTableType hBelow
    have hFile := hOpen.fsize_le
    rw [hOpen.skipType]
    omega
  refine ⟨m, hOk, ⟨hStart.settled, hStart.fsize_le, hFsize.trans hHolds.length, ?_⟩,
    hOpen.closable hLen, hPolicy, hSpan⟩
  intro i hi hIn
  rw [hStart.contents i hi hIn]
  change m.disk.bytes i = f.bytes i
  rw [hBytes]
  exact hHolds.bytes i (by rw [← hHolds.length, ← hFsize]; exact hi)

end Serves

end Mmio

namespace Inode

structure Stands (policy : Policy) (n : Inode) (p : PosixFile) : Prop where
  counted : n.Counted
  offsets : ∀ fd, (n.files.lookup fd).map FileT.pos = (p.offset fd).map Int.ofNat
  in_file : ∀ fd off, p.offset fd = some off → off ≤ p.file.size
  hashed : ∀ m ref, n.backing = .hashed m ref → Serves policy m p.file
  released : ∀ disk, n.backing = .released disk → disk.Holds p.file

section Steps

variable {policy : Policy} {n : Inode} {p : PosixFile} {fd : Nat} {file : FileT} {m : Mmio} {ref : Int}
  {off : Nat}

theorem Stands.pos_eq (h : n.Stands policy p) (hFile : n.files.lookup fd = some file)
    (hOff : p.offset fd = some off) : file.pos = off := by
  have hOffsets := h.offsets fd
  rw [hFile, hOff] at hOffsets
  exact Option.some.inj hOffsets

/-- A descriptor moves within the file, and the object takes its next state. -/
theorem Stands.moved (h : n.Stands policy p) (hFile : n.files.lookup fd = some file)
    (hBacking : n.backing = .hashed m ref) {m' : Mmio} {f' : PlainFile} (hServes : Serves policy m' f')
    (hGrows : p.file.size ≤ f'.size) {pos : Int} {off' : Nat} (hPos : pos = off') (hIn : off' ≤ f'.size) :
    Stands policy ⟨n.setFile fd { file with pos := pos }, .hashed m' ref⟩
      { p.move fd (some off') with file := f' } := by
  refine ⟨h.counted.setFile hBacking fd _ hServes.closable.backed, fun fd' => ?_, fun fd' o ho => ?_, ?_, ?_⟩
  · dsimp only [PosixFile.move]
    rw [lookup_setFile, Function.update_apply]
    split
    · rw [hFile, hPos]
      rfl
    · exact h.offsets fd'
  · dsimp only [PosixFile.move] at ho
    rw [Function.update_apply] at ho
    split at ho
    · cases ho
      exact hIn
    · exact Nat.le_trans (h.in_file fd' o ho) hGrows
  · rintro m'' ref' ⟨⟩
    exact hServes
  · rintro disk ⟨⟩

/-- The object takes its next state, and no descriptor moves. -/
theorem Stands.kept (h : n.Stands policy p) (hBacking : n.backing = .hashed m ref) {m' : Mmio} {f' : PlainFile}
    (hServes : Serves policy m' f') (hGrows : p.file.size ≤ f'.size) :
    Stands policy ⟨n.files, .hashed m' ref⟩ { p with file := f' } := by
  obtain ⟨hRef, hSome, _⟩ := h.counted.hashed m ref hBacking
  refine ⟨⟨h.counted.nodup, ?_, ?_⟩, h.offsets, fun fd off ho => Nat.le_trans (h.in_file fd off ho) hGrows, ?_, ?_⟩
  · rintro m'' ref' ⟨⟩
    exact ⟨hRef, hSome, hServes.closable.backed⟩
  · rintro disk ⟨⟩
  · rintro m'' ref' ⟨⟩
    exact hServes
  · rintro disk ⟨⟩

theorem addOff_count (count : Nat) (hPos : file.pos = off) (hSmall : count < 2 ^ 31)
    (hFits : off + count ≤ 2 ^ 48) : addOff file.pos (toInt count) = (off + count : Nat) := by
  rw [hPos, toInt_of_lt hSmall, addOff_of_lt (by omega) (by omega)]
  omega

theorem Stands.read (h : n.Stands policy p) (hFile : n.files.lookup fd = some file)
    (hBacking : n.backing = .hashed m ref) (hOff : p.offset fd = some off) {buf : Nat → UInt8} {len : Nat}
    (hConforming : Conforming policy file m ref (.read buf len)) :
    ∃ n', n.read fd file m ref buf len = .ok (n', (p.serveFile fd off (.read buf len)).2) ∧
      n'.Stands policy (p.serveFile fd off (.read buf len)).1 := by
  have hPos := h.pos_eq hFile hOff
  have hIn := h.in_file fd off hOff
  have hServes := h.hashed m ref hBacking
  obtain ⟨hGuard, hInt⟩ := hConforming
  rw [hPos, Int.toNat_natCast] at hGuard
  have hSize := hServes.represents.size
  have hSpan := hServes.in_span
  have hBound := m.radixlog.skipType.span_le
  obtain ⟨m', hOk, hNext⟩ := hServes.step (.read off buf len) ⟨by omega, hGuard⟩
  obtain ⟨⟨m₁, count, buf'⟩, hRead, hDone⟩ := bind_eq_ok hOk
  cases hDone
  have hMove := addOff_count (min len (p.file.size - off)) hPos (by omega) (by omega)
  refine ⟨n.advance fd file ref m' (min len (p.file.size - off)), ?_, ?_⟩
  · unfold Inode.read
    rw [hPos]
    change (m.mmioRead off buf len >>= _) = _
    rw [hRead, ok_bind]
    dsimp only [PosixFile.serveFile]
    rw [toInt_of_lt (by omega)]
  · exact h.moved hFile hBacking hNext (Nat.le_refl _) hMove (by dsimp only [PlainFile.serve]; omega)

theorem Stands.write (h : n.Stands policy p) (hFile : n.files.lookup fd = some file)
    (hBacking : n.backing = .hashed m ref) (hOff : p.offset fd = some off) {remap : Nat → Nat}
    {buf : Nat → UInt8} {len : Nat} (hConforming : Conforming policy file m ref (.write remap buf len)) :
    ∃ n', n.write fd file m ref remap buf len = .ok (n', (p.serveFile fd off (.write remap buf len)).2) ∧
      n'.Stands policy (p.serveFile fd off (.write remap buf len)).1 := by
  have hPos := h.pos_eq hFile hOff
  have hIn := h.in_file fd off hOff
  have hServes := h.hashed m ref hBacking
  obtain ⟨hWritable, hSafe⟩ := hConforming
  rw [hPos, Int.toNat_natCast] at hSafe
  have hSize := hServes.represents.size
  have hSpan := hSafe.1.in_span
  have hBound := m.radixlog.skipType.span_le
  have hInt := hSafe.1.len_lt
  obtain ⟨m', hOk, hNext⟩ :=
    hServes.step (.write true remap off buf len) ⟨rfl, by omega, hSafe⟩
  obtain ⟨⟨m₁, count⟩, hWrite, hDone⟩ := bind_eq_ok hOk
  cases hDone
  have hMove := addOff_count len hPos hInt (by omega)
  refine ⟨n.advance fd file ref m' len, ?_, ?_⟩
  · unfold Inode.write
    rw [hPos, hWritable]
    change (mmioWrite true remap m off buf len >>= _) = _
    rw [hWrite, ok_bind]
    dsimp only [PosixFile.serveFile]
    rw [toInt_of_lt hInt]
  · apply h.moved hFile hBacking hNext _ hMove
    · dsimp only [PlainFile.serve]
      split <;> omega
    · dsimp only [PlainFile.serve]
      split <;> omega

theorem Stands.lseek (h : n.Stands policy p) (hFile : n.files.lookup fd = some file)
    (hBacking : n.backing = .hashed m ref) (hOff : p.offset fd = some off) {offset : Int} {whence : Whence}
    (hConforming : Conforming policy file m ref (.lseek offset whence)) :
    ∃ n', n.lseek fd file m ref offset whence = .ok (n', (p.serveFile fd off (.lseek offset whence)).2) ∧
      n'.Stands policy (p.serveFile fd off (.lseek offset whence)).1 := by
  have hPos := h.pos_eq hFile hOff
  have hServes := h.hashed m ref hBacking
  obtain ⟨hLow, hHigh⟩ := hConforming
  have hSize := hServes.represents.size
  have hSpan := hServes.in_span
  have hBound := m.radixlog.skipType.span_le
  rw [hPos, Int.toNat_natCast, hSize] at hLow hHigh
  have hSeek : seek m.fsize file.pos offset whence =
      .ok (PosixFile.target p.file.size off offset whence) := by
    have hTarget : seekTarget p.file.size off offset whence =
        PosixFile.target p.file.size off offset whence := by
      cases whence with
      | seekSet => rfl
      | seekCur =>
        dsimp only [PosixFile.target] at hLow hHigh
        exact addOff_of_lt (by omega) (by omega)
      | seekEnd =>
        dsimp only [PosixFile.target] at hLow hHigh
        exact addOff_of_lt (by omega) (by omega)
    have hCheck : seek p.file.size off offset whence =
        if (p.file.size : Int) < seekTarget p.file.size off offset whence then .error .exit
        else .ok (seekTarget p.file.size off offset whence) := by
      cases whence <;> rfl
    rw [hSize, hPos, hCheck, hTarget, if_neg (Int.not_lt.mpr hHigh)]
  refine ⟨⟨n.setFile fd { file with pos := PosixFile.target p.file.size off offset whence },
    .hashed m ref⟩, ?_, ?_⟩
  · unfold Inode.lseek
    rw [hSeek, ok_bind]
    rfl
  · exact h.moved hFile hBacking hServes (Nat.le_refl _) (Int.toNat_of_nonneg hLow).symm (by omega)

theorem Stands.fsync (h : n.Stands policy p) (hBacking : n.backing = .hashed m ref) :
    ∃ n', n.fsync m ref = .ok (n', .success) ∧ n'.Stands policy p := by
  obtain ⟨m', hOk, hNext⟩ := (h.hashed m ref hBacking).step .commit trivial
  obtain ⟨m₁, hCommit, hDone⟩ := bind_eq_ok hOk
  cases hDone
  exact ⟨_, by rw [Inode.fsync, hCommit, ok_bind], h.kept hBacking hNext (Nat.le_refl _)⟩

theorem Stands.close (h : n.Stands policy p) (hFile : n.files.lookup fd = some file)
    (hBacking : n.backing = .hashed m ref) (hConforming : Conforming policy file m ref .close) :
    ∃ n', n.close fd file m ref = .ok (n', .success) ∧ n'.Stands policy (p.move fd none) := by
  obtain ⟨hRef, hSome, hBacked⟩ := h.counted.hashed m ref hBacking
  have hServes := h.hashed m ref hBacking
  have hBackingEq : ∃ backing, deleteMmioHash (.hashed m ref) file.flags = .ok backing ∧
      (∀ m' ref', backing = .hashed m' ref' → Serves policy m' p.file) ∧
      ∀ disk, backing = .released disk → disk.Holds p.file := by
    unfold deleteMmioHash
    dsimp only
    split
    · rename_i hLast
      have hPositive := List.length_pos_iff.mpr hSome
      obtain ⟨hSkip, hFlushed, hTrim⟩ := hConforming (by omega)
      obtain ⟨disk, hClose, hHolds⟩ := hServes.close hSkip hFlushed hTrim
      refine ⟨.released disk, by rw [hClose, ok_bind], ?_, ?_⟩
      · rintro m' ref' ⟨⟩
      · rintro _ ⟨⟩
        exact hHolds
    · refine ⟨_, rfl, ?_, ?_⟩
      · rintro _ _ ⟨⟩
        exact hServes
      · rintro disk ⟨⟩
  obtain ⟨backing, hDelete, hHashed, hReleased⟩ := hBackingEq
  have hOk : n.close fd file m ref = .ok (⟨n.files.filter fun f => f.1 != fd, backing⟩, .success) := by
    rw [Inode.close, hDelete, ok_bind]
  refine ⟨_, hOk, h.counted.close hFile hBacking hOk, fun fd' => ?_, fun fd' o ho => ?_, hHashed, hReleased⟩
  · dsimp only [PosixFile.move]
    rw [lookup_filter, Function.update_apply]
    split
    · rfl
    · exact h.offsets fd'
  · dsimp only [PosixFile.move] at ho
    rw [Function.update_apply] at ho
    split at ho
    · cases ho
    · exact h.in_file fd' o ho

theorem Stands.open (h : n.Stands policy p) {flags : AccMode} {provision : Provision}
    (hConforms : n.Conforms policy (.call (.open fd flags provision))) :
    ∃ n', n.libnvmmioOpen policy fd flags provision = .ok n' ∧ n'.Stands policy (p.move fd (some 0)) := by
  obtain ⟨hFresh, hMap⟩ := hConforms
  have hOpened : ∃ m ref, n.libnvmmioOpen policy fd flags provision =
      .ok ⟨(fd, ⟨flags, 0⟩) :: n.files, .hashed m ref⟩ ∧ Serves policy m p.file := by
    unfold libnvmmioOpen
    cases hBacking : n.backing with
    | hashed m ref => exact ⟨m, ref + 1, rfl, h.hashed m ref hBacking⟩
    | released disk =>
      obtain ⟨hFirst, hSmall⟩ := hMap disk hBacking
      obtain ⟨m, hOk, hServes⟩ := serves_of_getNewMmio policy provision.epoch provision.logPool
        provision.addr (h.released disk hBacking) hFirst hSmall
      exact ⟨m, 1, by dsimp only; rw [hOk, ok_bind], hServes⟩
  obtain ⟨m, ref, hOk, hServes⟩ := hOpened
  refine ⟨_, hOk, h.counted.open hFresh hOk, fun fd' => ?_, fun fd' o ho => ?_, ?_, ?_⟩
  · dsimp only [PosixFile.move]
    rw [lookup_cons_eq, Function.update_apply]
    split
    · rfl
    · exact h.offsets fd'
  · dsimp only [PosixFile.move] at ho
    rw [Function.update_apply] at ho
    split at ho
    · cases ho
      exact Nat.zero_le _
    · exact h.in_file fd' o ho
  · rintro m' ref' ⟨⟩
    exact hServes
  · rintro disk ⟨⟩

theorem Stands.callFile (h : n.Stands policy p) (hFile : n.files.lookup fd = some file)
    (hBacking : n.backing = .hashed m ref) (hOff : p.offset fd = some off) {c : FileCall}
    (hConforming : Conforming policy file m ref c) :
    ∃ n', n.callFile fd file m ref c = .ok (n', (p.serveFile fd off c).2) ∧
      n'.Stands policy (p.serveFile fd off c).1 := by
  cases c with
  | read buf len => exact h.read hFile hBacking hOff hConforming
  | write remap buf len => exact h.write hFile hBacking hOff hConforming
  | lseek offset whence => exact h.lseek hFile hBacking hOff hConforming
  | fsync => exact h.fsync hBacking
  | close => exact h.close hFile hBacking hConforming

theorem Stands.wakeup (h : n.Stands policy p) (hConforms : n.Conforms policy .wakeup) :
    ∃ n', n.wakeup = .ok n' ∧ n'.Stands policy p := by
  unfold Inode.wakeup
  cases hBacking : n.backing with
  | hashed m ref =>
    obtain ⟨m', hOk, hNext⟩ := (h.hashed m ref hBacking).step .checkpoint (hConforms m ref hBacking)
    obtain ⟨m₁, hCheckpoint, hDone⟩ := bind_eq_ok hOk
    cases hDone
    exact ⟨_, by dsimp only; rw [hCheckpoint, ok_bind], h.kept hBacking hNext (Nat.le_refl _)⟩
  | released disk => exact ⟨n, congrArg Except.ok (by rw [← hBacking]), h⟩

/-- One event: the answer of the abstract file, which the inode then is. -/
theorem Stands.step (h : n.Stands policy p) {e : Event} (hConforms : n.Conforms policy e) :
    ∃ n', n.next policy e = .ok (n', (p.serve e).2) ∧ n'.Stands policy (p.serve e).1 := by
  cases e with
  | wakeup =>
    obtain ⟨n', hOk, hNext⟩ := h.wakeup hConforms
    exact ⟨n', by rw [next, hOk, ok_bind]; rfl, hNext⟩
  | call c =>
    cases c with
    | «open» fd flags provision =>
      obtain ⟨n', hOk, hNext⟩ := h.open hConforms
      exact ⟨n', by rw [next, call, hOk, ok_bind, ok_bind]; rfl, hNext⟩
    | onFile fd c =>
      have hOffsets := h.offsets fd
      cases hFile : n.files.lookup fd with
      | none =>
        rw [hFile] at hOffsets
        have hNone : p.offset fd = none := Option.map_eq_none_iff.mp hOffsets.symm
        refine ⟨n, ?_, ?_⟩
        · rw [next, call, hFile, PosixFile.serve, hNone]
          rfl
        · rw [PosixFile.serve, hNone]
          exact h
      | some file =>
        rw [hFile] at hOffsets
        obtain ⟨off, hOff, _⟩ := Option.map_eq_some_iff.mp hOffsets.symm
        cases hBacking : n.backing with
        | hashed m ref =>
          obtain ⟨n', hOk, hNext⟩ := h.callFile hFile hBacking hOff (hConforms file m ref hFile hBacking)
          refine ⟨n', ?_, ?_⟩
          · rw [next, call, hFile, hBacking, PosixFile.serve, hOff]
            dsimp only
            rw [hOk, ok_bind]
          · rw [PosixFile.serve, hOff]
            exact hNext
        | released disk =>
          rw [h.counted.released disk hBacking] at hFile
          cases hFile

end Steps

/-! ## Runs -/

theorem closed_stands (policy : Policy) (disk : Disk) : (closed disk).Stands policy (PosixFile.ofDisk disk) where
  counted := closed_counted disk
  offsets _ := rfl
  in_file fd off ho := by cases ho
  hashed m ref hBacking := by cases hBacking
  released _ hBacking := by
    cases hBacking
    exact ⟨rfl, fun _ _ => rfl⟩

/-- Without descriptors there is no object. -/
theorem Stands.no_descriptor {policy : Policy} {n : Inode} {p : PosixFile} (h : n.Stands policy p)
    (hNone : ∀ fd, p.offset fd = none) : ∃ disk, n.backing = .released disk ∧ disk.Holds p.file := by
  cases hBacking : n.backing with
  | released disk => exact ⟨disk, rfl, h.released disk hBacking⟩
  | hashed m ref =>
    obtain ⟨_, hSome, _⟩ := h.counted.hashed m ref hBacking
    obtain ⟨⟨fd, file⟩, files, hFiles⟩ := List.exists_cons_of_ne_nil hSome
    have hOffsets := h.offsets fd
    rw [hFiles, List.lookup_cons_self, hNone fd] at hOffsets
    cases hOffsets

end Inode

end Libnvmmio

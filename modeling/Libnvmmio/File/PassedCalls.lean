import Libnvmmio.File.MappedFiles

/-! # Calls that are passed on

`pread`, `pwrite` and `fstat` go to the file system as they are. They meet the
file itself and not the object, with its logs, its size and its lock. Under UNDO
the file is up to date: inside its size these calls and the others see one file.
-/

namespace Libnvmmio

open FileHash (Fd)
open RangeCopy Mmio Outcome GuardedRun

set_option autoImplicit false
set_option linter.unusedSectionVars false

namespace Disk

def pread (d : Disk) (buf : Nat → UInt8) (count pos : Nat) : Nat × (Nat → UInt8) :=
  (min count (d.length - pos), blit buf 0 d.bytes pos (min count (d.length - pos)))

def pwrite (d : Disk) (buf : Nat → UInt8) (count pos : Nat) : Disk :=
  ⟨if count = 0 then d.length else max d.length (pos + count), blit d.bytes pos buf 0 count⟩

end Disk

/-- What a call answers; `size` is `st_size`, and `refused` is `EBADF`. -/
inductive PassedReply where
  | result (result : Option Result)
  | size (size : Nat)
  | refused

namespace ProcessFiles

inductive Passed where
  | pread (fd : Fd) (buf : Nat → UInt8) (count pos : Nat)
  | pwrite (fd : Fd) (buf : Nat → UInt8) (count pos : Nat)
  | fstat (fd : Fd)

variable {M : Type} [DecidableEq M]

/-- The file that a descriptor is open on, of which the mapping of its object is a view. -/
def setDisk (p : ProcessFiles M) (m : M) (disk : Disk) : ProcessFiles M :=
  { p with mmios := Function.update p.mmios m { p.mmios m with disk := disk } }

/-- `posix.pread`, `posix.pwrite` and `posix.__fxstat` -/
def pass (p : ProcessFiles M) : Passed → ProcessFiles M × PassedReply
  | .pread fd buf count pos =>
    match p.fdTable fd with
    | some f =>
      if f.file.flags.readable then
        let (n, buf) := (p.mmios f.mmio).disk.pread buf count pos
        (p, .result (some (.read n buf)))
      else (p, .refused)
    | none => (p, .result (some .posix))
  | .pwrite fd buf count pos =>
    match p.fdTable fd with
    | some f =>
      if f.file.flags.writable then
        (p.setDisk f.mmio ((p.mmios f.mmio).disk.pwrite buf count pos), .result (some (.written count)))
      else (p, .refused)
    | none => (p, .result (some .posix))
  | .fstat fd =>
    match p.fdTable fd with
    | some f => (p, .size (p.mmios f.mmio).disk.length)
    | none => (p, .result (some .posix))

/-- What is passed on is allowed to the descriptor and lies inside the file; the size is
asked for while the mapping has not been lengthened. -/
def PassConforms (p : ProcessFiles M) : Passed → Prop
  | .pread fd _ count pos => ∀ f, p.fdTable fd = some f →
      f.file.flags.readable = true ∧ pos + count ≤ (p.mmios f.mmio).fsize
  | .pwrite fd _ count pos => ∀ f, p.fdTable fd = some f →
      f.file.flags.writable = true ∧ pos + count ≤ (p.mmios f.mmio).fsize
  | .fstat fd => ∀ f, p.fdTable fd = some f → (p.mmios f.mmio).mapLen = (p.mmios f.mmio).fsize

end ProcessFiles

namespace MappedFiles

inductive Call (M : Type) where
  | event (e : ProcessFiles.Event M)
  | passed (c : ProcessFiles.Passed)

variable {M : Type} [DecidableEq M]

def pass (policy : Policy) (p : MappedFiles M) : Call M → Except Failure (MappedFiles M × PassedReply)
  | .event e => do
    let (p, result) ← p.next policy e
    .ok (p, .result result)
  | .passed c => .ok (⟨(p.process.pass c).1, p.prots⟩, (p.process.pass c).2)

def PassConforms (p : MappedFiles M) : Call M → Prop
  | .event e => p.Conforms .undo e
  | .passed c => p.process.PassConforms c

end MappedFiles

namespace PosixFiles

def pass (a : PosixFiles) : ProcessFiles.Passed → PosixFiles × PassedReply
  | .pread fd buf count pos =>
    match a.inode fd with
    | some ino =>
      let f := (a.files ino).file
      let n := min count (f.size - pos)
      (a, .result (some (.read n (blit buf 0 f.bytes pos n))))
    | none => (a, .result (some .posix))
  | .pwrite fd buf count pos =>
    match a.inode fd with
    | some ino =>
      let file := ((a.files ino).file.serve (.write true id pos buf count)).1
      (⟨Function.update a.files ino ⟨file, (a.files ino).offset⟩, a.inode⟩, .result (some (.written count)))
    | none => (a, .result (some .posix))
  | .fstat fd =>
    match a.inode fd with
    | some ino => (a, .size (a.files ino).file.size)
    | none => (a, .result (some .posix))

def answer {M : Type} (a : PosixFiles) : MappedFiles.Call M → PosixFiles × PassedReply
  | .event e => ((a.serve e).1, .result (a.serve e).2)
  | .passed c => a.pass c

end PosixFiles

/-! ## One object -/

namespace Mmio

section Serves

variable {m : Mmio} {f f' : PlainFile}

theorem Serves.disk_eq (h : Serves .undo m f) {i : Nat} (hi : i < m.fsize) : m.disk.bytes i = f.bytes i :=
  (seen_of_undo h.policy_eq i).symm.trans (h.seen hi)

theorem Serves.length_le (h : Serves .undo m f) : f.size ≤ m.disk.length := by
  rw [← h.represents.size, h.closable.backed.length]
  exact h.represents.fsize_le

/-- Undo logs do not mind what the file holds. -/
theorem Serves.setBytes (h : Serves .undo m f) {bytes : Nat → UInt8} (hSize : f'.size = f.size)
    (hBytes : ∀ i, i < m.fsize → bytes i = f'.bytes i) :
    Serves .undo { m with disk := ⟨m.disk.length, bytes⟩ } f' := by
  have hBacked := h.closable.backed
  have hTidy := h.represents.settled.tidy
  have hTidy' : Tidy { m with disk := ⟨m.disk.length, bytes⟩ } :=
    ⟨hTidy.sound, hTidy.lodged, hTidy.unlocked, hTidy.mapped⟩
  have hNotRedo : m.policy ≠ .redo := by
    rw [h.policy_eq]
    simp
  constructor
  · refine ⟨⟨hTidy', h.represents.settled.watched, fun hRedo => ?_⟩, h.represents.fsize_le,
      h.represents.size.trans hSize.symm, fun i hi hSpan => ?_⟩
    · cases hRedo
    · rw [contents_of_undo hTidy' h.policy_eq hSpan]
      exact hBytes i hi
  · exact ⟨⟨hBacked.sound, hBacked.length, hBacked.mapped, hBacked.unlocked⟩, h.closable.undo,
      fun hRedo => absurd hRedo hNotRedo⟩
  · exact h.policy_eq
  · exact h.in_span

theorem Serves.pread (h : Serves .undo m f) {count pos : Nat} (hIn : pos + count ≤ m.fsize)
    (buf : Nat → UInt8) : m.disk.pread buf count pos =
      (min count (f.size - pos), blit buf 0 f.bytes pos (min count (f.size - pos))) := by
  have hSize := h.represents.size
  have hLength := h.length_le
  have hAll : min count (m.disk.length - pos) = min count (f.size - pos) := by omega
  rw [Disk.pread, hAll]
  congr 1
  funext i
  rw [blit, blit]
  split
  · exact h.disk_eq (by omega)
  · rfl

theorem Serves.pwrite (h : Serves .undo m f) {count pos : Nat} (hIn : pos + count ≤ m.fsize)
    (buf : Nat → UInt8) : Serves .undo { m with disk := m.disk.pwrite buf count pos }
      (f.serve (.write true id pos buf count)).1 := by
  have hSize := h.represents.size
  have hLength := h.length_le
  have hSame : m.disk.pwrite buf count pos = ⟨m.disk.length, blit m.disk.bytes pos buf 0 count⟩ := by
    rw [Disk.pwrite]
    split
    · rfl
    · rw [Nat.max_eq_left (by omega)]
  rw [hSame]
  apply h.setBytes
  · dsimp only [PlainFile.serve]
    split
    · rfl
    · exact Nat.max_eq_left (by omega)
  · intro i hi
    dsimp only [PlainFile.serve]
    rw [blit, blit]
    split
    · rfl
    · exact h.disk_eq hi

end Serves

end Mmio

/-! ## The process -/

namespace ProcessFiles

section Steps

variable {M : Type} [DecidableEq M] {p : ProcessFiles M} {a : PosixFiles} {fd : Fd} {f : OpenFile M}

/-- The object of a descriptor answers for the abstract file of its inode. -/
theorem Stands.object (h : p.Stands .undo a) (hFile : p.fdTable fd = some f) :
    a.inode fd = some f.ino ∧ Serves .undo (p.mmios f.mmio) (a.files f.ino).file := by
  obtain ⟨n, hProjects, hStands⟩ := h.stands f.ino
  refine ⟨by rw [h.inode, hFile]; rfl, ?_⟩
  have hBacking := hProjects.backing
  rw [backing, h.inv.find_file hFile] at hBacking
  exact hStands.hashed _ _ hBacking

theorem Stands.pwrite (h : p.Stands .undo a) (hFile : p.fdTable fd = some f) {count pos : Nat}
    (hIn : pos + count ≤ (p.mmios f.mmio).fsize) (buf : Nat → UInt8) :
    (p.setDisk f.mmio ((p.mmios f.mmio).disk.pwrite buf count pos)).Stands .undo
      ⟨Function.update a.files f.ino ⟨((a.files f.ino).file.serve (.write true id pos buf count)).1,
        (a.files f.ino).offset⟩, a.inode⟩ := by
  obtain ⟨n, hProjects, hStands⟩ := h.stands f.ino
  have hFind := h.inv.find_file hFile
  have hBacking := hProjects.backing
  rw [backing, hFind] at hBacking
  have hServes := (h.object hFile).2
  have hIno := h.inv.files fd f hFile
  have hProjects' : p.Projects (p.objects.ino f.mmio) n := by
    rw [hIno]
    exact hProjects
  have hFollows := h.inv.woken (h.inv.taken_of_find hFind) hProjects'
    { p.mmios f.mmio with disk := (p.mmios f.mmio).disk.pwrite buf count pos }
  rw [hIno] at hFollows
  refine h.followed hFollows (hStands.kept hBacking (hServes.pwrite hIn buf) ?_) h.inode
  dsimp only [PlainFile.serve]
  split
  · exact Nat.le_refl _
  · exact Nat.le_max_left _ _

theorem Stands.not_open (h : p.Stands .undo a) (hNone : p.fdTable fd = none) : a.inode fd = none := by
  rw [h.inode, hNone]
  rfl

/-- One call that is passed on: the answer of the abstract files. -/
theorem Stands.pass (h : p.Stands .undo a) {c : Passed} (hConforms : p.PassConforms c) :
    (p.pass c).2 = (a.pass c).2 ∧ (p.pass c).1.Stands .undo (a.pass c).1 := by
  cases c with
  | pread fd buf count pos =>
    rw [ProcessFiles.pass, PosixFiles.pass]
    cases hFile : p.fdTable fd with
    | none =>
      rw [h.not_open hFile]
      exact ⟨rfl, h⟩
    | some f =>
      obtain ⟨hInode, hServes⟩ := h.object hFile
      obtain ⟨hReadable, hIn⟩ := hConforms f hFile
      rw [hInode]
      dsimp only
      rw [if_pos hReadable, hServes.pread hIn buf]
      exact ⟨rfl, h⟩
  | pwrite fd buf count pos =>
    rw [ProcessFiles.pass, PosixFiles.pass]
    cases hFile : p.fdTable fd with
    | none =>
      rw [h.not_open hFile]
      exact ⟨rfl, h⟩
    | some f =>
      obtain ⟨hWritable, hIn⟩ := hConforms f hFile
      rw [(h.object hFile).1]
      dsimp only
      rw [if_pos hWritable]
      exact ⟨rfl, h.pwrite hFile hIn buf⟩
  | fstat fd =>
    rw [ProcessFiles.pass, PosixFiles.pass]
    cases hFile : p.fdTable fd with
    | none =>
      rw [h.not_open hFile]
      exact ⟨rfl, h⟩
    | some f =>
      obtain ⟨hInode, hServes⟩ := h.object hFile
      have hLength : (p.mmios f.mmio).disk.length = (a.files f.ino).file.size := by
        rw [hServes.closable.backed.length, hConforms f hFile, hServes.represents.size]
      rw [hInode]
      dsimp only
      rw [hLength]
      exact ⟨rfl, h⟩

structure PassEffect (p p' : ProcessFiles M) : Prop where
  table : p'.fdTable = p.fdTable
  objects : p'.objects = p.objects
  logs : ∀ m, (p'.mmios m).radixlog = (p.mmios m).radixlog

theorem pass_effect (p : ProcessFiles M) (c : Passed) : PassEffect p (p.pass c).1 := by
  have hSame : PassEffect p p := ⟨rfl, rfl, fun _ => rfl⟩
  cases c with
  | pread fd buf count pos =>
    rw [ProcessFiles.pass]
    split
    · split <;> exact hSame
    · exact hSame
  | pwrite fd buf count pos =>
    rw [ProcessFiles.pass]
    split
    · split
      · refine ⟨rfl, rfl, fun m => ?_⟩
        dsimp only [setDisk]
        rw [Function.update_apply]
        split
        · rename_i hm
          rw [hm]
        · rfl
      · exact hSame
    · exact hSame
  | fstat fd =>
    rw [ProcessFiles.pass]
    split <;> exact hSame

end Steps

end ProcessFiles

namespace MappedFiles

variable {M : Type} [DecidableEq M] {p : MappedFiles M} {a : PosixFiles}

/-- One call, passed on or not: the answer of the abstract files. -/
theorem Stands.pass (h : p.Stands .undo a) {c : Call M} (hConforms : p.PassConforms c) :
    ∃ p', p.pass .undo c = .ok (p', (a.answer c).2) ∧ p'.Stands .undo (a.answer c).1 := by
  cases c with
  | event e =>
    obtain ⟨p', hOk, hNext⟩ := h.step hConforms
    exact ⟨p', by rw [MappedFiles.pass, hOk, ok_bind]; rfl, hNext⟩
  | passed c =>
    obtain ⟨hReply, hNext⟩ := h.process.pass hConforms
    obtain ⟨hTable, hObjects, hLogs⟩ := p.process.pass_effect c
    refine ⟨⟨(p.process.pass c).1, p.prots⟩, ?_, hNext, fun fd f hFile => ?_, fun m hTaken hReadOnly => ?_⟩
    · rw [MappedFiles.pass, hReply]
      rfl
    · dsimp only at hFile
      rw [hTable] at hFile
      exact h.covered.rights fd f hFile
    · dsimp only at hTaken
      rw [hObjects] at hTaken
      intro slot e hEntry
      dsimp only at hEntry
      rw [hLogs] at hEntry
      exact h.covered.quiet m hTaken hReadOnly slot e hEntry

section PassedByte

def passedByte : List (Call Bool) :=
  [.event (.open 3 5 .rdWr ⟨true, fun _ _ => 0, 2 ^ 21⟩), .passed (.pwrite 3 (fun _ => 9) 1 0),
    .passed (.pread 3 (fun _ => 0) 1 0), .passed (.fstat 3)]

theorem pass_oneByteFiles :
    pass .undo oneByteFiles (.event (.open 3 5 .rdWr ⟨true, fun _ _ => 0, 2 ^ 21⟩)) =
      .ok (oneOpen, .result (some .success)) := rfl

end PassedByte

end MappedFiles

end Libnvmmio

import Libnvmmio.File.LastLength

/-! # The rights of the mapping

`get_new_mmio` maps the file with the protection that the flags of its
descriptor ask for. Every later descriptor of the inode uses this mapping until
the object is released; `mremap` leaves the protection as it is.
-/

namespace Libnvmmio

open Mmio RadixLog Outcome GuardedRun

set_option autoImplicit false

structure Prot where
  read : Bool
  write : Bool
  deriving DecidableEq, Repr

def AccMode.readable : AccMode → Bool
  | .rdOnly => true
  | .wrOnly => false
  | .rdWr => true

def getProt : AccMode → Prot
  | .rdOnly => ⟨true, false⟩
  | .wrOnly => ⟨false, true⟩
  | .rdWr => ⟨true, true⟩

structure Prot.Covers (prot : Prot) (flags : AccMode) : Prop where
  read : flags.readable = true → prot.read = true
  write : flags.writable = true → prot.write = true

theorem getProt_covers (flags : AccMode) : (getProt flags).Covers flags := by
  cases flags <;> exact ⟨by decide, by decide⟩

structure MappedInode where
  inode : Inode
  prot : Prot

namespace MappedInode

/-- The call that creates the object maps the file. A shared mapping needs a
descriptor that is open for reading; `get_new_mmio` exits when `mmap` fails. -/
def call (policy : Policy) (n : MappedInode) (c : Call) : Except Failure (MappedInode × Result) :=
  match c, n.inode.backing with
  | .open _ flags _, .released _ =>
    if flags.readable then do
      let (inode, result) ← n.inode.call policy c
      .ok (⟨inode, getProt flags⟩, result)
    else .error .exit
  | _, _ => do
    let (inode, result) ← n.inode.call policy c
    .ok (⟨inode, n.prot⟩, result)

def RightsCover (n : MappedInode) : Prop := ∀ f ∈ n.inode.files, n.prot.Covers f.2.flags

/-- An open that finds the object asks for no right that its creator did not have. -/
def WithinRights (n : MappedInode) : Call → Prop
  | .open _ flags _ => ∀ m ref, n.inode.backing = .hashed m ref → n.prot.Covers flags
  | .onFile _ _ => True

def FreshFd (n : MappedInode) (c : Call) : Prop := n.inode.FreshFd c

abbrev Calls (policy : Policy) : MappedInode → List Call → MappedInode → Prop :=
  Run (Guarded FreshFd (Steps (call policy)))

section Step

variable {policy : Policy} {n n' : MappedInode} {c : Call}

/-- Only the open that creates the object sets the protection. -/
theorem step_cases (hStep : Steps (call policy) n c n') : Steps (Inode.call policy) n.inode c n'.inode ∧
    ((∃ fd flags provision disk, c = .open fd flags provision ∧ n.inode.backing = .released disk ∧
      n'.prot = getProt flags) ∨
    n'.prot = n.prot ∧ ∀ fd flags provision disk, c = .open fd flags provision →
      n.inode.backing ≠ .released disk) := by
  obtain ⟨result, hOk⟩ := hStep
  unfold call at hOk
  split at hOk
  · rename_i fd flags provision disk hReleased
    split at hOk
    · obtain ⟨⟨inode, r⟩, hCall, hDone⟩ := bind_eq_ok hOk
      cases hDone
      exact ⟨⟨_, hCall⟩, .inl ⟨fd, flags, provision, disk, rfl, hReleased, rfl⟩⟩
    · cases hOk
  · rename_i hOther
    obtain ⟨⟨inode, r⟩, hCall, hDone⟩ := bind_eq_ok hOk
    cases hDone
    exact ⟨⟨_, hCall⟩, .inr ⟨rfl, hOther⟩⟩

theorem open_files {fd : Nat} {flags : AccMode} {provision : Provision} {i i' : Inode}
    (hStep : Steps (Inode.call policy) i (.open fd flags provision) i') :
    i'.files = (fd, ⟨flags, 0⟩) :: i.files := by
  obtain ⟨result, hOk⟩ := hStep
  obtain ⟨i₁, hOpen, hDone⟩ := bind_eq_ok hOk
  cases hDone
  exact (Inode.libnvmmioOpen_eq_ok hOpen).1

theorem onFile_flags {fd : Nat} {call : FileCall} {i i' : Inode}
    (hStep : Steps (Inode.call policy) i (.onFile fd call) i') :
    ∀ f ∈ i'.files, ∃ g ∈ i.files, g.2.flags = f.2.flags := by
  obtain ⟨result, hOk⟩ := hStep
  intro f hMem
  rcases Inode.onFile_cases hOk with rfl | ⟨file, m, ref, hFile, hBacking, hCall⟩
  · exact ⟨f, hMem, rfl⟩
  have hSet : ∀ pos : Int, f ∈ i.setFile fd { file with pos := pos } →
      ∃ g ∈ i.files, g.2.flags = f.2.flags := by
    intro pos hIn
    rcases Inode.mem_setFile hIn with hOld | rfl
    · exact ⟨f, hOld, rfl⟩
    · exact ⟨(fd, file), Inode.mem_of_lookup hFile, rfl⟩
  cases call with
  | read buf len =>
    obtain ⟨_, _, _, _, _, _, rfl⟩ := Inode.read_eq_ok hCall
    exact hSet _ hMem
  | write remap buf len =>
    obtain ⟨_, _, _, _, _, rfl⟩ := Inode.write_eq_ok hCall
    exact hSet _ hMem
  | lseek offset whence =>
    obtain ⟨pos, _, hDone⟩ := bind_eq_ok hCall
    cases hDone
    exact hSet _ hMem
  | fsync =>
    obtain ⟨m', _, hDone⟩ := bind_eq_ok hCall
    cases hDone
    exact ⟨f, hMem, rfl⟩
  | close =>
    obtain ⟨backing, _, hDone⟩ := bind_eq_ok hCall
    cases hDone
    exact ⟨f, (List.mem_filter.mp hMem).1, rfl⟩

/-- One call keeps the rights covered exactly if it is not an open that asks for
more than the mapping has. -/
theorem rightsCover_step_iff (hCounted : n.inode.Counted) (hCover : n.RightsCover)
    (hStep : Steps (call policy) n c n') : n'.RightsCover ↔ n.WithinRights c := by
  obtain ⟨hInode, hProt⟩ := step_cases hStep
  cases c with
  | «open» fd flags provision =>
    have hFiles := open_files hInode
    unfold RightsCover
    rw [hFiles]
    constructor
    · intro hAll m ref hHashed
      rcases hProt with ⟨_, _, _, _, _, hReleased, _⟩ | ⟨hSame, _⟩
      · rw [hHashed] at hReleased
        cases hReleased
      · rw [← hSame]
        exact hAll (fd, ⟨flags, 0⟩) List.mem_cons_self
    · intro hWithin f hMem
      rcases hProt with ⟨_, _, _, disk, hOpen, hReleased, hNew⟩ | ⟨hSame, hHashed⟩
      · -- the open of a released object sets the protection anew
        cases hOpen
        rw [hNew]
        rw [hCounted.released disk hReleased] at hMem
        obtain rfl := List.mem_singleton.mp hMem
        exact getProt_covers flags
      · rw [hSame]
        rcases List.mem_cons.mp hMem with rfl | hOld
        · cases hBacking : n.inode.backing with
          | hashed m ref => exact hWithin m ref hBacking
          | released disk => exact absurd hBacking (hHashed fd flags provision disk rfl)
        · exact hCover f hOld
  | onFile fd call =>
    refine ⟨fun _ => trivial, fun _ f hMem => ?_⟩
    obtain ⟨g, hOld, hFlags⟩ := onFile_flags hInode f hMem
    rcases hProt with ⟨_, _, _, _, hOpen, _⟩ | ⟨hSame, _⟩
    · cases hOpen
    · rw [hSame, ← hFlags]
      exact hCover g hOld

end Step

/-- In every run whose opens ask for no right that the mapping lacks, every open
descriptor has its rights in the mapping. -/
theorem rightsCover_of_run {policy : Policy} {disk : Disk} {prot : Prot} {calls : List Call}
    {n : MappedInode}
    (hRun : Run (Guarded WithinRights (Guarded FreshFd (Steps (call policy))))
      ⟨Inode.closed disk, prot⟩ calls n) : n.RightsCover := by
  have hBoth : n.inode.Counted ∧ n.RightsCover := by
    refine hRun.invariant (fun n => n.inode.Counted ∧ n.RightsCover) ?_
      ⟨Inode.closed_counted disk, fun f hMem => by cases hMem⟩
    rintro n c n' ⟨hCounted, hCover⟩ ⟨hWithin, hFresh, hStep⟩
    exact ⟨hCounted.step ⟨hFresh, (step_cases hStep).1⟩,
      (rightsCover_step_iff hCounted hCover hStep).mpr hWithin⟩
  exact hBoth.2

section Sharing

def unopened : MappedInode := ⟨Inode.closed ⟨1, fun _ => 0⟩, ⟨false, false⟩⟩

def openedOnce (flags : AccMode) : MappedInode :=
  ⟨⟨[(3, ⟨flags, 0⟩)], .hashed oneByteFile 1⟩, getProt flags⟩

def openedTwice (flags flags' : AccMode) : MappedInode :=
  ⟨⟨[(4, ⟨flags', 0⟩), (3, ⟨flags, 0⟩)], .hashed oneByteFile 2⟩, getProt flags⟩

theorem open_once {flags : AccMode} (h : flags.readable = true) :
    Guarded FreshFd (Steps (call .undo)) unopened (.open 3 flags Inode.emptyProvision) (openedOnce flags) := by
  refine ⟨rfl, .success, ?_⟩
  change (if flags.readable = true then _ else _) = _
  rw [if_pos h]
  rfl

theorem open_twice (flags flags' : AccMode) :
    Guarded FreshFd (Steps (call .undo)) (openedOnce flags) (.open 4 flags' Inode.emptyProvision)
      (openedTwice flags flags') :=
  ⟨rfl, .success, rfl⟩

theorem rightsCover_readWriteFirst : (openedTwice .rdWr .rdOnly).RightsCover := by
  have hCreates : unopened.WithinRights (.open 3 .rdWr Inode.emptyProvision) := nofun
  have hFinds : (openedOnce .rdWr).WithinRights (.open 4 .rdOnly Inode.emptyProvision) :=
    fun _ _ _ => ⟨fun _ => rfl, fun _ => rfl⟩
  exact rightsCover_of_run (.cons ⟨hCreates, open_once rfl⟩
    (.cons ⟨hFinds, open_twice .rdWr .rdOnly⟩ (.nil _)))

/-- A descriptor opened for writing while a read-only one holds the object. -/
theorem rightsCover_fails_readOnlyFirst : ∃ n,
    Calls .undo unopened [.open 3 .rdOnly Inode.emptyProvision, .open 4 .rdWr Inode.emptyProvision] n ∧
      ¬ n.RightsCover := by
  refine ⟨openedTwice .rdOnly .rdWr, .cons (open_once rfl) (.cons (open_twice .rdOnly .rdWr) (.nil _)),
    fun hCover => ?_⟩
  have hWrite := (hCover (4, ⟨.rdWr, 0⟩) List.mem_cons_self).write rfl
  cases hWrite

end Sharing

end MappedInode

end Libnvmmio

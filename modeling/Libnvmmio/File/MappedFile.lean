import Libnvmmio.File.MappingRights
import Libnvmmio.File.PosixFile
import Libnvmmio.Mmio.CheckpointScan

/-! # The calls on an inode under the protection of its mapping

A store through a mapping without `PROT_WRITE` ends the process. Writes store
through the mapping, and so do checkpoints and the last close when they meet
redo logs. If no open asks for more than the mapping has, no call ends so and
the inode is the abstract file.
-/

namespace Libnvmmio

open Mmio RadixLog Outcome GuardedRun

set_option autoImplicit false

namespace Mmio

def copiesBack (m : Mmio) (slot : Slot) : Bool :=
  match m.radixlog.entryAt slot with
  | some e => decide (e.epoch < m.epoch ∧ e.policy = .redo ∧ 0 < e.len)
  | none => false

def writeStores (m : Mmio) (remap : Nat → Nat) (offset len : Nat) : Bool :=
  decide (m.policy = .undo ∧ 0 < len) || (m.writtenSlots remap offset len).any m.copiesBack

def checkpointStores (m : Mmio) : Bool :=
  m.checkpointScan.1.any fun
    | .load slot _ => m.copiesBack slot
    | _ => false

section NoData

variable {m m' : Mmio}

theorem NoData.checkpointStores (h : m.NoData) : m.checkpointStores = false := by
  have hNone (slot : Slot) : m.copiesBack slot = false := by
    rw [copiesBack]
    cases hEntry : m.radixlog.entryAt slot with
    | none => rfl
    | some e =>
      have hLen := h slot e hEntry
      exact decide_eq_false fun hBack => absurd hBack.2.2 (by omega)
  rw [Mmio.checkpointStores, List.any_eq_false]
  intro event _
  cases event with
  | load slot seen => simp [hNone]
  | shift | step => simp

theorem Opened.noData (h : m.Opened) : m.NoData := by
  intro slot e hEntry
  rw [h.no_entry] at hEntry
  cases hEntry

/-- Only writes put data into the logs. -/
theorem NoData.perform (h : m.NoData) (hSound : m.radixlog.Sound) {request : Request}
    (hStep : Steps perform m request m')
    (hRead : ∀ fdWritable remap off buf len, request ≠ .write fdWritable remap off buf len) : m'.NoData := by
  obtain ⟨reply, hOk⟩ := hStep
  rcases perform_cases hSound hOk with
    ⟨_, _, _, _, _, _, _, _, hWrite, _, _⟩ | ⟨_, _, _, _, _, m₁, head, _, _, hLocked, rfl⟩ |
    ⟨_, _, rfl⟩ | ⟨_, _, _, hCheckpoint⟩
  · exact absurd hWrite (hRead _ _ _ _ _)
  · intro slot e hEntry
    change m₁.radixlog.entryAt slot = some e at hEntry
    rcases hLocked.acquires.entries slot with hSame | ⟨_, e', hNew, hFresh⟩
    · exact h slot e (hSame ▸ hEntry)
    · rw [hNew] at hEntry
      cases hEntry
      exact hFresh.len
  · exact h
  · exact fun slot e hEntry => h slot e (hCheckpoint.entry_before hEntry)

end NoData

end Mmio

namespace Inode

/-- The event stores through the mapping. The checkpoint inside `commit_mmio` does not. -/
def stores (n : Inode) : Event → Bool
  | .call (.open _ _ _) => false
  | .call (.onFile fd c) =>
    match n.files.lookup fd, n.backing with
    | some file, .hashed m ref =>
      match c with
      | .write remap _ len => m.writeStores remap file.pos.toNat len
      | .close => decide (ref - 1 ≤ 0) && m.checkpointStores
      | _ => false
    | _, _ => false
  | .wakeup =>
    match n.backing with
    | .hashed m _ => m.checkpointStores
    | .released _ => false

section NoData

variable {policy : Policy} {n n' : Inode}

def NoData (n : Inode) : Prop := ∀ m ref, n.backing = .hashed m ref → m.NoData

/-- No event but a write on a descriptor of the inode puts data into the logs. -/
theorem NoData.next (h : n.NoData) (hSound : ∀ m ref, n.backing = .hashed m ref → m.radixlog.Sound)
    {e : Event} {result : Option Result} (hOk : n.next policy e = .ok (n', result))
    (hRead : ∀ fd remap buf len, e = .call (.onFile fd (.write remap buf len)) → n.files.lookup fd = none) :
    n'.NoData := by
  intro m' ref' hAfter
  cases e with
  | wakeup =>
    obtain ⟨n₁, hWakeup, hDone⟩ := bind_eq_ok hOk
    cases hDone
    unfold wakeup at hWakeup
    split at hWakeup
    · rename_i m ref hBacking
      obtain ⟨m₁, hCheckpoint, hDone⟩ := bind_eq_ok hWakeup
      cases hDone
      cases hAfter
      have hStep : Steps perform m .checkpoint m' := ⟨.done, by rw [perform, hCheckpoint, ok_bind]⟩
      exact (h m ref' hBacking).perform (hSound m ref' hBacking) hStep (by rintro _ _ _ _ _ ⟨⟩)
    · cases hWakeup
      cases hAfter
  | call c =>
    obtain ⟨⟨n₁, r⟩, hCall, hDone⟩ := bind_eq_ok hOk
    cases hDone
    cases c with
    | «open» fd flags provision =>
      obtain ⟨n₂, hOpen, hDone⟩ := bind_eq_ok hCall
      cases hDone
      unfold libnvmmioOpen at hOpen
      split at hOpen
      · rename_i m ref hBacking
        cases hOpen
        cases hAfter
        exact h m' ref hBacking
      · obtain ⟨m, hNew, hDone⟩ := bind_eq_ok hOpen
        cases hDone
        cases hAfter
        exact Opened.noData ⟨_, _, _, _, _, _, hNew⟩
    | onFile fd c =>
      rcases onFile_cases hCall with rfl | ⟨file, m, ref, hFile, hBacking, hCallFile⟩
      · exact h m' ref' hAfter
      have hTables := hSound m ref hBacking
      have hNone := h m ref hBacking
      cases c with
      | read buf len =>
        obtain ⟨off, m₁, count, buf', _, hDo, rfl⟩ := read_eq_ok hCallFile
        cases hAfter
        have hStep : Steps perform m (.read off buf len) m' := ⟨_, by rw [perform, hDo, ok_bind]⟩
        exact hNone.perform hTables hStep (by rintro _ _ _ _ _ ⟨⟩)
      | write remap buf len =>
        rw [hRead fd remap buf len rfl] at hFile
        cases hFile
      | lseek offset whence =>
        obtain ⟨pos, _, hDone⟩ := bind_eq_ok hCallFile
        cases hDone
        cases hAfter
        exact hNone
      | fsync =>
        obtain ⟨m₁, hDo, hDone⟩ := bind_eq_ok hCallFile
        cases hDone
        cases hAfter
        have hStep : Steps perform m .commit m' := ⟨_, by rw [perform, hDo, ok_bind]⟩
        exact hNone.perform hTables hStep (by rintro _ _ _ _ _ ⟨⟩)
      | close =>
        obtain ⟨backing, hDelete, hDone⟩ := bind_eq_ok hCallFile
        cases hDone
        unfold deleteMmioHash at hDelete
        dsimp only at hDelete
        split at hDelete
        · obtain ⟨disk, _, hDone⟩ := bind_eq_ok hDelete
          cases hDone
          cases hAfter
        · cases hDelete
          cases hAfter
          exact hNone

end NoData

end Inode

namespace MappedInode

/-- A store through a mapping that may not be written is a fault. -/
def next (policy : Policy) (n : MappedInode) (e : Inode.Event) :
    Except Failure (MappedInode × Option Result) :=
  if n.inode.stores e ∧ n.prot.write = false then .error .unmapped
  else
    match e with
    | .call c => do
      let (n, result) ← n.call policy c
      .ok (n, some result)
    | .wakeup => do
      let inode ← n.inode.wakeup
      .ok (⟨inode, n.prot⟩, none)

/-- No open asks for a right that the mapping lacks, and the first one can map the file. -/
def Conforms (policy : Policy) (n : MappedInode) : Inode.Event → Prop
  | .call (.open fd flags provision) => n.inode.Conforms policy (.call (.open fd flags provision)) ∧
      n.WithinRights (.open fd flags provision) ∧
      ∀ disk, n.inode.backing = .released disk → flags.readable = true
  | e => n.inode.Conforms policy e

/-- The inode is the abstract file, every descriptor has its rights in the mapping, and a
mapping that may not be written has no logs with data. -/
structure Stands (policy : Policy) (n : MappedInode) (p : PosixFile) : Prop where
  inode : n.inode.Stands policy p
  rights : n.RightsCover
  quiet : n.prot.write = false → n.inode.NoData

section Steps

variable {policy : Policy} {n n' : MappedInode} {p : PosixFile} {e : Inode.Event}

theorem Conforms.inode (h : n.Conforms policy e) : n.inode.Conforms policy e := by
  cases e with
  | wakeup => exact h
  | call c =>
    cases c with
    | «open» fd flags provision => exact h.1
    | onFile fd c => exact h

theorem Stands.sound (h : n.Stands policy p) : ∀ m ref, n.inode.backing = .hashed m ref → m.radixlog.Sound :=
  fun m ref hBacking => (h.inode.counted.hashed m ref hBacking).2.2.sound

/-- A conforming event writes only through a descriptor that has the right in the mapping. -/
theorem Stands.may_write (h : n.Stands policy p) (hConforms : n.Conforms policy e) {fd : Nat} {remap : Nat → Nat}
    {buf : Nat → UInt8} {len : Nat} (hWrite : e = .call (.onFile fd (.write remap buf len))) {file : FileT}
    (hFile : n.inode.files.lookup fd = some file) : n.prot.write = true := by
  subst hWrite
  cases hBacking : n.inode.backing with
  | hashed m ref =>
    have hWritable := (hConforms file m ref hFile hBacking).1
    exact (h.rights (fd, file) (Inode.mem_of_lookup hFile)).write hWritable
  | released disk =>
    rw [h.inode.counted.released disk hBacking] at hFile
    cases hFile

theorem Stands.no_fault (h : n.Stands policy p) (hConforms : n.Conforms policy e) :
    ¬ (n.inode.stores e = true ∧ n.prot.write = false) := by
  rintro ⟨hStores, hReadOnly⟩
  have hQuiet := h.quiet hReadOnly
  cases e with
  | wakeup =>
    unfold Inode.stores at hStores
    dsimp only at hStores
    split at hStores
    · rename_i m ref hBacking
      rw [(hQuiet m ref hBacking).checkpointStores] at hStores
      cases hStores
    · cases hStores
  | call c =>
    cases c with
    | «open» fd flags provision => cases hStores
    | onFile fd c =>
      unfold Inode.stores at hStores
      dsimp only at hStores
      split at hStores
      · rename_i file m ref hFile hBacking
        cases c with
        | write remap buf len =>
          have hMay := h.may_write hConforms rfl hFile
          rw [hReadOnly] at hMay
          cases hMay
        | close =>
          dsimp only at hStores
          rw [(hQuiet m ref hBacking).checkpointStores, Bool.and_false] at hStores
          cases hStores
        | read | lseek | fsync => cases hStores
      · cases hStores

/-- What the inode answers, the mapped one answers, when the first open can map the file. -/
theorem call_of_inode {c : Call} {i : Inode} {result : Result} (hOk : n.inode.call policy c = .ok (i, result))
    (hMaps : ∀ fd flags provision disk, c = .open fd flags provision → n.inode.backing = .released disk →
      flags.readable = true) : ∃ prot, n.call policy c = .ok (⟨i, prot⟩, result) := by
  unfold call
  split
  · rename_i fd flags provision disk hReleased
    rw [if_pos (hMaps fd flags provision disk rfl hReleased), hOk, ok_bind]
    exact ⟨_, rfl⟩
  · rw [hOk, ok_bind]
    exact ⟨_, rfl⟩

theorem Stands.quiet_call (h : n.Stands policy p) {c : Call} (hConforms : n.Conforms policy (.call c))
    {i : Inode} {result : Result} (hOk : n.inode.call policy c = .ok (i, result)) {prot : Prot}
    (hStep : Steps (call policy) n c ⟨i, prot⟩) (hReadOnly : prot.write = false) : i.NoData := by
  have hNext : n.inode.next policy (.call c) = .ok (i, some result) := by rw [Inode.next, hOk, ok_bind]
  rcases (step_cases hStep).2 with ⟨fd, flags, provision, disk, rfl, hReleased, _⟩ | ⟨hSame, _⟩
  · have hFresh : n.inode.NoData := by
      intro m ref hBacking
      rw [hReleased] at hBacking
      cases hBacking
    exact hFresh.next h.sound hNext (by rintro _ _ _ _ ⟨⟩)
  · have hBefore : n.prot.write = false := hSame ▸ hReadOnly
    refine (h.quiet hBefore).next h.sound hNext fun fd remap buf len hWrite => ?_
    cases hFile : n.inode.files.lookup fd with
    | none => rfl
    | some file =>
      have hMay := h.may_write hConforms hWrite hFile
      rw [hBefore] at hMay
      cases hMay

/-- One event: the answer of the abstract file, which the inode then is. -/
theorem Stands.step (h : n.Stands policy p) (hConforms : n.Conforms policy e) :
    ∃ n', n.next policy e = .ok (n', (p.serve e).2) ∧ n'.Stands policy (p.serve e).1 := by
  obtain ⟨i, hOk, hNext⟩ := h.inode.step hConforms.inode
  have hNoFault := h.no_fault hConforms
  cases e with
  | wakeup =>
    obtain ⟨i₁, hWakeup, hDone⟩ := bind_eq_ok hOk
    obtain ⟨rfl, _⟩ := Prod.mk.inj (Except.ok.inj hDone)
    refine ⟨⟨i₁, n.prot⟩, ?_, hNext, ?_, fun hReadOnly => ?_⟩
    · rw [next, if_neg hNoFault, hWakeup]
      rfl
    · intro f hMem
      have hFiles : i₁.files = n.inode.files := by
        unfold Inode.wakeup at hWakeup
        split at hWakeup
        · obtain ⟨m₁, _, hDone⟩ := bind_eq_ok hWakeup
          cases hDone
          rfl
        · cases hWakeup
          rfl
      exact h.rights f (hFiles ▸ hMem)
    · exact (h.quiet hReadOnly).next h.sound hOk (by rintro _ _ _ _ ⟨⟩)
  | call c =>
    obtain ⟨⟨i₁, result⟩, hCall, hDone⟩ := bind_eq_ok hOk
    obtain ⟨rfl, hAnswer⟩ := Prod.mk.inj (Except.ok.inj hDone)
    have hMaps : ∀ fd flags provision disk, c = .open fd flags provision →
        n.inode.backing = .released disk → flags.readable = true := by
      rintro fd flags provision disk rfl hReleased
      exact hConforms.2.2 disk hReleased
    have hWithin : n.WithinRights c := by
      cases c with
      | «open» fd flags provision => exact hConforms.2.1
      | onFile fd c => trivial
    obtain ⟨prot, hMapped⟩ := call_of_inode hCall hMaps
    have hStep : Steps (call policy) n c ⟨i₁, prot⟩ := ⟨result, hMapped⟩
    refine ⟨⟨i₁, prot⟩, ?_, hNext, (rightsCover_step_iff h.inode.counted h.rights hStep).mpr hWithin,
      h.quiet_call hConforms hCall hStep⟩
    rw [next, if_neg hNoFault]
    dsimp only
    rw [hMapped, ok_bind, hAnswer]

end Steps

def rewindEvents : List Inode.Event :=
  [.call Inode.openOneByte, .call (.onFile 3 (.write (fun _ => 2 ^ 21) (fun _ => 9) 1)),
    .call (.onFile 3 (.lseek 0 .seekSet)), .call (.onFile 3 .close)]

/-- A mapping that a read-only descriptor made: a write through another descriptor is a fault. -/
theorem exec_fails_readOnlyFirst : exec (next .undo) unopened
    [.call (.open 3 .rdOnly Inode.emptyProvision), .call (.open 4 .rdWr Inode.emptyProvision),
      .call (.onFile 4 (.write (fun _ => 2 ^ 21) (fun _ => 9) 1))] = .error .unmapped := rfl

end MappedInode

end Libnvmmio

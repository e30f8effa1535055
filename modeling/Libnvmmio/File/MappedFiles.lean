import Libnvmmio.File.MappedFile
import Libnvmmio.File.ProcessFiles

/-! # The files of a process under the protections of their mappings

The object of an inode keeps the protection that the first descriptor asked
for. If no open asks for more than the mapping of its inode has, no call ends in
a fault and the calls of the process are answered as the abstract files do.
-/

namespace Libnvmmio

open FileHash (Fd)
open Mmio Outcome GuardedRun

set_option autoImplicit false
set_option linter.unusedSectionVars false

structure MappedFiles (M : Type) where
  process : ProcessFiles M
  prots : M → Prot

namespace MappedFiles

variable {M : Type} [DecidableEq M]

def faults (p : MappedFiles M) : ProcessFiles.Event M → Bool
  | .open _ _ _ _ => false
  | .onFile fd c =>
    match p.process.fdTable fd with
    | some f => (p.process.borrow fd f).stores (.call (.onFile fd c)) && !(p.prots f.mmio).write
    | none => false
  | .wakeup m => (p.process.mmios m).checkpointStores && !(p.prots m).write

/-- An open that finds no object of its inode maps the file. -/
def next (policy : Policy) (p : MappedFiles M) (e : ProcessFiles.Event M) :
    Except Failure (MappedFiles M × Option Result) :=
  if p.faults e then .error .unmapped
  else
    match e with
    | .open fd ino flags supply =>
      match p.process.find ino with
      | some _ => do
        let (process, result) ← p.process.next policy (.open fd ino flags supply)
        .ok (⟨process, p.prots⟩, result)
      | none =>
        if flags.readable then do
          let (process, result) ← p.process.next policy (.open fd ino flags supply)
          .ok (⟨process, Function.update p.prots supply.object (getProt flags)⟩, result)
        else .error .exit
    | .onFile fd c => do
      let (process, result) ← p.process.next policy (.onFile fd c)
      .ok (⟨process, p.prots⟩, result)
    | .wakeup m => do
      let (process, result) ← p.process.next policy (.wakeup m)
      .ok (⟨process, p.prots⟩, result)

/-- No open asks for a right that the mapping lacks, and the first one can map the file. -/
def Conforms (policy : Policy) (p : MappedFiles M) : ProcessFiles.Event M → Prop
  | .open fd ino flags supply => p.process.Conforms policy (.open fd ino flags supply) ∧
      (∀ m, p.process.find ino = some m → (p.prots m).Covers flags) ∧
      (p.process.find ino = none → flags.readable = true)
  | e => p.process.Conforms policy e

/-- Every descriptor has its rights in the mapping of its object, and mappings that may not be
written have no logs with data. -/
structure Covered (p : MappedFiles M) : Prop where
  rights : ∀ fd f, p.process.fdTable fd = some f → (p.prots f.mmio).Covers f.file.flags
  quiet : ∀ m, p.process.objects.pooled m = false → (p.prots m).write = false → (p.process.mmios m).NoData

structure Stands (policy : Policy) (p : MappedFiles M) (a : PosixFiles) : Prop where
  process : p.process.Stands policy a
  covered : p.Covered

end MappedFiles

/-! ## What a call does to the objects -/

namespace ProcessFiles

variable {M : Type} [DecidableEq M]

section Effects

variable {policy : Policy} {p p' : ProcessFiles M} {a : PosixFiles} {fd : Fd} {f : OpenFile M}

/-- The loop of `delete_mmio_hash` puts objects into the pool and takes none out. -/
theorem deleteNodes_effect {flags : AccMode} {ino : Nat} {nodes nodes' : List M}
    (hOk : deleteNodes flags ino nodes p = .ok (nodes', p')) : p'.mmios = p.mmios ∧ p'.fdTable = p.fdTable ∧
      ∀ m, p'.objects.pooled m = false → p.objects.pooled m = false := by
  induction nodes generalizing p nodes' p' with
  | nil =>
    cases hOk
    exact ⟨rfl, rfl, fun _ => id⟩
  | cons node nodes ih =>
    rw [deleteNodes] at hOk
    split at hOk
    · dsimp only at hOk
      split at hOk
      · obtain ⟨disk, _, hRest⟩ := bind_eq_ok hOk
        obtain ⟨hMmios, hTable, hPooled⟩ := ih hRest
        refine ⟨hMmios, hTable, fun m hTaken => ?_⟩
        have hReleased := hPooled m hTaken
        change Function.update p.objects.pooled node true m = false at hReleased
        rw [Function.update_apply] at hReleased
        split at hReleased
        · cases hReleased
        · exact hReleased
      · obtain ⟨⟨ms, q⟩, hRest, hDone⟩ := bind_eq_ok hOk
        cases hDone
        obtain ⟨hMmios, hTable, hPooled⟩ := ih hRest
        exact ⟨hMmios, hTable, hPooled⟩
    · obtain ⟨⟨ms, q⟩, hRest, hDone⟩ := bind_eq_ok hOk
      cases hDone
      exact ih hRest

/-- A call on a descriptor: it is passed to the file system, or closes the descriptor, or
changes the position and the object of the descriptor. -/
inductive CallEffect (p : ProcessFiles M) (fd : Fd) (c : FileCall) (p' : ProcessFiles M) : Prop where
  | posix (hNone : p.fdTable fd = none) (hSame : p' = p)
  | close (hMmios : p'.mmios = p.mmios) (hTable : p'.fdTable = Function.update p.fdTable fd none)
      (hPooled : ∀ m, p'.objects.pooled m = false → p.objects.pooled m = false)
  | call (f : OpenFile M) (n : Inode) (result : Result) (hFile : p.fdTable fd = some f) (hOpen : c.closes = false)
      (hOk : (p.borrow fd f).callFile fd f.file (p.mmios f.mmio) (p.objects.ref f.mmio) c = .ok (n, result))
      (hBack : p' = p.giveBack fd f n)

theorem onFile_effect {c : FileCall} {result : Result} (hOk : p.onFile fd c = .ok (p', result)) :
    CallEffect p fd c p' := by
  unfold onFile at hOk
  split at hOk
  · rename_i hNone
    cases hOk
    exact .posix hNone rfl
  · rename_i f hFile
    cases c with
    | close =>
      obtain ⟨⟨nodes, q⟩, hDelete, hDone⟩ := bind_eq_ok hOk
      cases hDone
      obtain ⟨hMmios, hTable, hPooled⟩ := deleteNodes_effect hDelete
      exact .close hMmios (by rw [← hTable]) hPooled
    | read | write | lseek | fsync =>
      obtain ⟨⟨n, r⟩, hCall, hDone⟩ := bind_eq_ok hOk
      cases hDone
      exact .call f n _ hFile rfl hCall rfl

/-- What a descriptor and its object are after they have been given back. -/
theorem giveBack_entry {n : Inode} {x : Fd} {g : OpenFile M} (hEntry : (p.giveBack fd f n).fdTable x = some g) :
    p.fdTable x = some g ∨ x = fd ∧ g.mmio = f.mmio ∧ n.files.lookup fd.val = some g.file := by
  unfold giveBack at hEntry
  split at hEntry
  · rename_i file m ref hLookup _
    change Function.update p.fdTable fd _ x = some g at hEntry
    rw [Function.update_apply] at hEntry
    split at hEntry
    · rename_i hx
      cases hEntry
      exact .inr ⟨hx, rfl, hLookup⟩
    · exact .inl hEntry
  · exact .inl hEntry

theorem giveBack_mmio (p : ProcessFiles M) (fd : Fd) (f : OpenFile M) (n : Inode) (m : M) :
    (p.giveBack fd f n).mmios m = p.mmios m ∨
    m = f.mmio ∧ ∃ ref, n.backing = .hashed ((p.giveBack fd f n).mmios m) ref := by
  unfold giveBack
  split
  · rename_i file mmio ref _ hBacking
    dsimp only
    by_cases hm : m = f.mmio
    · subst hm
      rw [Function.update_self]
      exact .inr ⟨rfl, ref, hBacking⟩
    · rw [Function.update_of_ne hm]
      exact .inl rfl
  · exact .inl rfl

theorem giveBack_pooled (n : Inode) : (p.giveBack fd f n).objects = p.objects := by
  unfold giveBack
  split <;> rfl

end Effects

end ProcessFiles

namespace MappedFiles

section Steps

variable {M : Type} [DecidableEq M] {policy : Policy} {p : MappedFiles M} {a : PosixFiles}

/-- The object of a descriptor is in use, and its tables are sound. -/
theorem Stands.object (h : p.Stands policy a) {fd : Fd} {f : OpenFile M} (hFile : p.process.fdTable fd = some f) :
    p.process.objects.pooled f.mmio = false ∧ (p.process.mmios f.mmio).radixlog.Sound := by
  have hFind := h.process.inv.find_file hFile
  refine ⟨h.process.inv.taken_of_find hFind, ?_⟩
  obtain ⟨n, hProjects, hStands⟩ := h.process.stands f.ino
  have hBacking := hProjects.backing
  rw [ProcessFiles.backing, hFind] at hBacking
  exact (hStands.hashed _ _ hBacking).closable.backed.sound

theorem Stands.sound (h : p.Stands policy a) {m : M} (hTaken : p.process.objects.pooled m = false) :
    (p.process.mmios m).radixlog.Sound := by
  obtain ⟨n, hProjects, hStands⟩ := h.process.stands (p.process.objects.ino m)
  have hBacking := hProjects.backing
  rw [ProcessFiles.backing, h.process.inv.find_live hTaken] at hBacking
  exact (hStands.hashed _ _ hBacking).closable.backed.sound

theorem Stands.quiet_borrow (h : p.Stands policy a) {fd : Fd} {f : OpenFile M}
    (hFile : p.process.fdTable fd = some f) (hReadOnly : (p.prots f.mmio).write = false) :
    (p.process.borrow fd f).NoData := by
  rintro m ref ⟨⟩
  exact h.covered.quiet f.mmio (h.object hFile).1 hReadOnly

theorem Stands.no_fault (h : p.Stands policy a) {e : ProcessFiles.Event M} (hConforms : p.Conforms policy e) :
    p.faults e = false := by
  cases e with
  | «open» fd ino flags supply => rfl
  | wakeup m =>
    rw [faults]
    cases hWrite : (p.prots m).write with
    | true => exact Bool.and_false _
    | false => rw [(h.covered.quiet m hConforms.1 hWrite).checkpointStores, Bool.false_and]
  | onFile fd c =>
    rw [faults]
    cases hFile : p.process.fdTable fd with
    | none => rfl
    | some f =>
      dsimp only
      cases hWrite : (p.prots f.mmio).write with
      | true => exact Bool.and_false _
      | false =>
        rw [Bool.not_false, Bool.and_true]
        have hNone := (h.covered.quiet f.mmio (h.object hFile).1 hWrite).checkpointStores
        rw [Inode.stores, ProcessFiles.borrow, List.lookup_cons_self]
        cases c with
        | write remap buf len =>
          have hMay := (h.covered.rights fd f hFile).write (hConforms f hFile).1
          rw [hWrite] at hMay
          cases hMay
        | close =>
          dsimp only
          rw [hNone, Bool.and_false]
        | read | lseek | fsync => rfl

theorem Stands.onFile (h : p.Stands policy a) {fd : Fd} {c : FileCall} (hConforms : p.Conforms policy (.onFile fd c))
    {process : ProcessFiles M} {result : Result} (hOk : p.process.onFile fd c = .ok (process, result)) :
    Covered ⟨process, p.prots⟩ := by
  cases ProcessFiles.onFile_effect hOk with
  | posix _ hSame =>
    subst hSame
    exact h.covered
  | close hMmios hTable hPooled =>
    refine ⟨fun x g hEntry => ?_, fun m hTaken hReadOnly => ?_⟩
    · dsimp only at hEntry
      rw [hTable, Function.update_apply] at hEntry
      split at hEntry
      · cases hEntry
      · exact h.covered.rights x g hEntry
    · dsimp only
      rw [hMmios]
      exact h.covered.quiet m (hPooled m hTaken) hReadOnly
  | call f n r hFile hOpen hCall hBack =>
    subst hBack
    refine ⟨fun x g hEntry => ?_, fun m hTaken hReadOnly => ?_⟩
    · rcases ProcessFiles.giveBack_entry hEntry with hOld | ⟨_, hMmio, hLookup⟩
      · exact h.covered.rights x g hOld
      · have hStep : Steps (Inode.call policy) (p.process.borrow fd f) (.onFile fd c) n := by
          refine ⟨r, ?_⟩
          rw [Inode.call, ProcessFiles.borrow, List.lookup_cons_self]
          exact hCall
        obtain ⟨g', hMem, hFlags⟩ :=
          MappedInode.onFile_flags hStep (fd.val, g.file) (Inode.mem_of_lookup hLookup)
        obtain rfl := List.mem_singleton.mp hMem
        dsimp only at hFlags ⊢
        rw [hMmio, ← hFlags]
        exact h.covered.rights fd f hFile
    · dsimp only at hTaken ⊢
      rw [ProcessFiles.giveBack_pooled] at hTaken
      rcases p.process.giveBack_mmio fd f n m with hSame | ⟨rfl, ref, hBacking⟩
      · rw [hSame]
        exact h.covered.quiet m hTaken hReadOnly
      · have hNext : (p.process.borrow fd f).next policy (.call (.onFile fd c)) = .ok (n, some r) := by
          rw [Inode.next, Inode.call, ProcessFiles.borrow, List.lookup_cons_self]
          dsimp only
          rw [← ProcessFiles.borrow, hCall, ok_bind]
        refine (h.quiet_borrow hFile hReadOnly).next ?_ hNext ?_ _ ref hBacking
        · rintro m ref ⟨⟩
          exact (h.object hFile).2
        · rintro fd' remap buf len ⟨⟩
          have hMay := (h.covered.rights fd f hFile).write (hConforms f hFile).1
          rw [hReadOnly] at hMay
          cases hMay

/-- An open of an inode that has an object. -/
theorem Stands.openHit (h : p.Stands policy a) {fd : Fd} {ino : Nat} {flags : AccMode} {m : M}
    (hCovers : (p.prots m).Covers flags) :
    Covered ⟨(p.process.countRef m).openFile fd ino flags m, p.prots⟩ := by
  refine ⟨fun x g hEntry => ?_, h.covered.quiet⟩
  change Function.update p.process.fdTable fd _ x = some g at hEntry
  rw [Function.update_apply] at hEntry
  split at hEntry
  · cases hEntry
    exact hCovers
  · exact h.covered.rights x g hEntry

/-- An open that maps the file. -/
theorem Stands.openMiss (h : p.Stands policy a) {fd : Fd} {ino : Nat} {flags : AccMode} {m : M} {mmio : Mmio}
    (hPooled : p.process.objects.pooled m = true) (hOpened : mmio.Opened) :
    Covered ⟨p.process.opened fd ino flags m mmio, Function.update p.prots m (getProt flags)⟩ := by
  refine ⟨fun x g hEntry => ?_, fun m' hTaken hReadOnly => ?_⟩
  · change Function.update p.process.fdTable fd _ x = some g at hEntry
    rw [Function.update_apply] at hEntry
    split at hEntry
    · cases hEntry
      dsimp only
      rw [Function.update_self]
      exact getProt_covers flags
    · have hOther : g.mmio ≠ m := by
        intro hSame
        have hTaken := (h.object hEntry).1
        rw [hSame, hPooled] at hTaken
        cases hTaken
      dsimp only
      rw [Function.update_of_ne hOther]
      exact h.covered.rights x g hEntry
  · change (Function.update p.process.mmios m mmio m').NoData
    by_cases hm : m' = m
    · subst hm
      rw [Function.update_self]
      exact hOpened.noData
    · dsimp only at hReadOnly
      rw [Function.update_of_ne hm] at hReadOnly ⊢
      refine h.covered.quiet m' ?_ hReadOnly
      change Function.update p.process.objects.pooled m false m' = false at hTaken
      rwa [Function.update_of_ne hm] at hTaken

theorem Conforms.process {e : ProcessFiles.Event M} (h : p.Conforms policy e) : p.process.Conforms policy e := by
  cases e with
  | «open» fd ino flags supply => exact h.1
  | onFile fd c => exact h
  | wakeup m => exact h

theorem Stands.open (h : p.Stands policy a) {fd : Fd} {ino : Nat} {flags : AccMode} {supply : ProcessFiles.Supply M}
    (hConforms : p.Conforms policy (.open fd ino flags supply)) :
    ∃ p', p.next policy (.open fd ino flags supply) = .ok (p', some .success) ∧
      p'.Stands policy (a.serve (.open fd ino flags supply)).1 := by
  obtain ⟨process, hOk, hNext⟩ := h.process.open hConforms.1
  obtain ⟨hProcess, hWithin, hMaps⟩ := hConforms
  have hServed : p.process.next policy (.open fd ino flags supply) = .ok (process, some .success) := by
    rw [ProcessFiles.next, hOk, ok_bind]
  rw [next, if_neg (by rw [faults]; decide)]
  dsimp only
  cases hFind : p.process.find ino with
  | some m =>
    dsimp only
    rw [hServed, ok_bind]
    refine ⟨_, rfl, hNext, ?_⟩
    rw [ProcessFiles.libnvmmioOpen, hFind] at hOk
    cases hOk
    exact h.openHit (hWithin m hFind)
  | none =>
    dsimp only
    rw [if_pos (hMaps hFind), hServed, ok_bind]
    refine ⟨_, rfl, hNext, ?_⟩
    have hNew : ∃ mmio, Mmio.getNewMmio policy (p.process.mmios supply.object).epoch supply.logPool supply.addr
        flags.writable (p.process.disks ino) = .ok mmio := by
      rw [ProcessFiles.libnvmmioOpen, hFind] at hOk
      obtain ⟨q, hGet, _⟩ := bind_eq_ok hOk
      obtain ⟨mmio, hMmio, _⟩ := bind_eq_ok hGet
      exact ⟨mmio, hMmio⟩
    obtain ⟨mmio, hMmio⟩ := hNew
    rw [h.process.inv.open_eq hProcess.2.1 hFind hMmio] at hOk
    cases hOk
    exact h.openMiss hProcess.2.1 ⟨_, _, _, _, _, _, hMmio⟩

/-- One event: the answer of the abstract files, which the process then is. -/
theorem Stands.step (h : p.Stands policy a) {e : ProcessFiles.Event M} (hConforms : p.Conforms policy e) :
    ∃ p', p.next policy e = .ok (p', (a.serve e).2) ∧ p'.Stands policy (a.serve e).1 := by
  have hNoFault : ¬ p.faults e = true := by
    rw [h.no_fault hConforms]
    decide
  cases e with
  | «open» fd ino flags supply => exact h.open hConforms
  | onFile fd c =>
    obtain ⟨process, result, hOk, hAnswer, hNext⟩ := h.process.onFile hConforms
    refine ⟨⟨process, p.prots⟩, ?_, hNext, h.onFile hConforms hOk⟩
    rw [next, if_neg hNoFault]
    dsimp only
    rw [ProcessFiles.next, hOk, ok_bind, hAnswer]
    rfl
  | wakeup m =>
    obtain ⟨process, hOk, hNext⟩ := h.process.wakeup hConforms
    refine ⟨⟨process, p.prots⟩, ?_, hNext, ?_⟩
    · rw [next, if_neg hNoFault]
      dsimp only
      rw [ProcessFiles.next, hOk, ok_bind]
      rfl
    · obtain ⟨mmio, hCheckpoint, hDone⟩ := bind_eq_ok hOk
      cases hDone
      refine ⟨h.covered.rights, fun m' hTaken hReadOnly => ?_⟩
      have hNone := h.covered.quiet m' hTaken hReadOnly
      change (Function.update p.process.mmios m mmio m').NoData
      by_cases hm : m' = m
      · subst hm
        rw [Function.update_self]
        have hStep : Steps perform (p.process.mmios m') .checkpoint mmio :=
          ⟨.done, by rw [perform, hCheckpoint, ok_bind]⟩
        exact hNone.perform (h.sound hTaken) hStep (by rintro _ _ _ _ _ ⟨⟩)
      · rw [Function.update_of_ne hm]
        exact hNone

end Steps

variable {M : Type} [DecidableEq M]

def started (mmios : M → Mmio) (prots : M → Prot) (disks : Nat → Disk) : MappedFiles M :=
  ⟨.started mmios disks, prots⟩

theorem started_stands (policy : Policy) (mmios : M → Mmio) (prots : M → Prot) (disks : Nat → Disk) :
    (started mmios prots disks).Stands policy (PosixFiles.ofDisks disks) where
  process := ProcessFiles.started_stands policy mmios disks
  covered := ⟨(by rintro _ _ ⟨⟩), (by rintro _ ⟨⟩)⟩

section Collision

def collidingEvents : List (ProcessFiles.Event Bool) :=
  [.open 3 5 .rdWr ⟨true, fun _ _ => 0, 2 ^ 21⟩, .open 4 1029 .rdWr ⟨false, fun _ _ => 0, 2 ^ 22⟩,
    .onFile 4 (.lseek 0 .seekEnd)]

def oneByteFiles : MappedFiles Bool :=
  started (fun _ => oneByteFile) (fun _ => ⟨false, false⟩) fun _ => ⟨1, fun _ => 0⟩

def oneOpen : MappedFiles Bool :=
  ⟨oneByteFiles.process.opened 3 5 .rdWr true oneByteFile,
    Function.update (fun _ => ⟨false, false⟩) true (getProt .rdWr)⟩

def twoOpen : MappedFiles Bool :=
  ⟨oneOpen.process.opened 4 1029 .rdWr false (firstOpen .undo (2 ^ 22) ⟨1, fun _ => 0⟩),
    Function.update oneOpen.prots false (getProt .rdWr)⟩

theorem next_oneByteFiles : next .undo oneByteFiles (.open 3 5 .rdWr ⟨true, fun _ _ => 0, 2 ^ 21⟩) =
    .ok (oneOpen, some .success) := rfl

theorem next_oneOpen : next .undo oneOpen (.open 4 1029 .rdWr ⟨false, fun _ _ => 0, 2 ^ 22⟩) =
    .ok (twoOpen, some .success) := rfl

end Collision

end MappedFiles

end Libnvmmio

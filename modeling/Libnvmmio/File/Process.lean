import Libnvmmio.File.PosixFile
import Libnvmmio.File.SharedMmio

/-! # The files of a process

One thread opens, uses and closes descriptors of any inodes. The hash finds the
object of an inode among others in the same bucket, the pool gives an object
again that another inode has used, and `fd_table` leads from a descriptor to its
object. The checkpoint threads wake up between the calls.
-/

namespace Libnvmmio

open FileHash (Fd Bucket Objects hashIndex Stored)
open Mmio Outcome GuardedRun

set_option autoImplicit false
set_option linter.unusedSectionVars false

structure OpenFile (M : Type) where
  mmio : M
  ino : Nat
  file : FileT

/-- The objects are there all the time; of one in the pool only `epoch` is used
again. The file of an inode that has an object is in the object. -/
structure ProcessFiles (M : Type) where
  hash : Bucket → List M
  objects : Objects M
  mmios : M → Mmio
  fdTable : Fd → Option (OpenFile M)
  disks : Nat → Disk

namespace ProcessFiles

/-- What `get_new_mmio` is provided with: an object of the pool, log buffers, and
the address that `mmap` returns. -/
structure Supply (M : Type) where
  object : M
  logPool : Nat → Nat → UInt8
  addr : Nat

inductive Event (M : Type) where
  /-- `posix.open` has returned the descriptor, and `flags` has `O_ATOMIC` -/
  | «open» (fd : Fd) (ino : Nat) (flags : AccMode) (supply : Supply M)
  | onFile (fd : Fd) (c : FileCall)
  /-- `checkpoint_thread_func` of an object after its `usleep` -/
  | wakeup (m : M)

variable {M : Type} [DecidableEq M]

def find (p : ProcessFiles M) (ino : Nat) : Option M :=
  (p.hash (hashIndex ino)).find? fun m => ino = p.objects.ino m

def countRef (p : ProcessFiles M) (m : M) : ProcessFiles M :=
  { p with objects := p.objects.setRef m (p.objects.ref m + 1) }

/-- The end of `libnvmmio_open`. -/
def openFile (p : ProcessFiles M) (fd : Fd) (ino : Nat) (flags : AccMode) (m : M) : ProcessFiles M :=
  { p with fdTable := Function.update p.fdTable fd (some ⟨m, ino, ⟨flags, 0⟩⟩) }

def getNewMmio (policy : Policy) (p : ProcessFiles M) (ino : Nat) (flags : AccMode) (supply : Supply M) :
    Except Failure (ProcessFiles M) := do
  let m ← Mmio.getNewMmio policy (p.mmios supply.object).epoch supply.logPool supply.addr flags.writable
    (p.disks ino)
  .ok { p with
    objects := p.objects.take supply.object ino
    mmios := Function.update p.mmios supply.object m }

def putMmioHash (p : ProcessFiles M) (ino : Nat) (m : M) : ProcessFiles M × M :=
  match p.find ino with
  | some m' => (p, m')
  | none =>
    ({ p.countRef m with hash := Function.update p.hash (hashIndex ino) (m :: p.hash (hashIndex ino)) }, m)

def libnvmmioOpen (policy : Policy) (p : ProcessFiles M) (fd : Fd) (ino : Nat) (flags : AccMode)
    (supply : Supply M) : Except Failure (ProcessFiles M) :=
  match p.find ino with
  | some m => .ok ((p.countRef m).openFile fd ino flags m)
  | none => do
    let p ← p.getNewMmio policy ino flags supply
    let (p, m) := p.putMmioHash ino supply.object
    .ok (p.openFile fd ino flags m)

def deleteNodes (flags : AccMode) (ino : Nat) : List M → ProcessFiles M → Except Failure (List M × ProcessFiles M)
  | [], p => .ok ([], p)
  | m :: ms, p =>
    if ino = p.objects.ino m then
      let p := { p with objects := p.objects.setRef m (p.objects.ref m - 1) }
      if p.objects.ref m ≤ 0 then do
        let disk ← (p.mmios m).closeMmio flags.writable
        deleteNodes flags ino ms
          { p with objects := p.objects.release m, disks := Function.update p.disks ino disk }
      else do
        let (ms, p) ← deleteNodes flags ino ms p
        .ok (m :: ms, p)
    else do
      let (ms, p) ← deleteNodes flags ino ms p
      .ok (m :: ms, p)

def close (p : ProcessFiles M) (fd : Fd) (f : OpenFile M) : Except Failure (ProcessFiles M × Result) := do
  let (nodes, p) ← deleteNodes f.file.flags f.ino (p.hash (hashIndex f.ino)) p
  .ok ({ p with
    hash := Function.update p.hash (hashIndex f.ino) nodes
    fdTable := Function.update p.fdTable fd none }, .success)

/-- The entry of `fd_table` and its object, all that the calls on a descriptor use
but `close`. -/
def borrow (p : ProcessFiles M) (fd : Fd) (f : OpenFile M) : Inode :=
  ⟨[(fd, f.file)], .hashed (p.mmios f.mmio) (p.objects.ref f.mmio)⟩

def giveBack (p : ProcessFiles M) (fd : Fd) (f : OpenFile M) (n : Inode) : ProcessFiles M :=
  match n.files.lookup fd.val, n.backing with
  | some file, .hashed m _ => { p with
      fdTable := Function.update p.fdTable fd (some { f with file := file })
      mmios := Function.update p.mmios f.mmio m }
  | _, _ => p

/-- A call on a descriptor; without an entry in `fd_table` it goes to the file system. -/
def onFile (p : ProcessFiles M) (fd : Fd) (c : FileCall) : Except Failure (ProcessFiles M × Result) :=
  match p.fdTable fd with
  | none => .ok (p, .posix)
  | some f =>
    match c with
    | .close => p.close fd f
    | c => do
      let (n, result) ← (p.borrow fd f).callFile fd f.file (p.mmios f.mmio) (p.objects.ref f.mmio) c
      .ok (p.giveBack fd f n, result)

def wakeup (p : ProcessFiles M) (m : M) : Except Failure (ProcessFiles M) := do
  let mmio ← (p.mmios m).checkpointMmio
  .ok { p with mmios := Function.update p.mmios m mmio }

def next (policy : Policy) (p : ProcessFiles M) : Event M → Except Failure (ProcessFiles M × Option Result)
  | .open fd ino flags supply => do
    let p ← p.libnvmmioOpen policy fd ino flags supply
    .ok (p, some .success)
  | .onFile fd c => do
    let (p, result) ← p.onFile fd c
    .ok (p, some result)
  | .wakeup m => do
    let p ← p.wakeup m
    .ok (p, none)

/-- After `init_libnvmmio`, with all objects in the pool. -/
def started (mmios : M → Mmio) (disks : Nat → Disk) : ProcessFiles M where
  hash _ := []
  objects := ⟨fun _ => 0, fun _ => 0, fun _ => true⟩
  mmios := mmios
  fdTable _ := none
  disks := disks

/-- An open names a descriptor that is not in use and is provided with an object of the
pool, calls are answered as POSIX says, and only the thread of an object in use wakes up. -/
def Conforms (policy : Policy) (p : ProcessFiles M) : Event M → Prop
  | .open fd ino flags supply => p.fdTable fd = none ∧ p.objects.pooled supply.object = true ∧
      (p.find ino = none →
        (0 < (p.disks ino).length ∨ flags.writable = true) ∧ (p.disks ino).length ≤ 2 ^ 48)
  | .onFile fd c => ∀ f, p.fdTable fd = some f →
      Inode.Conforming policy f.file (p.mmios f.mmio) (p.objects.ref f.mmio) c
  | .wakeup m => p.objects.pooled m = false ∧ (p.mmios m).radixlog.SkipSized

/-! ## The process seen from one inode -/

def counted (p : ProcessFiles M) (fd : Fd) : Option M := (p.fdTable fd).map OpenFile.mmio

structure Inv (p : ProcessFiles M) : Prop where
  stored : Stored p.hash p.objects p.counted
  files : ∀ fd f, p.fdTable fd = some f → p.objects.ino f.mmio = f.ino
  live : ∀ m, p.objects.pooled m = false → m ∈ p.hash (hashIndex (p.objects.ino m))

def backing (p : ProcessFiles M) (ino : Nat) : Backing :=
  match p.find ino with
  | some m => .hashed (p.mmios m) (p.objects.ref m)
  | none => .released (p.disks ino)

def fileOf (p : ProcessFiles M) (ino : Nat) (fd : Fd) : Option FileT :=
  (p.fdTable fd).bind fun f => if f.ino = ino then some f.file else none

structure Projects (p : ProcessFiles M) (ino : Nat) (n : Inode) : Prop where
  files : ∀ fd : Fd, n.files.lookup fd.val = p.fileOf ino fd
  backing : n.backing = p.backing ino

structure Same (p p' : ProcessFiles M) (ino : Nat) : Prop where
  find : p'.find ino = p.find ino
  mmio : ∀ m, p.find ino = some m → p'.mmios m = p.mmios m ∧ p'.objects.ref m = p.objects.ref m
  disk : p'.disks ino = p.disks ino
  files : ∀ fd, p'.fileOf ino fd = p.fileOf ino fd

structure Follows (p p' : ProcessFiles M) (ino : Nat) (n' : Inode) : Prop where
  inv : p'.Inv
  here : p'.Projects ino n'
  elsewhere : ∀ other, other ≠ ino → Same p p' other

section Facts

variable {p p' : ProcessFiles M} {ino other : Nat} {m : M} {fd : Fd} {f : OpenFile M} {n : Inode}

theorem Same.projects (h : Same p p' ino) (hProjects : p.Projects ino n) : p'.Projects ino n where
  files fd := (hProjects.files fd).trans (h.files fd).symm
  backing := by
    rw [hProjects.backing, backing, backing, h.find]
    split
    · rename_i m hFind
      rw [(h.mmio m hFind).1, (h.mmio m hFind).2]
    · rw [h.disk]

theorem Inv.find_eq_some_iff (h : p.Inv) :
    p.find ino = some m ↔ m ∈ p.hash (hashIndex ino) ∧ p.objects.ino m = ino := by
  constructor
  · intro hFind
    have hIno := List.find?_some hFind
    exact ⟨List.mem_of_find?_eq_some hFind, (of_decide_eq_true hIno).symm⟩
  · rintro ⟨hMem, hIno⟩
    cases hFind : p.find ino with
    | none =>
      have hNot := List.find?_eq_none.mp hFind m hMem
      exact absurd (decide_eq_true hIno.symm) hNot
    | some m' =>
      have hIno' := List.find?_some hFind
      have hSame := (of_decide_eq_true hIno').symm.trans hIno.symm
      rw [h.stored.unique _ m' (List.mem_of_find?_eq_some hFind) m hMem hSame]

theorem Inv.find_live (h : p.Inv) (hTaken : p.objects.pooled m = false) :
    p.find (p.objects.ino m) = some m := h.find_eq_some_iff.mpr ⟨h.live m hTaken, rfl⟩

theorem Inv.taken_of_find (h : p.Inv) (hFind : p.find ino = some m) : p.objects.pooled m = false :=
  h.stored.taken _ m (h.find_eq_some_iff.mp hFind).1

theorem Inv.find_file (h : p.Inv) (hFile : p.fdTable fd = some f) : p.find f.ino = some f.mmio := by
  have hCounted : p.counted fd = some f.mmio := by rw [counted, hFile]; rfl
  obtain ⟨i, hMem⟩ := h.stored.hashed fd f.mmio hCounted
  have hFind := h.find_live (h.stored.taken i f.mmio hMem)
  rw [h.files fd f hFile] at hFind
  exact hFind

theorem find_congr (hHere : p.Inv) (hThere : p'.Inv)
    (hSame : ∀ m, (m ∈ p'.hash (hashIndex ino) ∧ p'.objects.ino m = ino) ↔
      (m ∈ p.hash (hashIndex ino) ∧ p.objects.ino m = ino)) : p'.find ino = p.find ino := by
  apply Option.ext
  intro m
  exact hThere.find_eq_some_iff.trans ((hSame m).trans hHere.find_eq_some_iff.symm)

theorem fileOf_of_file (hFile : p.fdTable fd = some f) (ino : Nat) :
    p.fileOf ino fd = if f.ino = ino then some f.file else none := by
  rw [fileOf, hFile]
  rfl

theorem fileOf_update (fds : Fd) (entry : Option (OpenFile M)) (ino : Nat) (fd : Fd) :
    ({ p with fdTable := Function.update p.fdTable fds entry } : ProcessFiles M).fileOf ino fd =
      if fd = fds then entry.bind fun f => if f.ino = ino then some f.file else none else p.fileOf ino fd := by
  rw [fileOf]
  dsimp only
  rw [Function.update_apply]
  split <;> rfl

end Facts

section Steps

variable {policy : Policy} {p : ProcessFiles M} {ino : Nat} {m : M} {fd : Fd} {flags : AccMode}
  {f : OpenFile M} {n n' : Inode}

theorem counted_openFile : (p.openFile fd ino flags m).counted = Function.update p.counted fd (some m) := by
  funext x
  rw [counted, openFile, Function.update_apply]
  dsimp only
  rw [Function.update_apply]
  split <;> rfl

theorem Inv.other_mmio (h : p.Inv) {m' : M} {other : Nat} (hFind : p.find ino = some m)
    (hOther : p.find other = some m') (hne : other ≠ ino) : m' ≠ m := by
  rintro rfl
  exact hne ((h.find_eq_some_iff.mp hOther).2.symm.trans (h.find_eq_some_iff.mp hFind).2)

/-- Another descriptor of an inode that is in the hash. -/
theorem Inv.openHit (h : p.Inv) (hFree : p.fdTable fd = none) (hFind : p.find ino = some m)
    (hProjects : p.Projects ino n) (flags : AccMode) :
    Follows p ((p.countRef m).openFile fd ino flags m) ino
      ⟨(fd.val, ⟨flags, 0⟩) :: n.files, .hashed (p.mmios m) (p.objects.ref m + 1)⟩ := by
  obtain ⟨hMem, hIno⟩ := h.find_eq_some_iff.mp hFind
  have hFreeCount : p.counted fd = none := by rw [counted, hFree]; rfl
  refine ⟨⟨?_, ?_, h.live⟩, ⟨?_, ?_⟩, ?_⟩
  · rw [counted_openFile]
    exact h.stored.count hFreeCount ⟨_, hMem⟩
  · intro x g hFile
    change Function.update p.fdTable fd _ x = some g at hFile
    rw [Function.update_apply] at hFile
    split at hFile
    · cases hFile
      exact hIno
    · exact h.files x g hFile
  · intro x
    rw [openFile, fileOf_update, Inode.lookup_cons_eq]
    simp only [Fin.val_inj]
    split
    · simp
    · exact hProjects.files x
  · have hSame : ((p.countRef m).openFile fd ino flags m).find ino = some m := hFind
    have hRef : ((p.countRef m).openFile fd ino flags m).objects.ref m = p.objects.ref m + 1 := by
      change Function.update p.objects.ref m (p.objects.ref m + 1) m = _
      rw [Function.update_self]
    rw [backing, hSame]
    dsimp only
    rw [hRef]
    rfl
  · intro other hne
    refine ⟨rfl, fun m' hOther => ⟨rfl, ?_⟩, rfl, fun x => ?_⟩
    · exact Function.update_of_ne (h.other_mmio hFind hOther hne) ..
    · rw [openFile, fileOf_update]
      split
      · rename_i hx
        rw [hx, fileOf, hFree]
        simp [Ne.symm hne]
      · rfl

theorem Inv.ref_of_pooled (h : p.Inv) (hPooled : p.objects.pooled m = true) : p.objects.ref m = 0 := by
  have hNobody : holders p.counted m = ∅ := by
    apply holders_eq_empty_iff.mpr
    intro x hx
    obtain ⟨i, hMem⟩ := h.stored.hashed x m hx
    rw [h.stored.taken i m hMem] at hPooled
    cases hPooled
  rw [h.stored.refs, hNobody, Finset.card_empty]
  rfl

def opened (p : ProcessFiles M) (fd : Fd) (ino : Nat) (flags : AccMode) (m : M) (mmio : Mmio) : ProcessFiles M :=
  openFile { p with
    hash := Function.update p.hash (hashIndex ino) (m :: p.hash (hashIndex ino))
    objects := (p.objects.take m ino).setRef m (p.objects.ref m + 1)
    mmios := Function.update p.mmios m mmio } fd ino flags m

theorem Inv.unhashed (h : p.Inv) (hPooled : p.objects.pooled m = true) (i : Bucket) : m ∉ p.hash i := by
  intro hMem
  rw [h.stored.taken i m hMem] at hPooled
  cases hPooled

theorem Inv.open_eq (h : p.Inv) {supply : Supply M} (hPooled : p.objects.pooled supply.object = true)
    (hFind : p.find ino = none) {mmio : Mmio}
    (hNew : Mmio.getNewMmio policy (p.mmios supply.object).epoch supply.logPool supply.addr flags.writable
      (p.disks ino) = .ok mmio) :
    p.libnvmmioOpen policy fd ino flags supply = .ok (p.opened fd ino flags supply.object mmio) := by
  have hStill : ({ p with
      objects := p.objects.take supply.object ino
      mmios := Function.update p.mmios supply.object mmio } : ProcessFiles M).find ino = none := by
    rw [find, List.find?_eq_none] at hFind ⊢
    intro x hMem
    have hne : x ≠ supply.object := fun hEq => h.unhashed hPooled _ (hEq ▸ hMem)
    have hIno : (p.objects.take supply.object ino).ino x = p.objects.ino x := Function.update_of_ne hne ..
    rw [hIno]
    exact hFind x hMem
  rw [libnvmmioOpen, hFind]
  dsimp only
  rw [getNewMmio, hNew, ok_bind, ok_bind, putMmioHash, hStill]
  rfl

/-- The first descriptor of an inode. -/
theorem mem_opened (i : Bucket) (x : M) {mmio : Mmio} :
    x ∈ (p.opened fd ino flags m mmio).hash i ↔ x ∈ p.hash i ∨ i = hashIndex ino ∧ x = m := by
  change x ∈ Function.update p.hash (hashIndex ino) (m :: p.hash (hashIndex ino)) i ↔ _
  rw [Function.update_apply]
  split
  · rename_i hi
    simp [hi, or_comm]
  · rename_i hi
    simp [hi]

theorem ino_opened_self {mmio : Mmio} : (p.opened fd ino flags m mmio).objects.ino m = ino :=
  Function.update_self ..

theorem ino_opened_of_ne {x : M} (hx : x ≠ m) {mmio : Mmio} :
    (p.opened fd ino flags m mmio).objects.ino x = p.objects.ino x := Function.update_of_ne hx ..

/-- An object in use is not the one that is taken. -/
theorem Inv.ne_of_find (h : p.Inv) (hPooled : p.objects.pooled m = true) {other : Nat} {x : M}
    (hFound : p.find other = some x) : x ≠ m := by
  intro hEq
  have hIn := h.taken_of_find hFound
  rw [hEq, hPooled] at hIn
  cases hIn

theorem Inv.opened (h : p.Inv) (hFree : p.fdTable fd = none) (hPooled : p.objects.pooled m = true)
    (hFind : p.find ino = none) (flags : AccMode) (mmio : Mmio) : (p.opened fd ino flags m mmio).Inv := by
  have hFreeCount : p.counted fd = none := by rw [counted, hFree]; rfl
  have hIno : (p.objects.take m ino).ino m = ino := Function.update_self ..
  have hTaken : (p.objects.take m ino).pooled m = false := Function.update_self ..
  have hNone : ∀ x ∈ p.hash (hashIndex ((p.objects.take m ino).ino m)),
      (p.objects.take m ino).ino x ≠ (p.objects.take m ino).ino m := by
    rw [hIno]
    intro x hMem hSame
    have hx : x ≠ m := fun hEq => h.unhashed hPooled _ (hEq ▸ hMem)
    rw [show (p.objects.take m ino).ino x = p.objects.ino x from Function.update_of_ne hx ..] at hSame
    rw [h.find_eq_some_iff.mpr ⟨hMem, hSame⟩] at hFind
    cases hFind
  have hStored := (h.stored.take hPooled ino).add hFreeCount hTaken (h.unhashed hPooled) hNone
  rw [hIno] at hStored
  refine ⟨?_, fun x g hFile => ?_, fun x hx => ?_⟩
  · rw [ProcessFiles.opened, counted_openFile]
    exact hStored
  · change Function.update p.fdTable fd _ x = some g at hFile
    rw [Function.update_apply] at hFile
    split at hFile
    · cases hFile
      exact hIno
    · exact (ino_opened_of_ne (h.ne_of_find hPooled (h.find_file hFile))).trans (h.files x g hFile)
  · by_cases hEq : x = m
    · rw [hEq, ino_opened_self]
      exact (mem_opened _ _).mpr (.inr ⟨rfl, rfl⟩)
    · have hLive : p.objects.pooled x = false :=
        (show (p.objects.take m ino).pooled x = p.objects.pooled x from Function.update_of_ne hEq ..).symm.trans hx
      rw [ino_opened_of_ne hEq]
      exact (mem_opened _ _).mpr (.inl (h.live x hLive))

theorem Inv.openMiss (h : p.Inv) (hFree : p.fdTable fd = none) (hPooled : p.objects.pooled m = true)
    (hFind : p.find ino = none) (hProjects : p.Projects ino n) (flags : AccMode) (mmio : Mmio) :
    Follows p (p.opened fd ino flags m mmio) ino ⟨(fd.val, ⟨flags, 0⟩) :: n.files, .hashed mmio 1⟩ := by
  have hInv := h.opened hFree hPooled hFind flags mmio
  refine ⟨hInv, ⟨?_, ?_⟩, ?_⟩
  · intro x
    rw [ProcessFiles.opened, openFile, fileOf_update, Inode.lookup_cons_eq]
    simp only [Fin.val_inj]
    split
    · simp
    · exact hProjects.files x
  · have hFound : (p.opened fd ino flags m mmio).find ino = some m :=
      hInv.find_eq_some_iff.mpr ⟨(mem_opened _ _).mpr (.inr ⟨rfl, rfl⟩), ino_opened_self⟩
    have hMmio : (p.opened fd ino flags m mmio).mmios m = mmio := Function.update_self ..
    have hRef : (p.opened fd ino flags m mmio).objects.ref m = 1 := by
      change Function.update p.objects.ref m (p.objects.ref m + 1) m = 1
      rw [Function.update_self, h.ref_of_pooled hPooled]
      rfl
    rw [backing, hFound]
    dsimp only
    rw [hMmio, hRef]
  · intro other hne
    refine ⟨find_congr h hInv fun x => ?_, fun x hFound => ?_, rfl, fun x => ?_⟩
    · rw [mem_opened]
      by_cases hEq : x = m
      · rw [hEq, ino_opened_self]
        exact ⟨fun hx => absurd hx.2.symm hne, fun hx => absurd hx.1 (h.unhashed hPooled _)⟩
      · rw [ino_opened_of_ne hEq]
        simp [hEq]
    · have hx := h.ne_of_find hPooled hFound
      exact ⟨Function.update_of_ne hx .., Function.update_of_ne hx ..⟩
    · rw [ProcessFiles.opened, openFile, fileOf_update]
      split
      · rename_i hx
        rw [hx, fileOf, hFree]
        simp [Ne.symm hne]
      · rfl

/-- A call that moves one descriptor and changes its object. -/
theorem Inv.moved (h : p.Inv) (hFile : p.fdTable fd = some f) (hProjects : p.Projects f.ino n)
    {file : FileT} {mmio : Mmio} (hFiles : ∀ x, n'.files.lookup x = if x = fd.val then some file else n.files.lookup x)
    (hBacking : n'.backing = .hashed mmio (p.objects.ref f.mmio)) :
    Follows p { p with
      fdTable := Function.update p.fdTable fd (some { f with file := file })
      mmios := Function.update p.mmios f.mmio mmio } f.ino n' := by
  have hFind := h.find_file hFile
  have hCounted : counted { p with
      fdTable := Function.update p.fdTable fd (some { f with file := file })
      mmios := Function.update p.mmios f.mmio mmio } = p.counted := by
    funext x
    rw [counted, counted]
    dsimp only
    rw [Function.update_apply]
    split
    · rename_i hx
      rw [hx, hFile]
      rfl
    · rfl
  refine ⟨⟨?_, ?_, h.live⟩, ⟨?_, ?_⟩, ?_⟩
  · rw [hCounted]
    exact h.stored
  · intro x g hEntry
    change Function.update p.fdTable fd _ x = some g at hEntry
    rw [Function.update_apply] at hEntry
    split at hEntry
    · cases hEntry
      exact h.files fd f hFile
    · exact h.files x g hEntry
  · intro x
    rw [hFiles, fileOf]
    dsimp only
    rw [Function.update_apply]
    simp only [Fin.val_inj]
    split
    · simp
    · exact hProjects.files x
  · have hSame : find { p with
        fdTable := Function.update p.fdTable fd (some { f with file := file })
        mmios := Function.update p.mmios f.mmio mmio } f.ino = some f.mmio := hFind
    rw [hBacking, backing, hSame]
    dsimp only
    rw [Function.update_self]
  · intro other hne
    refine ⟨rfl, fun m' hOther => ⟨?_, rfl⟩, rfl, fun x => ?_⟩
    · exact Function.update_of_ne (h.other_mmio hFind hOther hne) ..
    · rw [fileOf]
      dsimp only
      rw [Function.update_apply]
      split
      · rename_i hx
        rw [hx, fileOf, hFile]
        simp [Ne.symm hne]
      · rfl

theorem Inv.woken (h : p.Inv) (hTaken : p.objects.pooled m = false) (hProjects : p.Projects (p.objects.ino m) n)
    (mmio : Mmio) : Follows p { p with mmios := Function.update p.mmios m mmio } (p.objects.ino m)
      ⟨n.files, .hashed mmio (p.objects.ref m)⟩ := by
  have hFind := h.find_live hTaken
  refine ⟨⟨h.stored, h.files, h.live⟩, ⟨hProjects.files, ?_⟩, fun other hne => ?_⟩
  · have hSame : find { p with mmios := Function.update p.mmios m mmio } (p.objects.ino m) = some m := hFind
    rw [backing, hSame]
    dsimp only
    rw [Function.update_self]
  · refine ⟨rfl, fun m' hOther => ⟨?_, rfl⟩, rfl, fun _ => rfl⟩
    exact Function.update_of_ne (h.other_mmio hFind hOther hne) ..

/-! ## The last steps of a descriptor -/

theorem deleteNodes_of_none (flags : AccMode) {ms : List M} (hNone : ∀ m ∈ ms, ino ≠ p.objects.ino m) :
    deleteNodes flags ino ms p = .ok (ms, p) := by
  induction ms with
  | nil => rfl
  | cons x xs ih =>
    rw [deleteNodes, if_neg (hNone x List.mem_cons_self), ih fun m hm => hNone m (List.mem_cons_of_mem x hm)]
    rfl

/-- Where the inode has one node, its object loses a reference, and with the last one the
object goes back to the pool and the file to the disk. -/
theorem deleteNodes_of_one (flags : AccMode) {ms : List M} (hNodup : ms.Nodup) (hMem : m ∈ ms) (hIno : ino = p.objects.ino m)
    (hOnly : ∀ x ∈ ms, ino = p.objects.ino x → x = m) :
    deleteNodes flags ino ms p =
      if p.objects.ref m - 1 ≤ 0 then do
        let disk ← (p.mmios m).closeMmio flags.writable
        .ok (ms.erase m, { p with
          objects := (p.objects.setRef m (p.objects.ref m - 1)).release m
          disks := Function.update p.disks ino disk })
      else .ok (ms, { p with objects := p.objects.setRef m (p.objects.ref m - 1) }) := by
  induction ms with
  | nil => cases hMem
  | cons x xs ih =>
    obtain ⟨hx, hNodup'⟩ := List.nodup_cons.mp hNodup
    by_cases hEq : x = m
    · subst hEq
      have hRest : ∀ y ∈ xs, y ≠ x ∧ ino ≠ p.objects.ino y := by
        intro y hy
        have hne : y ≠ x := fun hEq => hx (hEq ▸ hy)
        exact ⟨hne, fun hSame => hne (hOnly y (List.mem_cons_of_mem x hy) hSame)⟩
      have hRef : (p.objects.setRef x (p.objects.ref x - 1)).ref x = p.objects.ref x - 1 :=
        Function.update_self ..
      rw [deleteNodes, if_pos hIno, List.erase_cons_head]
      dsimp only
      rw [hRef]
      split
      · congr 1
        funext disk
        apply deleteNodes_of_none flags
        intro y hy hSame
        exact (hRest y hy).2 (hSame.trans (Function.update_of_ne (hRest y hy).1 ..))
      · have hKept := deleteNodes_of_none (p := { p with
          objects := p.objects.setRef x (p.objects.ref x - 1) }) flags fun y hy => (hRest y hy).2
        rw [hKept, ok_bind]
    · have hOther : ino ≠ p.objects.ino x := fun hSame => hEq (hOnly x List.mem_cons_self hSame)
      have hMem' : m ∈ xs := (List.mem_cons.mp hMem).resolve_left (Ne.symm hEq)
      have hErase : (x :: xs).erase m = x :: xs.erase m := by
        rw [List.erase_cons_tail]
        exact fun hSame => hEq (eq_of_beq hSame)
      rw [deleteNodes, if_neg hOther,
        ih hNodup' hMem' fun y hy => hOnly y (List.mem_cons_of_mem x hy), hErase]
      split
      · cases (p.mmios m).closeMmio flags.writable <;> rfl
      · rfl

theorem fileOf_cleared (x : Fd) (ino : Nat) {q : ProcessFiles M} (hTable : q.fdTable = Function.update p.fdTable fd none) :
    q.fileOf ino x = if x = fd then none else p.fileOf ino x := by
  rw [fileOf, hTable, Function.update_apply]
  split <;> rfl

theorem counted_cleared {q : ProcessFiles M} (hTable : q.fdTable = Function.update p.fdTable fd none) :
    q.counted = Function.update p.counted fd none := by
  funext x
  rw [counted, hTable, Function.update_apply, Function.update_apply]
  split <;> rfl

/-- What holds of the hash after a deletion whatever became of the object. -/
theorem Inv.deleted (h : p.Inv) {q : ProcessFiles M}
    (hTable : q.fdTable = Function.update p.fdTable fd none) (hStored : Stored q.hash q.objects q.counted)
    (hDeleted : FileHash.Deleted p.hash q.hash p.objects q.objects p.counted fd f.mmio) : q.Inv := by
  refine ⟨hStored, fun x g hEntry => ?_, fun x hx => ?_⟩
  · rw [hTable, Function.update_apply] at hEntry
    split at hEntry
    · cases hEntry
    · rename_i hne
      rw [← h.files x g hEntry]
      by_cases hEq : g.mmio = f.mmio
      · rw [hEq]
        apply hDeleted.still x hne
        rw [counted, hEntry, ← hEq]
        rfl
      · exact hDeleted.ino g.mmio hEq
  · by_cases hEq : x = f.mmio
    · rw [hEq] at hx ⊢
      obtain ⟨i, hMem⟩ := hDeleted.gone hx
      rw [← hStored.bucket i f.mmio hMem]
      exact hMem
    · rw [hDeleted.pooled x hEq] at hx
      rw [hDeleted.ino x hEq]
      exact hDeleted.kept _ x hEq (h.live x hx)

theorem Inv.deleted_elsewhere (h : p.Inv) (hFile : p.fdTable fd = some f) {q : ProcessFiles M}
    (hTable : q.fdTable = Function.update p.fdTable fd none) (hInv : q.Inv)
    (hDeleted : FileHash.Deleted p.hash q.hash p.objects q.objects p.counted fd f.mmio)
    (hOwn : ∀ i, f.mmio ∈ q.hash i → q.objects.ino f.mmio = f.ino)
    (hRef : ∀ x, x ≠ f.mmio → q.objects.ref x = p.objects.ref x) (hMmios : q.mmios = p.mmios)
    {other : Nat} (hne : other ≠ f.ino) (hDisk : q.disks other = p.disks other) : Same p q other := by
  have hMine := h.find_file hFile
  refine ⟨find_congr h hInv fun x => ?_, fun x hFound => ⟨by rw [hMmios], ?_⟩, hDisk, fun x => ?_⟩
  · by_cases hEq : x = f.mmio
    · rw [hEq]
      constructor
      · rintro ⟨hMem, hIno⟩
        exact absurd (hIno.symm.trans (hOwn _ hMem)) hne
      · rintro ⟨_, hIno⟩
        exact absurd (hIno.symm.trans (h.files fd f hFile)) hne
    · rw [hDeleted.ino x hEq]
      exact and_congr_left fun _ => ⟨hDeleted.sub _ x, hDeleted.kept _ x hEq⟩
  · exact hRef x (h.other_mmio hMine hFound hne)
  · rw [fileOf_cleared x other hTable]
    split
    · rename_i hx
      rw [hx, fileOf_of_file hFile, if_neg (Ne.symm hne)]
    · rfl

/-- The descriptors of the inode are the others. -/
theorem Projects.cleared (hProjects : p.Projects ino n) {q : ProcessFiles M}
    (hTable : q.fdTable = Function.update p.fdTable fd none) (x : Fd) :
    (n.files.filter fun g => g.1 != fd.val).lookup x.val = q.fileOf ino x := by
  rw [Inode.lookup_filter, fileOf_cleared x ino hTable]
  simp only [Fin.val_inj]
  split
  · rfl
  · exact hProjects.files x

theorem Inv.only (h : p.Inv) (hFile : p.fdTable fd = some f) :
    ∀ x ∈ p.hash (hashIndex f.ino), f.ino = p.objects.ino x → x = f.mmio := by
  obtain ⟨hMem, hIno⟩ := h.find_eq_some_iff.mp (h.find_file hFile)
  exact fun x hx hSame => h.stored.unique _ x hx f.mmio hMem (hSame.symm.trans hIno.symm)

/-- The last descriptor is closed, and `disk` is left. -/
theorem Inv.closeLast (h : p.Inv) (hFile : p.fdTable fd = some f) (hProjects : p.Projects f.ino n)
    (hLast : p.objects.ref f.mmio - 1 ≤ 0) (disk : Disk) :
    Follows p { p with
      hash := Function.update p.hash (hashIndex f.ino) ((p.hash (hashIndex f.ino)).erase f.mmio)
      objects := (p.objects.setRef f.mmio (p.objects.ref f.mmio - 1)).release f.mmio
      disks := Function.update p.disks f.ino disk
      fdTable := Function.update p.fdTable fd none } f.ino
      ⟨n.files.filter fun g => g.1 != fd.val, .released disk⟩ := by
  have hCounted : p.counted fd = some f.mmio := by rw [counted, hFile]; rfl
  obtain ⟨_, hIno⟩ := h.find_eq_some_iff.mp (h.find_file hFile)
  obtain ⟨hStored, hDeleted⟩ := h.stored.release hCounted hLast
  rw [hIno] at hStored hDeleted
  have hInv := h.deleted (q := { p with
    hash := Function.update p.hash (hashIndex f.ino) ((p.hash (hashIndex f.ino)).erase f.mmio)
    objects := (p.objects.setRef f.mmio (p.objects.ref f.mmio - 1)).release f.mmio
    disks := Function.update p.disks f.ino disk
    fdTable := Function.update p.fdTable fd none }) rfl
    (by rw [counted_cleared rfl]; exact hStored) hDeleted
  have hGone : ((p.objects.setRef f.mmio (p.objects.ref f.mmio - 1)).release f.mmio).pooled f.mmio = true :=
    Function.update_self ..
  refine ⟨hInv, ⟨hProjects.cleared rfl, ?_⟩, fun other hne => ?_⟩
  · rw [backing]
    split
    · rename_i x hFound
      exfalso
      have hLive := hInv.taken_of_find hFound
      obtain ⟨hIn, hSame⟩ := hInv.find_eq_some_iff.mp hFound
      by_cases hEq : x = f.mmio
      · rw [hEq] at hLive
        exact absurd (hGone.symm.trans hLive) (by decide)
      · have hOld := hDeleted.sub _ x hIn
        have hIno' : p.objects.ino x = f.ino := (hDeleted.ino x hEq).symm.trans hSame
        exact hEq (h.only hFile x hOld hIno'.symm)
    · dsimp only
      rw [Function.update_self]
  · refine h.deleted_elsewhere hFile rfl hInv hDeleted (fun i hIn => ?_)
      (fun x hx => Function.update_of_ne hx ..) rfl hne (Function.update_of_ne hne ..)
    exact absurd (hGone.symm.trans (hStored.taken i f.mmio hIn)) (by decide)

/-- Other descriptors of the inode stay open. -/
theorem Inv.closeMore (h : p.Inv) (hFile : p.fdTable fd = some f) (hProjects : p.Projects f.ino n)
    (hMore : ¬ p.objects.ref f.mmio - 1 ≤ 0) :
    Follows p { p with
      objects := p.objects.setRef f.mmio (p.objects.ref f.mmio - 1)
      fdTable := Function.update p.fdTable fd none } f.ino
      ⟨n.files.filter fun g => g.1 != fd.val, .hashed (p.mmios f.mmio) (p.objects.ref f.mmio - 1)⟩ := by
  have hCounted : p.counted fd = some f.mmio := by rw [counted, hFile]; rfl
  have hFind := h.find_file hFile
  obtain ⟨_, hIno⟩ := h.find_eq_some_iff.mp hFind
  obtain ⟨hStored, hDeleted⟩ := h.stored.drop hCounted hMore
  have hInv := h.deleted (q := { p with
    objects := p.objects.setRef f.mmio (p.objects.ref f.mmio - 1)
    fdTable := Function.update p.fdTable fd none }) rfl
    (by rw [counted_cleared rfl]; exact hStored) hDeleted
  refine ⟨hInv, ⟨hProjects.cleared rfl, ?_⟩, fun other hne => ?_⟩
  · have hSame : find { p with
        objects := p.objects.setRef f.mmio (p.objects.ref f.mmio - 1)
        fdTable := Function.update p.fdTable fd none } f.ino = some f.mmio := hFind
    rw [backing, hSame]
    dsimp only [Objects.setRef]
    rw [Function.update_self]
  · exact h.deleted_elsewhere hFile rfl hInv hDeleted (fun _ _ => hIno)
      (fun x hx => Function.update_of_ne hx ..) rfl hne rfl

theorem Inv.close (h : p.Inv) (hFile : p.fdTable fd = some f) (hProjects : p.Projects f.ino n)
    {result : Result} (hOk : n.close fd.val f.file (p.mmios f.mmio) (p.objects.ref f.mmio) = .ok (n', result)) :
    ∃ p', p.close fd f = .ok (p', result) ∧ Follows p p' f.ino n' ∧
      p'.fdTable = Function.update p.fdTable fd none := by
  obtain ⟨hMem, hIno⟩ := h.find_eq_some_iff.mp (h.find_file hFile)
  have hLoop := deleteNodes_of_one f.file.flags (h.stored.nodup _) hMem hIno.symm (h.only hFile)
  obtain ⟨backing', hDelete, hDone⟩ := bind_eq_ok hOk
  cases hDone
  unfold Inode.deleteMmioHash at hDelete
  dsimp only at hDelete
  unfold ProcessFiles.close
  rw [hLoop]
  split at hDelete
  · rename_i hLast
    obtain ⟨disk, hClose, hReleased⟩ := bind_eq_ok hDelete
    cases hReleased
    rw [if_pos hLast, hClose, ok_bind, ok_bind]
    exact ⟨_, rfl, h.closeLast hFile hProjects hLast disk, rfl⟩
  · rename_i hMore
    cases hDelete
    rw [if_neg hMore, ok_bind]
    dsimp only
    rw [Function.update_eq_self]
    exact ⟨_, rfl, h.closeMore hFile hProjects hMore, rfl⟩

end Steps

end ProcessFiles

end Libnvmmio

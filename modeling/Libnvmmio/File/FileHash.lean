import Libnvmmio.Foundation.GuardedRun
import Libnvmmio.Foundation.Holders
import Mathlib.Algebra.GroupWithZero.Nat

/-! # The hash of mmios and the calls that use it

Any number of threads open and close files of any inodes. `get_mmio_hash`,
`put_mmio_hash` and `delete_mmio_hash` hold the mutex of a bucket and are one
step each; `get_new_mmio` is a step between the first two, and so are the
accesses to `fd_table`.
-/

namespace Libnvmmio.FileHash

open GuardedRun

set_option autoImplicit false

def maxFd : Nat := 1024
def fileHashSize : Nat := maxFd

instance : NeZero maxFd := ⟨by decide⟩

abbrev Fd := Fin maxFd
abbrev Bucket := Fin fileHashSize

def hashIndex (ino : Nat) : Bucket := ⟨ino % fileHashSize, Nat.mod_lt _ (by decide)⟩

/-- The fields of the mmios that the hash reads, and whether they are in the pool. -/
structure Objects (M : Type) where
  ino : M → Nat
  ref : M → Int
  pooled : M → Bool

structure FileT (M : Type) where
  mmio : M
  ino : Nat

/-- Where a call is. `posix.open` has returned the descriptor of an open. -/
inductive Point (M : Type) where
  | idle
  | get (fd : Fd) (ino : Nat)
  | new (fd : Fd) (ino : Nat)
  | put (fd : Fd) (ino : Nat) (m : M)
  /-- `fd_table[fd] = file` -/
  | file (fd : Fd) (ino : Nat) (m : M)
  | delete (fd : Fd) (file : FileT M)
  /-- `fd_table[fd] = NULL` and `posix.close` -/
  | clear (fd : Fd)

structure State (T M : Type) where
  hash : Bucket → List M
  objects : Objects M
  fdTable : Fd → Option (FileT M)
  /-- the descriptors that `posix.open` has returned and `posix.close` has not closed -/
  isOpen : Fd → Bool
  calls : T → Point M
  /-- the mmio that a call has counted the descriptor in, until a close counts it out -/
  counted : Fd → Option M

variable {T M : Type}

def init : State T M where
  hash _ := []
  objects := ⟨fun _ => 0, fun _ => 0, fun _ => true⟩
  fdTable _ := none
  isOpen _ := false
  calls _ := .idle
  counted _ := none

inductive Act (M : Type) where
  /-- `posix.open` returned a descriptor of an inode -/
  | «open» (fd : Fd) (ino : Nat)
  | close (fd : Fd)
  /-- the pool provides an mmio -/
  | provide (m : M)
  | step

variable [DecidableEq M]

namespace Objects

def setRef (o : Objects M) (m : M) (ref : Int) : Objects M :=
  { o with ref := Function.update o.ref m ref }

/-- `get_new_mmio` -/
def take (o : Objects M) (m : M) (ino : Nat) : Objects M :=
  { o with ino := Function.update o.ino m ino, pooled := Function.update o.pooled m false }

/-- `release_mmio`, which does not reset `ref` -/
def release (o : Objects M) (m : M) : Objects M :=
  { o with ino := Function.update o.ino m 0, pooled := Function.update o.pooled m true }

end Objects

/-- The loop of `delete_mmio_hash` over the nodes of a bucket. -/
def deleteNodes (ino : Nat) : List M → Objects M → List M × Objects M
  | [], o => ([], o)
  | m :: ms, o =>
    if ino = o.ino m then
      let o := o.setRef m (o.ref m - 1)
      if o.ref m ≤ 0 then deleteNodes ino ms (o.release m)
      else
        let (ms, o) := deleteNodes ino ms o
        (m :: ms, o)
    else
      let (ms, o) := deleteNodes ino ms o
      (m :: ms, o)

namespace State

variable [DecidableEq T]

def goto (s : State T M) (t : T) (p : Point M) : State T M :=
  { s with calls := Function.update s.calls t p }

def find (s : State T M) (ino : Nat) : Option M :=
  (s.hash (hashIndex ino)).find? fun m => ino = s.objects.ino m

def count (s : State T M) (fd : Fd) (m : M) : State T M :=
  { s with
    objects := s.objects.setRef m (s.objects.ref m + 1)
    counted := Function.update s.counted fd (some m) }

def addNode (s : State T M) (ino : Nat) (m : M) : State T M :=
  { s with hash := Function.update s.hash (hashIndex ino) (m :: s.hash (hashIndex ino)) }

def getMmioHash (s : State T M) (t : T) (fd : Fd) (ino : Nat) : State T M :=
  match s.find ino with
  | some m => (s.count fd m).goto t (.file fd ino m)
  | none => s.goto t (.new fd ino)

def getNewMmio (s : State T M) (t : T) (fd : Fd) (ino : Nat) (m : M) : State T M :=
  { s.goto t (.put fd ino m) with objects := s.objects.take m ino }

def putMmioHash (s : State T M) (t : T) (fd : Fd) (ino : Nat) (m : M) : State T M :=
  match s.find ino with
  | some m' => s.goto t (.file fd ino m')
  | none => ((s.count fd m).addNode ino m).goto t (.file fd ino m)

def deleteMmioHash (s : State T M) (t : T) (fd : Fd) (file : FileT M) : State T M :=
  let (nodes, objects) := deleteNodes file.ino (s.hash (hashIndex file.ino)) s.objects
  { s.goto t (.clear fd) with
    hash := Function.update s.hash (hashIndex file.ino) nodes
    objects := objects
    counted := Function.update s.counted fd none }

def step (s : State T M) (t : T) : Point M → Option (State T M)
  | .get fd ino => some (s.getMmioHash t fd ino)
  | .put fd ino m => some (s.putMmioHash t fd ino m)
  | .file fd ino m => some { s.goto t .idle with fdTable := Function.update s.fdTable fd (some ⟨m, ino⟩) }
  | .delete fd file => some (s.deleteMmioHash t fd file)
  | .clear fd => some { s.goto t .idle with
      fdTable := Function.update s.fdTable fd none, isOpen := Function.update s.isOpen fd false }
  | _ => none

def next (s : State T M) : T × Act M → Option (State T M)
  | (t, .open fd ino) =>
    match s.calls t with
    | .idle =>
      if s.isOpen fd then none
      else some { s.goto t (.get fd ino) with isOpen := Function.update s.isOpen fd true }
    | _ => none
  | (t, .close fd) =>
    match s.calls t, s.fdTable fd with
    | .idle, some file => some (s.goto t (.delete fd file))
    | _, _ => none
  | (t, .provide m) =>
    match s.calls t with
    | .new fd ino => if s.objects.pooled m then some (s.getNewMmio t fd ino m) else none
    | _ => none
  | (t, .step) => s.step t (s.calls t)

def Step (s : State T M) (a : T × Act M) (s' : State T M) : Prop := s.next a = some s'

def Quiet (s : State T M) : Prop := ∀ t, s.calls t = .idle

structure Settled (s : State T M) : Prop where
  refs : ∀ i, ∀ m ∈ s.hash i, s.objects.ref m = (holders (fun fd => (s.fdTable fd).map FileT.mmio) m).card
  live : ∀ fd file, s.fdTable fd = some file → s.objects.pooled file.mmio = false
  /-- an inode has at most one node -/
  unique : ∀ i j, ∀ m ∈ s.hash i, ∀ m' ∈ s.hash j, s.objects.ino m = s.objects.ino m' → i = j ∧ m = m'
  nodup : ∀ i, (s.hash i).Nodup
  taken : ∀ m, s.objects.pooled m = false → ∃ i, m ∈ s.hash i

/-- An inode is not in the hash when an mmio is put there for it, and no descriptor is closed twice at once. -/
def Apart (s : State T M) : T × Act M → Prop
  | (t, .step) => ∀ fd ino m, s.calls t = .put fd ino m → s.find ino = none
  | (_, .close fd) => ∀ u, (∀ file, s.calls u ≠ .delete fd file) ∧ s.calls u ≠ .clear fd
  | _ => True

end State

end Libnvmmio.FileHash

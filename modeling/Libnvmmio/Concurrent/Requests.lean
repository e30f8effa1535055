import Libnvmmio.Concurrent.EntrySlots
import Libnvmmio.Mmio.State

/-! # Concurrent calls on one mmio

Any number of threads run `mmio_read`, `mmio_write`, `commit_mmio` and
`checkpoint_mmio` on one mmio. The steps on entries are those of the slots and
the pool; around them stand the reader-writer lock of the mmio, the epoch and
the epoch tags of the entries. Finding the table of an offset and its log size
is one step, whose result may depend on a choice.
-/

namespace Libnvmmio.Concurrent

open GuardedRun Mmio RadixLog

set_option autoImplicit false

structure Range where
  type : LockType
  off : Nat
  n : Nat
  deriving DecidableEq

def Range.advance (r : Range) (s : LogSize) : Range :=
  { r with off := r.off + (s.size - r.off % s.size), n := r.n - (s.size - r.off % s.size) }

inductive Stage (E : Type) where
  | out
  /-- `bravo_read_lock` of a request -/
  | enter (r : Range)
  /-- `check_expend`, in `mmio_write` only -/
  | check (r : Range)
  /-- `expend_mmio`: the reader side is released; `bravo_write_lock` -/
  | expendLock (r : Range)
  /-- the mapping has been enlarged; `bravo_write_unlock` -/
  | expendUnlock (r : Range)
  /-- `bravo_read_lock` once more -/
  | reenter (r : Range)
  /-- the condition of the outer loop of `LOCK_ENTRIES` -/
  | loop (r : Range)
  /-- the inner loop, on one slot; `epoch` was loaded for `get_log_entry` -/
  | inner (r : Range) (p : Slot) (s : LogSize) (epoch : Nat)
  /-- the loop of `mmio_write` over its list -/
  | body (type : LockType) (todo : List (EntrySlots.Hold Slot E))
  /-- `checkpoint_entry`, since the entry was stale -/
  | retire (h : EntrySlots.Hold Slot E) (todo : List (EntrySlots.Hold Slot E))
  | unlock (type : LockType)
  | leave
  /-- `bravo_write_lock` of `commit_mmio` -/
  | commitLock
  | commitEpoch
  /-- `bravo_write_unlock`; until then no `bravo_read_trylock` succeeds, so the
  `checkpoint_mmio` of `determine_policy` does nothing -/
  | commitUnlock
  /-- `checkpoint_mmio` between two tables -/
  | scan
  /-- a table, with the reader side held -/
  | table
  deriving DecidableEq

structure State (T E R : Type) where
  base : EntrySlots.State T Slot E
  rwlock : RwLock T
  radixlog : R
  epoch : Nat
  tag : E → Nat
  stages : T → Stage E

variable {T E R X : Type}

def init (locks : E → RwLock T) (radixlog : R) (epoch : Nat) : State T E R where
  base := EntrySlots.init locks
  rwlock := .free
  radixlog := radixlog
  epoch := epoch
  tag _ := 0
  stages _ := .out

inductive Act (X E : Type) where
  | request (type : LockType) (offset len : Nat)
  | commit
  | checkpoint
  | step
  /-- `check_expend` finds the mapping too short -/
  | expend
  /-- `get_log_table` and `get_log_size` -/
  | locate (x : X)
  /-- an access to the entries -/
  | entry (act : EntrySlots.State.Act Slot E)
  /-- the end of `checkpoint_mmio` -/
  | finish

namespace State

variable [DecidableEq T] [DecidableEq E]

def goto (s : State T E R) (t : T) (g : Stage E) : State T E R :=
  { s with stages := Function.update s.stages t g }

def readLock (s : State T E R) (t : T) (g : Stage E) : Option (State T E R) := do
  let l ← s.rwlock.rdlock t
  some { s.goto t g with rwlock := l }

def writeLock (s : State T E R) (t : T) (g : Stage E) : Option (State T E R) := do
  let l ← s.rwlock.wrlock t
  some { s.goto t g with rwlock := l }

def release (s : State T E R) (t : T) (g : Stage E) : Option (State T E R) := do
  let l ← s.rwlock.unlock t
  some { s.goto t g with rwlock := l }

/-- The entries that the loop of a request goes over before it unlocks them. -/
def listOf (s : State T E R) (t : T) : LockType → List (EntrySlots.Hold Slot E)
  | .rd => []
  | .wr => s.base.held t

def step (s : State T E R) (t : T) : Stage E → Option (State T E R)
  | .enter r => s.readLock t (.check r)
  | .check r => some (s.goto t (.loop r))
  | .expendLock r => s.writeLock t (.expendUnlock r)
  | .expendUnlock r => s.release t (.reenter r)
  | .reenter r => s.readLock t (.loop r)
  | .loop r => if r.n = 0 then some (s.goto t (.body r.type (s.listOf t r.type))) else none
  | .body type [] => some (s.goto t (.unlock type))
  | .body type (h :: todo) =>
    if s.tag h.entry < s.epoch then some (s.goto t (.retire h todo)) else some (s.goto t (.body type todo))
  | .retire h todo =>
    some { s.goto t (.body .wr todo) with tag := Function.update s.tag h.entry (s.epoch % 2 ^ 20) }
  | .unlock _ => if s.base.held t = [] then some (s.goto t .leave) else none
  | .leave => s.release t .out
  | .commitLock => s.writeLock t .commitEpoch
  | .commitEpoch => some { s.goto t .commitUnlock with epoch := (s.epoch + 1) % 2 ^ 64 }
  | .commitUnlock => s.release t .out
  | .scan =>
    match s.rwlock.rdlock t with
    | some l => some { s.goto t .table with rwlock := l }
    | none => some s
  | .table => if s.base.calls t = .idle then s.release t .scan else none
  | _ => none

def Allows : Stage E → EntrySlots.State.Act Slot E → Bool
  | .inner .., .access | .inner .., .alloc _ => true
  | .unlock _, .unlock _ => true
  | .table, .checkpoint _ | .table, .access | .table, .test _ => true
  | _, _ => false

/-- The inner loop ends when the trylock has succeeded, and loads the epoch with the slot. -/
def afterAccess (s : State T E R) (t : T) (base : EntrySlots.State T Slot E) : Stage E → Stage E
  | .inner r p size epoch =>
    if base.calls t = .idle then .loop (r.advance size)
    else
      match s.base.calls t with
      | .load _ _ => .inner r p size s.epoch
      | _ => .inner r p size epoch
  | g => g

/-- `get_log_entry` sets the tag of a new entry, and `free_idx_entry` clears it. -/
def tagAfter (s : State T E R) (t : T) (g : Stage E) (act : EntrySlots.State.Act Slot E) : E → Nat :=
  match act, g, s.base.calls t with
  | .alloc e, .inner _ _ _ epoch, _ => Function.update s.tag e (epoch % 2 ^ 20)
  | .access, _, .drop _ _ e => Function.update s.tag e 0
  | .access, _, .ckptFree _ e => Function.update s.tag e 0
  | _, _, _ => s.tag

def access (s : State T E R) (t : T) (act : EntrySlots.State.Act Slot E) : Option (State T E R) :=
  if Allows (s.stages t) act then do
    let base ← s.base.next (t, act)
    some { s.goto t (s.afterAccess t base (s.stages t)) with
      base := base, tag := s.tagAfter t (s.stages t) act }
  else none

variable (locate : R → X → Nat → Nat → Slot × LogSize × R)

def next (s : State T E R) : T × Act X E → Option (State T E R)
  | (t, .request type offset len) =>
    if s.stages t = .out then some (s.goto t (.enter ⟨type, offset, (toInt len).toNat⟩)) else none
  | (t, .commit) => if s.stages t = .out then some (s.goto t .commitLock) else none
  | (t, .checkpoint) => if s.stages t = .out then some (s.goto t .scan) else none
  | (t, .step) => s.step t (s.stages t)
  | (t, .expend) =>
    match s.stages t with
    | .check ⟨.wr, off, n⟩ => s.release t (.expendLock ⟨.wr, off, n⟩)
    | _ => none
  | (t, .locate x) =>
    match s.stages t with
    | .loop r =>
      if 0 < r.n then do
        let (p, size, radixlog) := locate s.radixlog x r.off r.n
        let base ← s.base.next (t, .lock p r.type)
        some { s.goto t (.inner r p size s.epoch) with base := base, radixlog := radixlog }
      else none
    | _ => none
  | (t, .entry act) => s.access t act
  | (t, .finish) => if s.stages t = .scan then some (s.goto t .out) else none

def Step (s : State T E R) (a : T × Act X E) (s' : State T E R) : Prop := s.next locate a = some s'

/-- `get_log_table` and `get_log_size` on the radix log, as one step. -/
def locateBlock (r : RadixLog) (_ : Unit) (off n : Nat) : Slot × LogSize × RadixLog := r.locate off n

/-- A trylock on an entry that succeeds finds it installed. -/
def StillInstalled (s : State T E R) : T × Act X E → Prop
  | (t, .entry act) => s.base.StillInstalled (t, act)
  | _ => True

end State

end Libnvmmio.Concurrent

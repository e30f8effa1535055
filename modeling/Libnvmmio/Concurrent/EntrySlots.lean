import Libnvmmio.Foundation.GuardedRun
import Libnvmmio.Foundation.RwLock
import Libnvmmio.Mmio.Entries
import Mathlib.Logic.Function.Basic

/-! # Entries, their slots and the pool, used concurrently

Threads lock the entries of slots as `LOCK_ENTRIES` does, unlock them, and clear
slots as `checkpoint_mmio` does. The slots are those of any number of mmios and
the pool is shared. Each access to a slot, to a lock or to the pool is one step.
-/

namespace Libnvmmio.EntrySlots

open GuardedRun Mmio

set_option autoImplicit false

inductive Point (S E : Type) where
  | idle
  /-- `get_log_entry`: load the slot -/
  | load (p : S) (type : LockType)
  /-- `alloc_idx_entry`, since the slot was empty -/
  | alloc (p : S) (type : LockType)
  /-- compare-and-swap the slot -/
  | swap (p : S) (type : LockType) (e : E)
  /-- `free_idx_entry`, since another entry was faster -/
  | drop (p : S) (type : LockType) (e : E)
  /-- load the slot once more -/
  | reload (p : S) (type : LockType)
  /-- the loop condition of `LOCK_ENTRIES` -/
  | trylock (p : S) (type : LockType) (e : E)
  /-- `checkpoint_mmio`: load the slot -/
  | ckptLoad (p : S)
  | ckptTrylock (p : S) (e : E)
  /-- the second test of the epoch, with the lock held -/
  | ckptTest (p : S) (e : E)
  /-- `free_idx_entry`, the slot being cleared -/
  | ckptFree (p : S) (e : E)
  deriving DecidableEq

/-- An entry lock that `LOCK_ENTRIES` returned with. -/
structure Hold (S E : Type) where
  slot : S
  type : LockType
  entry : E
  deriving DecidableEq

structure State (T S E : Type) where
  slots : S → Option E
  locks : E → RwLock T
  /-- the entries in the lists of the allocator -/
  pooled : E → Bool
  calls : T → Point S E
  held : T → List (Hold S E)

variable {T S E : Type}

/-- No slot is in use. The locks of pooled entries are in whatever state they were destroyed. -/
def init (locks : E → RwLock T) : State T S E where
  slots _ := none
  locks := locks
  pooled _ := true
  calls _ := .idle
  held _ := []

def acquire (type : LockType) (t : T) (l : RwLock T) : Option (RwLock T) :=
  match type with
  | .rd => l.rdlock t
  | .wr => l.wrlock t

namespace State

variable [DecidableEq T] [DecidableEq S] [DecidableEq E]

def goto (s : State T S E) (t : T) (c : Point S E) : State T S E :=
  { s with calls := Function.update s.calls t c }

def setSlot (s : State T S E) (p : S) (e : Option E) : State T S E :=
  { s with slots := Function.update s.slots p e }

def setLock (s : State T S E) (e : E) (l : RwLock T) : State T S E :=
  { s with locks := Function.update s.locks e l }

def setPooled (s : State T S E) (e : E) (pooled : Bool) : State T S E :=
  { s with pooled := Function.update s.pooled e pooled }

def setHeld (s : State T S E) (t : T) (hs : List (Hold S E)) : State T S E :=
  { s with held := Function.update s.held t hs }

/-- What a thread does next. Where an access has several outcomes in the code, the
environment chooses: the entry that the pool returns, and whether an entry is stale. -/
inductive Act (S E : Type) where
  /-- enter the inner loop of `LOCK_ENTRIES` -/
  | lock (p : S) (type : LockType)
  /-- `UNLOCK_ENTRIES` on one entry -/
  | unlock (h : Hold S E)
  /-- consider a slot in `checkpoint_mmio` -/
  | checkpoint (p : S)
  | alloc (e : E)
  | test (stale : Bool)
  | access

/-- `free_idx_entry`. `RWLOCK_DESTROY` leaves the lock as it is. -/
def freeIdxEntry (s : State T S E) (e : E) : State T S E := s.setPooled e true

def allocIdxEntry (s : State T S E) (e : E) : State T S E := (s.setPooled e false).setLock e .free

def access (s : State T S E) (t : T) : Point S E → Option (State T S E)
  | .load p type =>
    match s.slots p with
    | some e => some (s.goto t (.trylock p type e))
    | none => some (s.goto t (.alloc p type))
  | .swap p type e =>
    match s.slots p with
    | none => some ((s.setSlot p (some e)).goto t (.trylock p type e))
    | some _ => some (s.goto t (.drop p type e))
  | .drop p type e => some ((s.freeIdxEntry e).goto t (.reload p type))
  | .reload p type =>
    match s.slots p with
    | some e => some (s.goto t (.trylock p type e))
    | none => none -- a null pointer is followed
  | .trylock p type e =>
    match acquire type t (s.locks e) with
    | some l => some (((s.setLock e l).setHeld t (⟨p, type, e⟩ :: s.held t)).goto t .idle)
    | none => some (s.goto t (.load p type))
  | .ckptTrylock p e =>
    match (s.locks e).wrlock t with
    | some l => some ((s.setLock e l).goto t (.ckptTest p e))
    | none => some (s.goto t .idle)
  | .ckptFree _ e => some ((s.freeIdxEntry e).goto t .idle)
  | _ => none

def next (s : State T S E) : T × Act S E → Option (State T S E)
  | (t, .lock p type) => if s.calls t = .idle then some (s.goto t (.load p type)) else none
  | (t, .unlock h) =>
    if s.calls t = .idle ∧ h ∈ s.held t then do
      let l ← (s.locks h.entry).unlock t
      some ((s.setLock h.entry l).setHeld t ((s.held t).erase h))
    else none
  | (t, .checkpoint p) =>
    if s.calls t = .idle ∧ s.held t = [] then some (s.goto t (.ckptLoad p)) else none
  | (t, .alloc e) =>
    match s.calls t with
    | .alloc p type => if s.pooled e then some ((s.allocIdxEntry e).goto t (.swap p type e)) else none
    | _ => none
  | (t, .test stale) =>
    match s.calls t with
    | .ckptLoad p =>
      match stale, s.slots p with
      | true, some e => some (s.goto t (.ckptTrylock p e))
      | _, _ => some (s.goto t .idle)
    | .ckptTest p e =>
      if stale then some ((s.setSlot p none).goto t (.ckptFree p e))
      else do
        let l ← (s.locks e).unlock t
        some ((s.setLock e l).goto t .idle)
    | _ => none
  | (t, .access) => s.access t (s.calls t)

def Step (s : State T S E) (a : T × Act S E) (s' : State T S E) : Prop := s.next a = some s'

/-- A trylock that succeeds finds its entry where it was loaded from: meanwhile the
entry has not been freed and installed again. -/
def StillInstalled (s : State T S E) : T × Act S E → Prop
  | (t, .access) =>
    match s.calls t with
    | .trylock p type e => acquire type t (s.locks e) ≠ none → s.slots p = some e
    | .ckptTrylock p e => (s.locks e).wrlock t ≠ none → s.slots p = some e
    | _ => True
  | _ => True

end State

end Libnvmmio.EntrySlots

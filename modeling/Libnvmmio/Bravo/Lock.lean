import Libnvmmio.Foundation.GuardedRun
import Libnvmmio.Foundation.RwLock
import Mathlib.Data.Fin.Basic
import Mathlib.Logic.Function.Basic

/-! # The biased lock

Any number of threads call the functions of `bravo.c` on any number of locks.
Each load, store and compare-and-swap of shared data is one step, and so is a
call on the underlying `pthread_rwlock_t`, which is taken to be correct: it
blocks instead of failing. The hash that assigns slots is a parameter.
-/

namespace Libnvmmio.Bravo

open GuardedRun

set_option autoImplicit false

def nrEntries : Nat := 4096

structure BravoRwlock (T : Type) where
  rbias : Bool
  inhibitUntil : UInt64
  underlying : RwLock T

/-- The functions. A trylock differs from its lock in the call on the underlying lock. -/
inductive Op where
  | readLock | readTrylock | readUnlock | writeLock | writeTrylock | writeUnlock
  deriving DecidableEq, Repr

/-- The next access of a call. `trying` tells a trylock from a lock. -/
inductive Point where
  /-- load `rbias` in a read lock -/
  | readBias (trying : Bool)
  /-- the compare-and-swap on the slot -/
  | readCas (trying : Bool)
  /-- load `rbias` once more -/
  | readRecheck (trying : Bool)
  /-- clear the slot again -/
  | readBackOut (trying : Bool)
  | rdlock (trying : Bool)
  /-- load `rbias` on the slow path -/
  | slowBias
  /-- load `inhibit_until`, after the clock showed `nowTime` -/
  | slowInhibit (nowTime : UInt64)
  /-- store `rbias` -/
  | slowSet
  /-- load the slot in a read unlock -/
  | unlockLoad
  /-- clear the slot -/
  | unlockClear
  | unlockUnderlying
  | wrlock (trying : Bool)
  /-- load `rbias` in a write lock -/
  | writeBias
  /-- `revocate`: store `rbias` -/
  | revokeBias
  /-- `revocate`: load slot `i`; at the end of the table store `inhibit_until` -/
  | scan (startTime : UInt64) (i : Nat)
  | writeUnlock
  deriving DecidableEq, Repr

def Op.start : Op → Point
  | .readLock => .readBias false
  | .readTrylock => .readBias true
  | .readUnlock => .unlockLoad
  | .writeLock => .wrlock false
  | .writeTrylock => .wrlock true
  | .writeUnlock => .writeUnlock

/-- The shared data, the calls in progress and the holds between the calls. A slot
of `visible_readers` holds a lock; the thread that stored it is a history variable. -/
structure State (T L : Type) where
  locks : L → BravoRwlock T
  visibleReaders : Fin nrEntries → Option (L × T)
  calls : T → Option (L × Point)
  /-- read locks returned to the thread and not given to an unlock yet -/
  reading : T × L → Nat
  writing : T × L → Nat

variable {T L : Type}

def init : State T L where
  locks _ := ⟨true, 0, .free⟩
  visibleReaders _ := none
  calls _ := none
  reading _ := 0
  writing _ := 0

namespace State

variable [DecidableEq T] [DecidableEq L]

def goto (s : State T L) (t : T) (l : L) (p : Point) : State T L :=
  { s with calls := Function.update s.calls t (some (l, p)) }

def finish (s : State T L) (t : T) : State T L :=
  { s with calls := Function.update s.calls t none }

def setLock (s : State T L) (l : L) (b : BravoRwlock T) : State T L :=
  { s with locks := Function.update s.locks l b }

def setRbias (s : State T L) (l : L) (rbias : Bool) : State T L :=
  s.setLock l { s.locks l with rbias := rbias }

def setInhibit (s : State T L) (l : L) (time : UInt64) : State T L :=
  s.setLock l { s.locks l with inhibitUntil := time }

def setUnderlying (s : State T L) (l : L) (u : RwLock T) : State T L :=
  s.setLock l { s.locks l with underlying := u }

def setSlot (s : State T L) (i : Fin nrEntries) (v : Option (L × T)) : State T L :=
  { s with visibleReaders := Function.update s.visibleReaders i v }

def holdRead (s : State T L) (t : T) (l : L) : State T L :=
  { s.finish t with reading := Function.update s.reading (t, l) (s.reading (t, l) + 1) }

def holdWrite (s : State T L) (t : T) (l : L) : State T L :=
  { s.finish t with writing := Function.update s.writing (t, l) (s.writing (t, l) + 1) }

/-- A thread that is in no call makes one. An unlock is paired with an earlier lock. -/
def call (s : State T L) (t : T) (op : Op) (l : L) : Option (State T L) :=
  match s.calls t with
  | some _ => none
  | none =>
    match op with
    | .readUnlock =>
      if 0 < s.reading (t, l) then
        some { s.goto t l op.start with
          reading := Function.update s.reading (t, l) (s.reading (t, l) - 1) }
      else none
    | .writeUnlock =>
      if 0 < s.writing (t, l) then
        some { s.goto t l op.start with
          writing := Function.update s.writing (t, l) (s.writing (t, l) - 1) }
      else none
    | _ => some (s.goto t l op.start)

variable (bravoHash : T → L → Fin nrEntries)

/-- One access of a call of `t` on `l`; `clock` is what `clock_gettime` shows around it. -/
def access (s : State T L) (t : T) (l : L) (clock : UInt64) : Point → Option (State T L)
  | .readBias trying =>
    if (s.locks l).rbias then some (s.goto t l (.readCas trying)) else some (s.goto t l (.rdlock trying))
  | .readCas trying =>
    match s.visibleReaders (bravoHash t l) with
    | none => some ((s.setSlot (bravoHash t l) (some (l, t))).goto t l (.readRecheck trying))
    | some _ => some (s.goto t l (.rdlock trying))
  | .readRecheck trying =>
    if (s.locks l).rbias then some (s.holdRead t l) else some (s.goto t l (.readBackOut trying))
  | .readBackOut trying => some ((s.setSlot (bravoHash t l) none).goto t l (.rdlock trying))
  | .rdlock trying =>
    match (s.locks l).underlying.rdlock t with
    | some u => some ((s.setUnderlying l u).goto t l .slowBias)
    | none => if trying then some (s.finish t) else none
  | .slowBias =>
    if (s.locks l).rbias then some (s.holdRead t l) else some (s.goto t l (.slowInhibit clock))
  | .slowInhibit nowTime =>
    if (s.locks l).inhibitUntil ≤ nowTime then some (s.goto t l .slowSet) else some (s.holdRead t l)
  | .slowSet => some ((s.setRbias l true).holdRead t l)
  | .unlockLoad =>
    match s.visibleReaders (bravoHash t l) with
    | some _ => some (s.goto t l .unlockClear)
    | none => some (s.goto t l .unlockUnderlying)
  | .unlockClear => some ((s.setSlot (bravoHash t l) none).finish t)
  | .unlockUnderlying =>
    match (s.locks l).underlying.unlock t with
    | some u => some ((s.setUnderlying l u).finish t)
    | none => none
  | .wrlock trying =>
    match (s.locks l).underlying.wrlock t with
    | some u => some ((s.setUnderlying l u).goto t l .writeBias)
    | none => if trying then some (s.finish t) else none
  | .writeBias =>
    if (s.locks l).rbias then some (s.goto t l .revokeBias) else some (s.holdWrite t l)
  | .revokeBias => some ((s.setRbias l false).goto t l (.scan clock 0))
  | .scan startTime i =>
    if h : i < nrEntries then
      if (s.visibleReaders ⟨i, h⟩).map Prod.fst = some l then some s
      else some (s.goto t l (.scan startTime (i + 1)))
    else some ((s.setInhibit l (clock + (clock - startTime) * 9)).holdWrite t l)
  | .writeUnlock =>
    match (s.locks l).underlying.unlock t with
    | some u => some ((s.setUnderlying l u).finish t)
    | none => none

inductive Act (L : Type) where
  | call (op : Op) (l : L)
  | access (clock : UInt64)

def next (s : State T L) : T × Act L → Option (State T L)
  | (t, .call op l) => s.call t op l
  | (t, .access clock) =>
    match s.calls t with
    | none => none
    | some (l, p) => s.access bravoHash t l clock p

def Step (s : State T L) (a : T × Act L) (s' : State T L) : Prop := s.next bravoHash a = some s'

/-- A read unlock that is about to look at its slot finds it empty or finds its own
registration there: no other thread or lock occupies the slot. -/
def OwnSlot (s : State T L) : T × Act L → Prop
  | (_, .call _ _) => True
  | (t, .access _) => ∀ l, s.calls t = some (l, .unlockLoad) →
      s.visibleReaders (bravoHash t l) = none ∨ s.visibleReaders (bravoHash t l) = some (l, t)

end State

end Libnvmmio.Bravo

import Libnvmmio.Foundation.GuardedRun
import Libnvmmio.Radixlog.Lookup
import Mathlib.Logic.Function.Basic

/-! # `get_log_table`, used concurrently

Threads look up the log tables of one root. They share `prev_table` and
`prev_table_index`, which are loaded and stored apart, and the slots of the
tables, which are filled by compare-and-swap. Each access to one of these, and to
the pool, is one step.
-/

namespace Libnvmmio.TableLookup

open GuardedRun RadixLog IndexTrie

set_option autoImplicit false

/-- The index in a table of the type: `LGD_INDEX`, `LUD_INDEX` or `LMD_INDEX`. -/
def slotIndex : TableType → Nat → Nat
  | .lgd => lgdIndex
  | .lud => ludIndex
  | .lmd => lmdIndex
  | .table => fun _ => 0

/-- The type of the tables below: `NEXT_TABLE_TYPE`. -/
def nextType : TableType → TableType
  | .lgd => .lud
  | .lud => .lmd
  | .lmd => .table
  | .table => .table

inductive Point where
  | idle
  /-- `check_prev_table`: load `prev_table_index` -/
  | check (off : Nat)
  /-- load `prev_table`, since the index was right -/
  | reuse (off : Nat)
  /-- load the slot of the table `n`, which has the type -/
  | load (off n : Nat) (type : TableType)
  /-- `alloc_log_table`, since the slot was empty -/
  | alloc (off n : Nat) (type : TableType)
  /-- compare-and-swap the slot -/
  | swap (off n : Nat) (type : TableType) (table : Nat)
  /-- `free_log_table`, since another table was faster -/
  | drop (off n : Nat) (type : TableType) (table : Nat)
  /-- load the slot once more -/
  | reload (off n : Nat) (type : TableType)
  | setTable (off table : Nat)
  | setIndex (off table : Nat)
  deriving DecidableEq

structure State (T : Type) where
  skip : Nat
  skipType : TableType
  prevTable : Nat
  prevTableIndex : Nat
  links : Links
  /-- the tables in the lists of the allocator -/
  pooled : Nat → Bool
  calls : T → Point
  /-- the offsets of the calls that have returned, with their tables -/
  returned : List (Nat × Nat)
  /-- the offset of the call that stored `prev_table` last -/
  storedFor : Option Nat

variable {T : Type}

def init (filesize : Nat) (pool : Nat → Bool) : State T where
  skip := (initRadixlog filesize).skip
  skipType := (initRadixlog filesize).skipType
  prevTable := (initRadixlog filesize).prevTable
  prevTableIndex := (initRadixlog filesize).prevTableIndex
  links := (initRadixlog filesize).links
  pooled table := pool table && decide ((initRadixlog filesize).nextTable ≤ table)
  calls _ := .idle
  returned := []
  storedFor := none

def arrive (off n : Nat) (type : TableType) : Point :=
  if type = .table then .setTable off n else .load off n type

/-- What a thread does next. The environment chooses the table that the pool returns. -/
inductive Act where
  | call (off : Nat)
  | alloc (table : Nat)
  | access

namespace State

variable [DecidableEq T]

def goto (s : State T) (t : T) (c : Point) : State T := { s with calls := Function.update s.calls t c }

def done (s : State T) (t : T) (off table : Nat) : State T :=
  { s.goto t .idle with returned := (off, table) :: s.returned }

def setPooled (s : State T) (table : Nat) (pooled : Bool) : State T :=
  { s with pooled := Function.update s.pooled table pooled }

def setLink (s : State T) (n i table : Nat) : State T := { s with links := link s.links n i table }

def storeTable (s : State T) (off table : Nat) : State T :=
  { s with prevTable := table, storedFor := some off }

def storeIndex (s : State T) (off : Nat) : State T :=
  { s with prevTableIndex := off / 2 ^ lmdShift % tableMask }

def access (s : State T) (t : T) : Point → Option (State T)
  | .check off =>
    if checkPrevTable s.prevTableIndex off then some (s.goto t (.reuse off))
    else some (s.goto t (arrive off s.skip s.skipType))
  | .reuse off => some (s.done t off s.prevTable)
  | .load off n type =>
    match s.links n (slotIndex type off) with
    | some c => some (s.goto t (arrive off c (nextType type)))
    | none => some (s.goto t (.alloc off n type))
  | .swap off n type table =>
    match s.links n (slotIndex type off) with
    | none => some ((s.setLink n (slotIndex type off) table).goto t (arrive off table (nextType type)))
    | some _ => some (s.goto t (.drop off n type table))
  | .drop off n type table => some ((s.setPooled table true).goto t (.reload off n type))
  | .reload off n type =>
    match s.links n (slotIndex type off) with
    | some c => some (s.goto t (arrive off c (nextType type)))
    | none => none -- a null pointer is followed
  | .setTable off table => some ((s.storeTable off table).goto t (.setIndex off table))
  | .setIndex off table => some ((s.storeIndex off).done t off table)
  | _ => none

def next (s : State T) : T × Act → Option (State T)
  | (t, .call off) => if s.calls t = .idle then some (s.goto t (.check off)) else none
  | (t, .alloc table) =>
    match s.calls t with
    | .alloc off n type =>
      if s.pooled table then some ((s.setPooled table false).goto t (.swap off n type table)) else none
    | _ => none
  | (t, .access) => s.access t (s.calls t)

def Step (s : State T) (a : T × Act) (s' : State T) : Prop := s.next a = some s'

/-- A call that reuses `prev_table` finds there what a call for its own region stored. -/
def SameRegion (s : State T) : T × Act → Prop
  | (t, .access) =>
    match s.calls t with
    | .reuse off => ∀ o, s.storedFor = some o → o / 2 ^ lmdShift = off / 2 ^ lmdShift
    | _ => True
  | _ => True

def find (s : State T) (off : Nat) : Option Nat := follow s.links s.skip (path s.skipType off)

def Linked (s : State T) (table : Nat) : Prop := table = s.skip ∨ ∃ n i, s.links n i = some table

end State

def Point.owned : Point → Option Nat
  | .swap _ _ _ table | .drop _ _ _ table => some table
  | _ => none

namespace State

/-- The table is in the pool, or was allocated by a call that has not installed it. -/
def Spare (s : State T) (table : Nat) : Prop :=
  s.pooled table = true ∨ ∃ t, (s.calls t).owned = some table

/-- The calls have returned the tables of their offsets, calls for one region the
same table; and a table that was allocated is installed, or neither installed nor
returned until it is back in the pool. -/
structure LookupsAgree (s₀ s : State T) : Prop where
  returned : ∀ c ∈ s.returned, s.find c.1 = some c.2
  regions : ∀ c ∈ s.returned, ∀ c' ∈ s.returned,
    c.1 / 2 ^ lmdShift = c'.1 / 2 ^ lmdShift → c.2 = c'.2
  spare : ∀ table, s.Spare table → ¬ s.Linked table ∧ ∀ c ∈ s.returned, c.2 ≠ table
  kept : ∀ table, s₀.pooled table = true → s.Spare table ∨ s.Linked table

end State

end Libnvmmio.TableLookup

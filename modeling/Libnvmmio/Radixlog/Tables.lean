import Libnvmmio.Radixlog.LogSize
import Libnvmmio.Foundation.RangeCopy

/-! # Index entries, log tables and the radix root

The data model of `radixlog.h` and the functions of `radixlog.c`, run by one
thread: a compare-and-swap on an empty slot succeeds. The pointers of a table
are its `children` when it is a directory and its `entries` when it is a
`TABLE`. A table is named by the number of tables that were handed out before
it, and comes from the pool with every slot empty.
-/

namespace Libnvmmio

set_option autoImplicit false

inductive Policy where
  | undo | redo
  deriving DecidableEq, Repr

/-- `idx_entry_t`, with the contents of its log buffer in place of the pointer to it. -/
structure IdxEntry where
  epoch : Nat
  offset : Nat
  len : Nat
  policy : Policy
  log : Nat → UInt8
  dst : Nat
  logSize : LogSize

namespace IdxEntry

/-- Assignments to the bit-fields of the header keep the low bits. -/
def setEpoch (e : IdxEntry) (epoch : Nat) : IdxEntry := { e with epoch := epoch % 2 ^ 20 }
def setOffset (e : IdxEntry) (offset : Nat) : IdxEntry := { e with offset := offset % 2 ^ 21 }
def setLen (e : IdxEntry) (len : Nat) : IdxEntry := { e with len := len % 2 ^ 22 }

def extent (e : IdxEntry) : RangeCopy.Extent := ⟨e.offset, e.len⟩

/-- `alloc_idx_entry`: a cleared header over a log buffer with the given old
contents. `log_size` is set by the request that locks the entry. -/
def alloc (log : Nat → UInt8) : IdxEntry where
  epoch := 0
  offset := 0
  len := 0
  policy := .undo
  log := log
  dst := 0
  logSize := .log4K

end IdxEntry

structure LogTable where
  logSize : Option LogSize
  type : TableType
  children : Nat → Option Nat
  entries : Nat → Option IdxEntry

/-- `radix_root_t` with the tables handed out so far. -/
structure RadixLog where
  lgd : Nat
  skip : Nat
  prevTable : Nat
  prevTableIndex : Nat
  tables : Nat → LogTable
  nextTable : Nat

namespace RadixLog

def setTable (r : RadixLog) (t : Nat) (table : LogTable) : RadixLog :=
  { r with tables := fun u => if u = t then table else r.tables u }

@[simp] theorem setTable_self (r : RadixLog) (t : Nat) (table : LogTable) :
    (r.setTable t table).tables t = table := if_pos rfl

theorem setTable_of_ne (r : RadixLog) {t u : Nat} (h : u ≠ t) (table : LogTable) :
    (r.setTable t table).tables u = r.tables u := if_neg h

def allocLogTable (r : RadixLog) (type : TableType) : Nat × RadixLog :=
  (r.nextTable,
    { r.setTable r.nextTable ⟨none, type, fun _ => none, fun _ => none⟩ with
      nextTable := r.nextTable + 1 })

def setChild (r : RadixLog) (parent index : Nat) (child : Nat) : RadixLog :=
  r.setTable parent { r.tables parent with
    children := fun i => if i = index then some child else (r.tables parent).children i }

def allocTable (r : RadixLog) (type : TableType) (parent index : Nat) : Nat × RadixLog :=
  let (table, r) := r.allocLogTable type
  (table, r.setChild parent index table)

/-- The slot of the parent through which `init_radixlog` installs a table of
each type but `LGD`. -/
def initIndex (type : TableType) (maxoff : Nat) : Nat :=
  match type with
  | .lud => lgdIndex maxoff
  | .lmd => ludIndex maxoff
  | .table => lmdIndex maxoff
  | .lgd => 0

/-- The types of the `do .. while (type >= deepest_table_type)` loop after `LGD`. -/
def typesBelowLgd : TableType → List TableType
  | .lgd => []
  | .lud => [.lud]
  | .lmd => [.lud, .lmd]
  | .table => [.lud, .lmd, .table]

/-- The iterations of `init_radixlog` that have a parent; the last table
allocated becomes `skip`. -/
def initLevels (maxoff : Nat) : List TableType → RadixLog → RadixLog
  | [], r => r
  | type :: types, r =>
    let (table, r) := r.allocTable type r.skip (initIndex type maxoff)
    initLevels maxoff types { r with skip := table }

/-- `init_radixlog`. `prev_table` is not read before it is set. -/
def initRadixlog (filesize : Nat) : RadixLog :=
  let deepest := getDeepestTableType (filesize - 1)
  let maxoff := filesize - 1
  let empty : RadixLog :=
    ⟨0, 0, 0, ulongMax, fun _ => ⟨none, .lgd, fun _ => none, fun _ => none⟩, 0⟩
  let (lgd, r) := empty.allocLogTable .lgd
  initLevels maxoff (typesBelowLgd deepest) { r with lgd := lgd, skip := lgd }

/-- `find_log_table` on an initialised root -/
def findLogTable (r : RadixLog) (offset : Nat) : Option Nat :=
  match (r.tables r.skip).type with
  | .table => some r.skip
  | .lmd => (r.tables r.skip).children (lmdIndex offset)
  | .lud =>
    match (r.tables r.skip).children (ludIndex offset) with
    | none => none
    | some lmd => (r.tables lmd).children (lmdIndex offset)
  | .lgd =>
    match (r.tables r.skip).children (lgdIndex offset) with
    | none => none
    | some lud =>
      match (r.tables lud).children (ludIndex offset) with
      | none => none
      | some lmd => (r.tables lmd).children (lmdIndex offset)

def checkPrevTable (prevTableIndex offset : Nat) : Bool :=
  prevTableIndex = offset / 2 ^ lmdShift % tableMask

/-- One level of `get_log_table`: the child at the index, allocated if the slot is empty. -/
def getChild (r : RadixLog) (type : TableType) (parent index : Nat) : Nat × RadixLog :=
  match (r.tables parent).children index with
  | some table => (table, r)
  | none => r.allocTable type parent index

def walkLogTable (r : RadixLog) (offset : Nat) : Nat × RadixLog :=
  match (r.tables r.skip).type with
  | .table => (r.skip, r)
  | .lmd => r.getChild .table r.skip (lmdIndex offset)
  | .lud =>
    let (lmd, r) := r.getChild .lmd r.skip (ludIndex offset)
    r.getChild .table lmd (lmdIndex offset)
  | .lgd =>
    let (lud, r) := r.getChild .lud r.skip (lgdIndex offset)
    let (lmd, r) := r.getChild .lmd lud (ludIndex offset)
    r.getChild .table lmd (lmdIndex offset)

def getLogTable (r : RadixLog) (offset : Nat) : Nat × RadixLog :=
  if checkPrevTable r.prevTableIndex offset then (r.prevTable, r)
  else
    let (table, r) := r.walkLogTable offset
    (table, { r with prevTable := table, prevTableIndex := offset / 2 ^ lmdShift % tableMask })

def getLogSize (r : RadixLog) (t : Nat) (offset len : Nat) : LogSize × RadixLog :=
  match (r.tables t).logSize with
  | some s => (s, r)
  | none =>
    let s := setLogSize offset len
    (s, r.setTable t { r.tables t with logSize := some s })

structure Slot where
  table : Nat
  index : Nat
  deriving DecidableEq, Repr

/-- The slot of the block that contains an offset, as `LOCK_ENTRIES` computes it:
`get_log_table`, `get_log_size`, `TABLE_INDEX`. -/
def locate (r : RadixLog) (offset len : Nat) : Slot × LogSize × RadixLog :=
  let (table, r) := r.getLogTable offset
  let (s, r) := r.getLogSize table offset len
  (⟨table, tableIndex s offset⟩, s, r)

def entryAt (r : RadixLog) (slot : Slot) : Option IdxEntry := (r.tables slot.table).entries slot.index

def setEntry (r : RadixLog) (slot : Slot) (entry : Option IdxEntry) : RadixLog :=
  r.setTable slot.table { r.tables slot.table with
    entries := fun i => if i = slot.index then entry else (r.tables slot.table).entries i }

end RadixLog

end Libnvmmio

import Libnvmmio.Foundation.PersistentMemory
import Libnvmmio.Mmio.Requests

/-! # The stores, flushes and fences of a call

The file, the log buffers, the index entries and the mmio object are persistent
memory. An index entry and its log buffer are named by the number of entries
that were allocated before; `ids` says which entry a slot holds. For each
function its trace is computed from the state it runs on.
-/

namespace Libnvmmio.Persistence

open PersistentMemory RangeCopy RadixLog Mmio

set_option autoImplicit false

/-- The bit-fields of `idx_entry_t`, one word. -/
structure Header where
  epoch : Nat
  offset : Nat
  len : Nat
  policy : Policy

def Header.extent (h : Header) : Extent := ⟨h.offset, h.len⟩

def Header.zero : Header := ⟨0, 0, 0, .undo⟩

inductive Region where
  | file
  | log (k : Nat)
  deriving DecidableEq

inductive Loc where
  | byte (r : Region) (i : Nat)
  | header (k : Nat)
  /-- the pointer to the log buffer -/
  | log (k : Nat)
  | dst (k : Nat)
  | logSize (k : Nat)
  | epoch
  | fsize
  deriving DecidableEq

namespace Loc

@[reducible] def Val : Loc → Type
  | .byte _ _ => UInt8
  | .header _ => Header
  | .log _ => Option Nat
  | .dst _ => Nat
  | .logSize _ => LogSize
  | .epoch | .fsize => Nat

/-- Eight bytes make a word; each field has one of its own. -/
def word : Loc → Loc
  | .byte r i => .byte r (i / 8)
  | l => l

/-- The index entry that a location belongs to, together with its log buffer. -/
def object : Loc → Option Nat
  | .byte (.log k) _ | .header k | .log k | .dst k | .logSize k => some k
  | _ => none

end Loc

abbrev Memory := (l : Loc) → l.Val
abbrev MemoryStore := Store Loc.Val Loc.word
abbrev MemoryEvent := Event Loc.Val Loc.word

def storeAt (l : Loc) (v : l.Val) : MemoryStore where
  data := Function.update (fun _ => none) l (some v)
  touches w := w = l.word
  touches_word l' h := by
    by_cases hl : l' = l
    · exact decide_eq_true (congrArg Loc.word hl)
    · rw [Function.update_of_ne hl] at h
      exact absurd rfl h

def storeRange (r : Region) (pos : Nat) (src : Nat → UInt8) (srcPos n : Nat) : MemoryStore where
  data
    | .byte r' i => if r' = r ∧ pos ≤ i ∧ i < pos + n then some (src (srcPos + (i - pos))) else none
    | _ => none
  touches
    | .byte r' j => decide (r' = r ∧ 0 < n ∧ pos / 8 ≤ j ∧ j * 8 < pos + n)
    | _ => false
  touches_word l h := by
    cases l with
    | byte r' i =>
      dsimp only at h
      split at h
      · rename_i hIn
        exact decide_eq_true ⟨hIn.1, by omega, by omega, by omega⟩
      · exact absurd rfl h
    | _ => exact absurd rfl h

def flushEntry (k : Nat) : MemoryEvent :=
  .flush fun l => l = .header k ∨ l = .log k ∨ l = .dst k ∨ l = .logSize k

def IdxEntry.header (e : IdxEntry) : Header := ⟨e.epoch, e.offset, e.len, e.policy⟩

/-- Assignments to bit-fields, one after the other: each stores the header. -/
def headerStores (k : Nat) (es : List IdxEntry) : List MemoryEvent :=
  es.map fun e => .store (storeAt (.header k) (IdxEntry.header e))

/-! ## `LOCK_ENTRIES` -/

def takeEntryEvents (m : Mmio) (ids : Slot → Nat) (slot : Slot) (s : LogSize) :
    List MemoryEvent × (Slot → Nat) :=
  match m.radixlog.entryAt slot with
  | some _ => ([.store (storeAt (.logSize (ids slot)) s)], ids)
  | none =>
    let k := m.nextLog
    ([.store (storeAt (.log k) (some k))] ++
      headerStores k [(IdxEntry.alloc (m.logPool k)).setEpoch m.epoch] ++
      [.store (storeAt (.logSize k) s)], Function.update ids slot k)

def lockEntriesEvents (m : Mmio) (ids : Slot → Nat) (n : Int) (off : Nat) (head : List Slot) :
    List MemoryEvent × (Slot → Nat) :=
  if 0 < n then
    let (slot, s, radixlog) := m.radixlog.locate off n.toNat
    if slot ∈ head then ([], ids)
    else
      let logLen := s.size - off % s.size
      let (events, ids) := takeEntryEvents { m with radixlog := radixlog } ids slot s
      let (rest, ids) := lockEntriesEvents (takeEntry { m with radixlog := radixlog } slot s) ids
        (n - logLen) (off + logLen) (slot :: head)
      (events ++ rest, ids)
  else ([], ids)
termination_by n.toNat
decreasing_by
  have hLen := Nat.mod_lt off (LogSize.size_pos s)
  omega

/-! ## `mmio_write` -/

def storeRedoEvents (m : Mmio) (e : IdxEntry) : List MemoryEvent :=
  match e.policy with
  | .redo => [.ntstore (storeRange .file (e.dst + e.offset - m.start) e.log e.offset e.len), .fence]
  | .undo => []

def emptiedStores (m : Mmio) (k : Nat) (e : IdxEntry) : List MemoryEvent :=
  headerStores k [e.setEpoch m.epoch, { e.setEpoch m.epoch with policy := m.policy },
    { e.setEpoch m.epoch with policy := m.policy }.setLen 0, m.emptied e]

def checkpointEntryEvents (m : Mmio) (k : Nat) (e : IdxEntry) : List MemoryEvent :=
  storeRedoEvents m e ++ emptiedStores m k e ++ [flushEntry k, .fence]

def logPieceEvents (m : Mmio) (buf : Nat → UInt8) (k dst src logOffset n : Nat) : List MemoryEvent :=
  match m.policy with
  | .undo => [.ntstore (storeRange (.log k) logOffset (fun i => m.disk.bytes (dst - m.start + i)) 0 n)]
  | .redo => [.ntstore (storeRange (.log k) logOffset buf src n)]

def mergeEntryEvents (m : Mmio) (k : Nat) (e : IdxEntry) (dst logOffset n : Nat) : List MemoryEvent :=
  let logEnd := logOffset + n
  let prevStart := e.offset
  let prevEnd := prevStart + e.len
  match checkLog logOffset logEnd prevStart prevEnd with
  | .before =>
    .ntstore (storeRange (.log k) logEnd (fun i => m.disk.bytes (dst + n - m.start + i)) 0 (prevStart - logEnd)) ::
      headerStores k [e.setOffset logOffset, (e.setOffset logOffset).setLen (prevEnd - logOffset)]
  | .overHead => headerStores k [e.setOffset logOffset, (e.setOffset logOffset).setLen (prevEnd - logOffset)]
  | .covers => headerStores k [e.setOffset logOffset, (e.setOffset logOffset).setLen n]
  | .inside => []
  | .overTail => headerStores k [e.setLen (logEnd - prevStart)]
  | .after =>
    let overwriteLen := logOffset - prevEnd
    .ntstore (storeRange (.log k) prevEnd (fun i => m.disk.bytes (dst - overwriteLen - m.start + i)) 0 overwriteLen) ::
      headerStores k [e.setLen (logEnd - prevStart)]

def freshEntryEvents (m : Mmio) (k : Nat) (e : IdxEntry) (dst logOffset n : Nat) : List MemoryEvent :=
  headerStores k [e.setOffset logOffset, (e.setOffset logOffset).setLen n] ++
    [.store (storeAt (.dst k) (dst - dst % e.logSize.size))] ++
    headerStores k [m.freshEntry e dst logOffset n]

def updateHeaderEvents (m : Mmio) (k : Nat) (e : IdxEntry) (dst logOffset n : Nat) : List MemoryEvent :=
  if 0 < e.len ∧ n ≠ e.logSize.size then mergeEntryEvents m k e dst logOffset n
  else freshEntryEvents m k e dst logOffset n

def pieceLen (e : IdxEntry) (c : Cursor) : Nat :=
  if e.logSize.size - c.off % e.logSize.size < c.n then e.logSize.size - c.off % e.logSize.size else c.n

def storePieceEvents (m : Mmio) (buf : Nat → UInt8) (k : Nat) (e : IdxEntry) (c : Cursor) : List MemoryEvent :=
  logPieceEvents m buf k c.dst c.src (c.off % e.logSize.size) (pieceLen e c) ++
    updateHeaderEvents m k e c.dst (c.off % e.logSize.size) (pieceLen e c) ++ [flushEntry k]

def retireStaleEvents (m : Mmio) (k : Nat) (e : IdxEntry) : List MemoryEvent :=
  if e.epoch < m.epoch then checkpointEntryEvents m k e else []

def writeEntryEvents (m : Mmio) (buf : Nat → UInt8) (k : Nat) (slot : Slot) (c : Cursor) : List MemoryEvent :=
  match m.radixlog.entryAt slot with
  | none => []
  | some e =>
    retireStaleEvents m k e ++
      match m.retireStale e with
      | .ok (m, e) => storePieceEvents m buf k e c
      | .error _ => []

theorem writeEntryEvents_eq {m m₁ : Mmio} {slot : Slot} {e e₁ : IdxEntry}
    (hEntry : m.radixlog.entryAt slot = some e) (hRetire : m.retireStale e = .ok (m₁, e₁))
    (buf : Nat → UInt8) (k : Nat) (c : Cursor) : writeEntryEvents m buf k slot c =
      retireStaleEvents m k e ++ storePieceEvents m₁ buf k e₁ c := by
  rw [writeEntryEvents, hEntry]
  dsimp only
  rw [hRetire]

def writeEntriesEvents (m : Mmio) (buf : Nat → UInt8) (ids : Slot → Nat) : List Slot → Cursor → List MemoryEvent
  | [], _ => []
  | slot :: slots, c =>
    writeEntryEvents m buf (ids slot) slot c ++
      match m.writeEntry buf slot c with
      | .ok (m, c) => writeEntriesEvents m buf ids slots c
      | .error _ => []

def updateFileEvents (m : Mmio) (offset : Nat) (buf : Nat → UInt8) (len : Nat) : List MemoryEvent :=
  match m.policy with
  | .undo => [.ntstore (storeRange .file (m.start + offset - m.start) buf 0 len), .fence]
  | .redo => []

def finishWriteEvents (m : Mmio) (offset : Nat) (buf : Nat → UInt8) (len ret : Nat) : List MemoryEvent :=
  .fence :: updateFileEvents m offset buf len ++
    if m.fsize < offset + ret then [.store (storeAt .fsize (offset + ret))] else []

/-- `mmio_write` after `LOCK_ENTRIES` -/
def lockedWriteEvents (m : Mmio) (ids : Slot → Nat) (head : List Slot) (offset : Nat) (buf : Nat → UInt8)
    (len : Nat) (c : Cursor) : List MemoryEvent :=
  writeEntriesEvents m buf ids head c ++
    match m.writeEntries buf head c with
    | .error _ => []
    | .ok (m, c) => finishWriteEvents m offset buf len c.ret

/-- `mmio_write` after `check_expend`, on a length that is an `int` -/
def grownWriteEvents (m : Mmio) (ids : Slot → Nat) (offset : Nat) (buf : Nat → UInt8) (len : Nat) (n : Int) :
    List MemoryEvent × (Slot → Nat) :=
  let locking := lockEntriesEvents m ids n offset []
  match lockEntries .wr m n offset [] with
  | .error _ => locking
  | .ok (m, head) =>
    (locking.1 ++ lockedWriteEvents m locking.2 head offset buf len ⟨n.toNat, offset, m.start + offset, 0, 0⟩,
      locking.2)

def mmioWriteEvents (fdWritable : Bool) (remap : Nat → Nat) (m : Mmio) (ids : Slot → Nat) (offset : Nat)
    (buf : Nat → UInt8) (len : Nat) : List MemoryEvent × (Slot → Nat) :=
  match ensureMapped fdWritable remap m offset len with
  | .error _ => ([], ids)
  | .ok m => grownWriteEvents m ids offset buf len (toInt len)

/-! ## `checkpoint_mmio` and `commit_mmio` -/

def freeIdxEntryEvents (k : Nat) : List MemoryEvent :=
  [.store (storeAt (.log k) none), .store (storeAt (.header k) Header.zero), .store (storeAt (.dst k) 0)]

def checkpointSlotEvents (currentEpoch : Nat) (m : Mmio) (ids : Slot → Nat) (slot : Slot) : List MemoryEvent :=
  match m.radixlog.entryAt slot with
  | none => []
  | some e => if e.epoch < currentEpoch then storeRedoEvents m e ++ freeIdxEntryEvents (ids slot) else []

def checkpointSlotsEvents (currentEpoch : Nat) (m : Mmio) (ids : Slot → Nat) : List Slot → List MemoryEvent
  | [] => []
  | slot :: slots =>
    checkpointSlotEvents currentEpoch m ids slot ++
      match checkpointSlot currentEpoch m slot with
      | .ok m => checkpointSlotsEvents currentEpoch m ids slots
      | .error _ => []

def checkpointFromEvents (currentEpoch endoff : Nat) (ids : Slot → Nat) (m : Mmio) (offset : Nat) :
    List MemoryEvent :=
  if offset < endoff then
    if m.wrlocked then
      checkpointFromEvents currentEpoch endoff ids m (offset + LogSize.log4K.nrEntries * LogSize.log4K.size)
    else
      match m.radixlog.findLogTable offset with
      | none =>
        checkpointFromEvents currentEpoch endoff ids m (offset + LogSize.log4K.nrEntries * LogSize.log4K.size)
      | some table =>
        match (m.radixlog.tables table).logSize with
        | none => []
        | some s =>
          checkpointSlotsEvents currentEpoch m ids (slotsOf table s) ++
            match m.checkpointTable currentEpoch table s with
            | .ok m => checkpointFromEvents currentEpoch endoff ids m (offset + s.nrEntries * s.size)
            | .error _ => []
  else []
termination_by endoff - offset
decreasing_by
  · have hStep : 0 < LogSize.log4K.nrEntries * LogSize.log4K.size := by decide
    omega
  · have hStep : 0 < LogSize.log4K.nrEntries * LogSize.log4K.size := by decide
    omega
  · have hStep : 0 < s.nrEntries * s.size := Nat.mul_pos s.nrEntries_pos s.size_pos
    omega

section Regions

variable {m : Mmio} {ids : Slot → Nat} {currentEpoch endoff offset table : Nat} {s : LogSize}

theorem checkpointFromEvents_done (hDone : ¬ offset < endoff) :
    checkpointFromEvents currentEpoch endoff ids m offset = [] := by
  rw [checkpointFromEvents, if_neg hDone]

theorem checkpointFromEvents_skip (hMore : offset < endoff)
    (hSkip : m.wrlocked = true ∨ m.radixlog.findLogTable offset = none) :
    checkpointFromEvents currentEpoch endoff ids m offset =
      checkpointFromEvents currentEpoch endoff ids m (offset + 2 ^ lmdShift) := by
  rw [checkpointFromEvents, if_pos hMore, LogSize.nrEntries_mul_size]
  split
  · rfl
  · rename_i hUnlocked
    rw [hSkip.resolve_left hUnlocked]

theorem checkpointFromEvents_sized {m' : Mmio} (hMore : offset < endoff) (hUnlocked : m.wrlocked = false)
    (hFind : m.radixlog.findLogTable offset = some table)
    (hSize : (m.radixlog.tables table).logSize = some s)
    (hTable : m.checkpointTable currentEpoch table s = .ok m') :
    checkpointFromEvents currentEpoch endoff ids m offset =
      checkpointSlotsEvents currentEpoch m ids (slotsOf table s) ++
        checkpointFromEvents currentEpoch endoff ids m' (offset + 2 ^ lmdShift) := by
  rw [checkpointFromEvents, if_pos hMore, if_neg (Bool.eq_false_iff.mp hUnlocked), hFind]
  dsimp only
  rw [hSize]
  dsimp only
  rw [hTable, LogSize.nrEntries_mul_size]

end Regions

def checkpointMmioEvents (m : Mmio) (ids : Slot → Nat) : List MemoryEvent :=
  checkpointFromEvents m.epoch m.mapLen ids m 0

/-- `determine_policy` stores to nothing that is looked at here but through `checkpoint_mmio`. -/
def determinePolicyEvents (m : Mmio) (ids : Slot → Nat) : List MemoryEvent :=
  let totalCnt := m.read + m.write
  if 0 < totalCnt then
    let writeRatio := m.write / totalCnt * 100
    let newPolicy := if hybridWriteRatio < writeRatio then Policy.redo else Policy.undo
    let m := { m with read := 0, write := 0 }
    if m.policy ≠ newPolicy then checkpointMmioEvents m ids else []
  else []

def commitMmioEvents (m : Mmio) (ids : Slot → Nat) : List MemoryEvent :=
  [.store (storeAt .epoch ((m.epoch + 1) % 2 ^ 64)), .flush fun l => l = .epoch, .fence] ++
    determinePolicyEvents { m with wrlocked := true, epoch := (m.epoch + 1) % 2 ^ 64 } ids

def performEvents (m : Mmio) (ids : Slot → Nat) : Request → List MemoryEvent × (Slot → Nat)
  | .write fdWritable remap offset buf len => mmioWriteEvents fdWritable remap m ids offset buf len
  | .read offset _ len => lockEntriesEvents m ids (toInt len) offset []
  | .commit => (commitMmioEvents m ids, ids)
  | .checkpoint => (checkpointMmioEvents m ids, ids)

end Libnvmmio.Persistence

import Libnvmmio.Mmio.Entries

/-! # `mmio_write` -/

namespace Libnvmmio.Mmio

open RangeCopy RadixLog

set_option autoImplicit false

/-- The results of `check_log`, in the order of its comment. -/
inductive Overlap where
  | before | overHead | covers | inside | overTail | after
  deriving DecidableEq, Repr

def checkLog (reqStart reqEnd logStart logEnd : Nat) : Overlap :=
  if reqStart ≤ logStart then
    if logStart ≤ reqEnd then
      if reqEnd < logEnd then .overHead else .covers
    else .before
  else
    if reqEnd ≤ logEnd then .inside
    else
      if logEnd < reqStart then .after else .overTail

def emptied (m : Mmio) (e : IdxEntry) : IdxEntry :=
  { ((e.setEpoch m.epoch).setLen 0).setOffset 0 with policy := m.policy }

def checkpointEntry (m : Mmio) (e : IdxEntry) : Except Failure (Mmio × IdxEntry) := do
  let m ← m.storeRedo e
  .ok (m, m.emptied e)

/-- The first statement of an iteration. -/
def retireStale (m : Mmio) (e : IdxEntry) : Except Failure (Mmio × IdxEntry) :=
  if e.epoch < m.epoch then m.checkpointEntry e else .ok (m, e)

/-- The variables of the loop of `mmio_write`; `src` is a position in `buf`. -/
structure Cursor where
  n : Nat
  off : Nat
  dst : Nat
  src : Nat
  ret : Nat

/-- The first switch: store the piece to the log. -/
def logPiece (m : Mmio) (buf : Nat → UInt8) (e : IdxEntry) (dst src logOffset n : Nat) :
    Except Failure IdxEntry :=
  match m.policy with
  | .undo => do
    let data ← m.load dst n
    .ok { e with log := blit e.log logOffset data 0 n }
  | .redo => .ok { e with log := blit e.log logOffset buf src n }

/-- The second switch: the entry already holds data and is not overwritten whole. -/
def mergeEntry (m : Mmio) (e : IdxEntry) (dst logOffset n : Nat) : Except Failure IdxEntry :=
  let logEnd := logOffset + n
  let prevStart := e.offset
  let prevEnd := prevStart + e.len
  match checkLog logOffset logEnd prevStart prevEnd with
  | .before => do
    let overwriteLen := prevStart - logEnd
    let data ← m.load (dst + n) overwriteLen
    .ok (({ e with log := blit e.log logEnd data 0 overwriteLen }.setOffset logOffset).setLen
      (prevEnd - logOffset))
  | .overHead => .ok ((e.setOffset logOffset).setLen (prevEnd - logOffset))
  | .covers => .ok ((e.setOffset logOffset).setLen n)
  | .inside => .ok e
  | .overTail => .ok (e.setLen (logEnd - prevStart))
  | .after => do
    let overwriteLen := logOffset - prevEnd
    let data ← m.load (dst - overwriteLen) overwriteLen
    .ok ({ e with log := blit e.log prevEnd data 0 overwriteLen }.setLen (logEnd - prevStart))

/-- The other branch: the piece is all that the entry holds. -/
def freshEntry (m : Mmio) (e : IdxEntry) (dst logOffset n : Nat) : IdxEntry :=
  { (e.setOffset logOffset).setLen n with
    dst := dst - dst % e.logSize.size
    policy := m.policy }

def updateHeader (m : Mmio) (e : IdxEntry) (dst logOffset n : Nat) : Except Failure IdxEntry :=
  if 0 < e.len ∧ n ≠ e.logSize.size then m.mergeEntry e dst logOffset n
  else .ok (m.freshEntry e dst logOffset n)

def storePiece (m : Mmio) (buf : Nat → UInt8) (e : IdxEntry) (c : Cursor) :
    Except Failure (IdxEntry × Cursor) := do
  let size := e.logSize.size
  let logOffset := c.off % size
  let logLen := size - logOffset
  let n := if logLen < c.n then logLen else c.n
  let e ← m.logPiece buf e c.dst c.src logOffset n
  let e ← m.updateHeader e c.dst logOffset n
  .ok (e, ⟨n, c.off + n, c.dst + n, c.src + n, c.ret + n⟩)

/-- One iteration of the loop of `mmio_write`. The entries of the list are installed. -/
def writeEntry (m : Mmio) (buf : Nat → UInt8) (slot : Slot) (c : Cursor) :
    Except Failure (Mmio × Cursor) :=
  match m.radixlog.entryAt slot with
  | none => .error .unmapped
  | some e => do
    let (m, e) ← m.retireStale e
    let (e, c) ← m.storePiece buf e c
    .ok ({ m with radixlog := m.radixlog.setEntry slot (some e) }, c)

def writeEntries (m : Mmio) (buf : Nat → UInt8) : List Slot → Cursor → Except Failure (Mmio × Cursor)
  | [], c => .ok (m, c)
  | slot :: slots, c => do
    let (m, c) ← m.writeEntry buf slot c
    writeEntries m buf slots c

def updateFile (m : Mmio) (offset : Nat) (buf : Nat → UInt8) (len : Nat) : Except Failure Mmio :=
  match m.policy with
  | .undo => m.ntstore (m.start + offset) buf 0 len
  | .redo => .ok m

/-- The end of `mmio_write`: count the write, update the file, raise `fsize`. -/
def finishWrite (m : Mmio) (offset : Nat) (buf : Nat → UInt8) (len ret : Nat) : Except Failure Mmio := do
  let m ← updateFile { m with write := m.write + 1 } offset buf len
  .ok (if m.fsize < offset + ret then { m with fsize := offset + ret } else m)

def ensureMapped (fdWritable : Bool) (remap : Nat → Nat) (m : Mmio) (offset len : Nat) :
    Except Failure Mmio :=
  if m.checkExpend offset len then expendMmio fdWritable remap m offset len else .ok m

def mmioWrite (fdWritable : Bool) (remap : Nat → Nat) (m : Mmio) (offset : Nat) (buf : Nat → UInt8)
    (len : Nat) : Except Failure (Mmio × Nat) := do
  let m ← ensureMapped fdWritable remap m offset len
  let (m, head) ← lockEntries .wr m (toInt len) offset []
  let (m, c) ← m.writeEntries buf head ⟨(toInt len).toNat, offset, m.start + offset, 0, 0⟩
  let m ← m.finishWrite offset buf len c.ret
  .ok (m, c.ret)

end Libnvmmio.Mmio

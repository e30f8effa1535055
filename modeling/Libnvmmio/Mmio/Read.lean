import Libnvmmio.Mmio.Write

/-! # `mmio_read` -/

namespace Libnvmmio.Mmio

open RangeCopy RadixLog

set_option autoImplicit false

/-- The variables of `read_redolog`: the user buffer, the next position in it,
the running offset and the length still to deliver. -/
structure ReadCursor where
  buf : Nat → UInt8
  dst : Nat
  offset : Nat
  len : Nat

/-- `memcpy(dst, src, n)` followed by the three updates that go with it. -/
def ReadCursor.copy (c : ReadCursor) (src : Nat → UInt8) (srcPos n : Nat) : ReadCursor :=
  ⟨blit c.buf c.dst src srcPos n, c.dst + n, c.offset + n, c.len - n⟩

def copyFile (m : Mmio) (c : ReadCursor) (src n : Nat) : Except Failure ReadCursor := do
  let data ← m.load src n
  .ok (c.copy data 0 n)

def readEntry (m : Mmio) (e : IdxEntry) (c : ReadCursor) : Except Failure ReadCursor :=
  let size := e.logSize.size
  let logOffset := c.offset % size
  let logMaxLen := size - logOffset
  let n := if logMaxLen < c.len then logMaxLen else c.len
  if 0 < e.len then
    let logStart := e.offset
    let logEnd := logStart + e.len
    let reqStart := logOffset
    let reqEnd := reqStart + n
    match checkLog reqStart reqEnd logStart logEnd with
    | .before => m.copyFile c (m.start + c.offset) n
    | .overHead => do
      let c ← m.copyFile c (m.start + c.offset) (logStart - reqStart)
      .ok (c.copy e.log logStart (reqEnd - logStart))
    | .covers => do
      let c ← m.copyFile c (m.start + c.offset) (logStart - reqStart)
      let c := c.copy e.log logStart (logEnd - logStart)
      -- the running offset has moved already, and is moved again
      m.copyFile c (m.start + c.offset + (logEnd - reqStart)) (reqEnd - logEnd)
    | .inside => .ok (c.copy e.log reqStart (reqEnd - reqStart))
    | .overTail =>
      let c := c.copy e.log reqStart (logEnd - reqStart)
      m.copyFile c (m.start + c.offset) (reqEnd - logEnd)
    | .after => m.copyFile c (m.start + c.offset) (reqEnd - reqStart)
  else m.copyFile c (m.start + c.offset) n

def readRedolog (m : Mmio) : List Slot → ReadCursor → Except Failure ReadCursor
  | [], c => .ok c
  | slot :: slots, c =>
    match m.radixlog.entryAt slot with
    | none => .error .unmapped
    | some e => do
      let c ← m.readEntry e c
      readRedolog m slots c

/-- The length that `mmio_read` delivers; a negative `fsize - offset` becomes a huge `size_t`. -/
def clipLen (m : Mmio) (offset len : Nat) : Nat :=
  if m.checkFsize offset len then
    if m.fsize < offset then 2 ^ 64 - (offset - m.fsize) else m.fsize - offset
  else len

/-- The switch of `mmio_read` over the policy: the user buffer afterwards. -/
def deliver (m : Mmio) (head : List Slot) (offset : Nat) (buf : Nat → UInt8) (len : Nat) :
    Except Failure (Nat → UInt8) :=
  match m.policy with
  | .undo => do
    let data ← m.load (m.start + offset) len
    .ok (blit buf 0 data 0 len)
  | .redo => do
    let c ← m.readRedolog head ⟨buf, 0, offset, len⟩
    .ok c.buf

/-- The count returned and the user buffer afterwards. -/
def mmioRead (m : Mmio) (offset : Nat) (buf : Nat → UInt8) (len : Nat) :
    Except Failure (Mmio × Nat × (Nat → UInt8)) := do
  let (m, head) ← lockEntries .rd m (toInt len) offset []
  let len := m.clipLen offset len
  let buf ← m.deliver head offset buf len
  .ok ({ m with read := m.read + 1 }, len, buf)

end Libnvmmio.Mmio

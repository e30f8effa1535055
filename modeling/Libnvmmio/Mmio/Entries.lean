import Libnvmmio.Mmio.State

/-! # `get_log_entry` and `LOCK_ENTRIES`

One thread locks the entries of a request. The entries are pushed at the head
of the list, so the list runs from the last block of the request to the first.
-/

namespace Libnvmmio.Mmio

open RangeCopy RadixLog

set_option autoImplicit false

/-- `get_log_entry`: the installed entry, or a pooled one tagged with the epoch. -/
def getLogEntry (m : Mmio) (slot : Slot) : IdxEntry × Mmio :=
  match m.radixlog.entryAt slot with
  | some entry => (entry, m)
  | none =>
    let entry := (IdxEntry.alloc (m.logPool m.nextLog)).setEpoch m.epoch
    (entry, { m with
      radixlog := m.radixlog.setEntry slot (some entry)
      nextLog := m.nextLog + 1 })

/-- The part of an iteration of `LOCK_ENTRIES` that touches the entry:
`get_log_entry` and the assignment of `log_size`. -/
def takeEntry (m : Mmio) (slot : Slot) (s : LogSize) : Mmio :=
  let (entry, m) := m.getLogEntry slot
  { m with radixlog := m.radixlog.setEntry slot (some { entry with logSize := s }) }

inductive LockType where
  | rd | wr
  deriving DecidableEq, Repr

/-- What happens when one request meets an entry twice: `trywrlock` fails for
ever, `tryrdlock` succeeds and the second push closes the list into a cycle. -/
def LockType.again : LockType → Failure
  | .wr => .deadlock
  | .rd => .cyclicList

def lockEntries (type : LockType) (m : Mmio) (n : Int) (off : Nat) (head : List Slot) :
    Except Failure (Mmio × List Slot) :=
  if 0 < n then
    let (slot, s, radixlog) := m.radixlog.locate off n.toNat
    if slot ∈ head then .error type.again
    else
      let logLen := s.size - off % s.size
      lockEntries type (takeEntry { m with radixlog := radixlog } slot s) (n - logLen) (off + logLen)
        (slot :: head)
  else .ok (m, head)
termination_by n.toNat
decreasing_by
  have hLen := Nat.mod_lt off (LogSize.size_pos s)
  omega

end Libnvmmio.Mmio

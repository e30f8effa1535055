import Libnvmmio.Radixlog.Locate

/-! # The mmio object, its file and its mapping

`mmio_t` as one thread sees it, together with the file behind the mapping and
the log buffers the pool will hand out. The mapping is shared, so its bytes
are the bytes of the file. The bravo lock matters to one thread in a single
place: `checkpoint_mmio` cannot take it while `commit_mmio` holds it.
-/

namespace Libnvmmio

open RangeCopy RadixLog

set_option autoImplicit false

inductive Failure where
  /-- a write waits for an entry lock that it holds itself -/
  | deadlock
  /-- a read pushes an entry twice and its list becomes a cycle -/
  | cyclicList
  /-- an access outside the pages of the mapping -/
  | unmapped
  /-- `NR_ENTRIES` of a table whose size is unset shifts by a negative amount -/
  | badShift
  /-- `HANDLE_ERROR` -/
  | exit
  deriving DecidableEq, Repr

structure Disk where
  length : Nat
  bytes : Nat → UInt8

/-- `mmio_t`. `end` is assigned only as `start` plus a length, and kept as that length. -/
structure Mmio where
  start : Nat
  mapLen : Nat
  epoch : Nat
  policy : Policy
  radixlog : RadixLog
  read : Nat
  write : Nat
  fsize : Nat
  wrlocked : Bool
  disk : Disk
  /-- the old contents of the `k`-th log buffer that will be allocated -/
  logPool : Nat → Nat → UInt8
  nextLog : Nat

def basicMmapSize : Nat := 2 ^ 26
def defaultMmapSize : Nat := 2 ^ 20

namespace Mmio

def «end» (m : Mmio) : Nat := m.start + m.mapLen

/-- The mapping reaches to the end of its last page. -/
def mappedLen (m : Mmio) : Nat := (m.mapLen + (2 ^ pageShift - 1)) / 2 ^ pageShift * 2 ^ pageShift

theorem mapLen_le_mappedLen (m : Mmio) : m.mapLen ≤ m.mappedLen := by
  rw [mappedLen, pageShift]
  omega

def Accessible (m : Mmio) (addr n : Nat) : Prop :=
  n = 0 ∨ m.start ≤ addr ∧ addr + n ≤ m.start + m.mappedLen

instance (m : Mmio) (addr n : Nat) : Decidable (m.Accessible addr n) :=
  inferInstanceAs (Decidable (_ ∨ _ ∧ _))

def load (m : Mmio) (addr n : Nat) : Except Failure (Nat → UInt8) :=
  if m.Accessible addr n then .ok (fun i => m.disk.bytes (addr - m.start + i)) else .error .unmapped

/-- `NTSTORE` with a destination in the mapping. -/
def ntstore (m : Mmio) (dst : Nat) (src : Nat → UInt8) (srcPos n : Nat) : Except Failure Mmio :=
  if m.Accessible dst n then
    .ok { m with disk := { m.disk with bytes := blit m.disk.bytes (dst - m.start) src srcPos n } }
  else .error .unmapped

theorem load_eq_ok {m : Mmio} {addr n : Nat} {data : Nat → UInt8} (h : m.load addr n = .ok data) :
    m.Accessible addr n ∧ data = fun i => m.disk.bytes (addr - m.start + i) := by
  unfold load at h
  split at h
  · exact ⟨‹_›, (Except.ok.inj h).symm⟩
  · cases h

theorem ntstore_eq_ok {m m' : Mmio} {dst srcPos n : Nat} {src : Nat → UInt8}
    (h : m.ntstore dst src srcPos n = .ok m') :
    m.Accessible dst n ∧
      m' = { m with disk := { m.disk with bytes := blit m.disk.bytes (dst - m.start) src srcPos n } } := by
  unfold ntstore at h
  split at h
  · exact ⟨‹_›, (Except.ok.inj h).symm⟩
  · cases h

theorem accessible_of_le {m : Mmio} {pos n : Nat} (h : pos + n ≤ m.mapLen) :
    m.Accessible (m.start + pos) n := by
  have hMapped := m.mapLen_le_mappedLen
  exact .inr ⟨Nat.le_add_right _ _, by omega⟩

theorem load_file {m : Mmio} {pos n : Nat} (h : pos + n ≤ m.mapLen) :
    m.load (m.start + pos) n = .ok (fun i => m.disk.bytes (pos + i)) := by
  rw [load, if_pos (accessible_of_le h), Nat.add_sub_cancel_left]

theorem ntstore_file {m : Mmio} {pos srcPos n : Nat} {src : Nat → UInt8} (h : pos + n ≤ m.mapLen) :
    m.ntstore (m.start + pos) src srcPos n =
      .ok { m with disk := { m.disk with bytes := blit m.disk.bytes pos src srcPos n } } := by
  rw [ntstore, if_pos (accessible_of_le h), Nat.add_sub_cancel_left]

/-- The copy of a log to its block in the file, which only a REDO log needs. -/
def storeRedo (m : Mmio) (e : IdxEntry) : Except Failure Mmio :=
  match e.policy with
  | .redo => m.ntstore (e.dst + e.offset) e.log e.offset e.len
  | .undo => .ok m

/-- `off_t` arithmetic wraps at 2^63. -/
def toOffT (x : Nat) : Int := Int.bmod x (2 ^ 64)

/-- the conversion to `int` that a length undergoes in `LOCK_ENTRIES` and `mmio_write` -/
def toInt (x : Nat) : Int := Int.bmod x (2 ^ 32)

theorem toOffT_of_lt {x : Nat} (h : x < 2 ^ 63) : toOffT x = x := by
  unfold toOffT
  exact Int.bmod_eq_of_le_mul_two (by omega) (by omega)

theorem toOffT_le (x : Nat) : toOffT x ≤ x := by
  have hLe : (x : Int) % ((2 ^ 64 : Nat) : Int) ≤ x := by
    rw [← Int.natCast_emod]
    exact Int.ofNat_le.mpr (Nat.mod_le _ _)
  unfold toOffT Int.bmod
  dsimp only
  split <;> omega

theorem toInt_of_lt {x : Nat} (h : x < 2 ^ 31) : toInt x = x := by
  unfold toInt
  exact Int.bmod_eq_of_le_mul_two (by omega) (by omega)

theorem toInt_le (x : Nat) : toInt x ≤ x := by
  have hLe : (x : Int) % ((2 ^ 32 : Nat) : Int) ≤ x := by
    rw [← Int.natCast_emod]
    exact Int.ofNat_le.mpr (Nat.mod_le _ _)
  unfold toInt Int.bmod
  dsimp only
  split <;> omega

def checkExpend (m : Mmio) (offset len : Nat) : Bool := m.end < m.start + offset + len

def checkFsize (m : Mmio) (offset len : Nat) : Bool := (m.fsize : Int) < toOffT (offset + len)

theorem checkExpend_eq (m : Mmio) (offset len : Nat) :
    m.checkExpend offset len = decide (m.mapLen < offset + len) := by
  rw [checkExpend, «end»]
  congr 1
  exact propext ⟨fun h => by omega, fun h => by omega⟩

def newLen (currentLen : Nat) : Nat :=
  if basicMmapSize ≤ currentLen then currentLen * 2 else basicMmapSize

theorem lt_newLen (currentLen : Nat) : currentLen < newLen currentLen := by
  have hBasic : 0 < basicMmapSize := by decide
  rw [newLen]
  split <;> omega

/-- The loop of `expend_mmio`. `posix_fallocate` needs a descriptor that is
open for writing; `mremap` to the length `l` returns `remap l`. -/
def expendMmio (fdWritable : Bool) (remap : Nat → Nat) (m : Mmio) (offset len : Nat) :
    Except Failure Mmio :=
  if m.mapLen < offset + len then
    if fdWritable then
      expendMmio fdWritable remap
        { m with
          start := remap (newLen m.mapLen)
          mapLen := newLen m.mapLen
          disk := { m.disk with length := max m.disk.length (newLen m.mapLen) } } offset len
    else .error .exit
  else .ok m
termination_by offset + len - m.mapLen
decreasing_by
  have hLt := lt_newLen m.mapLen
  omega

end Mmio

end Libnvmmio

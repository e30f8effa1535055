import Libnvmmio.Mmio.Read

/-! # `checkpoint_mmio` and `commit_mmio` -/

namespace Libnvmmio.Mmio

open RangeCopy RadixLog

set_option autoImplicit false

/-- One iteration of the inner loop. No request is in progress, so the write
trylock of the entry succeeds. -/
def checkpointSlot (currentEpoch : Nat) (m : Mmio) (slot : Slot) : Except Failure Mmio :=
  match m.radixlog.entryAt slot with
  | none => .ok m
  | some e =>
    if e.epoch < currentEpoch then do
      let m ← m.storeRedo e
      .ok { m with radixlog := m.radixlog.setEntry slot none }
    else .ok m

def slotsOf (table : Nat) (s : LogSize) : List Slot := (List.range s.nrEntries).map (⟨table, ·⟩)

def checkpointTable (currentEpoch : Nat) (m : Mmio) (table : Nat) (s : LogSize) : Except Failure Mmio :=
  (slotsOf table s).foldlM (checkpointSlot currentEpoch) m

/-- The outer loop. A region without a table, or met while the lock is held for
writing, is stepped over as if its log size were `LOG_4K`. -/
def checkpointFrom (currentEpoch endoff : Nat) (m : Mmio) (offset : Nat) : Except Failure Mmio :=
  if offset < endoff then
    if m.wrlocked then
      checkpointFrom currentEpoch endoff m (offset + LogSize.log4K.nrEntries * LogSize.log4K.size)
    else
      match m.radixlog.findLogTable offset with
      | none =>
        checkpointFrom currentEpoch endoff m (offset + LogSize.log4K.nrEntries * LogSize.log4K.size)
      | some table =>
        match (m.radixlog.tables table).logSize with
        | none => .error .badShift
        | some s => do
          let m ← m.checkpointTable currentEpoch table s
          checkpointFrom currentEpoch endoff m (offset + s.nrEntries * s.size)
  else .ok m
termination_by endoff - offset
decreasing_by
  · have hStep : 0 < LogSize.log4K.nrEntries * LogSize.log4K.size := by decide
    omega
  · have hStep : 0 < LogSize.log4K.nrEntries * LogSize.log4K.size := by decide
    omega
  · have hStep : 0 < s.nrEntries * s.size := Nat.mul_pos s.nrEntries_pos s.size_pos
    omega

section Regions

variable {m : Mmio} {currentEpoch endoff offset table : Nat} {s : LogSize}

theorem checkpointFrom_done (hDone : ¬ offset < endoff) :
    checkpointFrom currentEpoch endoff m offset = .ok m := by
  rw [checkpointFrom, if_neg hDone]

theorem checkpointFrom_skip (hMore : offset < endoff)
    (hSkip : m.wrlocked = true ∨ m.radixlog.findLogTable offset = none) :
    checkpointFrom currentEpoch endoff m offset =
      checkpointFrom currentEpoch endoff m (offset + 2 ^ lmdShift) := by
  rw [checkpointFrom, if_pos hMore, LogSize.nrEntries_mul_size]
  split
  · rfl
  · rename_i hUnlocked
    rw [hSkip.resolve_left hUnlocked]

theorem checkpointFrom_unsized (hMore : offset < endoff) (hUnlocked : m.wrlocked = false)
    (hFind : m.radixlog.findLogTable offset = some table)
    (hSize : (m.radixlog.tables table).logSize = none) :
    checkpointFrom currentEpoch endoff m offset = .error .badShift := by
  rw [checkpointFrom, if_pos hMore, if_neg (Bool.eq_false_iff.mp hUnlocked), hFind]
  dsimp only
  rw [hSize]

theorem checkpointFrom_sized (hMore : offset < endoff) (hUnlocked : m.wrlocked = false)
    (hFind : m.radixlog.findLogTable offset = some table)
    (hSize : (m.radixlog.tables table).logSize = some s) :
    checkpointFrom currentEpoch endoff m offset = m.checkpointTable currentEpoch table s >>= fun m =>
      checkpointFrom currentEpoch endoff m (offset + 2 ^ lmdShift) := by
  rw [checkpointFrom, if_pos hMore, if_neg (Bool.eq_false_iff.mp hUnlocked), hFind]
  dsimp only
  rw [hSize]
  dsimp only
  rw [LogSize.nrEntries_mul_size]

/-- The induction along the outer loop. -/
@[elab_as_elim]
theorem regions_induction {P : Mmio → Nat → Prop} (endoff : Nat)
    (skip : ∀ m offset, offset < endoff → (m.wrlocked = true ∨ m.radixlog.findLogTable offset = none) →
      P m (offset + 2 ^ lmdShift) → P m offset)
    (unsized : ∀ m offset table, offset < endoff → m.wrlocked = false →
      m.radixlog.findLogTable offset = some table → (m.radixlog.tables table).logSize = none → P m offset)
    (sized : ∀ m offset table s, offset < endoff → m.wrlocked = false →
      m.radixlog.findLogTable offset = some table → (m.radixlog.tables table).logSize = some s →
      (∀ m', P m' (offset + 2 ^ lmdShift)) → P m offset)
    (done : ∀ m offset, ¬ offset < endoff → P m offset) (m : Mmio) (offset : Nat) : P m offset := by
  induction m, offset using checkpointFrom.induct endoff with
  | case1 m offset hMore hLocked ih =>
    rw [LogSize.nrEntries_mul_size] at ih
    exact skip m offset hMore (.inl hLocked) ih
  | case2 m offset hMore hUnlocked hFind ih =>
    rw [LogSize.nrEntries_mul_size] at ih
    exact skip m offset hMore (.inr hFind) ih
  | case3 m offset hMore hUnlocked table hFind hSize =>
    exact unsized m offset table hMore (Bool.eq_false_iff.mpr hUnlocked) hFind hSize
  | case4 m offset hMore hUnlocked table hFind s hSize ih =>
    rw [LogSize.nrEntries_mul_size] at ih
    exact sized m offset table s hMore (Bool.eq_false_iff.mpr hUnlocked) hFind hSize ih
  | case5 m offset hDone => exact done m offset hDone

end Regions

def checkpointMmio (m : Mmio) : Except Failure Mmio := checkpointFrom m.epoch m.mapLen m 0

def hybridWriteRatio : Nat := 40

/-- `determine_policy`. The new policy is compared with `mmio->policy` and not stored. -/
def determinePolicy (m : Mmio) : Except Failure Mmio :=
  let totalCnt := m.read + m.write
  if 0 < totalCnt then
    let writeRatio := m.write / totalCnt * 100
    let newPolicy := if hybridWriteRatio < writeRatio then Policy.redo else Policy.undo
    let m := { m with read := 0, write := 0 }
    if m.policy ≠ newPolicy then m.checkpointMmio else .ok m
  else .ok m

/-- `commit_mmio` with `HYBRID_LOGGING` on -/
def commitMmio (m : Mmio) : Except Failure Mmio := do
  let m := { m with wrlocked := true, epoch := (m.epoch + 1) % 2 ^ 64 }
  let m ← m.determinePolicy
  .ok { m with wrlocked := false }

/-- `get_new_mmio` on a file, into an object whose `epoch` is left over from its
last use; `mmap` returns `addr`. `posix_fallocate` on an empty file needs a
descriptor that is open for writing. -/
def getNewMmio (policy : Policy) (epoch : Nat) (logPool : Nat → Nat → UInt8) (addr : Nat)
    (fdWritable : Bool) (disk : Disk) : Except Failure Mmio :=
  let fsize := disk.length
  let new (len : Nat) (disk : Disk) : Mmio :=
    { start := addr, mapLen := len, epoch := epoch, policy := policy
      radixlog := initRadixlog len, read := 0, write := 0, fsize := fsize, wrlocked := false
      disk := disk, logPool := logPool, nextLog := 0 }
  if fsize = 0 then
    if fdWritable then .ok (new defaultMmapSize { disk with length := defaultMmapSize })
    else .error .exit
  else .ok (new fsize disk)

end Libnvmmio.Mmio

import Libnvmmio.Mmio.CheckpointEnds

/-! # What a checkpoint computes and touches

The shifts, the accesses to the slots of the tables and the steps of the offset
in the order in which `checkpoint_mmio` makes them, beside the state that it
returns. A table without a log size takes it out of the range of its shifts.
-/

namespace Libnvmmio.Mmio

open RadixLog Outcome

set_option autoImplicit false

/-! ## The macros on any value of `log_size` -/

def rawLogSize : Option LogSize → Nat
  | some s => s.val
  | none => nrLogSizes

/-- Subtraction of two `unsigned int`s, which an enumeration without negative values is. -/
def uintSub (a b : Nat) : Nat := (a + (2 ^ 32 - b % 2 ^ 32)) % 2 ^ 32

/-- `LOG_SHIFT` -/
def logShift (raw : Nat) : Nat := uintSub lmdShift (uintSub (lmdShift - pageShift) raw)

def entriesShift (raw : Nat) : Nat := uintSub lmdShift (logShift raw)

theorem logShift_eq (s : LogSize) : logShift s.val = s.shift := by
  revert s
  decide

theorem entriesShift_eq (s : LogSize) : entriesShift s.val = lmdShift - s.shift := by
  revert s
  decide

/-- An unset log size yields a shift by `UINT_MAX`. -/
theorem entriesShift_unset : entriesShift (rawLogSize none) = 2 ^ 32 - 1 := by decide

/-! ## The scan -/

inductive ScanEvent where
  /-- the amount of a shift -/
  | shift (amount : Nat)
  /-- an access to `entries[i]`, and whether an entry is there -/
  | load (slot : Slot) (seen : Bool)
  /-- `offset += NR_ENTRIES(log_size) * LOG_SIZE(log_size)` -/
  | step (offset offset' : Nat)
  deriving DecidableEq, Repr

abbrev Scan := List ScanEvent × Except Failure Mmio

def Scan.after (events : List ScanEvent) (scan : Scan) : Scan := (events ++ scan.1, scan.2)

def Scan.andThen (scan : Scan) (next : Mmio → Scan) : Scan :=
  match scan.2 with
  | .error err => (scan.1, .error err)
  | .ok m => Scan.after scan.1 (next m)

def scanSlots (currentEpoch : Nat) (m : Mmio) : List Slot → Scan
  | [] => ([], .ok m)
  | slot :: slots =>
    Scan.andThen ([.load slot (m.radixlog.entryAt slot).isSome], checkpointSlot currentEpoch m slot)
      fun m => scanSlots currentEpoch m slots

/-- The inner loop with its bound; a shift past the width of the word is undefined. -/
def scanTable (currentEpoch : Nat) (m : Mmio) (table raw : Nat) : Scan :=
  Scan.after [.shift (entriesShift raw)]
    (if entriesShift raw < 64 then
      scanSlots currentEpoch m ((List.range (2 ^ entriesShift raw)).map (⟨table, ·⟩))
    else ([], .error .badShift))

def nextOffset (offset raw : Nat) : Nat := offset + 2 ^ entriesShift raw * 2 ^ logShift raw

def stepEvents (offset raw : Nat) : List ScanEvent :=
  [.shift (entriesShift raw), .shift (logShift raw), .step offset (nextOffset offset raw)]

theorem lt_nextOffset (offset raw : Nat) : offset < nextOffset offset raw := by
  have hStep : 0 < 2 ^ entriesShift raw * 2 ^ logShift raw :=
    Nat.mul_pos (Nat.pow_pos (by decide)) (Nat.pow_pos (by decide))
  rw [nextOffset]
  omega

def scanFrom (currentEpoch endoff : Nat) (m : Mmio) (offset : Nat) : Scan :=
  if offset < endoff then
    if m.wrlocked then
      Scan.after (stepEvents offset (rawLogSize (some .log4K)))
        (scanFrom currentEpoch endoff m (nextOffset offset (rawLogSize (some .log4K))))
    else
      match m.radixlog.findLogTable offset with
      | none =>
        Scan.after (stepEvents offset (rawLogSize (some .log4K)))
          (scanFrom currentEpoch endoff m (nextOffset offset (rawLogSize (some .log4K))))
      | some table =>
        let raw := rawLogSize (m.radixlog.tables table).logSize
        Scan.andThen (scanTable currentEpoch m table raw) fun m =>
          Scan.after (stepEvents offset raw) (scanFrom currentEpoch endoff m (nextOffset offset raw))
  else ([], .ok m)
termination_by endoff - offset
decreasing_by
  all_goals exact Nat.sub_lt_sub_left (by assumption) (lt_nextOffset _ _)

def checkpointScan (m : Mmio) : Scan := scanFrom m.epoch m.mapLen m 0

theorem after_outcome (events : List ScanEvent) (scan : Scan) : (scan.after events).2 = scan.2 := by
  rw [Scan.after]

theorem andThen_ok {scan : Scan} {next : Mmio → Scan} {m : Mmio} (h : scan.2 = .ok m) :
    scan.andThen next = Scan.after scan.1 (next m) := by
  rw [Scan.andThen, h]

theorem andThen_outcome (scan : Scan) (next : Mmio → Scan) :
    (scan.andThen next).2 = scan.2 >>= fun m => (next m).2 := by
  rw [Scan.andThen]
  cases scan.2 <;> rfl

section Step

variable {m m₁ : Mmio} {currentEpoch offset endoff table : Nat} {s : LogSize}

theorem two_pow_entriesShift (s : LogSize) : 2 ^ entriesShift s.val = s.nrEntries := by
  rw [entriesShift_eq, LogSize.nrEntries]

theorem nextOffset_eq (offset : Nat) (s : LogSize) : nextOffset offset s.val = offset + 2 ^ lmdShift := by
  rw [nextOffset, two_pow_entriesShift, logShift_eq, Nat.mul_comm, ← LogSize.size, s.size_mul_nrEntries]

theorem scanTable_sized (s : LogSize) : scanTable currentEpoch m table s.val =
    Scan.after [.shift (entriesShift s.val)] (scanSlots currentEpoch m (slotsOf table s)) := by
  have hShift : entriesShift s.val < 64 := by
    rw [entriesShift_eq, lmdShift]
    omega
  rw [scanTable, if_pos hShift, two_pow_entriesShift, slotsOf]

theorem scanFrom_done (hDone : ¬ offset < endoff) : scanFrom currentEpoch endoff m offset = ([], .ok m) := by
  rw [scanFrom, if_neg hDone]

theorem scanFrom_skip (hMore : offset < endoff)
    (hSkip : m.wrlocked = true ∨ m.radixlog.findLogTable offset = none) :
    scanFrom currentEpoch endoff m offset =
      Scan.after (stepEvents offset LogSize.log4K.val)
        (scanFrom currentEpoch endoff m (offset + 2 ^ lmdShift)) := by
  rw [scanFrom, if_pos hMore, rawLogSize, nextOffset_eq]
  split
  · rfl
  · rename_i hUnlocked
    rw [hSkip.resolve_left hUnlocked]

theorem scanFrom_sized (hMore : offset < endoff) (hUnlocked : m.wrlocked = false)
    (hFind : m.radixlog.findLogTable offset = some table)
    (hSize : (m.radixlog.tables table).logSize = some s) :
    scanFrom currentEpoch endoff m offset =
      Scan.andThen (scanTable currentEpoch m table s.val) fun m =>
        Scan.after (stepEvents offset s.val) (scanFrom currentEpoch endoff m (offset + 2 ^ lmdShift)) := by
  rw [scanFrom, if_pos hMore, if_neg (by rw [hUnlocked]; decide), hFind]
  dsimp only
  rw [hSize]
  simp only [rawLogSize, nextOffset_eq]

theorem scanFrom_unsized (hMore : offset < endoff) (hUnlocked : m.wrlocked = false)
    (hFind : m.radixlog.findLogTable offset = some table)
    (hSize : (m.radixlog.tables table).logSize = none) :
    scanFrom currentEpoch endoff m offset = ([.shift (2 ^ 32 - 1)], .error .badShift) := by
  have hShift : ¬ entriesShift (rawLogSize none) < 64 := by
    rw [entriesShift_unset]
    decide
  rw [scanFrom, if_pos hMore, if_neg (by rw [hUnlocked]; decide), hFind]
  dsimp only
  rw [hSize, scanTable, if_neg hShift, entriesShift_unset]
  rfl

theorem scanSlots_outcome (slots : List Slot) (m : Mmio) :
    (scanSlots currentEpoch m slots).2 = slots.foldlM (checkpointSlot currentEpoch) m := by
  induction slots generalizing m with
  | nil => rfl
  | cons slot slots ih =>
    rw [scanSlots, andThen_outcome, List.foldlM_cons]
    dsimp only
    cases checkpointSlot currentEpoch m slot with
    | error err => rfl
    | ok m₁ => exact ih m₁

theorem scanTable_outcome (m : Mmio) (table : Nat) (s : LogSize) :
    (scanTable currentEpoch m table s.val).2 = checkpointTable currentEpoch m table s := by
  rw [scanTable_sized, after_outcome, scanSlots_outcome, checkpointTable]

theorem scanFrom_outcome (currentEpoch endoff : Nat) (m : Mmio) (offset : Nat) :
    (scanFrom currentEpoch endoff m offset).2 = checkpointFrom currentEpoch endoff m offset := by
  induction m, offset using regions_induction endoff with
  | skip m offset hMore hSkip ih =>
    rw [checkpointFrom_skip hMore hSkip, ← ih, scanFrom_skip hMore hSkip, after_outcome]
  | unsized m offset table hMore hUnlocked hFind hSize =>
    rw [checkpointFrom_unsized hMore hUnlocked hFind hSize, scanFrom_unsized hMore hUnlocked hFind hSize]
  | sized m offset table s hMore hUnlocked hFind hSize ih =>
    have hRest : ∀ m₁, (Scan.after (stepEvents offset s.val)
        (scanFrom currentEpoch endoff m₁ (offset + 2 ^ lmdShift))).2 =
        checkpointFrom currentEpoch endoff m₁ (offset + 2 ^ lmdShift) := by
      intro m₁
      rw [after_outcome, ih]
    rw [checkpointFrom_sized hMore hUnlocked hFind hSize, scanFrom_sized hMore hUnlocked hFind hSize,
      andThen_outcome, scanTable_outcome, funext hRest]
  | done m offset hDone => rw [checkpointFrom_done hDone, scanFrom_done hDone]

end Step

end Libnvmmio.Mmio

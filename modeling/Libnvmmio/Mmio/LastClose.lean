import Libnvmmio.Mmio.SettledRuns

/-! # What the last close leaves

`delete_mmio_hash` checkpoints the object of the last descriptor and releases
it. The checkpoint takes the committed logs only, so a redo log that no commit
follows is dropped with the object.
-/

namespace Libnvmmio

open RangeCopy RadixLog Outcome GuardedRun

set_option autoImplicit false

def Disk.truncate (disk : Disk) (n : Nat) : Disk :=
  ⟨n, fun i => if i < disk.length ∧ i < n then disk.bytes i else 0⟩

namespace Mmio

/-- `release_mmio`: the file is trimmed if the descriptor is open for writing. -/
def releaseMmio (m : Mmio) (fdWritable : Bool) : Disk :=
  if fdWritable then m.disk.truncate m.fsize else m.disk

/-- `delete_mmio_hash` for the last reference: the file that remains. -/
def closeMmio (m : Mmio) (fdWritable : Bool) : Except Failure Disk := do
  let m ← m.checkpointMmio
  .ok (m.releaseMmio fdWritable)

def ReadsByte (m : Mmio) (i : Nat) (byte : UInt8) : Prop :=
  ∃ m' buf, m.mmioRead i (fun _ => 0) 1 = .ok (m', 1, buf) ∧ buf 0 = byte

/-- Below `fsize` the file is left with the bytes that reads delivered just
before the close, and a later open reads them back. -/
def KeepsData (m : Mmio) (fdWritable : Bool) : Prop :=
  ∃ disk, m.closeMmio fdWritable = .ok disk ∧ ∀ i, i < m.fsize →
    m.ReadsByte i (disk.bytes i) ∧
    ∀ policy epoch logPool addr fdWritable' m',
      getNewMmio policy epoch logPool addr fdWritable' disk = .ok m' → m'.ReadsByte i (disk.bytes i)

/-- No redo log that is not committed differs from the file below `fsize`. -/
def Flushed (m : Mmio) : Prop :=
  ∀ i e, i < m.fsize → m.radixlog.entryOf i = some e → e.policy = .redo → ¬ e.epoch < m.epoch →
    e.extent.Covers (i % e.logSize.size) → e.log (i % e.logSize.size) = m.disk.bytes i

def seen (m : Mmio) (i : Nat) : UInt8 :=
  m.radixlog.through (fun _ => m.policy = .redo) m.disk.bytes i

section ReadByte

variable {m : Mmio} {i : Nat}

theorem oneBlock_byte (m : Mmio) (i : Nat) : m.OneBlock i 1 := by
  have hMod := Nat.mod_lt i (m.radixlog.locate i 1).2.1.size_pos
  exact .inr hMod

theorem clipLen_byte (hi : i < m.fsize) : m.clipLen i 1 = 1 := by
  have hLe := toOffT_le (i + 1)
  have hWithin : m.checkFsize i 1 = false := by
    rw [checkFsize, decide_eq_false_iff_not]
    omega
  rw [clipLen, if_neg (by rw [hWithin]; decide)]

theorem deliver_byte {slot : Slot} {e : IdxEntry}
    (hOf : m.radixlog.entryOf i = some e) (hAt : m.radixlog.entryAt slot = some e)
    (hMapped : i + 1 ≤ m.mapLen) :
    ∃ buf, m.deliver [slot] i (fun _ => 0) 1 = .ok buf ∧ buf 0 = m.seen i := by
  have hSeen : m.seen i = if m.policy = .redo ∧ e.extent.Covers (i % e.logSize.size) then
      e.log (i % e.logSize.size) else m.disk.bytes i := through_some hOf
  unfold deliver
  cases hPolicy : m.policy with
  | undo =>
    dsimp only
    rw [load_file hMapped, ok_bind]
    refine ⟨_, rfl, ?_⟩
    have hNotRedo : ¬ (Policy.undo = Policy.redo ∧ e.extent.Covers (i % e.logSize.size)) :=
      fun h => Policy.noConfusion h.1
    rw [hSeen, hPolicy, blit_inside (Nat.le_refl 0) (by decide), if_neg hNotRedo]
    rfl
  | redo =>
    have hMod := Nat.mod_lt i e.logSize.size_pos
    have hView : BlockView m e (i % e.logSize.size) ⟨fun _ => 0, 0, i, 1⟩ m.seen := by
      refine ⟨hMapped, fun j hj hCovers => ?_, fun j hj hCovers => ?_⟩
      · obtain rfl : j = 0 := Nat.lt_one_iff.mp hj
        exact (hSeen.trans (if_pos ⟨hPolicy, hCovers⟩)).symm
      · obtain rfl : j = 0 := Nat.lt_one_iff.mp hj
        exact (hSeen.trans (if_neg fun h => hCovers h.2)).symm
    have hPiece : i % e.logSize.size + 1 ≤ e.logSize.size := hMod
    have hShort : ¬ LogInside e i 1 := by
      rintro ⟨hLen, hLow, hHigh⟩
      omega
    obtain ⟨c, hOk, hCopied⟩ := readEntry_spec (c := ⟨fun _ => 0, 0, i, 1⟩) hPiece hView hShort
    refine ⟨c.buf, ?_, ?_⟩
    · dsimp only [readRedolog]
      rw [hAt]
      dsimp only
      rw [hOk, ok_bind, ok_bind]
    · rw [hCopied.buf]
      change blit (fun _ => 0) 0 (fun k => m.seen (i + k)) 0 1 0 = m.seen i
      rw [blit_inside (Nat.le_refl 0) (by decide)]
      rfl

theorem readsByte_seen (hSound : m.radixlog.Sound) (hi : i < m.fsize) (hMapped : m.fsize ≤ m.mapLen) :
    m.ReadsByte i (m.seen i) := by
  obtain ⟨slot, s, m₁, hLock, hStep, _, _⟩ :=
    lockEntries_oneBlock .rd hSound Nat.zero_lt_one (oneBlock_byte m i)
  have hAcq := hStep.acquires
  have hSame := hAcq.through hSound (fun _ => m.policy = .redo) m.disk.bytes i
  obtain ⟨e, hEntry⟩ := hStep.installed
  have hOf : m₁.radixlog.entryOf i = some e := by
    rw [entryOf_of_find hStep.find hStep.size, ← hStep.index]
    exact hEntry
  obtain ⟨r, k, rfl⟩ := hStep.frame
  obtain ⟨buf, hDeliver, hByte⟩ := deliver_byte hOf hEntry (by dsimp only; omega)
  refine ⟨{ m with radixlog := r, read := m.read + 1, nextLog := k }, buf, ?_, hByte.trans hSame⟩
  have hInt : toInt 1 = 1 := toInt_of_lt (by decide)
  rw [mmioRead, hInt]
  change (lockEntries .rd m (1 : Nat) i [] >>= _) = _
  rw [hLock, ok_bind]
  dsimp only
  rw [clipLen_byte (by exact hi), hDeliver, ok_bind]

theorem ReadsByte.eq_seen {byte : UInt8} (h : m.ReadsByte i byte) (hSound : m.radixlog.Sound)
    (hi : i < m.fsize) (hMapped : m.fsize ≤ m.mapLen) : byte = m.seen i := by
  obtain ⟨m₁, buf, hOk, hByte⟩ := h
  obtain ⟨m₂, buf', hOk', hByte'⟩ := readsByte_seen hSound hi hMapped
  rw [hOk] at hOk'
  cases hOk'
  rw [← hByte, hByte']

end ReadByte

section Close

variable {m : Mmio}

theorem reopened_readsByte {policy : Policy} {epoch : Nat} {logPool : Nat → Nat → UInt8} {addr : Nat}
    {fdWritable : Bool} {disk : Disk} {m' : Mmio} {i : Nat} (hi : i < disk.length)
    (hOk : getNewMmio policy epoch logPool addr fdWritable disk = .ok m') :
    m'.ReadsByte i (disk.bytes i) := by
  have hOpen : m'.Opened := ⟨policy, epoch, logPool, addr, fdWritable, disk, hOk⟩
  have hSize : m'.fsize = disk.length ∧ m'.disk.bytes = disk.bytes := by
    obtain ⟨len, _, _, _, rfl⟩ := getNewMmio_eq_ok hOk
    exact ⟨rfl, rfl⟩
  have hRead := readsByte_seen hOpen.sound (by rw [hSize.1]; exact hi) hOpen.fsize_le
  rw [seen, through_none (hOpen.entryOf i), hSize.2] at hRead
  exact hRead

theorem releaseMmio_spec (h : m.Backed) (hSize : m.fsize ≤ m.mapLen) (fdWritable : Bool) {i : Nat}
    (hi : i < m.fsize) : i < (m.releaseMmio fdWritable).length ∧
      (m.releaseMmio fdWritable).bytes i = m.disk.bytes i := by
  have hLength := h.length
  unfold releaseMmio
  split
  · refine ⟨hi, ?_⟩
    exact if_pos ⟨by omega, hi⟩
  · exact ⟨by omega, rfl⟩

theorem keepsData_iff_seen (h : m.Backed) (hSize : m.fsize ≤ m.mapLen) (fdWritable : Bool) :
    m.KeepsData fdWritable ↔
      ∃ m', m.checkpointMmio = .ok m' ∧ ∀ i, i < m.fsize → m'.disk.bytes i = m.seen i := by
  have hKept : ∀ m', m.checkpointMmio = .ok m' →
      m'.Backed ∧ m'.fsize = m.fsize ∧ m'.mapLen = m.mapLen := by
    intro m' hOk
    have hStep : Steps perform m .checkpoint m' := ⟨.done, by rw [perform, hOk, ok_bind]⟩
    have hBacked := h.step hStep
    obtain ⟨r, bytes, rfl⟩ := (checkpointFrom_checkpointed hOk).frame
    exact ⟨hBacked, rfl, rfl⟩
  constructor
  · rintro ⟨disk, hOk, hBytes⟩
    obtain ⟨m', hCheckpoint, hDone⟩ := bind_eq_ok hOk
    cases hDone
    obtain ⟨hBacked, hFsize, hMapLen⟩ := hKept m' hCheckpoint
    refine ⟨m', hCheckpoint, fun i hi => ?_⟩
    obtain ⟨_, hSame⟩ := releaseMmio_spec hBacked (by omega) fdWritable (hFsize ▸ hi)
    rw [← hSame]
    exact (hBytes i hi).1.eq_seen h.sound hi hSize
  · rintro ⟨m', hCheckpoint, hBytes⟩
    obtain ⟨hBacked, hFsize, hMapLen⟩ := hKept m' hCheckpoint
    refine ⟨_, by rw [closeMmio, hCheckpoint, ok_bind], fun i hi => ?_⟩
    obtain ⟨hLong, hSame⟩ := releaseMmio_spec hBacked (by omega) fdWritable (hFsize ▸ hi)
    refine ⟨?_, fun policy epoch logPool addr fdWritable' m'' hOpen => reopened_readsByte hLong hOpen⟩
    rw [hSame, hBytes i hi]
    exact readsByte_seen h.sound hi hSize

theorem seen_of_undo (hUndo : m.policy = .undo) (i : Nat) : m.seen i = m.disk.bytes i := by
  have hNotRedo : ¬ m.policy = .redo := by
    rw [hUndo]
    decide
  cases hOf : m.radixlog.entryOf i with
  | none => exact through_none hOf
  | some e => exact (through_some hOf).trans (if_neg fun h => hNotRedo h.1)

/-- The invariant of the runs whose last close is understood: under UNDO any
run, under REDO the runs that keep the logs at home. -/
structure Closable (m : Mmio) : Prop where
  backed : m.Backed
  undo : m.policy = .undo → ∀ slot e, m.radixlog.entryAt slot = some e → e.policy = .undo
  redo : m.policy = .redo → m.Settled True ∧ m.fsize ≤ m.radixlog.skipType.span

/-- Undo logs are dropped, whatever they hold. -/
theorem Closable.checkpoint_of_undo (h : m.Closable) (hUndo : m.policy = .undo)
    (hSkip : m.radixlog.SkipSized) :
    ∃ m', m.checkpointMmio = .ok m' ∧ ∀ i, m'.disk.bytes i = m.disk.bytes i := by
  have hEntries := h.undo hUndo
  have hLoop : ∃ m', checkpointFrom m.epoch m.mapLen m 0 = .ok m' ∧ Checkpointed m.epoch m m' := by
    apply checkpointFrom_succeeds
    · intro m₁ slot s b hChecked _
      have hSlot : ∃ m₂, checkpointSlot m.epoch m₁ slot = .ok m₂ := by
        unfold checkpointSlot
        cases hEntry : m₁.radixlog.entryAt slot with
        | none => exact ⟨m₁, rfl⟩
        | some e =>
          dsimp only
          split
          · rw [storeRedo, hEntries slot e (hChecked.entry_before hEntry)]
            exact ⟨_, rfl⟩
          · exact ⟨m₁, rfl⟩
      obtain ⟨m₂, hOk⟩ := hSlot
      exact ⟨m₂, hOk, hChecked.trans (checkpointSlot_checkpointed hOk)⟩
    · intro m₁ offset table hChecked hFind
      exact (hChecked.sound h.backed.sound).sized (hChecked.skipSized hSkip) hFind
    · exact Checkpointed.refl m.epoch m
  obtain ⟨m', hOk, hChecked⟩ := hLoop
  refine ⟨m', hOk, fun i => ?_⟩
  rcases hChecked.bytes i with hSame | ⟨slot, e, _, hEntry, _, hRedo, _⟩
  · exact hSame
  · rw [hEntries slot e hEntry] at hRedo
    cases hRedo

theorem Closable.keepsData_iff_of_undo (h : m.Closable) (hUndo : m.policy = .undo)
    (hSize : m.fsize ≤ m.mapLen) (fdWritable : Bool) :
    m.KeepsData fdWritable ↔ m.radixlog.SkipSized ∧ m.Flushed := by
  rw [keepsData_iff_seen h.backed hSize]
  constructor
  · rintro ⟨m', hOk, _⟩
    refine ⟨skipSized_of_checkpointMmio h.backed.unlocked h.backed.mapped hOk, ?_⟩
    intro i e _ hOf hRedo
    obtain ⟨table, s, _, _, hAt⟩ := entryOf_eq_some hOf
    rw [h.undo hUndo _ e hAt] at hRedo
    cases hRedo
  · rintro ⟨hSkip, _⟩
    obtain ⟨m', hOk, hBytes⟩ := h.checkpoint_of_undo hUndo hSkip
    exact ⟨m', hOk, fun i _ => (hBytes i).trans (seen_of_undo hUndo i).symm⟩

theorem Closable.keepsData_iff_of_redo (h : m.Closable) (hRedo : m.policy = .redo)
    (hSize : m.fsize ≤ m.mapLen) (fdWritable : Bool) :
    m.KeepsData fdWritable ↔ m.radixlog.SkipSized ∧ m.Flushed := by
  obtain ⟨hSettled, hSpan⟩ := h.redo hRedo
  -- the byte that the checkpoint leaves and the byte that is seen, by the entry over it
  have hEntry : ∀ i e, i < m.fsize → m.radixlog.entryOf i = some e →
      e.extent.Covers (i % e.logSize.size) → e.policy = .redo ∧
        m.seen i = e.log (i % e.logSize.size) ∧
        m.drained i = if e.epoch < m.epoch then e.log (i % e.logSize.size) else m.disk.bytes i := by
    intro i e hi hOf hCovers
    have hPolicy := (hSettled.tidy.lodged i e (by omega) hOf hCovers.len_pos).policy_eq.trans hRedo
    refine ⟨hPolicy, (through_some hOf).trans (if_pos ⟨hRedo, hCovers⟩), ?_⟩
    rw [drained, through_some hOf]
    simp only [hPolicy, hCovers, true_and, and_true]
  rw [keepsData_iff_seen h.backed hSize]
  constructor
  · rintro ⟨m', hOk, hBytes⟩
    have hDone := checkpointMmio_eq_ok hSettled.tidy hSettled.homeForRedo hOk
    refine ⟨skipSized_of_checkpointMmio h.backed.unlocked h.backed.mapped hOk, ?_⟩
    intro i e hi hOf _ hOpen hCovers
    obtain ⟨_, hSeen, hDrained⟩ := hEntry i e hi hOf hCovers
    rw [if_neg hOpen] at hDrained
    rw [← hSeen, ← hBytes i hi, hDone.bytes i (by omega), hDrained]
  · rintro ⟨hSkip, hFlushed⟩
    obtain ⟨m', hOk, hDone⟩ := checkpointMmio_spec hSettled.tidy hSettled.homeForRedo hSkip
    refine ⟨m', hOk, fun i hi => ?_⟩
    rw [hDone.bytes i (by omega)]
    cases hOf : m.radixlog.entryOf i with
    | none => exact (through_none hOf).trans (through_none hOf).symm
    | some e =>
      by_cases hCovers : e.extent.Covers (i % e.logSize.size)
      · obtain ⟨hPolicy, hSeen, hDrained⟩ := hEntry i e hi hOf hCovers
        rw [hSeen, hDrained]
        split
        · rfl
        · rename_i hOpen
          exact (hFlushed i e hi hOf hPolicy hOpen hCovers).symm
      · exact ((through_some hOf).trans (if_neg fun h => hCovers h.2)).trans
          ((through_some hOf).trans (if_neg fun h => hCovers h.2)).symm

theorem Closable.keepsData_iff (h : m.Closable) (hSize : m.fsize ≤ m.mapLen) (fdWritable : Bool) :
    m.KeepsData fdWritable ↔ m.radixlog.SkipSized ∧ m.Flushed := by
  cases hPolicy : m.policy with
  | undo => exact h.keepsData_iff_of_undo hPolicy hSize fdWritable
  | redo => exact h.keepsData_iff_of_redo hPolicy hSize fdWritable

end Close

section Runs

variable {m m' : Mmio} {request : Request}

def HomeRequest (m : Mmio) (request : Request) : Prop := m.policy = .redo → SafeRequest True m request

theorem perform_undo (hSound : m.radixlog.Sound) (hStep : Steps perform m request m')
    (hUndo : m.policy = .undo)
    (hEntries : ∀ slot e, m.radixlog.entryAt slot = some e → e.policy = .undo) :
    ∀ slot e, m'.radixlog.entryAt slot = some e → e.policy = .undo := by
  have hLocked : ∀ m₀ m₁ head, LockRun m₀ [] m₁ head → m₀.radixlog = m.radixlog →
      ∀ slot e, m₁.radixlog.entryAt slot = some e → e.policy = .undo := by
    intro m₀ m₁ head hRun hSame slot e hEntry
    rcases hRun.acquires.entries slot with hOld | ⟨_, e', hNew, hFresh⟩
    · rw [hSame] at hOld
      exact hEntries slot e (hOld.symm.trans hEntry)
    · rw [hNew] at hEntry
      cases hEntry
      exact hFresh.policy
  obtain ⟨reply, hOk⟩ := hStep
  rcases perform_cases hSound hOk with
    ⟨_, remap, offset, _, len, n, m₁, m₂, _, _, hWritten⟩ | ⟨_, _, _, _, _, m₁, head, _, _, hRun, rfl⟩ |
    ⟨_, _, rfl⟩ | ⟨_, _, _, hCheckpoint⟩
  · have hPolicy : m₁.policy = .undo := by
      obtain ⟨r, k, hFrame⟩ := hWritten.locked.frame
      rw [hFrame]
      exact hUndo
    obtain ⟨bytes, rfl⟩ := hWritten.finished
    intro slot e hEntry
    rcases hWritten.entries.policy slot e hEntry with ⟨e₁, hOld, hSame⟩ | hNew
    · rw [hSame]
      exact hLocked _ m₁ _ hWritten.locked rfl slot e₁ hOld
    · exact hNew.trans hPolicy
  · exact hLocked m m₁ head hRun rfl
  · exact hEntries
  · intro slot e hEntry
    exact hEntries slot e (hCheckpoint.entry_before hEntry)

theorem perform_policy (hSound : m.radixlog.Sound) (hStep : Steps perform m request m') :
    m'.policy = m.policy := by
  obtain ⟨reply, hOk⟩ := hStep
  rcases perform_cases hSound hOk with
    ⟨_, remap, offset, _, len, n, m₁, m₂, _, _, hWritten⟩ | ⟨_, _, _, _, _, m₁, head, _, _, hRun, rfl⟩ |
    ⟨_, _, rfl⟩ | ⟨_, _, _, hCheckpoint⟩
  · obtain ⟨r, k, hFrame⟩ := hWritten.locked.frame
    obtain ⟨r', bytes, hFrame'⟩ := hWritten.entries.frame
    obtain ⟨bytes', rfl⟩ := hWritten.finished
    rw [hFrame', hFrame]
    rfl
  · obtain ⟨r, k, hFrame⟩ := hRun.frame
    rw [hFrame]
  · rfl
  · obtain ⟨r, bytes, rfl⟩ := hCheckpoint.frame
    rfl

theorem Settled.fsize_le_span (h : m.Settled True) (hSafe : SafeRequest True m request)
    (hStep : Steps perform m request m') (hSpan : m.fsize ≤ m.radixlog.skipType.span) :
    m'.fsize ≤ m'.radixlog.skipType.span := by
  obtain ⟨reply, hOk⟩ := hStep
  have hType : m'.radixlog.skipType = m.radixlog.skipType :=
    (perform_extends h.tidy.sound hOk).2.skipType h.tidy.sound.wellFormed.shape
  rw [hType]
  rcases perform_cases h.tidy.sound hOk with
    ⟨fdWritable, remap, off, buf, len, n, m₁, m₂, rfl, _, _⟩ |
    ⟨_, _, _, _, _, m₁, head, _, _, hRun, rfl⟩ | ⟨_, _, rfl⟩ | ⟨_, _, _, hCheckpoint⟩
  · obtain ⟨⟨m₃, n₃⟩, hWrite, hDone⟩ := bind_eq_ok hOk
    cases hDone
    obtain ⟨hBlock, hSteady⟩ := hSafe
    have hIn := hBlock.in_span
    rcases mmioWrite_inBlock h hBlock hSteady hWrite with
      ⟨rfl, rfl⟩ | ⟨_, _, m₁, slot, s, bytes, e₁, e, hStages⟩
    · dsimp only
      omega
    · rw [(hStages.writeFrame h.tidy).fsize]
      omega
  · obtain ⟨r, k, hFrame⟩ := hRun.frame
    rw [hFrame]
    exact hSpan
  · exact hSpan
  · obtain ⟨r, bytes, rfl⟩ := hCheckpoint.frame
    exact hSpan

theorem Closable.step (h : m.Closable) (hStep : Guarded HomeRequest (Steps perform) m request m') :
    m'.Closable := by
  obtain ⟨hHome, hStep⟩ := hStep
  have hPolicy := perform_policy h.backed.sound hStep
  refine ⟨h.backed.step hStep, fun hUndo => ?_, fun hRedo => ?_⟩
  · rw [hPolicy] at hUndo
    exact perform_undo h.backed.sound hStep hUndo (h.undo hUndo)
  · rw [hPolicy] at hRedo
    obtain ⟨hSettled, hSpan⟩ := h.redo hRedo
    exact ⟨hSettled.step ⟨hHome hRedo, hStep⟩, hSettled.fsize_le_span (hHome hRedo) hStep hSpan⟩

theorem Opened.closable (h : m.Opened) (hSmall : m.mapLen ≤ 2 ^ 48) : m.Closable where
  backed := h.backed
  undo _ slot e hEntry := by
    rw [h.no_entry] at hEntry
    cases hEntry
  redo _ := by
    have hMapped := h.tidy.mapped
    have hBelow : m.mapLen - 1 < 2 ^ 48 := by omega
    have hSpan := lt_span_getDeepestTableType hBelow
    have hFsize := h.fsize_le
    refine ⟨h.settled fun _ => trivial, ?_⟩
    rw [h.skipType]
    omega

/-- After any run under UNDO, and after any run under REDO that keeps the logs
at home, the last close keeps the data exactly when nothing uncommitted is left
and the checkpoint can read the log size of every table. -/
theorem keepsData_iff_flushed {m₀ m : Mmio} {requests : List Request} (hOpen : m₀.Opened)
    (hSmall : m₀.mapLen ≤ 2 ^ 48) (hRun : Run (Guarded HomeRequest (Steps perform)) m₀ requests m)
    (hSize : m.fsize ≤ m.mapLen) (fdWritable : Bool) :
    m.KeepsData fdWritable ↔ m.radixlog.SkipSized ∧ m.Flushed := by
  have hClosable : m.Closable :=
    hRun.invariant Closable (fun _ _ _ h hStep => h.step hStep) (hOpen.closable hSmall)
  exact hClosable.keepsData_iff hSize fdWritable

theorem keepsData_oneByteFile : ∃ m, Run (Guarded HomeRequest (Steps perform)) oneByteFile
    [.write true (fun _ => 2 ^ 21) 0 (fun _ => 1) 1] m ∧
      (m.KeepsData true ↔ m.radixlog.SkipSized ∧ m.Flushed) := by
  have hOpen := oneByteFile_opened
  have hBlock : oneByteFile.InBlock 0 1 := inBlock_of_le_page oneByteFile (by decide)
  obtain ⟨m₁, slot, s, bytes, e₁, e, m, hOk, hStages⟩ := mmioWrite_stages (fun _ => 2 ^ 21)
    (fun _ => 1) hOpen.tidy (fun _ => hOpen.atHome) hBlock (fun _ => .inl rfl) Nat.zero_lt_one
  have hFrame := hStages.writeFrame hOpen.tidy
  have hRun : Run (Guarded HomeRequest (Steps perform)) oneByteFile
      [.write true (fun _ => 2 ^ 21) 0 (fun _ => 1) 1] m :=
    .cons ⟨fun hRedo => absurd hRedo (by decide), _, by rw [perform, hOk, ok_bind]⟩ (.nil m)
  have hSize : m.fsize ≤ m.mapLen := by
    rw [hFrame.fsize, hFrame.mapLen, grownLen, if_neg (by decide)]
    decide
  exact ⟨m, hRun, keepsData_iff_flushed hOpen (by decide) hRun hSize true⟩

def redoByteFile : Mmio := firstOpen .redo (2 ^ 21) ⟨1, fun _ => 0⟩

theorem redoByteFile_opened : redoByteFile.Opened := firstOpen_opened Nat.zero_lt_one

/-- A byte written and not committed is lost at the last close. -/
theorem keepsData_fails_uncommitted : ∃ m, Requests redoByteFile
    [.write true (fun _ => 2 ^ 21) 0 (fun _ => 1) 1] m ∧ ¬ m.KeepsData true := by
  have hOpen := redoByteFile_opened
  have hBlock : redoByteFile.InBlock 0 1 := inBlock_of_le_page redoByteFile (by decide)
  have hSafe : SafeRequest True redoByteFile (.write true (fun _ => 2 ^ 21) 0 (fun _ => 1) 1) :=
    ⟨hBlock, fun _ => ⟨Nat.mod_eq_zero_of_dvd (LogSize.size_dvd _), .inl rfl⟩⟩
  obtain ⟨m₁, slot, s, bytes, e₁, e, m, hOk, hStages⟩ := mmioWrite_stages (fun _ => 2 ^ 21)
    (fun _ => 1) hOpen.tidy (fun _ => hOpen.atHome) hBlock (fun _ => .inl rfl) Nat.zero_lt_one
  have hStep : Steps perform redoByteFile (.write true (fun _ => 2 ^ 21) 0 (fun _ => 1) 1) m :=
    ⟨.wrote 1, by rw [perform, hOk, ok_bind]⟩
  refine ⟨m, .cons hStep (.nil m), fun hKeeps => ?_⟩
  have hFrame := hStages.writeFrame hOpen.tidy
  have hClosable : m.Closable := (hOpen.closable (by decide)).step ⟨fun _ => hSafe, hStep⟩
  have hSize : m.fsize ≤ m.mapLen := by
    rw [hFrame.fsize, hFrame.mapLen, grownLen, if_neg (by decide)]
    decide
  obtain ⟨_, hFlushed⟩ := (hClosable.keepsData_iff hSize true).mp hKeeps
  obtain ⟨_, hExtent⟩ := hOpen.first_entry hStages Nat.zero_lt_one
  have hSpan : 0 < m₁.radixlog.skipType.span := TableType.span_pos _
  have hOf : m.radixlog.entryOf 0 = some e := by
    rw [hStages.entryOf hSpan, if_pos rfl]
  have hPolicy₁ : m₁.policy = .redo := by
    obtain ⟨r, k, hEq⟩ := hStages.frame
    rw [hEq]
    rfl
  have hPiece : (⟨0 % e₁.logSize.size, 1⟩ : Extent).Covers (0 % e₁.logSize.size) :=
    ⟨Nat.le_refl _, Nat.lt_succ_self _⟩
  have hLog := hStages.stored.absorbs.piece _ hPiece
  rw [pieceData, hPolicy₁, ← hStages.stored.logSize] at hLog
  have hZero : m.disk.bytes 0 = 0 := by
    rw [hStages.result, hPolicy₁]
    exact hOpen.first_bytes hStages Nat.zero_lt_one (TableType.span_pos _) rfl
  have hCovers : e.extent.Covers (0 % e.logSize.size) := by
    rw [hExtent, hStages.logSize]
    exact ⟨Nat.le_refl _, Nat.lt_succ_self _⟩
  have hByte := hFlushed 0 e (by rw [hFrame.fsize]; decide) hOf (hStages.policy.trans hPolicy₁)
    (by rw [hFrame.epoch]; exact Nat.not_lt_zero _) hCovers
  rw [hZero, hLog] at hByte
  have hOne : (1 : UInt8) = 0 := hByte
  exact absurd hOne (by decide)

end Runs

end Mmio

end Libnvmmio

import Libnvmmio.Foundation.GuardedRun
import Libnvmmio.Mmio.CheckpointSpec
import Libnvmmio.Mmio.ReadSpec
import Libnvmmio.Radixlog.Init

/-! # Requests on an open object

The calls one thread makes on an object that `get_new_mmio` returned, each as
one step. Whatever the requests, the directories only grow: the type of `skip`
is the one that the length at open selected.
-/

namespace Libnvmmio

open RangeCopy RadixLog Outcome GuardedRun

set_option autoImplicit false

/-- The calls on an object. `fdWritable` is the mode of the descriptor that a
write comes through, `remap` what `mremap` answers during it. -/
inductive Request where
  | write (fdWritable : Bool) (remap : Nat → Nat) (offset : Nat) (buf : Nat → UInt8) (len : Nat)
  | read (offset : Nat) (buf : Nat → UInt8) (len : Nat)
  | commit
  | checkpoint

inductive Reply where
  | wrote (n : Nat)
  | delivered (n : Nat) (buf : Nat → UInt8)
  | done

namespace Mmio

def perform (m : Mmio) : Request → Except Failure (Mmio × Reply)
  | .write fdWritable remap offset buf len => do
    let (m, n) ← mmioWrite fdWritable remap m offset buf len
    .ok (m, .wrote n)
  | .read offset buf len => do
    let (m, n, buf) ← m.mmioRead offset buf len
    .ok (m, .delivered n buf)
  | .commit => do
    let m ← m.commitMmio
    .ok (m, .done)
  | .checkpoint => do
    let m ← m.checkpointMmio
    .ok (m, .done)

def Opened (m : Mmio) : Prop :=
  ∃ policy epoch logPool addr fdWritable disk,
    getNewMmio policy epoch logPool addr fdWritable disk = .ok m

def firstOpen (policy : Policy) (addr : Nat) (disk : Disk) : Mmio :=
  ⟨addr, disk.length, 0, policy, initRadixlog disk.length, 0, 0, disk.length, false, disk,
    fun _ _ => 0, 0⟩

theorem firstOpen_opened {policy : Policy} {addr : Nat} {disk : Disk} (h : 0 < disk.length) :
    (firstOpen policy addr disk).Opened := by
  refine ⟨policy, 0, fun _ _ => 0, addr, true, disk, ?_⟩
  rw [getNewMmio]
  dsimp only
  rw [if_neg (by omega)]
  rfl

def oneByteFile : Mmio := firstOpen .undo (2 ^ 21) ⟨1, fun _ => 0⟩

theorem oneByteFile_opened : oneByteFile.Opened := firstOpen_opened Nat.zero_lt_one

theorem inBlock_of_le_page (m : Mmio) {off len : Nat} (h : off + len ≤ 2 ^ pageShift) :
    m.InBlock off len where
  one_block := by
    have hPage := (m.radixlog.locate off len).2.1.page_le_size
    have hMod := Nat.mod_le off (m.radixlog.locate off len).2.1.size
    exact .inr (by omega)
  in_span := by
    have hSpan := m.radixlog.skipType.region_le_span
    rw [pageShift] at h
    rw [lmdShift] at hSpan
    omega

theorem inBlock_one {m : Mmio} {off : Nat} (h : off + 1 ≤ m.radixlog.skipType.span) : m.InBlock off 1 where
  one_block := .inr (Nat.mod_lt off (m.radixlog.locate off 1).2.1.size_pos)
  in_span := h

theorem getNewMmio_eq_ok {policy : Policy} {epoch : Nat} {logPool : Nat → Nat → UInt8} {addr : Nat}
    {fdWritable : Bool} {disk : Disk} {m : Mmio}
    (h : getNewMmio policy epoch logPool addr fdWritable disk = .ok m) :
    ∃ len, 0 < len ∧ disk.length ≤ len ∧ (0 < disk.length → len = disk.length) ∧
      m = ⟨addr, len, epoch, policy, initRadixlog len, 0, 0, disk.length, false,
        ⟨len, disk.bytes⟩, logPool, 0⟩ := by
  unfold getNewMmio at h
  dsimp only at h
  split at h
  · rename_i hEmpty
    split at h
    · have hDefault : 0 < defaultMmapSize := by decide
      exact ⟨defaultMmapSize, hDefault, by omega, fun hPos => by omega, (Except.ok.inj h).symm⟩
    · cases h
  · rename_i hLen
    exact ⟨disk.length, by omega, Nat.le_refl _, fun _ => rfl, (Except.ok.inj h).symm⟩

theorem Opened.radixlog {m : Mmio} (h : m.Opened) : m.radixlog = initRadixlog m.mapLen := by
  obtain ⟨_, _, _, _, _, _, hOpen⟩ := h
  obtain ⟨len, _, _, _, rfl⟩ := getNewMmio_eq_ok hOpen
  rfl

theorem Opened.no_entry {m : Mmio} (h : m.Opened) (slot : Slot) : m.radixlog.entryAt slot = none := by
  rw [h.radixlog]
  exact (initRadixlog_chain m.mapLen).entries slot

theorem Opened.sound {m : Mmio} (h : m.Opened) : m.radixlog.Sound where
  wellFormed := by
    rw [h.radixlog]
    exact initRadixlog_wellFormed m.mapLen
  allocated slot e hEntry := by
    rw [h.no_entry] at hEntry
    cases hEntry
  sizes slot e hEntry := by
    rw [h.no_entry] at hEntry
    cases hEntry

theorem Opened.entryOf {m : Mmio} (h : m.Opened) (a : Nat) : m.radixlog.entryOf a = none := by
  cases hEntry : m.radixlog.entryOf a with
  | none => rfl
  | some e =>
    obtain ⟨table, s, _, _, hAt⟩ := entryOf_eq_some hEntry
    rw [h.no_entry] at hAt
    cases hAt

theorem Opened.skipType {m : Mmio} (h : m.Opened) :
    m.radixlog.skipType = getDeepestTableType (m.mapLen - 1) := by
  rw [h.radixlog]
  exact (initRadixlog_chain m.mapLen).type

theorem Opened.tidy {m : Mmio} (h : m.Opened) : m.Tidy where
  sound := h.sound
  lodged a e _ hEntry := by
    rw [h.entryOf] at hEntry
    cases hEntry
  unlocked := by
    obtain ⟨_, _, _, _, _, _, hOpen⟩ := h
    obtain ⟨len, _, _, _, rfl⟩ := getNewMmio_eq_ok hOpen
    rfl
  mapped := by
    obtain ⟨_, _, _, _, _, _, hOpen⟩ := h
    obtain ⟨len, hPos, _, _, rfl⟩ := getNewMmio_eq_ok hOpen
    exact hPos

theorem Opened.atHome {m : Mmio} (h : m.Opened) : m.AtHome := by
  intro a e _ hEntry
  rw [h.entryOf] at hEntry
  cases hEntry

/-- The first write to a block leaves an entry for its own range. -/
theorem Opened.first_entry {m : Mmio} (h : m.Opened) {remap : Nat → Nat} {off len : Nat}
    {buf : Nat → UInt8} {m₁ m' : Mmio} {slot : Slot} {s : LogSize} {bytes : Nat → UInt8}
    {e₁ e : IdxEntry} (hStages : WriteStages m remap off buf len m₁ slot s bytes e₁ e m')
    (hPos : 0 < len) : e₁.len = 0 ∧ e.extent = ⟨off % s.size, len⟩ := by
  have hEmpty : e₁.len = 0 := by
    rcases Nat.eq_zero_or_pos e₁.len with hZero | hLen
    · exact hZero
    · have hBefore := hStages.locked.acquires.entryOf_of_len h.sound
        (hStages.prepared.live hLen).1 hLen
      have hNone := h.entryOf off
      change m.radixlog.entryOf off = some e₁ at hBefore
      rw [hNone] at hBefore
      cases hBefore
  refine ⟨hEmpty, ?_⟩
  rw [hStages.stored.absorbs.extent, hStages.prepared.size]
  apply Extent.hull_eq_right hPos
  intro hLen
  exact absurd hEmpty (Nat.ne_of_gt hLen)

theorem Opened.first_bytes {m : Mmio} (h : m.Opened) {remap : Nat → Nat} {off len : Nat}
    {buf : Nat → UInt8} {m₁ m' : Mmio} {slot : Slot} {s : LogSize} {bytes : Nat → UInt8}
    {e₁ e : IdxEntry} (hStages : WriteStages m remap off buf len m₁ slot s bytes e₁ e m')
    (hPos : 0 < len) {a : Nat} (ha : a < m.radixlog.skipType.span) (hBlock : a / s.size = off / s.size) :
    bytes a = m.disk.bytes a := by
  obtain ⟨hEmpty, _⟩ := h.first_entry hStages hPos
  rw [← hStages.skipType h.tidy] at ha
  have hOf := hStages.slot_of.entryOf_setEntry hStages.locked.acquires.sound.wellFormed ha (some e₁)
  rw [if_pos hBlock] at hOf
  have hKept := hStages.prepared.through a ha
  rw [through_empty hOf hEmpty] at hKept
  rw [hKept, hStages.locked.contents (h.tidy.grown remap (off + len)).sound, contents_grown]
  exact through_none (h.entryOf a)

theorem Opened.fsize_le {m : Mmio} (h : m.Opened) : m.fsize ≤ m.mapLen := by
  obtain ⟨_, _, _, _, _, _, hOpen⟩ := h
  obtain ⟨len, _, hLe, _, rfl⟩ := getNewMmio_eq_ok hOpen
  exact hLe

def heldSlots : Except Failure (Mmio × List Slot) → List Slot
  | .ok (_, head) => head
  | .error _ => []

/-- The slots that a write locks, in the order of its list. -/
def writtenSlots (m : Mmio) (remap : Nat → Nat) (offset len : Nat) : List Slot :=
  heldSlots (lockEntries .wr (m.grown remap (offset + len)) (toInt len) offset [])

structure Written (m : Mmio) (remap : Nat → Nat) (offset len n : Nat) (m₁ m₂ m' : Mmio) : Prop where
  locked : LockRun (m.grown remap (offset + len)) [] m₁ (m.writtenSlots remap offset len)
  entries : EntriesWritten m₁ (m.writtenSlots remap offset len) m₂
  finished : ∃ bytes, m' = { m₂ with
    write := m₂.write + 1, disk := { m₂.disk with bytes := bytes }
    fsize := max m₂.fsize (offset + n) }

theorem mmioWrite_phases {m m' : Mmio} {fdWritable : Bool} {remap : Nat → Nat} {offset len n : Nat}
    {buf : Nat → UInt8} (h : mmioWrite fdWritable remap m offset buf len = .ok (m', n)) :
    ∃ m₀ m₁ head m₂ c, ensureMapped fdWritable remap m offset len = .ok m₀ ∧
      lockEntries .wr m₀ (toInt len) offset [] = .ok (m₁, head) ∧
      m₁.writeEntries buf head ⟨(toInt len).toNat, offset, m₁.start + offset, 0, 0⟩ = .ok (m₂, c) ∧
      m₂.finishWrite offset buf len c.ret = .ok m' ∧ n = c.ret := by
  obtain ⟨m₀, hGrow, hRest⟩ := bind_eq_ok h
  obtain ⟨⟨m₁, head⟩, hLock, hRest⟩ := bind_eq_ok hRest
  obtain ⟨⟨m₂, c⟩, hWrite, hRest⟩ := bind_eq_ok hRest
  obtain ⟨m₃, hFinish, hDone⟩ := bind_eq_ok hRest
  cases hDone
  exact ⟨m₀, m₁, head, m₂, c, hGrow, hLock, hWrite, hFinish, rfl⟩

theorem mmioWrite_eq_ok {m m' : Mmio} {fdWritable : Bool} {remap : Nat → Nat} {offset len n : Nat}
    {buf : Nat → UInt8} (hSound : m.radixlog.Sound)
    (h : mmioWrite fdWritable remap m offset buf len = .ok (m', n)) :
    ∃ m₁ m₂, Written m remap offset len n m₁ m₂ m' := by
  obtain ⟨m₀, m₁, head, m₂, c, hGrow, hLock, hWrite, hFinish, rfl⟩ := mmioWrite_phases h
  rw [ensureMapped_eq_ok hGrow] at hLock
  have hSlots : m.writtenSlots remap offset len = head := congrArg heldSlots hLock
  have hLocked := lockEntries_run (m := m.grown remap (offset + len)) hSound hLock
  have hEntries := writeEntries_written hLocked.acquires.sound hWrite
  rw [← hSlots] at hLocked hEntries
  exact ⟨m₁, m₂, hLocked, hEntries, finishWrite_eq_ok hFinish⟩

theorem mmioRead_phases {m m' : Mmio} {offset len n : Nat} {buf buf' : Nat → UInt8}
    (h : m.mmioRead offset buf len = .ok (m', n, buf')) :
    ∃ m₁ head, lockEntries .rd m (toInt len) offset [] = .ok (m₁, head) ∧
      m' = { m₁ with read := m₁.read + 1 } := by
  obtain ⟨⟨m₁, head⟩, hLock, hRest⟩ := bind_eq_ok h
  obtain ⟨data, _, hDone⟩ := bind_eq_ok hRest
  have hState := congrArg Prod.fst (Except.ok.inj hDone)
  exact ⟨m₁, head, hLock, hState.symm⟩

theorem mmioRead_eq_ok {m m' : Mmio} {offset len n : Nat} {buf buf' : Nat → UInt8}
    (hSound : m.radixlog.Sound) (h : m.mmioRead offset buf len = .ok (m', n, buf')) :
    ∃ m₁ head, LockRun m [] m₁ head ∧ m' = { m₁ with read := m₁.read + 1 } := by
  obtain ⟨m₁, head, hLock, hEq⟩ := mmioRead_phases h
  exact ⟨m₁, head, lockEntries_run hSound hLock, hEq⟩

theorem perform_cases {m m' : Mmio} {request : Request} {reply : Reply} (hSound : m.radixlog.Sound)
    (h : m.perform request = .ok (m', reply)) :
    (∃ fdWritable remap offset buf len n m₁ m₂, request = .write fdWritable remap offset buf len ∧
      reply = .wrote n ∧ Written m remap offset len n m₁ m₂ m') ∨
    (∃ offset buf len n buf' m₁ head, request = .read offset buf len ∧ reply = .delivered n buf' ∧
      LockRun m [] m₁ head ∧ m' = { m₁ with read := m₁.read + 1 }) ∨
    (request = .commit ∧ reply = .done ∧ m' = { m with
      epoch := (m.epoch + 1) % 2 ^ 64, read := 0, write := 0, wrlocked := false }) ∨
    (request = .checkpoint ∧ reply = .done ∧ m.checkpointMmio = .ok m' ∧ Checkpointed m.epoch m m') := by
  cases request with
  | write fdWritable remap offset buf len =>
    obtain ⟨⟨m₃, n⟩, hWrite, hDone⟩ := bind_eq_ok h
    cases hDone
    obtain ⟨m₁, m₂, hWritten⟩ := mmioWrite_eq_ok hSound hWrite
    exact .inl ⟨fdWritable, remap, offset, buf, len, n, m₁, m₂, rfl, rfl, hWritten⟩
  | read offset buf len =>
    obtain ⟨⟨m₃, n, buf'⟩, hRead, hDone⟩ := bind_eq_ok h
    cases hDone
    obtain ⟨m₁, head, hLocked, hEq⟩ := mmioRead_eq_ok hSound hRead
    exact .inr (.inl ⟨offset, buf, len, n, buf', m₁, head, rfl, rfl, hLocked, hEq⟩)
  | commit =>
    obtain ⟨m₃, hCommit, hDone⟩ := bind_eq_ok h
    cases hDone
    rw [commitMmio_spec] at hCommit
    exact .inr (.inr (.inl ⟨rfl, rfl, (Except.ok.inj hCommit).symm⟩))
  | checkpoint =>
    obtain ⟨m₃, hCheckpoint, hDone⟩ := bind_eq_ok h
    cases hDone
    exact .inr (.inr (.inr ⟨rfl, rfl, hCheckpoint, checkpointFrom_checkpointed hCheckpoint⟩))

theorem Checkpointed.extended {currentEpoch : Nat} {m m' : Mmio} (h : Checkpointed currentEpoch m m') :
    Extended m.radixlog m'.radixlog where
  lgd := h.same.lgd
  skip := h.same.skip
  next_le := Nat.le_of_eq h.same.next.symm
  extends_links := by
    rw [h.same.links]
    exact IndexTrie.Extends.refl _ _
  type_kept t _ := congrFun h.same.typeOf t
  size_kept t s _ hs := (h.sizes t).trans hs

/-- Every request that returns keeps the tables sound and only extends the directories. -/
theorem perform_extends {m m' : Mmio} {request : Request} {reply : Reply} (hSound : m.radixlog.Sound)
    (h : m.perform request = .ok (m', reply)) :
    m'.radixlog.Sound ∧ Extended m.radixlog m'.radixlog := by
  rcases perform_cases hSound h with
    ⟨_, remap, offset, _, len, n, m₁, m₂, _, _, hWritten⟩ | ⟨_, _, _, _, _, m₁, head, _, _, hLocked, rfl⟩ |
    ⟨_, _, rfl⟩ | ⟨_, _, _, hCheckpoint⟩
  · obtain ⟨bytes, rfl⟩ := hWritten.finished
    exact ⟨hWritten.entries.sound, hWritten.locked.acquires.extended.trans hWritten.entries.extended⟩
  · exact ⟨hLocked.acquires.sound, hLocked.acquires.extended⟩
  · exact ⟨hSound, Extended.refl _⟩
  · exact ⟨hCheckpoint.sound hSound, hCheckpoint.extended⟩

/-- What every request keeps, whatever its range: sound tables, a file as long as
its mapping, and a free lock between the requests. -/
structure Backed (m : Mmio) : Prop where
  sound : m.radixlog.Sound
  length : m.disk.length = m.mapLen
  mapped : 0 < m.mapLen
  unlocked : m.wrlocked = false

theorem Opened.backed {m : Mmio} (h : m.Opened) : m.Backed where
  sound := h.sound
  length := by
    obtain ⟨_, _, _, _, _, _, hOpen⟩ := h
    obtain ⟨len, _, _, _, rfl⟩ := getNewMmio_eq_ok hOpen
    rfl
  mapped := h.tidy.mapped
  unlocked := h.tidy.unlocked

theorem Backed.step {m m' : Mmio} {request : Request} (h : m.Backed) (hStep : Steps perform m request m') :
    m'.Backed := by
  obtain ⟨reply, hOk⟩ := hStep
  have hSound := (perform_extends h.sound hOk).1
  rcases perform_cases h.sound hOk with
    ⟨_, remap, offset, _, len, n, m₁, m₂, _, _, hWritten⟩ | ⟨_, _, _, _, _, m₁, head, _, _, hLocked, rfl⟩ |
    ⟨_, _, rfl⟩ | ⟨_, _, _, hCheckpoint⟩
  · have hGrown := le_grownLen m.mapLen (offset + len)
    have hLength : (m.grown remap (offset + len)).disk.length = (m.grown remap (offset + len)).mapLen :=
      grown_length remap h.length
    obtain ⟨r, k, hFrame⟩ := hWritten.locked.frame
    obtain ⟨r', bytes, hFrame'⟩ := hWritten.entries.frame
    obtain ⟨bytes', rfl⟩ := hWritten.finished
    rw [hFrame', hFrame] at hSound ⊢
    exact ⟨hSound, hLength, Nat.lt_of_lt_of_le h.mapped hGrown.1, h.unlocked⟩
  · obtain ⟨r, k, hFrame⟩ := hLocked.frame
    rw [hFrame] at hSound ⊢
    exact ⟨hSound, h.length, h.mapped, h.unlocked⟩
  · exact ⟨hSound, h.length, h.mapped, rfl⟩
  · obtain ⟨r, bytes, rfl⟩ := hCheckpoint.frame
    exact ⟨hSound, h.length, h.mapped, h.unlocked⟩

abbrev Requests : Mmio → List Request → Mmio → Prop := Run (Steps perform)

theorem Requests.extends {m m' : Mmio} {requests : List Request} (h : Requests m requests m')
    (hSound : m.radixlog.Sound) : m'.radixlog.Sound ∧ Extended m.radixlog m'.radixlog := by
  apply h.invariant (fun t => t.radixlog.Sound ∧ Extended m.radixlog t.radixlog)
  · rintro s request t ⟨hSound, hExt⟩ ⟨reply, hStep⟩
    obtain ⟨hSound', hExt'⟩ := perform_extends hSound hStep
    exact ⟨hSound', hExt.trans hExt'⟩
  · exact ⟨hSound, Extended.refl _⟩

end Mmio

end Libnvmmio

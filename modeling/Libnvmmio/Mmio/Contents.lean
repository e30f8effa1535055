import Libnvmmio.Mmio.Growth
import Libnvmmio.Mmio.Locking
import Libnvmmio.Radixlog.Through

/-! # The contents of a mapped file

What a read should deliver and what a checkpoint should leave, and the
invariants under which the two agree with what the code does: every entry with
data lies in its block and in the file, and its `dst` is the address of the
block. Growth of the mapping and the locks of a request change none of this.
-/

namespace Libnvmmio

open RangeCopy RadixLog

set_option autoImplicit false

/-- The data of an entry reached from `a` lie in its block and in the mapping. -/
structure IdxEntry.Lodged (policy : Policy) (mapLen a : Nat) (e : IdxEntry) : Prop where
  fits : e.offset + e.len ≤ e.logSize.size
  mapped : e.logSize.blockStart a + (e.offset + e.len) ≤ mapLen
  policy_eq : e.policy = policy

namespace RadixLog

theorem Acquires.eachEntry {epoch : Nat} {r r' : RadixLog} {P : Nat → IdxEntry → Prop}
    (h : Acquires epoch r r') (hr : r.Sound) (hP : r.EachEntry P)
    (hFresh : ∀ a e, e.Fresh epoch → P a e) : r'.EachEntry P := by
  intro a e ha hEntry
  rw [h.skipType hr] at ha
  rcases h.entryOf hr a with hSame | ⟨_, e', hSome, hNew⟩
  · exact hP a e ha (hSame ▸ hEntry)
  · rw [hSome] at hEntry
    cases hEntry
    exact hFresh a e hNew

theorem Acquires.through {epoch : Nat} {r r' : RadixLog} (h : Acquires epoch r r') (hr : r.Sound)
    (Q : IdxEntry → Prop) [DecidablePred Q] (bytes : Nat → UInt8) (a : Nat) :
    r'.through Q bytes a = r.through Q bytes a := by
  rcases h.entryOf hr a with hSame | ⟨hNone, e, hSome, hNew⟩
  · exact through_congr bytes hSame
  · rw [through_empty hSome hNew.len, through_none hNone]

end RadixLog

namespace Mmio

/-- The byte at an offset as the last writes left it. -/
def contents (m : Mmio) (a : Nat) : UInt8 :=
  m.radixlog.through (fun e => e.policy = .redo) m.disk.bytes a

/-- The byte at an offset once the committed redo logs are copied to the file. -/
def drained (m : Mmio) (a : Nat) : UInt8 :=
  m.radixlog.through (fun e => e.policy = .redo ∧ e.epoch < m.epoch) m.disk.bytes a

structure Tidy (m : Mmio) : Prop where
  sound : m.radixlog.Sound
  lodged : m.radixlog.EachEntry fun a e => 0 < e.len → e.Lodged m.policy m.mapLen a
  unlocked : m.wrlocked = false
  mapped : 0 < m.mapLen

/-- A byte that the log of a slot covers is at an offset of the block of the slot. -/
theorem Tidy.entryOf_covered {m : Mmio} (h : m.Tidy) {slot : Slot} {s : LogSize} {b i : Nat} {e : IdxEntry}
    (hSlot : m.radixlog.SlotOf slot s b) (hEntry : m.radixlog.entryAt slot = some e)
    (hCovers : e.extent.Covers i) :
    e.logSize = s ∧ s.blockStart b + i < m.radixlog.skipType.span ∧
      m.radixlog.entryOf (s.blockStart b + i) = some e ∧ (s.blockStart b + i) % s.size = i := by
  have hOf : m.radixlog.entryOf b = some e := hSlot.entryOf.trans hEntry
  have hs : e.logSize = s := h.sound.entryOf_size hOf hSlot.find hSlot.size
  have hFits := (h.lodged b e hSlot.in_span hOf hCovers.len_pos).fits
  have hHigh := hCovers.2
  rw [hs] at hFits
  dsimp only [IdxEntry.extent] at hHigh
  obtain ⟨hBlock, hPos⟩ := s.block_add b (i := i) (by omega)
  exact ⟨hs, LogSize.lt_span_of_block_eq hBlock hSlot.in_span,
    h.sound.entryOf_congr_block hOf (by rw [hs]; exact hBlock.symm), hPos⟩

/-- `entry->dst` is the address at which the block of the entry is mapped. -/
def AtHome (m : Mmio) : Prop :=
  m.radixlog.EachEntry fun a e => 0 < e.len → e.dst = m.start + e.logSize.blockStart a

def HomeForRedo (m : Mmio) : Prop := m.policy = .redo → m.AtHome

/-- No entry holds data that an earlier base address could have placed. -/
def NoData (m : Mmio) : Prop := ∀ slot e, m.radixlog.entryAt slot = some e → e.len = 0

theorem contents_of_undo {m : Mmio} (h : m.Tidy) (hPolicy : m.policy = .undo) {a : Nat}
    (ha : a < m.radixlog.skipType.span) : m.contents a = m.disk.bytes a := by
  cases hEntry : m.radixlog.entryOf a with
  | none => exact through_none hEntry
  | some e =>
    rcases Nat.eq_zero_or_pos e.len with hLen | hLen
    · exact through_empty hEntry hLen
    · have hUndo := (h.lodged a e ha hEntry hLen).policy_eq
      rw [contents, through_some hEntry, if_neg]
      rintro ⟨hRedo, _⟩
      rw [hUndo, hPolicy] at hRedo
      cases hRedo

section Growth

variable {m : Mmio} (remap : Nat → Nat) (target : Nat)

theorem Tidy.grown (h : m.Tidy) : (m.grown remap target).Tidy where
  sound := h.sound
  lodged a e ha hEntry hLen := by
    obtain ⟨hFits, hInFile, hPolicy⟩ := h.lodged a e ha hEntry hLen
    exact ⟨hFits, Nat.le_trans hInFile (le_grownLen m.mapLen target).1, hPolicy⟩
  unlocked := h.unlocked
  mapped := Nat.lt_of_lt_of_le h.mapped (le_grownLen m.mapLen target).1

theorem AtHome.grown (h : m.AtHome)
    (hMove : m.grownStart remap target = m.start ∨ m.NoData) : (m.grown remap target).AtHome := by
  intro a e ha hEntry hLen
  rcases hMove with hStay | hEmpty
  · change e.dst = m.grownStart remap target + e.logSize.blockStart a
    rw [hStay]
    exact h a e ha hEntry hLen
  · obtain ⟨table, s, _, _, hAt⟩ := entryOf_eq_some hEntry
    exact absurd (hEmpty _ e hAt) (by omega)

theorem contents_grown (a : Nat) : (m.grown remap target).contents a = m.contents a := by
  apply through_congr_bytes
  rw [grown_bytes]

end Growth

section Locked

theorem LockStep.slotOf {m m' : Mmio} {off : Nat} {slot : Slot} {s : LogSize}
    (h : m.LockStep off slot s m') (hr : m.radixlog.Sound) (hSpan : off < m.radixlog.skipType.span) :
    m'.radixlog.SlotOf slot s off where
  in_span := by
    rw [h.acquires.skipType hr]
    exact hSpan
  find := h.find
  size := h.size
  index := h.index

variable {m m' : Mmio} {head head' : List Slot}

theorem LockRun.tidy (h : LockRun m head m' head') (hTidy : m.Tidy) : m'.Tidy := by
  obtain ⟨⟨r, k, rfl⟩, hAcq, _⟩ := h
  refine ⟨hAcq.sound, ?_, hTidy.unlocked, hTidy.mapped⟩
  apply hAcq.eachEntry hTidy.sound hTidy.lodged
  intro a e hFresh hLen
  exact absurd hFresh.len (by omega)

theorem LockRun.atHome (h : LockRun m head m' head') (hSound : m.radixlog.Sound) (hHome : m.AtHome) :
    m'.AtHome := by
  obtain ⟨⟨r, k, rfl⟩, hAcq, _⟩ := h
  apply hAcq.eachEntry hSound hHome
  intro a e hFresh hLen
  exact absurd hFresh.len (by omega)

theorem LockRun.contents (h : LockRun m head m' head') (hSound : m.radixlog.Sound) (a : Nat) :
    m'.contents a = m.contents a := by
  obtain ⟨⟨r, k, rfl⟩, hAcq, _⟩ := h
  exact hAcq.through hSound _ _ a

end Locked

def HeldBefore (m : Mmio) (off : Nat) (head : List Slot) : Prop :=
  ∀ slot ∈ head, ∃ a s, m.radixlog.SlotOf slot s a ∧ s.blockStart a + s.size ≤ off

/-- Within the span a request never meets an entry twice, so its locking ends. -/
theorem lockEntries_succeeds (type : LockType) {m : Mmio} {n : Int} {off : Nat} {head : List Slot}
    (hSound : m.radixlog.Sound) (hSpan : off + n ≤ m.radixlog.skipType.span)
    (hHeld : m.HeldBefore off head) : ∃ m' head', lockEntries type m n off head = .ok (m', head') := by
  induction hn : n.toNat using Nat.strongRecOn generalizing m n off head with
  | ind k ih =>
    rw [lockEntries_eq]
    by_cases hPos : 0 < n
    · rw [if_pos hPos]
      have hStep := lockStep hSound off n.toNat
      generalize m.radixlog.locate off n.toNat = found at *
      obtain ⟨slot, s, r⟩ := found
      dsimp only at hStep ⊢
      generalize takeEntry { m with radixlog := r } slot s = mid at *
      have hAcq := hStep.acquires
      have hSlot : mid.radixlog.SlotOf slot s off := hStep.slotOf hSound (by omega)
      have hStart := (s.block_eq_iff off off).mp rfl
      have hHeldMid : ∀ slot' ∈ head, ∃ a s', mid.radixlog.SlotOf slot' s' a ∧
          s'.blockStart a + s'.size ≤ off := by
        intro slot' hMem
        obtain ⟨a, s', hSlot', hBefore⟩ := hHeld slot' hMem
        exact ⟨a, s', hSlot'.extended hSound.wellFormed.shape hAcq.extended, hBefore⟩
      have hNew : slot ∉ head := by
        intro hMem
        obtain ⟨a, s', hSlot', hBefore⟩ := hHeldMid slot hMem
        obtain ⟨rfl, hBlock⟩ := hSlot'.block_eq hSlot hAcq.sound.wellFormed
        rw [LogSize.blockStart_congr hBlock] at hBefore
        omega
      have hLen := Nat.mod_lt off s.size_pos
      have hSplit := s.blockStart_add_mod off
      rw [if_neg hNew]
      apply ih _ (by omega) hAcq.sound _ _ rfl
      · rw [hAcq.skipType hSound]
        omega
      · intro slot' hMem
        rcases List.mem_cons.mp hMem with rfl | hMem
        · exact ⟨off, s, hSlot, by omega⟩
        · obtain ⟨a, s', hSlot', hBefore⟩ := hHeldMid slot' hMem
          exact ⟨a, s', hSlot', by omega⟩
    · rw [if_neg hPos]
      exact ⟨m, head, rfl⟩

end Mmio

end Libnvmmio

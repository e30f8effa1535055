import Libnvmmio.Mmio.Entries
import Libnvmmio.Radixlog.Sound
import Libnvmmio.Foundation.Outcome

/-! # What locking the entries of a request changes

Only the radix log and the pool of log buffers: directories grow, unset log
sizes are fixed, and empty slots receive an empty entry of the current epoch.
-/

namespace Libnvmmio

open RangeCopy RadixLog Outcome

set_option autoImplicit false

structure IdxEntry.Fresh (epoch : Nat) (e : IdxEntry) : Prop where
  offset : e.offset = 0
  len : e.len = 0
  policy : e.policy = .undo
  epoch : e.epoch = epoch % 2 ^ 20

/-- What the locking part of a request of the given epoch does to the radix log. -/
structure RadixLog.Acquires (epoch : Nat) (r r' : RadixLog) : Prop where
  sound : r'.Sound
  extended : Extended r r'
  entries : ∀ slot, r'.entryAt slot = r.entryAt slot ∨
    r.entryAt slot = none ∧ ∃ e, r'.entryAt slot = some e ∧ e.Fresh epoch

namespace RadixLog

theorem Acquires.refl {r : RadixLog} (h : r.Sound) (epoch : Nat) : Acquires epoch r r :=
  ⟨h, Extended.refl r, fun _ => .inl rfl⟩

theorem Acquires.trans {epoch : Nat} {r r' r'' : RadixLog} (h : Acquires epoch r r')
    (h' : Acquires epoch r' r'') : Acquires epoch r r'' where
  sound := h'.sound
  extended := h.extended.trans h'.extended
  entries slot := by
    rcases h'.entries slot with hSame | ⟨hNone, hFresh⟩
    · rw [hSame]
      exact h.entries slot
    · rcases h.entries slot with hSame' | ⟨_, e, hSome, _⟩
      · exact .inr ⟨hSame'.symm.trans hNone, hFresh⟩
      · rw [hSome] at hNone
        cases hNone

theorem Acquires.entryOf {epoch : Nat} {r r' : RadixLog} (h : Acquires epoch r r') (hr : r.Sound)
    (offset : Nat) : r'.entryOf offset = r.entryOf offset ∨
      r.entryOf offset = none ∧ ∃ e, r'.entryOf offset = some e ∧ e.Fresh epoch :=
  hr.entryOf_extended h.extended _ h.entries offset

theorem Acquires.entryOf_of_len {epoch : Nat} {r r' : RadixLog} (h : Acquires epoch r r')
    (hr : r.Sound) {offset : Nat} {e : IdxEntry} (hEntry : r'.entryOf offset = some e)
    (hLen : 0 < e.len) : r.entryOf offset = some e := by
  rcases h.entryOf hr offset with hSame | ⟨_, e', hSome, hFresh⟩
  · rw [← hSame, hEntry]
  · rw [hSome] at hEntry
    cases hEntry
    exact absurd hFresh.len (by omega)

theorem Acquires.skipType {epoch : Nat} {r r' : RadixLog} (h : Acquires epoch r r') (hr : r.Sound) :
    r'.skipType = r.skipType := h.extended.skipType hr.wellFormed.shape

end RadixLog

namespace Mmio

theorem takeEntry_spec (m : Mmio) {slot : Slot} {s : LogSize} (h : m.radixlog.Sound)
    (hSlot : slot.table < m.radixlog.nextTable)
    (hSize : (m.radixlog.tables slot.table).logSize = some s) :
    ∃ r nextLog, m.takeEntry slot s = { m with radixlog := r, nextLog := nextLog } ∧
      Acquires m.epoch m.radixlog r ∧ SameDirectory m.radixlog r ∧
      (∀ t, (r.tables t).logSize = (m.radixlog.tables t).logSize) ∧
      (∀ slot', slot' ≠ slot → r.entryAt slot' = m.radixlog.entryAt slot') ∧
      ∃ e, r.entryAt slot = some e := by
  cases hEntry : m.radixlog.entryAt slot with
  | some e =>
    refine ⟨m.radixlog.setEntry slot (some { e with logSize := s }), m.nextLog, ?_, ⟨?_, ?_, ?_⟩,
      sameDirectory_setEntry _ _ _, logSize_setEntry _ _ _, fun slot' hne => ?_, _,
      entryAt_setEntry_self _ _ _⟩
    · rw [takeEntry, getLogEntry, hEntry]
    · exact h.setEntry hSlot fun e' he' => by cases he'; exact hSize
    · exact extended_setEntry _ _ _
    · intro slot'
      rw [entryAt_setEntry]
      split
      · rename_i heq
        have hs : e.logSize = s := by
          have hOld := h.sizes _ _ hEntry
          rw [hSize, Option.some.injEq] at hOld
          exact hOld.symm
        rw [heq, hEntry, ← hs]
        exact .inl rfl
      · exact .inl rfl
    · exact entryAt_setEntry_of_ne _ hne _
  | none =>
    let fresh : IdxEntry :=
      { (IdxEntry.alloc (m.logPool m.nextLog)).setEpoch m.epoch with logSize := s }
    refine ⟨m.radixlog.setEntry slot (some fresh), m.nextLog + 1, ?_, ⟨?_, ?_, ?_⟩,
      sameDirectory_setEntry _ _ _, logSize_setEntry _ _ _, fun slot' hne => ?_, _,
      entryAt_setEntry_self _ _ _⟩
    · simp only [takeEntry, getLogEntry, hEntry, setEntry_setEntry, fresh]
    · exact h.setEntry hSlot fun e' he' => by cases he'; exact hSize
    · exact extended_setEntry _ _ _
    · intro slot'
      rw [entryAt_setEntry]
      split
      · rename_i heq
        rw [heq]
        exact .inr ⟨hEntry, fresh, rfl, rfl, rfl, rfl, rfl⟩
      · exact .inl rfl
    · exact entryAt_setEntry_of_ne _ hne _

structure LockStep (m : Mmio) (off : Nat) (slot : Slot) (s : LogSize) (m' : Mmio) : Prop where
  frame : ∃ r nextLog, m' = { m with radixlog := r, nextLog := nextLog }
  acquires : Acquires m.epoch m.radixlog m'.radixlog
  find : m'.radixlog.findLogTable off = some slot.table
  size : (m'.radixlog.tables slot.table).logSize = some s
  index : slot.index = tableIndex s off
  installed : ∃ e, m'.radixlog.entryAt slot = some e

theorem lockStep {m : Mmio} (h : m.radixlog.Sound) (off n : Nat) :
    LockStep m off (m.radixlog.locate off n).1 (m.radixlog.locate off n).2.1
      (takeEntry { m with radixlog := (m.radixlog.locate off n).2.2 } (m.radixlog.locate off n).1
        (m.radixlog.locate off n).2.1) := by
  have hLoc := locate_spec h.wellFormed off n
  generalize m.radixlog.locate off n = found at *
  obtain ⟨slot, s, r⟩ := found
  dsimp only at hLoc ⊢
  obtain ⟨hSound, hEntries, _⟩ := h.locate hLoc
  obtain ⟨r', k, hTake, hAcq, hDir, hSizes, _, hInstalled⟩ :=
    takeEntry_spec { m with radixlog := r } hSound hLoc.lt hLoc.size
  rw [hTake]
  have hGrown : Acquires m.epoch m.radixlog r :=
    ⟨hSound, hLoc.grows.toExtended, fun slot => .inl (hEntries slot)⟩
  exact ⟨⟨r', k, rfl⟩, hGrown.trans hAcq, (hDir.find off).trans hLoc.find,
    (hSizes slot.table).trans hLoc.size, hLoc.index, hInstalled⟩

theorem lockEntries_eq (type : LockType) (m : Mmio) (n : Int) (off : Nat) (head : List Slot) :
    lockEntries type m n off head =
      if 0 < n then
        if (m.radixlog.locate off n.toNat).1 ∈ head then .error type.again
        else
          lockEntries type
            (takeEntry { m with radixlog := (m.radixlog.locate off n.toNat).2.2 }
              (m.radixlog.locate off n.toNat).1 (m.radixlog.locate off n.toNat).2.1)
            (n - ((m.radixlog.locate off n.toNat).2.1.size -
              off % (m.radixlog.locate off n.toNat).2.1.size : Nat))
            (off + ((m.radixlog.locate off n.toNat).2.1.size -
              off % (m.radixlog.locate off n.toNat).2.1.size))
            ((m.radixlog.locate off n.toNat).1 :: head)
      else .ok (m, head) := by
  rw [lockEntries]

structure LockRun (m : Mmio) (head : List Slot) (m' : Mmio) (head' : List Slot) : Prop where
  frame : ∃ r nextLog, m' = { m with radixlog := r, nextLog := nextLog }
  acquires : Acquires m.epoch m.radixlog m'.radixlog
  pushed : ∃ new, head' = new ++ head ∧ ∀ slot ∈ new, ∃ e, m'.radixlog.entryAt slot = some e

theorem lockEntries_run {type : LockType} {m m' : Mmio} {n : Int} {off : Nat}
    {head head' : List Slot} (h : m.radixlog.Sound)
    (hRun : lockEntries type m n off head = .ok (m', head')) : LockRun m head m' head' := by
  -- the loop ends because each block takes at least one byte off `n`
  induction hn : n.toNat using Nat.strongRecOn generalizing m n off head with
  | ind k ih =>
    rw [lockEntries_eq] at hRun
    split at hRun
    · rename_i hPos
      split at hRun
      · cases hRun
      · have hStep := lockStep h off n.toNat
        generalize m.radixlog.locate off n.toNat = found at *
        obtain ⟨slot, s, r⟩ := found
        dsimp only at hStep hRun
        generalize takeEntry { m with radixlog := r } slot s = mid at *
        obtain ⟨⟨r₁, k₁, rfl⟩, hAcq, _, _, _, e, hInstalled⟩ := hStep
        have hLen := Nat.mod_lt off s.size_pos
        obtain ⟨⟨r₂, k₂, rfl⟩, hAcq', new, rfl, hNew⟩ := ih _ (by omega) hAcq.sound hRun rfl
        refine ⟨⟨r₂, k₂, rfl⟩, hAcq.trans hAcq', new ++ [slot], by simp, ?_⟩
        intro slot' hMem
        rcases List.mem_append.mp hMem with hMem | hMem
        · exact hNew slot' hMem
        · rw [List.mem_singleton] at hMem
          subst hMem
          rcases hAcq'.entries slot' with hSame | ⟨_, e', hSome, _⟩
          · exact ⟨e, hSame.trans hInstalled⟩
          · exact ⟨e', hSome⟩
    · cases hRun
      exact ⟨⟨m'.radixlog, m'.nextLog, rfl⟩, Acquires.refl h m'.epoch, [], rfl, fun _ hMem => by cases hMem⟩

/-- The request lies in one log block, of the size that its region has or will get. -/
def OneBlock (m : Mmio) (off n : Nat) : Prop :=
  n = 0 ∨ off % (m.radixlog.locate off n).2.1.size + n ≤ (m.radixlog.locate off n).2.1.size

theorem lockEntries_zero (type : LockType) (m : Mmio) (off : Nat) :
    lockEntries type m 0 off [] = .ok (m, []) := by
  rw [lockEntries_eq, if_neg (by decide)]

theorem lockEntries_oneBlock (type : LockType) {m : Mmio} {off n : Nat} (h : m.radixlog.Sound)
    (hPos : 0 < n) (hBlock : m.OneBlock off n) :
    ∃ slot s m', lockEntries type m n off [] = .ok (m', [slot]) ∧ LockStep m off slot s m' ∧
      s = (m.radixlog.locate off n).2.1 ∧ off % s.size + n ≤ s.size := by
  have hStep := lockStep h off n
  have hFits := hBlock.resolve_left (by omega)
  refine ⟨_, _, _, ?_, hStep, rfl, hFits⟩
  rw [lockEntries_eq, if_pos (by omega), if_neg (by simp), Int.toNat_natCast, lockEntries_eq,
    if_neg (by omega)]

end Mmio

end Libnvmmio

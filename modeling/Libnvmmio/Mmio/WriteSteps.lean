import Libnvmmio.Mmio.Locking
import Libnvmmio.Mmio.Merge

/-! # What any write does to its entries

Whatever the request, each iteration of the loop of `mmio_write` replaces the
entry of its slot by one of the same log size, tagged with the epoch unless the
tag was not older, and stores nothing but bytes of the file.
-/

namespace Libnvmmio.Mmio

open RangeCopy RadixLog

set_option autoImplicit false

theorem logPiece_eq_ok {m : Mmio} {buf : Nat → UInt8} {e e' : IdxEntry} {dst src logOffset n : Nat}
    (h : m.logPiece buf e dst src logOffset n = .ok e') : ∃ log, e' = { e with log := log } := by
  unfold logPiece at h
  cases hPolicy : m.policy with
  | undo =>
    rw [hPolicy] at h
    obtain ⟨data, _, hData⟩ := Outcome.bind_eq_ok h
    cases hData
    exact ⟨_, rfl⟩
  | redo =>
    rw [hPolicy] at h
    cases h
    exact ⟨_, rfl⟩

theorem updateHeader_tag {m : Mmio} {e e' : IdxEntry} {dst logOffset n : Nat}
    (h : m.updateHeader e dst logOffset n = .ok e') :
    e'.epoch = e.epoch ∧ e'.logSize = e.logSize ∧ (e'.policy = e.policy ∨ e'.policy = m.policy) := by
  unfold updateHeader at h
  split at h
  · have hTag := mergeEntry_sameTag h
    exact ⟨hTag.epoch, hTag.logSize, .inl hTag.policy⟩
  · cases h
    exact ⟨rfl, rfl, .inr rfl⟩

theorem storePiece_tag {m : Mmio} {buf : Nat → UInt8} {e e' : IdxEntry} {c c' : Cursor}
    (h : m.storePiece buf e c = .ok (e', c')) :
    e'.epoch = e.epoch ∧ e'.logSize = e.logSize ∧ (e'.policy = e.policy ∨ e'.policy = m.policy) := by
  obtain ⟨e₁, hPiece, hRest⟩ := Outcome.bind_eq_ok h
  obtain ⟨log, rfl⟩ := logPiece_eq_ok hPiece
  obtain ⟨e₂, hHeader, hDone⟩ := Outcome.bind_eq_ok hRest
  cases hDone
  have hTag := updateHeader_tag hHeader
  exact ⟨hTag.1, hTag.2.1, hTag.2.2⟩

theorem storeRedo_eq_ok {m m' : Mmio} {e : IdxEntry} (h : m.storeRedo e = .ok m') :
    ∃ bytes, m' = { m with disk := { m.disk with bytes := bytes } } := by
  unfold storeRedo at h
  cases hPolicy : e.policy with
  | undo =>
    rw [hPolicy] at h
    cases h
    exact ⟨m.disk.bytes, rfl⟩
  | redo =>
    rw [hPolicy] at h
    obtain ⟨_, rfl⟩ := ntstore_eq_ok h
    exact ⟨_, rfl⟩

theorem checkpointEntry_eq_ok {m m' : Mmio} {e e' : IdxEntry}
    (h : m.checkpointEntry e = .ok (m', e')) :
    (∃ bytes, m' = { m with disk := { m.disk with bytes := bytes } }) ∧ e' = m.emptied e := by
  obtain ⟨m₁, hStore, hDone⟩ := Outcome.bind_eq_ok h
  obtain ⟨bytes, rfl⟩ := storeRedo_eq_ok hStore
  cases hDone
  exact ⟨⟨bytes, rfl⟩, rfl⟩

/-- An iteration that returns retires the entry of its slot and stores a piece to it. -/
theorem writeEntry_parts {m m' : Mmio} {buf : Nat → UInt8} {slot : Slot} {c c' : Cursor}
    (h : m.writeEntry buf slot c = .ok (m', c')) :
    ∃ e m₁ e₁ e₂, m.radixlog.entryAt slot = some e ∧ m.retireStale e = .ok (m₁, e₁) ∧
      m₁.storePiece buf e₁ c = .ok (e₂, c') ∧
      m' = { m₁ with radixlog := m₁.radixlog.setEntry slot (some e₂) } := by
  unfold writeEntry at h
  cases hEntry : m.radixlog.entryAt slot with
  | none =>
    rw [hEntry] at h
    cases h
  | some e =>
    rw [hEntry] at h
    obtain ⟨⟨m₁, e₁⟩, hRetire, hRest⟩ := Outcome.bind_eq_ok h
    obtain ⟨⟨e₂, c₂⟩, hStore, hDone⟩ := Outcome.bind_eq_ok hRest
    cases hDone
    exact ⟨e, m₁, e₁, e₂, rfl, hRetire, hStore, rfl⟩

/-- The entry `e` of a slot gives way to `e'` in an iteration under the given epoch and policy. -/
structure Retagged (epoch : Nat) (policy : Policy) (e e' : IdxEntry) : Prop where
  logSize : e'.logSize = e.logSize
  epoch : e'.epoch = if e.epoch < epoch then epoch % 2 ^ 20 else e.epoch
  policy : e'.policy = e.policy ∨ e'.policy = policy

theorem writeEntry_eq_ok {m m' : Mmio} {buf : Nat → UInt8} {slot : Slot} {c c' : Cursor}
    (h : m.writeEntry buf slot c = .ok (m', c')) :
    ∃ e e' bytes, m.radixlog.entryAt slot = some e ∧ Retagged m.epoch m.policy e e' ∧
      m' = { m with
        radixlog := m.radixlog.setEntry slot (some e'), disk := { m.disk with bytes := bytes } } := by
  obtain ⟨e, m₁, e₁, e₂, hEntry, hRetire, hStore, rfl⟩ := writeEntry_parts h
  obtain ⟨hEpoch, hSize, hPolicy⟩ := storePiece_tag hStore
  unfold retireStale at hRetire
  split at hRetire
  · rename_i hStale
    obtain ⟨⟨bytes, rfl⟩, rfl⟩ := checkpointEntry_eq_ok hRetire
    have hNew : e₂.policy = m.policy := hPolicy.elim id id
    exact ⟨e, e₂, bytes, hEntry, ⟨hSize, by rw [if_pos hStale]; exact hEpoch, .inr hNew⟩, rfl⟩
  · rename_i hCurrent
    cases hRetire
    exact ⟨e, e₂, m.disk.bytes, hEntry, ⟨hSize, by rw [if_neg hCurrent]; exact hEpoch, hPolicy⟩, rfl⟩

structure EntriesWritten (m : Mmio) (slots : List Slot) (m' : Mmio) : Prop where
  frame : ∃ r bytes, m' = { m with radixlog := r, disk := { m.disk with bytes := bytes } }
  sound : m'.radixlog.Sound
  extended : Extended m.radixlog m'.radixlog
  written : ∀ slot e', slot ∈ slots → m'.radixlog.entryAt slot = some e' →
    e'.epoch = m.epoch % 2 ^ 20 ∨
      ∃ e, m.radixlog.entryAt slot = some e ∧ m.epoch ≤ e.epoch ∧ e'.epoch = e.epoch
  policy : ∀ slot e', m'.radixlog.entryAt slot = some e' →
    (∃ e, m.radixlog.entryAt slot = some e ∧ e'.policy = e.policy) ∨ e'.policy = m.policy
  kept : ∀ slot, slot ∉ slots → m'.radixlog.entryAt slot = m.radixlog.entryAt slot

theorem writeEntries_written {buf : Nat → UInt8} {slots : List Slot} :
    ∀ {m m' : Mmio} {c c' : Cursor}, m.radixlog.Sound →
      m.writeEntries buf slots c = .ok (m', c') → EntriesWritten m slots m' := by
  induction slots with
  | nil =>
    intro m m' c c' hSound h
    cases h
    refine ⟨⟨m.radixlog, m.disk.bytes, rfl⟩, hSound, Extended.refl _, ?_,
      fun slot e' hEntry => .inl ⟨e', hEntry, rfl⟩, fun _ _ => rfl⟩
    intro slot e' hMem
    cases hMem
  | cons slot slots ih =>
    intro m m' c c' hSound h
    obtain ⟨⟨m₁, c₁⟩, hHead, hRest⟩ := Outcome.bind_eq_ok h
    obtain ⟨e, e₁, bytes, hEntry, hTag, rfl⟩ := writeEntry_eq_ok hHead
    have hSound₁ : (m.radixlog.setEntry slot (some e₁)).Sound := by
      apply hSound.setEntry (hSound.allocated slot e hEntry)
      intro e' he'
      cases he'
      rw [hTag.logSize]
      exact hSound.sizes slot e hEntry
    obtain ⟨⟨r, bytes', rfl⟩, hSound', hExt, hWritten, hPolicy, hKept⟩ := ih hSound₁ hRest
    refine ⟨⟨r, bytes', rfl⟩, hSound', (extended_setEntry _ _ _).trans hExt, ?_, ?_, ?_⟩
    · intro slot' e' hMem hEntry'
      -- the last iteration on a slot decides its tag
      by_cases hLater : slot' ∈ slots
      · rcases hWritten slot' e' hLater hEntry' with hNow | ⟨e₂, he₂, hFuture, hSame⟩
        · exact .inl hNow
        · dsimp only at he₂
          rw [entryAt_setEntry] at he₂
          split at he₂
          · rename_i heq
            cases he₂
            rw [hSame, hTag.epoch]
            split
            · exact .inl rfl
            · rename_i hCurrent
              exact .inr ⟨e, heq ▸ hEntry, Nat.le_of_not_lt hCurrent, rfl⟩
          · exact .inr ⟨e₂, he₂, hFuture, hSame⟩
      · have hSlot : slot' = slot := by
          rcases List.mem_cons.mp hMem with hEq | hLater'
          · exact hEq
          · exact absurd hLater' hLater
        subst hSlot
        rw [hKept slot' hLater, entryAt_setEntry_self] at hEntry'
        cases hEntry'
        rw [hTag.epoch]
        split
        · exact .inl rfl
        · rename_i hCurrent
          exact .inr ⟨e, hEntry, Nat.le_of_not_lt hCurrent, rfl⟩
    · intro slot' e' hEntry'
      rcases hPolicy slot' e' hEntry' with ⟨e₂, he₂, hSame⟩ | hNew
      · dsimp only at he₂
        rw [entryAt_setEntry] at he₂
        split at he₂
        · rename_i heq
          cases he₂
          rcases hTag.policy with hOld | hNew
          · exact .inl ⟨e, heq ▸ hEntry, hSame.trans hOld⟩
          · exact .inr (hSame.trans hNew)
        · exact .inl ⟨e₂, he₂, hSame⟩
      · exact .inr hNew
    · intro slot' hNot
      rw [List.mem_cons, not_or] at hNot
      rw [hKept slot' hNot.2]
      exact entryAt_setEntry_of_ne _ hNot.1 _

theorem finishWrite_eq_ok {m m' : Mmio} {offset len ret : Nat} {buf : Nat → UInt8}
    (h : m.finishWrite offset buf len ret = .ok m') :
    ∃ bytes, m' = { m with
      write := m.write + 1, disk := { m.disk with bytes := bytes }
      fsize := max m.fsize (offset + ret) } := by
  obtain ⟨m₁, hFile, hDone⟩ := Outcome.bind_eq_ok h
  unfold updateFile at hFile
  have hStored : ∃ bytes, m₁ = { m with
      write := m.write + 1, disk := { m.disk with bytes := bytes } } := by
    cases hPolicy : m.policy with
    | undo =>
      simp only [hPolicy] at hFile
      obtain ⟨_, rfl⟩ := ntstore_eq_ok hFile
      exact ⟨_, rfl⟩
    | redo =>
      simp only [hPolicy] at hFile
      cases hFile
      exact ⟨m.disk.bytes, rfl⟩
  obtain ⟨bytes, rfl⟩ := hStored
  refine ⟨bytes, ?_⟩
  dsimp only at hDone
  split at hDone
  · rename_i hLonger
    rw [Nat.max_eq_right (Nat.le_of_lt hLonger)]
    exact (Except.ok.inj hDone).symm
  · rename_i hShorter
    rw [Nat.max_eq_left (Nat.le_of_not_lt hShorter)]
    exact (Except.ok.inj hDone).symm

end Libnvmmio.Mmio

import Libnvmmio.Mmio.Requests

/-! # Tags of 20 bits against an epoch of 64

`entry->epoch < mmio->epoch` decides whether a log is committed. Runs are
observed together with the number of commits and, for each slot, the number at
the last write that locked it. The test agrees with the observation as long as
the epoch fits the tag; from 2^20 on it is true of every entry.
-/

namespace Libnvmmio.Mmio

open RangeCopy RadixLog Outcome GuardedRun

set_option autoImplicit false

/-- An object with what an observer knows of its past. -/
structure Observed where
  mmio : Mmio
  commits : Nat
  lastWrite : Slot → Nat

namespace Observed

def after (o : Observed) (request : Request) (m' : Mmio) : Observed :=
  match request with
  | .write _ remap offset _ len =>
    ⟨m', o.commits, fun slot =>
      if slot ∈ o.mmio.writtenSlots remap offset len then o.commits else o.lastWrite slot⟩
  | .read _ _ _ => ⟨m', o.commits, o.lastWrite⟩
  | .commit => ⟨m', o.commits + 1, o.lastWrite⟩
  | .checkpoint => ⟨m', o.commits, o.lastWrite⟩

def Step (o : Observed) (request : Request) (o' : Observed) : Prop :=
  ∃ m' reply, o.mmio.perform request = .ok (m', reply) ∧ o' = o.after request m'

def Holds (o : Observed) (slot : Slot) (e : IdxEntry) : Prop :=
  o.mmio.radixlog.entryAt slot = some e ∧ 0 < e.len

/-- The last write to the entry of the slot came before the most recent commit. -/
def Committed (o : Observed) (slot : Slot) : Prop := o.lastWrite slot < o.commits

/-- The test tells committed data from uncommitted data, so no checkpoint
copies or discards a log that is not committed. -/
structure TestTells (o : Observed) : Prop where
  test : ∀ slot e, o.Holds slot e → (e.epoch < o.mmio.epoch ↔ o.Committed slot)
  retired : ∀ slot e, o.Holds slot e → ¬ o.Committed slot →
    o.mmio.retireStale e = .ok (o.mmio, e)
  kept : ∀ m', o.mmio.checkpointMmio = .ok m' → ∀ slot e, o.Holds slot e → ¬ o.Committed slot →
    m'.radixlog.entryAt slot = some e
  copied : ∀ m', o.mmio.checkpointMmio = .ok m' → ∀ j, m'.disk.bytes j = o.mmio.disk.bytes j ∨
    ∃ slot e i, o.Holds slot e ∧ o.Committed slot ∧ e.policy = .redo ∧ e.extent.Covers i ∧
      e.dst + i = o.mmio.start + j ∧ m'.disk.bytes j = e.log i

theorem testTells_of_test {o : Observed}
    (h : ∀ slot e, o.Holds slot e → (e.epoch < o.mmio.epoch ↔ o.Committed slot)) : o.TestTells where
  test := h
  retired slot e hHolds hOpen := by
    rw [retireStale, if_neg fun hStale => hOpen ((h slot e hHolds).mp hStale)]
  kept m' hOk slot e hHolds hOpen :=
    (checkpointFrom_checkpointed hOk).entry_kept hHolds.1 fun hStale =>
      hOpen ((h slot e hHolds).mp hStale)
  copied m' hOk j := by
    rcases (checkpointFrom_checkpointed hOk).bytes j with
      hSame | ⟨slot, e, i, hEntry, hStale, hRedo, hCovers, hDst, hLog⟩
    · exact .inl hSame
    · have hHolds : o.Holds slot e := ⟨hEntry, hCovers.len_pos⟩
      exact .inr ⟨slot, e, i, hHolds, (h slot e hHolds).mp hStale, hRedo, hCovers, hDst, hLog⟩

/-- The invariant of observed runs from the epoch `epoch₀` as long as the counter does not wrap. -/
structure Tagged (epoch₀ : Nat) (o : Observed) : Prop where
  sound : o.mmio.radixlog.Sound
  epoch : o.mmio.epoch = epoch₀ + o.commits
  last_le : ∀ slot, o.lastWrite slot ≤ o.commits
  tag_lt : ∀ slot e, o.mmio.radixlog.entryAt slot = some e → e.epoch < 2 ^ 20
  tag_le : ∀ slot e, o.mmio.radixlog.entryAt slot = some e → e.epoch ≤ o.mmio.epoch
  tag : ∀ slot e, o.Holds slot e → o.mmio.epoch < 2 ^ 20 → e.epoch = epoch₀ + o.lastWrite slot

theorem Tagged.test_iff {epoch₀ : Nat} {o : Observed} (h : Tagged epoch₀ o) :
    (∀ slot e, o.Holds slot e → (e.epoch < o.mmio.epoch ↔ o.Committed slot)) ↔
      o.mmio.epoch < 2 ^ 20 ∨ ∀ slot e, o.Holds slot e → o.Committed slot := by
  constructor
  · intro hTest
    by_cases hSmall : o.mmio.epoch < 2 ^ 20
    · exact .inl hSmall
    · refine .inr fun slot e hHolds => (hTest slot e hHolds).mp ?_
      exact Nat.lt_of_lt_of_le (h.tag_lt slot e hHolds.1) (Nat.le_of_not_lt hSmall)
  · rintro (hSmall | hCommitted) slot e hHolds
    · rw [h.tag slot e hHolds hSmall, h.epoch, Committed]
      omega
    · have hLast := hCommitted slot e hHolds
      refine ⟨fun _ => hLast, fun _ => ?_⟩
      rcases Nat.lt_or_ge o.mmio.epoch (2 ^ 20) with hSmall | hLarge
      · rw [h.tag slot e hHolds hSmall, h.epoch]
        exact Nat.add_lt_add_left hLast epoch₀
      · exact Nat.lt_of_lt_of_le (h.tag_lt slot e hHolds.1) hLarge

section Locked

variable {epoch₀ : Nat} {o : Observed} {m₀ m₁ : Mmio} {head : List Slot}

theorem Tagged.locked (h : Tagged epoch₀ o) (hLocked : LockRun m₀ [] m₁ head)
    (hEpoch : m₀.epoch = o.mmio.epoch) (hRadixlog : m₀.radixlog = o.mmio.radixlog) :
    Tagged epoch₀ ⟨m₁, o.commits, o.lastWrite⟩ := by
  have hAcq := hLocked.acquires
  have hMod := Nat.mod_le m₀.epoch (2 ^ 20)
  have hSame : m₁.epoch = o.mmio.epoch := by
    obtain ⟨⟨r, k, rfl⟩, _, _⟩ := hLocked
    exact hEpoch
  have hEntries : ∀ slot e, m₁.radixlog.entryAt slot = some e →
      o.mmio.radixlog.entryAt slot = some e ∨ e.Fresh m₀.epoch := by
    intro slot e hEntry
    rcases hAcq.entries slot with hOld | ⟨_, e', hNew, hFresh⟩
    · exact .inl (by rw [← hRadixlog, ← hOld, hEntry])
    · rw [hNew] at hEntry
      cases hEntry
      exact .inr hFresh
  refine ⟨hAcq.sound, hSame.trans h.epoch, h.last_le, fun slot e hEntry => ?_,
    fun slot e hEntry => ?_, fun slot e hHolds hSmall => ?_⟩
  · rcases hEntries slot e hEntry with hOld | hFresh
    · exact h.tag_lt slot e hOld
    · rw [hFresh.epoch]
      exact Nat.mod_lt _ (by decide)
  · dsimp only
    rcases hEntries slot e hEntry with hOld | hFresh
    · rw [hSame]
      exact h.tag_le slot e hOld
    · rw [hFresh.epoch]
      omega
  · dsimp only at hSmall ⊢
    rw [hSame] at hSmall
    rcases hEntries slot e hHolds.1 with hOld | hFresh
    · exact h.tag slot e ⟨hOld, hHolds.2⟩ hSmall
    · exact absurd hHolds.2 (by rw [hFresh.len]; exact Nat.lt_irrefl 0)

/-- After the loop of a write, the entries it locked are tagged with the epoch. -/
theorem Tagged.written {m₂ : Mmio} {slots : List Slot}
    (h : Tagged epoch₀ ⟨m₁, o.commits, o.lastWrite⟩) (hWritten : EntriesWritten m₁ slots m₂) :
    Tagged epoch₀ ⟨m₂, o.commits, fun slot => if slot ∈ slots then o.commits else o.lastWrite slot⟩ := by
  have hMod := Nat.mod_le m₁.epoch (2 ^ 20)
  have hSame : m₂.epoch = m₁.epoch := by
    obtain ⟨⟨r, bytes, rfl⟩, _⟩ := hWritten
    rfl
  -- a tag of the present epoch is the epoch itself when that fits
  have hTag : ∀ slot e, slot ∈ slots → m₂.radixlog.entryAt slot = some e →
      e.epoch < 2 ^ 20 ∧ e.epoch ≤ m₁.epoch ∧ (m₁.epoch < 2 ^ 20 → e.epoch = m₁.epoch) := by
    intro slot e hMem hEntry
    rcases hWritten.written slot e hMem hEntry with hNow | ⟨e₁, hEntry₁, hFuture, hKept⟩
    · rw [hNow]
      exact ⟨Nat.mod_lt _ (by decide), hMod, Nat.mod_eq_of_lt⟩
    · have hLt := h.tag_lt slot e₁ hEntry₁
      have hLe := h.tag_le slot e₁ hEntry₁
      dsimp only at hLe
      rw [hKept]
      exact ⟨hLt, hLe, fun _ => by omega⟩
  refine ⟨hWritten.sound, hSame.trans h.epoch, fun slot => ?_, fun slot e hEntry => ?_,
    fun slot e hEntry => ?_, fun slot e hHolds hSmall => ?_⟩
  · dsimp only
    split
    · exact Nat.le_refl _
    · exact h.last_le slot
  · by_cases hMem : slot ∈ slots
    · exact (hTag slot e hMem hEntry).1
    · exact h.tag_lt slot e ((hWritten.kept slot hMem).symm.trans hEntry)
  · dsimp only
    rw [hSame]
    by_cases hMem : slot ∈ slots
    · exact (hTag slot e hMem hEntry).2.1
    · exact h.tag_le slot e ((hWritten.kept slot hMem).symm.trans hEntry)
  · dsimp only at hSmall ⊢
    rw [hSame] at hSmall
    by_cases hMem : slot ∈ slots
    · rw [if_pos hMem, (hTag slot e hMem hHolds.1).2.2 hSmall]
      exact h.epoch
    · rw [if_neg hMem]
      exact h.tag slot e ⟨(hWritten.kept slot hMem).symm.trans hHolds.1, hHolds.2⟩ hSmall

end Locked

theorem after_commits_le (o : Observed) (request : Request) (m' : Mmio) :
    o.commits ≤ (o.after request m').commits := by
  cases request <;> simp [after]

theorem Tagged.step {epoch₀ : Nat} {o o' : Observed} {request : Request} (h : Tagged epoch₀ o)
    (hStep : o.Step request o') (hBound : epoch₀ + o'.commits < 2 ^ 64) : Tagged epoch₀ o' := by
  obtain ⟨m', reply, hOk, rfl⟩ := hStep
  rcases perform_cases h.sound hOk with
    ⟨fdWritable, remap, offset, buf, len, n, m₁, m₂, rfl, _, hWritten⟩ |
    ⟨offset, buf, len, n, buf', m₁, head, rfl, _, hLocked, rfl⟩ | ⟨rfl, _, rfl⟩ |
    ⟨rfl, _, _, hCheckpoint⟩
  · have hEntries := (h.locked hWritten.locked rfl rfl).written
      hWritten.entries
    obtain ⟨bytes, rfl⟩ := hWritten.finished
    exact ⟨hEntries.sound, hEntries.epoch, hEntries.last_le, hEntries.tag_lt, hEntries.tag_le,
      hEntries.tag⟩
  · have hEntries := h.locked hLocked rfl rfl
    exact ⟨hEntries.sound, hEntries.epoch, hEntries.last_le, hEntries.tag_lt, hEntries.tag_le,
      hEntries.tag⟩
  · have hEpoch := h.epoch
    have hNext : (o.mmio.epoch + 1) % 2 ^ 64 = o.mmio.epoch + 1 := by
      apply Nat.mod_eq_of_lt
      change epoch₀ + (o.commits + 1) < 2 ^ 64 at hBound
      omega
    refine ⟨h.sound, ?_, fun slot => Nat.le_succ_of_le (h.last_le slot), h.tag_lt,
      fun slot e hEntry => ?_, fun slot e hHolds hSmall => ?_⟩
    · change (o.mmio.epoch + 1) % 2 ^ 64 = epoch₀ + (o.commits + 1)
      omega
    · change e.epoch ≤ (o.mmio.epoch + 1) % 2 ^ 64
      rw [hNext]
      exact Nat.le_succ_of_le (h.tag_le slot e hEntry)
    · change (o.mmio.epoch + 1) % 2 ^ 64 < 2 ^ 20 at hSmall
      exact h.tag slot e hHolds (by omega)
  · have hEpoch := hCheckpoint.epoch
    refine ⟨hCheckpoint.sound h.sound, hEpoch.trans h.epoch, h.last_le,
      fun slot e hEntry => h.tag_lt slot e (hCheckpoint.entry_before hEntry), fun slot e hEntry => ?_,
      fun slot e hHolds hSmall => ?_⟩
    · change e.epoch ≤ m'.epoch
      rw [hEpoch]
      exact h.tag_le slot e (hCheckpoint.entry_before hEntry)
    · change m'.epoch < 2 ^ 20 at hSmall
      rw [hEpoch] at hSmall
      exact h.tag slot e ⟨hCheckpoint.entry_before hHolds.1, hHolds.2⟩ hSmall

theorem Tagged.run {epoch₀ : Nat} {o o' : Observed} {requests : List Request}
    (hRun : Run Step o requests o') (h : epoch₀ + o.commits < 2 ^ 64 → Tagged epoch₀ o) :
    epoch₀ + o'.commits < 2 ^ 64 → Tagged epoch₀ o' := by
  apply hRun.invariant (fun o => epoch₀ + o.commits < 2 ^ 64 → Tagged epoch₀ o) _ h
  intro o request o' hInv hStep hBound
  have hLe : o.commits ≤ o'.commits := by
    obtain ⟨m', reply, _, rfl⟩ := hStep
    exact o.after_commits_le request m'
  exact (hInv (by omega)).step hStep hBound

def first (m : Mmio) : Observed := ⟨m, 0, fun _ => 0⟩

theorem tagged_first {m : Mmio} (h : m.Opened) : Tagged m.epoch (first m) where
  sound := h.sound
  epoch := rfl
  last_le _ := Nat.le_refl 0
  tag_lt slot e hEntry := by
    have hNone := h.no_entry slot
    rw [first] at hEntry
    dsimp only at hEntry
    rw [hNone] at hEntry
    cases hEntry
  tag_le slot e hEntry := by
    have hNone := h.no_entry slot
    rw [first] at hEntry
    dsimp only at hEntry
    rw [hNone] at hEntry
    cases hEntry
  tag slot e hHolds := by
    have hNone := h.no_entry slot
    have hEntry := hHolds.1
    rw [first] at hEntry
    dsimp only at hEntry
    rw [hNone] at hEntry
    cases hEntry

/-- In every reachable state, the test tells committed from uncommitted data
exactly as long as the epoch fits the tag or nothing is uncommitted. -/
theorem testTells_iff {m : Mmio} {requests : List Request} {o : Observed} (hOpen : m.Opened)
    (hRun : Run Step (first m) requests o) (hBound : m.epoch + o.commits < 2 ^ 64) :
    o.TestTells ↔ o.mmio.epoch < 2 ^ 20 ∨ ∀ slot e, o.Holds slot e → o.Committed slot := by
  have hTagged := Tagged.run hRun (fun _ => tagged_first hOpen) hBound
  rw [← hTagged.test_iff]
  exact ⟨fun h => h.test, testTells_of_test⟩

theorem commits_run {o : Observed} (hRead : o.mmio.read = 0) (hWrite : o.mmio.write = 0)
    (hUnlocked : o.mmio.wrlocked = false) (k : Nat) (hBound : o.mmio.epoch + k < 2 ^ 64) :
    Run Step o (List.replicate k .commit)
      ⟨{ o.mmio with epoch := o.mmio.epoch + k }, o.commits + k, o.lastWrite⟩ := by
  induction k with
  | zero => exact .nil o
  | succ k ih =>
    rw [List.replicate_succ']
    apply (ih (by omega)).snoc
    refine ⟨_, .done, by rw [perform, commitMmio_spec, ok_bind], ?_⟩
    rw [after]
    dsimp only
    rw [Nat.mod_eq_of_lt (by omega), Nat.add_assoc, Nat.add_assoc, hRead, hWrite, hUnlocked]

/-- A write in one block tags its entry, and is the last write to it. -/
theorem step_write {o : Observed} (remap : Nat → Nat) (off len : Nat) (buf : Nat → UInt8)
    (hTidy : o.mmio.Tidy) (hUndo : o.mmio.policy = .undo) (hBlock : o.mmio.InBlock off len)
    (hPos : 0 < len) :
    ∃ o' slot e, o.Step (.write true remap off buf len) o' ∧ o'.Holds slot e ∧
      ¬ o'.Committed slot ∧ o'.mmio.epoch = o.mmio.epoch ∧ o'.commits = o.commits := by
  have hNotRedo : o.mmio.policy ≠ .redo := by
    rw [hUndo]
    decide
  obtain ⟨m₁, slot, s, bytes, e₁, e, m', hOk, hStages⟩ := mmioWrite_stages remap buf hTidy
    (fun hRedo => absurd hRedo hNotRedo) hBlock (fun hRedo => absurd hRedo hNotRedo) hPos
  have hSlots : o.mmio.writtenSlots remap off len = [slot] := congrArg heldSlots hStages.lock
  refine ⟨_, slot, e, ⟨m', .wrote len, by rw [perform, hOk, ok_bind], rfl⟩, ⟨?_, ?_⟩, ?_, ?_, rfl⟩
  · change m'.radixlog.entryAt slot = some e
    rw [hStages.result]
    exact entryAt_setEntry_self _ _ _
  · have hLen : 0 < e.extent.len := by
      rw [hStages.stored.absorbs.extent]
      exact Extent.hull_len_pos hPos
    exact hLen
  · rw [Committed, after]
    dsimp only
    rw [hSlots, if_pos List.mem_cons_self]
    exact Nat.lt_irrefl _
  · obtain ⟨r, k, hFrame⟩ := hStages.frame
    change m'.epoch = o.mmio.epoch
    rw [hStages.result, hFrame]
    rfl

/-- A write and a commit: the test takes the entry of the write for committed, as it is. -/
theorem testTells_after_commit :
    ∃ o slot e, Run Step (first oneByteFile)
        [.write true (fun _ => 2 ^ 21) 0 (fun _ => 1) 1, .commit] o ∧
      o.Holds slot e ∧ o.Committed slot ∧ o.TestTells := by
  obtain ⟨o, slot, e, hWrite, hHolds, _, hEpoch, hCount⟩ :=
    step_write (o := first oneByteFile) (fun _ => 2 ^ 21) 0 1 (fun _ => 1) oneByteFile_opened.tidy rfl
      (inBlock_of_le_page _ (by decide)) Nat.zero_lt_one
  have hRun : Run Step (first oneByteFile)
      [.write true (fun _ => 2 ^ 21) 0 (fun _ => 1) 1, .commit] _ :=
    .cons hWrite (.cons ⟨_, .done, by rw [perform, commitMmio_spec, ok_bind], rfl⟩ (.nil _))
  have hTagged := Tagged.run (.cons hWrite (.nil o)) (fun _ => tagged_first oneByteFile_opened)
    (by rw [hCount]; decide)
  refine ⟨_, slot, e, hRun, hHolds, Nat.lt_succ_of_le (hTagged.last_le slot), ?_⟩
  apply (testTells_iff oneByteFile_opened hRun ?_).mpr (.inl ?_)
  · change 0 + (o.commits + 1) < 2 ^ 64
    rw [hCount]
    decide
  · change (o.mmio.epoch + 1) % 2 ^ 64 < 2 ^ 20
    rw [hEpoch]
    decide

/-- After 2^20 commits a fresh write is tagged 0, and the test takes it for committed. -/
theorem testTells_fails_after_wrap :
    ∃ o, Run Step (first oneByteFile)
        (List.replicate (2 ^ 20) .commit ++ [.write true (fun _ => 2 ^ 21) 0 (fun _ => 1) 1]) o ∧
      ¬ o.TestTells := by
  have hTidy := oneByteFile_opened.tidy
  have hCommits := commits_run (o := first oneByteFile) rfl rfl rfl (2 ^ 20) (by decide)
  generalize List.replicate (2 ^ 20) Request.commit = commits at *
  obtain ⟨o, slot, e, hWrite, hHolds, hOpen, hEpoch, hCount⟩ :=
    step_write (o := ⟨{ oneByteFile with epoch := 0 + 2 ^ 20 }, 0 + 2 ^ 20, fun _ => 0⟩)
      (fun _ => 2 ^ 21) 0 1 (fun _ => 1)
      ⟨hTidy.sound, hTidy.lodged, hTidy.unlocked, hTidy.mapped⟩ rfl (inBlock_of_le_page _ (by decide)) (by decide)
  have hRun := hCommits.snoc hWrite
  have hTagged := Tagged.run hRun (fun _ => tagged_first oneByteFile_opened) (by rw [hCount]; decide)
  refine ⟨o, hRun, fun hTells => hOpen ((hTells.test slot e hHolds).mp ?_)⟩
  rw [hEpoch]
  exact hTagged.tag_lt slot e hHolds.1

end Observed

end Libnvmmio.Mmio

import Libnvmmio.Mmio.EpochTags
import Libnvmmio.Mmio.FileSemantics

/-! # The hybrid logging policy

`determine_policy` computes a new policy from the counters at every commit. It
does not store it, and the checkpoint it asks for meets the lock that
`commit_mmio` holds. So neither the policy nor the logs follow the ratio.
-/

namespace Libnvmmio

open RangeCopy RadixLog Outcome GuardedRun

set_option autoImplicit false

namespace Request

def isRead : Request → Bool
  | .read .. => true
  | _ => false

def isWrite : Request → Bool
  | .write .. => true
  | _ => false

def isCommit : Request → Bool
  | .commit => true
  | _ => false

end Request

namespace Mmio

def ratioPolicy (policy : Policy) (r w : Nat) : Policy :=
  if r + w = 0 then policy
  else if hybridWriteRatio * (r + w) < 100 * w then .redo else .undo

/-- The commit after `r` reads and `w` writes sets the policy and restarts the counters. -/
structure FollowsRatio (policy : Policy) (r w : Nat) (m' : Mmio) : Prop where
  policy : m'.policy = ratioPolicy policy r w
  restart : 0 < r + w → m'.read = 0 ∧ m'.write = 0

structure Counts (m : Mmio) (history : List Request) (m' : Mmio) : Prop where
  sound : m'.radixlog.Sound
  read : m'.read = m.read + history.countP Request.isRead
  write : m'.write = m.write + history.countP Request.isWrite
  policy : m'.policy = m.policy

theorem counts_step {m m' : Mmio} {request : Request} (hSound : m.radixlog.Sound)
    (hStep : Steps perform m request m') (hNoCommit : request.isCommit = false) :
    m.Counts [request] m' := by
  obtain ⟨reply, hOk⟩ := hStep
  have hSound' := (perform_extends hSound hOk).1
  rcases perform_cases hSound hOk with
    ⟨_, remap, offset, _, len, n, m₁, m₂, rfl, _, hWritten⟩ | ⟨_, _, _, _, _, m₁, head, rfl, _, hLocked, rfl⟩ |
    ⟨rfl, _, rfl⟩ | ⟨rfl, _, _, hCheckpoint⟩
  · obtain ⟨r, k, hFrame⟩ := hWritten.locked.frame
    obtain ⟨r', bytes, hFrame'⟩ := hWritten.entries.frame
    obtain ⟨bytes', rfl⟩ := hWritten.finished
    rw [hFrame', hFrame] at hSound' ⊢
    exact ⟨hSound', rfl, rfl, rfl⟩
  · obtain ⟨r, k, hFrame⟩ := hLocked.frame
    rw [hFrame] at hSound' ⊢
    exact ⟨hSound', rfl, rfl, rfl⟩
  · cases hNoCommit
  · obtain ⟨r, bytes, rfl⟩ := hCheckpoint.frame
    exact ⟨hSound', rfl, rfl, rfl⟩

theorem counts_run {m m' : Mmio} {history : List Request} (hSound : m.radixlog.Sound)
    (hRun : Requests m history m') (hNoCommit : ∀ request ∈ history, request.isCommit = false) :
    m.Counts history m' := by
  induction hRun with
  | nil m => exact ⟨hSound, rfl, rfl, rfl⟩
  | cons hHead _ ih =>
    rename_i request rest hRest
    have hFirst := counts_step hSound hHead (hNoCommit request List.mem_cons_self)
    have hLater := ih hFirst.sound fun a ha => hNoCommit a (List.mem_cons_of_mem request ha)
    refine ⟨hLater.sound, ?_, ?_, hLater.policy.trans hFirst.policy⟩
    · rw [hLater.read, hFirst.read, List.countP_cons, List.countP_cons, List.countP_nil]
      omega
    · rw [hLater.write, hFirst.write, List.countP_cons, List.countP_cons, List.countP_nil]
      omega

theorem eq_ratioPolicy_iff {policy : Policy} {r w : Nat} :
    policy = ratioPolicy policy r w ↔
      r + w = 0 ∨ (policy = .redo ↔ hybridWriteRatio * (r + w) < 100 * w) := by
  by_cases hZero : r + w = 0
  · rw [ratioPolicy, if_pos hZero]
    exact ⟨fun _ => .inl hZero, fun _ => rfl⟩
  · rw [ratioPolicy, if_neg hZero]
    by_cases hRatio : hybridWriteRatio * (r + w) < 100 * w
    · rw [if_pos hRatio]
      simp only [hZero, hRatio, false_or, iff_true]
    · rw [if_neg hRatio]
      simp only [hZero, hRatio, false_or, iff_false]
      cases policy with
      | undo => simp
      | redo => simp

/-- The policy follows the ratio exactly where the ratio does not ask for another one. -/
theorem followsRatio_iff {m₀ m m₁ m' : Mmio} {earlier history : List Request} (hOpen : m₀.Opened)
    (hEarlier : Requests m₀ (earlier ++ [.commit]) m) (hHistory : Requests m history m₁)
    (hNoCommit : ∀ request ∈ history, request.isCommit = false)
    (hCommit : m₁.commitMmio = .ok m') :
    FollowsRatio m.policy (history.countP Request.isRead) (history.countP Request.isWrite) m' ↔
      history.countP Request.isRead + history.countP Request.isWrite = 0 ∨
        (m.policy = .redo ↔ hybridWriteRatio *
          (history.countP Request.isRead + history.countP Request.isWrite) <
            100 * history.countP Request.isWrite) := by
  have hCounts := counts_run (hEarlier.extends hOpen.sound).1 hHistory hNoCommit
  rw [commitMmio_spec] at hCommit
  obtain rfl := Except.ok.inj hCommit
  rw [← eq_ratioPolicy_iff]
  constructor
  · intro hFollows
    exact hCounts.policy.symm.trans hFollows.policy
  · intro hSame
    exact ⟨hCounts.policy.trans hSame, fun _ => ⟨rfl, rfl⟩⟩

theorem Opened.write_byte {m : Mmio} (h : m.Opened) (hUndo : m.policy = .undo)
    (hBound : m.epoch < 2 ^ 64) :
    ∃ m' slot e, Steps perform m (.write true (fun _ => 2 ^ 21) 0 (fun _ => 1) 1) m' ∧
      m'.radixlog.entryAt slot = some e ∧ e.epoch ≤ m.epoch ∧ m'.epoch = m.epoch := by
  obtain ⟨o, slot, e, hStep, hHolds, _, hEpoch, hCommits⟩ :=
    Observed.step_write (o := Observed.first m) (fun _ => 2 ^ 21) 0 1 (fun _ => 1) h.tidy hUndo
      (inBlock_of_le_page m (by decide)) Nat.zero_lt_one
  have hTagged := (Observed.tagged_first h).step hStep (by rw [hCommits]; exact hBound)
  have hLe := hTagged.tag_le slot e hHolds.1
  rw [hEpoch] at hLe
  obtain ⟨m', reply, hOk, rfl⟩ := hStep
  exact ⟨m', slot, e, ⟨reply, hOk⟩, hHolds.1, hLe, hEpoch⟩

/-- One write and two reads ask for UNDO, which is in force. -/
theorem followsRatio_after_reads : ∃ m m₁ m' history, Requests oneByteFile [.commit] m ∧
    Requests m history m₁ ∧ m₁.commitMmio = .ok m' ∧ history.countP Request.isRead = 2 ∧
    history.countP Request.isWrite = 1 ∧ FollowsRatio m.policy 2 1 m' := by
  have hCommit : Steps perform oneByteFile .commit { oneByteFile with epoch := 1 } :=
    ⟨.done, by rw [perform, commitMmio_spec, ok_bind]; rfl⟩
  have hOpen : Opened { oneByteFile with epoch := 1 } :=
    ⟨.undo, 1, fun _ _ => 0, 2 ^ 21, true, ⟨1, fun _ => 0⟩, rfl⟩
  have hFirst : Represents False { oneByteFile with epoch := 1 } _ :=
    hOpen.represents fun hRedo => absurd hRedo (by decide)
  have hByte : 0 + 1 ≤ 2 ^ pageShift := by decide
  have hSafe : SafeRequest False { oneByteFile with epoch := 1 }
      (.write true (fun _ => 2 ^ 21) 0 (fun _ => 1) 1) := ⟨inBlock_of_le_page _ hByte, False.elim⟩
  obtain ⟨m₁, hWrite, hSecond⟩ := hFirst.write (fun _ => 1) (Nat.zero_le _) hSafe Nat.zero_lt_one
  obtain ⟨m₂, hRead, hThird⟩ := hSecond.read (fun _ => 0) (Nat.zero_le _) (readGuard_one hByte)
  obtain ⟨m₃, hRead', _⟩ := hThird.read (fun _ => 0) (Nat.zero_le _) (readGuard_one hByte)
  have hHistory : Requests { oneByteFile with epoch := 1 }
      [.write true (fun _ => 2 ^ 21) 0 (fun _ => 1) 1, .read 0 (fun _ => 0) 1, .read 0 (fun _ => 0) 1] m₃ :=
    .cons ⟨_, hWrite⟩ (.cons ⟨_, hRead⟩ (.cons ⟨_, hRead'⟩ (.nil m₃)))
  have hEarlier : Requests oneByteFile ([] ++ [.commit]) { oneByteFile with epoch := 1 } :=
    .cons hCommit (.nil _)
  exact ⟨_, m₃, _, _, hEarlier, hHistory, commitMmio_spec m₃, rfl, rfl,
    (followsRatio_iff oneByteFile_opened hEarlier hHistory (by simp [Request.isCommit])
      (commitMmio_spec m₃)).mpr (.inr (by decide))⟩

/-- One write between two commits asks for REDO, and UNDO stays. -/
theorem followsRatio_fails_after_write : ∃ m m₁ m' history, Requests oneByteFile [.commit] m ∧
    Requests m history m₁ ∧ m₁.commitMmio = .ok m' ∧ history.countP Request.isRead = 0 ∧
    history.countP Request.isWrite = 1 ∧ ¬ FollowsRatio m.policy 0 1 m' := by
  have hCommit : Steps perform oneByteFile .commit { oneByteFile with epoch := 1 } :=
    ⟨.done, by rw [perform, commitMmio_spec, ok_bind]; rfl⟩
  have hOpen : Opened { oneByteFile with epoch := 1 } :=
    ⟨.undo, 1, fun _ _ => 0, 2 ^ 21, true, ⟨1, fun _ => 0⟩, rfl⟩
  obtain ⟨m₁, _, _, hWrite, _⟩ := hOpen.write_byte rfl (by decide)
  refine ⟨_, m₁, _, _, .cons hCommit (.nil _), .cons hWrite (.nil _), commitMmio_spec m₁, rfl, rfl,
    fun hFollows => ?_⟩
  have hRedo : m₁.policy = .redo := hFollows.policy
  rw [(counts_step hOpen.sound hWrite rfl).policy] at hRedo
  cases hRedo

/-- The condition under which `determine_policy` calls `checkpoint_mmio`. -/
def PolicyChange (m : Mmio) : Prop :=
  0 < m.read + m.write ∧
    m.policy ≠ if hybridWriteRatio < m.write / (m.read + m.write) * 100 then .redo else .undo

/-- After a commit that ends in `m'`, the tables hold no committed entry, and the REDO logs
that were committed are in the file. -/
structure Drained (m m' : Mmio) : Prop where
  swept : ∀ slot e, m'.radixlog.entryAt slot = some e → ¬ e.epoch < m'.epoch
  copied : ∀ slot e, m.radixlog.entryAt slot = some e → e.epoch < m'.epoch → e.policy = .redo →
    ∀ i, e.extent.Covers i → ∃ j, e.dst + i = m.start + j ∧ m'.disk.bytes j = e.log i

/-- A commit drains the log exactly where there is nothing to drain. -/
theorem drained_iff_nothing_stale (m : Mmio) : ∃ m', m.commitMmio = .ok m' ∧
    (m.Drained m' ↔
      ∀ slot e, m.radixlog.entryAt slot = some e → ¬ e.epoch < (m.epoch + 1) % 2 ^ 64) := by
  refine ⟨_, commitMmio_spec m, fun hDrained => hDrained.swept, fun hNone => ⟨hNone, ?_⟩⟩
  intro slot e hEntry hStale
  exact absurd hStale (hNone slot e hEntry)

/-- A write leaves an entry, the commit asks for REDO, and the entry is still there. -/
theorem drained_fails_after_write : ∃ m m',
    Requests oneByteFile [.write true (fun _ => 2 ^ 21) 0 (fun _ => 1) 1] m ∧
    m.PolicyChange ∧ m.commitMmio = .ok m' ∧ ¬ m.Drained m' := by
  obtain ⟨m, slot, e, hWrite, hEntry, hLe, hEpoch⟩ := oneByteFile_opened.write_byte rfl (by decide)
  have hCounts := counts_step oneByteFile_opened.sound hWrite rfl
  have hRead : m.read = 0 := hCounts.read
  have hWrites : m.write = 1 := hCounts.write
  have hPolicy : m.policy = .undo := hCounts.policy
  refine ⟨m, _, .cons hWrite (.nil m), ⟨?_, ?_⟩, commitMmio_spec m, fun hDrained => ?_⟩
  · omega
  · rw [hRead, hWrites, hPolicy]
    decide
  · apply hDrained.swept slot e hEntry
    dsimp only
    rw [hEpoch]
    exact Nat.lt_of_le_of_lt hLe (by decide)

end Mmio

end Libnvmmio

import Libnvmmio.Mmio.LastClose
import Libnvmmio.Mmio.UndoImage

/-! # The last commit under REDO

Writes go to the logs, and a log goes to the file only once a commit has
followed it. Runs are observed together with the contents at the last commit.
Whatever has been written since, the file with the committed logs shows these
contents, and a checkpoint or the last close leaves the file with them.
-/

namespace Libnvmmio.Mmio

open RangeCopy RadixLog Outcome GuardedRun

set_option autoImplicit false

section Retired

variable {m m' : Mmio} {slot : Slot} {s : LogSize} {b : Nat} {e e₁ : IdxEntry}

/-- The block of an entry that is not stale, or no longer, lacks no committed byte. -/
theorem retireStale_drained (hTidy : m.Tidy) (hHome : m.HomeForRedo) (hSlot : m.radixlog.SlotOf slot s b)
    (hEntry : m.radixlog.entryAt slot = some e) (h : m.retireStale e = .ok (m', e₁)) (a : Nat) :
    m'.disk.bytes a = if a / s.size = b / s.size then m.drained a else m.disk.bytes a := by
  have hOf : m.radixlog.entryOf b = some e := hSlot.entryOf.trans hEntry
  have hs : e.logSize = s := hTidy.sound.entryOf_size hOf hSlot.find hSlot.size
  have hLodged := hTidy.lodged b e hSlot.in_span hOf
  have hDrained : a / s.size = b / s.size → m.drained a =
      if (e.policy = .redo ∧ e.epoch < m.epoch) ∧ e.extent.Covers (a % e.logSize.size) then
        e.log (a % e.logSize.size) else m.disk.bytes a := by
    intro hBlock
    apply through_some
    exact hTidy.sound.entryOf_congr_block hOf (by rw [hs]; exact hBlock.symm)
  unfold retireStale at h
  split at h
  · rename_i hStale
    obtain ⟨m₂, hStore, hDone⟩ := bind_eq_ok h
    cases hDone
    have hRedoHome : e.policy = .redo → 0 < e.len → e.dst = m.start + e.logSize.blockStart b := by
      intro hRedo hLen
      exact hHome ((hLodged hLen).policy_eq.symm.trans hRedo) b e hSlot.in_span hOf hLen
    obtain ⟨bytes, hStore', hBytes⟩ := storeRedo_home hLodged hRedoHome
    rw [hStore'] at hStore
    cases hStore
    change bytes a = _
    rw [hBytes, hs]
    split
    · rename_i hCopied
      obtain ⟨hRedo, hBlock, hCovers⟩ := hCopied
      rw [if_pos hBlock, hDrained hBlock, hs, if_pos ⟨⟨hRedo, hStale⟩, hCovers⟩]
    · rename_i hNot
      split
      · rename_i hBlock
        rw [hDrained hBlock, hs, if_neg]
        rintro ⟨⟨hRedo, _⟩, hCovers⟩
        exact hNot ⟨hRedo, hBlock, hCovers⟩
      · rfl
  · rename_i hCurrent
    cases h
    split
    · rename_i hBlock
      rw [hDrained hBlock, if_neg]
      rintro ⟨⟨_, hStale⟩, _⟩
      exact hCurrent hStale
    · rfl

end Retired

section Written

variable {m : Mmio} {remap : Nat → Nat} {off : Nat} {buf : Nat → UInt8} {len n : Nat} {m₁ : Mmio}
  {slot : Slot} {s : LogSize} {bytes : Nat → UInt8} {e₁ e : IdxEntry} {m' : Mmio}

/-- Under REDO a write stores nothing to the file but what it retires. -/
theorem WriteStages.retired (h : WriteStages m remap off buf len m₁ slot s bytes e₁ e m')
    (hOk : mmioWrite true remap m off buf len = .ok (m', n)) (hRedo : m₁.policy = .redo) :
    ∃ e₀ m₂ e₂, m₁.radixlog.entryAt slot = some e₀ ∧ m₁.retireStale e₀ = .ok (m₂, e₂) ∧
      bytes = m₂.disk.bytes := by
  obtain ⟨m₀, m₁', head, m₃, c, hGrow, hLock, hWrite, hFinish, _⟩ := mmioWrite_phases hOk
  rw [ensureMapped_eq_ok hGrow, h.lock] at hLock
  cases hLock
  obtain ⟨⟨m₄, c₄⟩, hEntry, hDone⟩ := bind_eq_ok hWrite
  cases hDone
  obtain ⟨e₀, m₂, e₂, e₃, hAt, hRetire, _, rfl⟩ := writeEntry_parts hEntry
  have hPolicy : m₂.policy = .redo := by
    unfold retireStale at hRetire
    split at hRetire
    · obtain ⟨⟨_, rfl⟩, _⟩ := checkpointEntry_eq_ok hRetire
      exact hRedo
    · cases hRetire
      exact hRedo
  refine ⟨e₀, m₂, e₂, hAt, hRetire, ?_⟩
  have hKept : m'.disk.bytes = m₂.disk.bytes := by
    obtain ⟨m₅, hFile, hLast⟩ := bind_eq_ok hFinish
    rw [updateFile] at hFile
    dsimp only at hFile
    rw [hPolicy] at hFile
    cases hFile
    split at hLast <;> cases hLast <;> rfl
  rw [← hKept, h.result, hRedo]
  rfl

theorem WriteStages.drained (h : WriteStages m remap off buf len m₁ slot s bytes e₁ e m')
    (hOk : mmioWrite true remap m off buf len = .ok (m', n)) (hTidy : m₁.Tidy) (hHome : m₁.HomeForRedo)
    (hRedo : m₁.policy = .redo) (hTag : ¬ e.epoch < m₁.epoch) {a : Nat}
    (ha : a < m₁.radixlog.skipType.span) : m'.drained a = m₁.drained a := by
  obtain ⟨e₀, m₂, e₂, hEntry, hRetire, rfl⟩ := h.retired hOk hRedo
  have hBytes := retireStale_drained hTidy hHome h.slot_of hEntry hRetire a
  have hResult : m'.disk.bytes = m₂.disk.bytes := by
    rw [h.result, hRedo]
    rfl
  have hEpoch : m'.epoch = m₁.epoch := by rw [h.result]
  have hOf := h.entryOf ha
  rw [← hResult] at hBytes
  unfold Mmio.drained
  rw [hEpoch]
  by_cases hBlock : a / s.size = off / s.size
  · rw [if_pos hBlock] at hBytes hOf
    rw [through_some hOf, if_neg, hBytes]
    · rfl
    · rintro ⟨⟨_, hStale⟩, _⟩
      exact hTag hStale
  · rw [if_neg hBlock] at hBytes hOf
    rw [through_congr _ hOf]
    exact through_congr_bytes hBytes

end Written

/-- The invariant: the file with the committed logs shows the last commit. -/
structure CommitKept (committed : Nat → UInt8) (m : Mmio) : Prop where
  settled : m.Settled True
  redo : m.policy = .redo
  small : m.epoch < 2 ^ 20
  tags : m.radixlog.EachEntry fun _ e => e.epoch ≤ m.epoch
  shows : ∀ a, a < m.radixlog.skipType.span → m.drained a = committed a

section CommitKept

variable {committed : Nat → UInt8} {m : Mmio}

theorem Opened.commitKept (h : m.Opened) (hRedo : m.policy = .redo) (hSmall : m.epoch < 2 ^ 20) :
    CommitKept m.contents m where
  settled := h.settled fun _ => trivial
  redo := hRedo
  small := hSmall
  tags a e _ hEntry := by
    rw [h.entryOf] at hEntry
    cases hEntry
  shows a _ := (through_none (h.entryOf a)).trans (through_none (h.entryOf a)).symm

theorem CommitKept.grown (h : CommitKept committed m) (remap : Nat → Nat) (target : Nat)
    (hStill : m.grownStart remap target = m.start ∨ m.NoData) :
    CommitKept committed (m.grown remap target) where
  settled := h.settled.grown remap target fun _ => hStill
  redo := h.redo
  small := h.small
  tags := h.tags
  shows a ha := by
    have hSame : (m.grown remap target).drained a = m.drained a := by
      apply through_congr_bytes
      rw [grown_bytes]
    exact hSame.trans (h.shows a ha)

theorem CommitKept.locked {m' : Mmio} {head : List Slot} (h : CommitKept committed m)
    (hLocked : LockRun m [] m' head) : CommitKept committed m' := by
  have hSound := h.settled.tidy.sound
  have hSettled := h.settled.locked hLocked
  have hAcq := hLocked.acquires
  have hMod := Nat.mod_le m.epoch (2 ^ 20)
  obtain ⟨⟨r, k, rfl⟩, _, _⟩ := hLocked
  refine ⟨hSettled, h.redo, h.small, ?_, fun a ha => ?_⟩
  · apply hAcq.eachEntry hSound h.tags
    intro a e hFresh
    rw [hFresh.epoch]
    exact hMod
  · rw [hAcq.skipType hSound] at ha
    exact (hAcq.through hSound _ _ a).trans (h.shows a ha)

theorem CommitKept.commit (h : CommitKept committed m) (hNext : m.epoch + 1 < 2 ^ 20) :
    CommitKept m.contents { m with
      epoch := (m.epoch + 1) % 2 ^ 64, read := 0, write := 0, wrlocked := false } := by
  have hEpoch : (m.epoch + 1) % 2 ^ 64 = m.epoch + 1 := Nat.mod_eq_of_lt (by omega)
  rw [hEpoch]
  refine ⟨⟨⟨h.settled.tidy.sound, h.settled.tidy.lodged, rfl, h.settled.tidy.mapped⟩, h.settled.watched,
    h.settled.at_home⟩, h.redo, hNext, fun a e ha hEntry => ?_, fun a ha => ?_⟩
  · exact Nat.le_succ_of_le (h.tags a e ha hEntry)
  · -- every log is committed now
    unfold drained contents
    cases hOf : m.radixlog.entryOf a with
    | none => rw [through_none hOf, through_none hOf]
    | some e =>
      have hTag : e.epoch < m.epoch + 1 := Nat.lt_succ_of_le (h.tags a e ha hOf)
      rw [through_some hOf, through_some hOf]
      simp only [hTag, and_true]

theorem CommitKept.checkpoint {m' : Mmio} (h : CommitKept committed m) (hDone : m.CheckpointDone m') :
    CommitKept committed m' := by
  have hChecked := hDone.checkpointed
  have hType := hChecked.same.skipType
  have hRedo : m'.policy = .redo := by
    obtain ⟨r, bytes, rfl⟩ := hChecked.frame
    exact h.redo
  refine ⟨h.settled.checkpoint hDone, hRedo, by rw [hChecked.epoch]; exact h.small, fun a e ha hEntry => ?_,
    fun a ha => ?_⟩
  · rw [hType] at ha
    rw [hChecked.epoch]
    rcases hChecked.entryOf a with hSame | ⟨hNone, _⟩
    · exact h.tags a e ha (hSame ▸ hEntry)
    · rw [hNone] at hEntry
      cases hEntry
  · rw [hType] at ha
    rw [hDone.drained a ha]
    exact h.shows a ha

section Written

variable {remap : Nat → Nat} {off len n : Nat} {buf : Nat → UInt8} {m₁ m' : Mmio} {slot : Slot}
  {s : LogSize} {bytes : Nat → UInt8} {e₁ e : IdxEntry}

theorem CommitKept.written_tag (h : CommitKept committed m₁)
    (hStages : WriteStages m remap off buf len m₁ slot s bytes e₁ e m') : e.epoch = m₁.epoch := by
  rw [hStages.stored.epoch]
  rcases hStages.prepared.tag with hTag | ⟨hEntry, hCurrent⟩
  · rw [hTag, Nat.mod_eq_of_lt h.small]
  · have hOf : m₁.radixlog.entryOf off = some e₁ := hStages.slot_of.entryOf.trans hEntry
    have hLe := h.tags off e₁ hStages.slot_of.in_span hOf
    omega

theorem CommitKept.written (h : CommitKept committed m) (hSteady : m.SteadyBase remap off len)
    (hOk : mmioWrite true remap m off buf len = .ok (m', n))
    (hStages : WriteStages m remap off buf len m₁ slot s bytes e₁ e m') : CommitKept committed m' := by
  have h₁ := (h.grown remap (off + len) hSteady.still).locked hStages.locked
  have hTag := h₁.written_tag hStages
  have hTidy' := hStages.tidy h.settled.tidy
  have hHome' := hStages.atHome h.settled.tidy (h.settled.at_home trivial) hSteady
  have hFrame := hStages.writeFrame h.settled.tidy
  have hSame := sameDirectory_setEntry m₁.radixlog slot (some e)
  have hEpoch : m'.epoch = m₁.epoch := by rw [hStages.result]
  have hType : m'.radixlog.skipType = m₁.radixlog.skipType := by
    rw [hStages.result]
    exact hSame.skipType
  refine ⟨⟨hTidy', fun _ => trivial, fun _ => hHome'⟩, hFrame.policy.trans h.redo,
    hEpoch ▸ h₁.small, ?_, fun a ha => ?_⟩
  · rw [hEpoch, hStages.result]
    apply EachEntry.setEntry h₁.tags h₁.settled.tidy.sound.wellFormed hStages.slot_of
    rintro a e' _ ⟨⟩
    exact Nat.le_of_eq hTag
  · rw [hType] at ha
    rw [hStages.drained hOk h₁.settled.tidy h₁.settled.homeForRedo h₁.redo (by omega) ha]
    exact h₁.shows a ha

end Written

end CommitKept

structure Versioned where
  mmio : Mmio
  committed : Nat → UInt8

namespace Versioned

def first (m : Mmio) : Versioned := ⟨m, m.contents⟩

def after (v : Versioned) (request : Request) (m' : Mmio) : Versioned :=
  match request with
  | .write _ _ _ _ _ => ⟨m', v.committed⟩
  | .read _ _ _ => ⟨m', v.committed⟩
  | .commit => ⟨m', v.mmio.contents⟩
  | .checkpoint => ⟨m', v.committed⟩

def Step (v : Versioned) (request : Request) (v' : Versioned) : Prop :=
  ∃ m' reply, v.mmio.perform request = .ok (m', reply) ∧ v' = v.after request m'

/-- Writes stay in one block over a steady base, and the epochs fit the tags. -/
def Steady (v : Versioned) (request : Request) : Prop :=
  SafeRequest True v.mmio request ∧ (request = .commit → v.mmio.epoch + 1 < 2 ^ 20)

structure RedoImage (v : Versioned) : Prop where
  /-- The committed logs over the file are the last commit. -/
  drained : ∀ a, a < v.mmio.radixlog.skipType.span → v.mmio.drained a = v.committed a
  /-- A byte of the file that is not yet up to date waits in a committed log of its block. -/
  behind : ∀ a, a < v.mmio.radixlog.skipType.span → v.mmio.disk.bytes a ≠ v.committed a →
    ∃ e, v.mmio.radixlog.entryOf a = some e ∧ e.epoch < v.mmio.epoch ∧
      e.extent.Covers (a % e.logSize.size) ∧ e.log (a % e.logSize.size) = v.committed a
  /-- What has been written since is in logs of the present epoch. -/
  pending : ∀ a, a < v.mmio.radixlog.skipType.span → v.mmio.contents a ≠ v.committed a → v.mmio.LoggedAt a
  checkpoint : ∀ m', v.mmio.checkpointMmio = .ok m' →
    ∀ a, a < v.mmio.radixlog.skipType.span → m'.disk.bytes a = v.committed a
  close : ∀ fdWritable disk, v.mmio.closeMmio fdWritable = .ok disk →
    ∀ a, a < v.mmio.fsize → a < v.mmio.radixlog.skipType.span → disk.bytes a = v.committed a

end Versioned

section Runs

variable {v v' : Versioned} {request : Request}

theorem CommitKept.loggedAt {committed : Nat → UInt8} {m : Mmio} (h : CommitKept committed m) {a : Nat}
    (ha : a < m.radixlog.skipType.span) (hNew : m.contents a ≠ committed a) : m.LoggedAt a := by
  rw [← h.shows a ha] at hNew
  unfold contents drained at hNew
  cases hOf : m.radixlog.entryOf a with
  | none =>
    rw [through_none hOf, through_none hOf] at hNew
    exact absurd rfl hNew
  | some e =>
    have hTag := h.tags a e ha hOf
    rw [through_some hOf, through_some hOf] at hNew
    by_cases hCovers : e.policy = .redo ∧ e.extent.Covers (a % e.logSize.size)
    · refine ⟨e, hOf, ?_, hCovers.2⟩
      by_contra hOther
      exact hNew (by rw [if_pos hCovers, if_pos ⟨⟨hCovers.1, by omega⟩, hCovers.2⟩])
    · rw [if_neg hCovers, if_neg fun hIn => hCovers ⟨hIn.1.1, hIn.2⟩] at hNew
      exact absurd rfl hNew

theorem CommitKept.behind {committed : Nat → UInt8} {m : Mmio} (h : CommitKept committed m) {a : Nat}
    (ha : a < m.radixlog.skipType.span) (hOld : m.disk.bytes a ≠ committed a) :
    ∃ e, m.radixlog.entryOf a = some e ∧ e.epoch < m.epoch ∧ e.extent.Covers (a % e.logSize.size) ∧
      e.log (a % e.logSize.size) = committed a := by
  have hShows := h.shows a ha
  unfold drained at hShows
  cases hOf : m.radixlog.entryOf a with
  | none =>
    rw [through_none hOf] at hShows
    exact absurd hShows hOld
  | some e =>
    rw [through_some hOf] at hShows
    split at hShows
    · rename_i hIn
      exact ⟨e, rfl, hIn.1.2, hIn.2, hShows⟩
    · exact absurd hShows hOld

theorem CommitKept.redoImage (h : CommitKept v.committed v.mmio) (hBacked : v.mmio.Backed)
    (hSize : v.mmio.fsize ≤ v.mmio.mapLen) : v.RedoImage where
  drained := h.shows
  behind a ha hOld := h.behind ha hOld
  pending a ha hNew := h.loggedAt ha hNew
  checkpoint m' hOk a ha := by
    have hDone := checkpointMmio_eq_ok h.settled.tidy h.settled.homeForRedo hOk
    exact (hDone.bytes a ha).trans (h.shows a ha)
  close fdWritable disk hOk a ha hSpan := by
    obtain ⟨m', hCheckpoint, hDone⟩ := bind_eq_ok hOk
    cases hDone
    have hDone := checkpointMmio_eq_ok h.settled.tidy h.settled.homeForRedo hCheckpoint
    have hStep : Steps perform v.mmio .checkpoint m' := ⟨.done, by rw [perform, hCheckpoint, ok_bind]⟩
    have hBacked' := hBacked.step hStep
    have hSame : m'.fsize = v.mmio.fsize ∧ m'.mapLen = v.mmio.mapLen := by
      obtain ⟨r, bytes, hFrame⟩ := hDone.checkpointed.frame
      rw [hFrame]
      exact ⟨rfl, rfl⟩
    have hKept := (releaseMmio_spec hBacked' (by omega) fdWritable (i := a) (by omega)).2
    exact hKept.trans ((hDone.bytes a hSpan).trans (h.shows a hSpan))

theorem CommitKept.step (h : CommitKept v.committed v.mmio)
    (hStep : Guarded Versioned.Steady Versioned.Step v request v') : CommitKept v'.committed v'.mmio := by
  obtain ⟨⟨hSafe, hCommit⟩, m', reply, hOk, rfl⟩ := hStep
  rcases perform_cases h.settled.tidy.sound hOk with
    ⟨fdWritable, remap, off, buf, len, n, m₁, m₂, rfl, _, _⟩ |
    ⟨off, buf, len, n, buf', m₁, head, rfl, _, hLocked, rfl⟩ | ⟨rfl, _, rfl⟩ |
    ⟨rfl, _, hCheckpoint, _⟩
  · obtain ⟨⟨m₃, n₃⟩, hWrite, hDone⟩ := bind_eq_ok hOk
    cases hDone
    obtain ⟨hBlock, hSteady⟩ := hSafe
    rcases mmioWrite_inBlock h.settled hBlock hSteady hWrite with
      ⟨rfl, rfl⟩ | ⟨_, _, m₁, slot, s, bytes, e₁, e, hStages⟩
    · have hGrown := h.grown remap off (hSteady trivial).still
      obtain ⟨⟨⟨hSound, hLodged, hUnlocked, hMapped⟩, hWatched, hHome⟩, hRedo, hSmall, hTags, hShows⟩ := hGrown
      exact ⟨⟨⟨hSound, hLodged, hUnlocked, hMapped⟩, hWatched, hHome⟩, hRedo, hSmall, hTags, hShows⟩
    · exact h.written (hSteady trivial) (mmioWrite_true_of_ok hWrite) hStages
  · obtain ⟨⟨⟨hSound, hLodged, hUnlocked, hMapped⟩, hWatched, hHome⟩, hRedo, hSmall, hTags, hShows⟩ :=
      h.locked hLocked
    exact ⟨⟨⟨hSound, hLodged, hUnlocked, hMapped⟩, hWatched, hHome⟩, hRedo, hSmall, hTags, hShows⟩
  · exact h.commit (hCommit rfl)
  · exact h.checkpoint (checkpointMmio_eq_ok h.settled.tidy h.settled.homeForRedo hCheckpoint)

/-- Reads and writes in one block keep the file size within the mapping. -/
theorem Settled.fsize_le_mapLen {m m' : Mmio} (h : m.Settled True) (hSafe : SafeRequest True m request)
    (hStep : Steps perform m request m') (hSize : m.fsize ≤ m.mapLen) : m'.fsize ≤ m'.mapLen := by
  obtain ⟨reply, hOk⟩ := hStep
  rcases perform_cases h.tidy.sound hOk with
    ⟨fdWritable, remap, off, buf, len, n, m₁, m₂, rfl, _, _⟩ |
    ⟨_, _, _, _, _, m₁, head, _, _, hRun, rfl⟩ | ⟨_, _, rfl⟩ | ⟨_, _, _, hCheckpoint⟩
  · obtain ⟨⟨m₃, n₃⟩, hWrite, hDone⟩ := bind_eq_ok hOk
    cases hDone
    obtain ⟨hBlock, hSteady⟩ := hSafe
    rcases mmioWrite_inBlock h hBlock hSteady hWrite with
      ⟨rfl, rfl⟩ | ⟨_, _, m₁, slot, s, bytes, e₁, e, hStages⟩
    · have hGrown := le_grownLen m.mapLen off
      change max m.fsize off ≤ grownLen m.mapLen off
      omega
    · have hFrame := hStages.writeFrame h.tidy
      have hGrown := le_grownLen m.mapLen (off + len)
      rw [hFrame.fsize, hFrame.mapLen]
      omega
  · obtain ⟨r, k, hFrame⟩ := hRun.frame
    rw [hFrame]
    exact hSize
  · exact hSize
  · obtain ⟨r, bytes, rfl⟩ := hCheckpoint.frame
    exact hSize

namespace Versioned

/-- In every state of a run the file and its logs determine the last commit, a checkpoint
brings the file to it, and so does the last close. -/
theorem redoImage_of_run {m : Mmio} {requests : List Request} {v : Versioned} (hOpen : m.Opened)
    (hRedo : m.policy = .redo) (hSmall : m.epoch < 2 ^ 20)
    (hRun : Run (Guarded Steady Step) (first m) requests v) : v.RedoImage := by
  have hKept : CommitKept v.committed v.mmio ∧ v.mmio.Backed ∧ v.mmio.fsize ≤ v.mmio.mapLen := by
    apply hRun.invariant fun v => CommitKept v.committed v.mmio ∧ v.mmio.Backed ∧ v.mmio.fsize ≤ v.mmio.mapLen
    · rintro v request v' ⟨hKept, hBacked, hSize⟩ hStep
      obtain ⟨m', reply, hOk, hAfter⟩ := hStep.2
      have hPerform : Steps perform v.mmio request v'.mmio := by
        refine ⟨reply, ?_⟩
        rw [hAfter, hOk]
        cases request <;> rfl
      exact ⟨hKept.step hStep, hBacked.step hPerform,
        hKept.settled.fsize_le_mapLen hStep.1.1 hPerform hSize⟩
    · exact ⟨hOpen.commitKept hRedo hSmall, hOpen.backed, hOpen.fsize_le⟩
  obtain ⟨hKept, hBacked, hSize⟩ := hKept
  exact hKept.redoImage hBacked hSize

theorem redoImage_redoByteFile : ∃ v, Run (Guarded Steady Step) (first redoByteFile)
    [.write true (fun _ => 2 ^ 21) 0 (fun _ => 9) 1, .commit] v ∧ v.RedoImage := by
  have hOpen := redoByteFile_opened
  have hSettled : redoByteFile.Settled True := hOpen.settled fun _ => trivial
  have hSafe : SafeRequest True redoByteFile (.write true (fun _ => 2 ^ 21) 0 (fun _ => 9) 1) :=
    ⟨inBlock_of_le_page _ (by decide), fun _ => ⟨Nat.mod_eq_zero_of_dvd (LogSize.size_dvd _), .inl rfl⟩⟩
  obtain ⟨m₁, hOk⟩ := hSettled.exists_write (fun _ => 2 ^ 21) (fun _ => 9) hSafe.1 hSafe.2
  have hEpoch : m₁.epoch = 0 := by
    obtain ⟨⟨m₃, n₃⟩, hWrite, hDone⟩ := bind_eq_ok hOk
    cases hDone
    obtain ⟨_, m₂, hWritten⟩ := mmioWrite_eq_ok hOpen.sound hWrite
    obtain ⟨r, k, hFrame⟩ := hWritten.locked.frame
    obtain ⟨r', bytes, hFrame'⟩ := hWritten.entries.frame
    obtain ⟨bytes', rfl⟩ := hWritten.finished
    rw [hFrame', hFrame]
    rfl
  have hCommit : m₁.perform .commit = .ok ({ m₁ with
      epoch := (m₁.epoch + 1) % 2 ^ 64, read := 0, write := 0, wrlocked := false }, .done) := by
    rw [perform, commitMmio_spec, ok_bind]
  have hRun : Run (Guarded Steady Step) (first redoByteFile)
      [.write true (fun _ => 2 ^ 21) 0 (fun _ => 9) 1, .commit] _ :=
    .cons ⟨⟨hSafe, fun hIs => (by cases hIs)⟩, m₁, _, hOk, rfl⟩
      (.cons ⟨⟨trivial, fun _ => by change m₁.epoch + 1 < 2 ^ 20; omega⟩, _, _, hCommit, rfl⟩ (.nil _))
  exact ⟨_, hRun, redoImage_of_run hOpen rfl (by decide) hRun⟩

end Versioned

end Runs

end Libnvmmio.Mmio

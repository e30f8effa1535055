import Libnvmmio.Mmio.Requests

/-! # Runs that keep an object settled

The invariant of runs whose writes stay in one log block within the span.
`home` is the proposition under which the destinations are watched too: always,
or only when the object logs under REDO.
-/

namespace Libnvmmio.Mmio

open RangeCopy RadixLog Outcome GuardedRun

set_option autoImplicit false

/-- A tidy object whose entries are at home when that is watched, as it must be under REDO. -/
structure Settled (home : Prop) (m : Mmio) : Prop where
  tidy : m.Tidy
  watched : m.policy = .redo → home
  at_home : home → m.AtHome

def SafeRequest (home : Prop) (m : Mmio) : Request → Prop
  | .write _ remap off _ len => m.InBlock off len ∧ (home → m.SteadyBase remap off len)
  | .read _ _ _ => True
  | .commit => True
  | .checkpoint => True

variable {home : Prop} {m : Mmio}

theorem Opened.settled (h : m.Opened) (hWatched : m.policy = .redo → home) : m.Settled home :=
  ⟨h.tidy, hWatched, fun _ => h.atHome⟩

theorem Settled.homeForRedo (h : m.Settled home) : m.HomeForRedo :=
  fun hRedo => h.at_home (h.watched hRedo)

theorem Settled.grown (h : m.Settled home) (remap : Nat → Nat) (target : Nat)
    (hStill : home → m.grownStart remap target = m.start ∨ m.NoData) :
    (m.grown remap target).Settled home :=
  ⟨h.tidy.grown remap target, h.watched, fun hHome => (h.at_home hHome).grown remap target (hStill hHome)⟩

theorem Settled.locked {m' : Mmio} {head : List Slot} (h : m.Settled home)
    (hLocked : LockRun m [] m' head) : m'.Settled home := by
  have hTidy := hLocked.tidy h.tidy
  have hHome := fun hHome => hLocked.atHome h.tidy.sound (h.at_home hHome)
  obtain ⟨⟨r, k, rfl⟩, _, _⟩ := hLocked
  exact ⟨hTidy, h.watched, hHome⟩

theorem mmioWrite_inBlock {m' : Mmio} {fdWritable : Bool} {remap : Nat → Nat} {off len n : Nat}
    {buf : Nat → UInt8} (h : m.Settled home) (hBlock : m.InBlock off len)
    (hSteady : home → m.SteadyBase remap off len)
    (hOk : mmioWrite fdWritable remap m off buf len = .ok (m', n)) :
    (len = 0 ∧ m' = { m.grown remap off with write := m.write + 1, fsize := max m.fsize off }) ∨
    (0 < len ∧ n = len ∧ ∃ m₁ slot s bytes e₁ e,
      WriteStages m remap off buf len m₁ slot s bytes e₁ e m') := by
  have hTrue := mmioWrite_true_of_ok hOk
  rcases Nat.eq_zero_or_pos len with hZero | hPos
  · subst hZero
    rw [mmioWrite_zero] at hTrue
    exact .inl ⟨rfl, (congrArg Prod.fst (Except.ok.inj hTrue)).symm⟩
  · obtain ⟨m₁, slot, s, bytes, e₁, e, m'', hSpec, hStages⟩ := mmioWrite_stages remap buf h.tidy
      h.homeForRedo hBlock (fun hRedo => (hSteady (h.watched hRedo)).still) hPos
    rw [hSpec] at hTrue
    cases hTrue
    exact .inr ⟨hPos, rfl, m₁, slot, s, bytes, e₁, e, hStages⟩

theorem Settled.exists_write (h : m.Settled home) (remap : Nat → Nat) {off len : Nat}
    (buf : Nat → UInt8) (hBlock : m.InBlock off len) (hSteady : home → m.SteadyBase remap off len) :
    ∃ m', m.perform (.write true remap off buf len) = .ok (m', .wrote len) := by
  rcases Nat.eq_zero_or_pos len with hZero | hPos
  · subst hZero
    exact ⟨_, by rw [perform, mmioWrite_zero, ok_bind]⟩
  · obtain ⟨m₁, slot, s, bytes, e₁, e, m', hOk, _⟩ := mmioWrite_stages remap buf h.tidy
      h.homeForRedo hBlock (fun hRedo => (hSteady (h.watched hRedo)).still) hPos
    exact ⟨m', by rw [perform, hOk, ok_bind]⟩

theorem Settled.write {m' : Mmio} {fdWritable : Bool} {remap : Nat → Nat} {off len n : Nat}
    {buf : Nat → UInt8} (h : m.Settled home) (hBlock : m.InBlock off len)
    (hSteady : home → m.SteadyBase remap off len)
    (hOk : mmioWrite fdWritable remap m off buf len = .ok (m', n)) : m'.Settled home := by
  rcases mmioWrite_inBlock h hBlock hSteady hOk with
    ⟨rfl, rfl⟩ | ⟨_, _, m₁, slot, s, bytes, e₁, e, hStages⟩
  · obtain ⟨⟨hSound, hLodged, hUnlocked, hMapped⟩, hWatched, hHome⟩ :=
      h.grown remap off fun hHome => (hSteady hHome).still
    exact ⟨⟨hSound, hLodged, hUnlocked, hMapped⟩, hWatched, hHome⟩
  · have hPolicy := (hStages.writeFrame h.tidy).policy
    refine ⟨hStages.tidy h.tidy, fun hRedo => h.watched (hPolicy.symm.trans hRedo), fun hHome => ?_⟩
    exact hStages.atHome h.tidy (h.at_home hHome) (hSteady hHome)

theorem Settled.commit (h : m.Settled home) :
    Settled home { m with
      epoch := (m.epoch + 1) % 2 ^ 64, read := 0, write := 0, wrlocked := false } :=
  ⟨⟨h.tidy.sound, h.tidy.lodged, rfl, h.tidy.mapped⟩, h.watched, h.at_home⟩

theorem Settled.checkpoint {m' : Mmio} (h : m.Settled home) (hDone : m.CheckpointDone m') :
    m'.Settled home := by
  have hTidy := hDone.tidy
  have hHome := hDone.at_home
  obtain ⟨r, bytes, rfl⟩ := hDone.checkpointed.frame
  exact ⟨hTidy, h.watched, fun hh => hHome (h.at_home hh)⟩

theorem Settled.step {m' : Mmio} {request : Request} (h : m.Settled home)
    (hStep : Guarded (SafeRequest home) (Steps perform) m request m') : m'.Settled home := by
  obtain ⟨hSafe, reply, hOk⟩ := hStep
  rcases perform_cases h.tidy.sound hOk with
    ⟨fdWritable, remap, off, buf, len, n, m₁, m₂, rfl, _, _⟩ |
    ⟨off, buf, len, n, buf', m₁, head, rfl, _, hLocked, rfl⟩ | ⟨rfl, _, rfl⟩ |
    ⟨rfl, _, hCheckpoint, _⟩
  · obtain ⟨⟨m₃, n₃⟩, hWrite, hDone⟩ := bind_eq_ok hOk
    cases hDone
    exact h.write hSafe.1 hSafe.2 hWrite
  · obtain ⟨⟨hSound, hLodged, hUnlocked, hMapped⟩, hWatched, hHome⟩ := h.locked hLocked
    exact ⟨⟨hSound, hLodged, hUnlocked, hMapped⟩, hWatched, hHome⟩
  · exact h.commit
  · exact h.checkpoint (checkpointMmio_eq_ok h.tidy h.homeForRedo hCheckpoint)

abbrev SafeRun (home : Prop) : Mmio → List Request → Mmio → Prop :=
  Run (Guarded (SafeRequest home) (Steps perform))

theorem SafeRun.settled {m' : Mmio} {requests : List Request} (hRun : SafeRun home m requests m')
    (h : m.Settled home) : m'.Settled home :=
  hRun.invariant (Settled home) (fun _ _ _ hSettled hStep => hSettled.step hStep) h

end Libnvmmio.Mmio

import Libnvmmio.Foundation.GuardedRun
import Libnvmmio.Mmio.WriteSteps
import Mathlib.Data.Fintype.Lattice
import Mathlib.Order.Lattice.Nat
import Mathlib.Logic.Function.Basic

/-! # The size of a file that is written concurrently

The calls of `mmio_write` on one mmio hold its reader side, so the statement at
their end that raises `fsize` runs concurrently. The load, the comparison and
the store are one step each. A small size that passed the comparison must not
be overtaken by the store of a larger one.
-/

namespace Libnvmmio.FileSize

open GuardedRun

set_option autoImplicit false

/-- Where a call is in `if (mmio->fsize < offset + ret) mmio->fsize = offset + ret`. -/
inductive Phase where
  | load
  | compare (fsize : Nat)
  | store
  | returned
  deriving DecidableEq, Repr

structure State (C : Type) where
  fsize : Nat
  phase : C → Phase

variable {C : Type}

def init (fsize : Nat) : State C := ⟨fsize, fun _ => .load⟩

namespace State

variable [DecidableEq C]

def goto (s : State C) (c : C) (p : Phase) : State C :=
  { s with phase := Function.update s.phase c p }

@[simp] theorem goto_phase_self (s : State C) (c : C) (p : Phase) : (s.goto c p).phase c = p :=
  Function.update_self ..

theorem goto_phase_of_ne {c d : C} (hne : d ≠ c) (s : State C) (p : Phase) :
    (s.goto c p).phase d = s.phase d := Function.update_of_ne hne ..

variable (offset ret : C → Nat)

def next (s : State C) (c : C) : Option (State C) :=
  match s.phase c with
  | .load => some (s.goto c (.compare s.fsize))
  | .compare fsize => some (s.goto c (if fsize < offset c + ret c then .store else .returned))
  | .store => some { s.goto c .returned with fsize := offset c + ret c }
  | .returned => none

def Step (s : State C) (c : C) (s' : State C) : Prop := s.next offset ret c = some s'

/-- A call that has loaded a size below its own is going to store its own. -/
def Pending (s : State C) (c : C) : Prop :=
  s.phase c = .store ∨ ∃ fsize, s.phase c = .compare fsize ∧ fsize < offset c + ret c

/-- A call does not store while a call with a smaller size is going to. -/
def NotOvertaking (s : State C) (c : C) : Prop :=
  s.phase c = .store → ∀ d, s.Pending offset ret d → offset c + ret c ≤ offset d + ret d

def Raises (s : State C) (c : C) (s' : State C) : Prop := Step offset ret s c s' ∧ s.fsize ≤ s'.fsize

variable {offset ret} {s s' : State C} {c d : C}

inductive Effect (offset ret : C → Nat) (s : State C) (c : C) : State C → Prop where
  | load (hPhase : s.phase c = .load) : Effect offset ret s c (s.goto c (.compare s.fsize))
  | pass (fsize : Nat) (hPhase : s.phase c = .compare fsize) (hLess : fsize < offset c + ret c) :
      Effect offset ret s c (s.goto c .store)
  | fail (fsize : Nat) (hPhase : s.phase c = .compare fsize) (hGe : offset c + ret c ≤ fsize) :
      Effect offset ret s c (s.goto c .returned)
  | store (hPhase : s.phase c = .store) :
      Effect offset ret s c { s.goto c .returned with fsize := offset c + ret c }

theorem step_effect (h : Step offset ret s c s') : Effect offset ret s c s' := by
  unfold Step next at h
  split at h
  · cases h
    exact .load ‹_›
  · cases h
    rename_i fsize hPhase
    by_cases hLess : fsize < offset c + ret c
    · rw [if_pos hLess]
      exact .pass fsize hPhase hLess
    · rw [if_neg hLess]
      exact .fail fsize hPhase (by omega)
  · cases h
    exact .store ‹_›
  · cases h

theorem Effect.phase_of_ne (h : Effect offset ret s c s') (hne : d ≠ c) : s'.phase d = s.phase d := by
  cases h <;> exact goto_phase_of_ne hne ..

theorem Effect.pending_of_ne (h : Effect offset ret s c s') (hne : d ≠ c) :
    s'.Pending offset ret d ↔ s.Pending offset ret d := by
  rw [Pending, Pending, h.phase_of_ne hne]

omit [DecidableEq C] in
theorem not_pending_of_returned (h : s.phase c = .returned) : ¬ s.Pending offset ret c := by
  rintro (hStore | ⟨fsize, hCompare, _⟩)
  · rw [h] at hStore
    cases hStore
  · rw [h] at hCompare
    cases hCompare

/-! ## What is kept -/

structure Recorded (offset ret : C → Nat) (n : Nat) (s : State C) : Prop where
  initial : n ≤ s.fsize
  origin : s.fsize = n ∨ ∃ c, s.fsize = offset c + ret c
  seen : ∀ c fsize, s.phase c = .compare fsize → fsize ≤ s.fsize
  stored : ∀ c, s.phase c = .returned → offset c + ret c ≤ s.fsize

theorem Recorded.step {n : Nat} (h : Recorded offset ret n s) (hStep : Raises offset ret s c s') :
    Recorded offset ret n s' := by
  obtain ⟨hStep, hGrows⟩ := hStep
  have hEffect := step_effect hStep
  refine ⟨Nat.le_trans h.initial hGrows, ?_, fun d fsize hPhase => ?_, fun d hPhase => ?_⟩
  · cases hEffect with
    | load _ => exact h.origin
    | pass _ _ _ => exact h.origin
    | fail _ _ _ => exact h.origin
    | store _ => exact .inr ⟨c, rfl⟩
  · by_cases hd : d = c
    · subst hd
      cases hEffect with
      | load _ =>
        rw [goto_phase_self] at hPhase
        cases hPhase
        exact Nat.le_refl _
      | pass _ _ _ =>
        rw [goto_phase_self] at hPhase
        cases hPhase
      | fail _ _ _ =>
        rw [goto_phase_self] at hPhase
        cases hPhase
      | store _ =>
        rw [show _ = Phase.returned from goto_phase_self s d _] at hPhase
        cases hPhase
    · rw [hEffect.phase_of_ne hd] at hPhase
      exact Nat.le_trans (h.seen d fsize hPhase) hGrows
  · by_cases hd : d = c
    · subst hd
      cases hEffect with
      | load _ =>
        rw [goto_phase_self] at hPhase
        cases hPhase
      | pass _ _ _ =>
        rw [goto_phase_self] at hPhase
        cases hPhase
      | fail fsize hCompare hGe => exact Nat.le_trans hGe (h.seen d fsize hCompare)
      | store _ => exact Nat.le_refl _
    · rw [hEffect.phase_of_ne hd] at hPhase
      exact Nat.le_trans (h.stored d hPhase) hGrows

def Ahead (offset ret : C → Nat) (s : State C) : Prop :=
  ∀ c, s.Pending offset ret c → s.fsize ≤ offset c + ret c

theorem Ahead.step (h : Ahead offset ret s) (hGuard : s.NotOvertaking offset ret c)
    (hStep : Step offset ret s c s') : Ahead offset ret s' ∧ s.fsize ≤ s'.fsize := by
  have hEffect := step_effect hStep
  constructor
  · intro d hPending
    by_cases hd : d = c
    · subst hd
      cases hEffect with
      | load hPhase =>
        rcases hPending with hPhase' | ⟨fsize, hPhase', hLess⟩
        · rw [goto_phase_self] at hPhase'
          cases hPhase'
        · rw [goto_phase_self] at hPhase'
          cases hPhase'
          exact Nat.le_of_lt hLess
      | pass fsize hPhase hLess => exact h d (.inr ⟨fsize, hPhase, hLess⟩)
      | fail _ _ _ => exact absurd hPending (not_pending_of_returned (goto_phase_self ..))
      | store _ => exact Nat.le_refl _
    · have hPending' := (hEffect.pending_of_ne hd).mp hPending
      cases hEffect with
      | load _ => exact h d hPending'
      | pass _ _ _ => exact h d hPending'
      | fail _ _ _ => exact h d hPending'
      | store hPhase => exact hGuard hPhase d hPending'
  · cases hEffect with
    | load _ => exact Nat.le_refl _
    | pass _ _ _ => exact Nat.le_refl _
    | fail _ _ _ => exact Nat.le_refl _
    | store hPhase => exact h c (.inl hPhase)

/-- A call whose size has been passed lowers `fsize` before it returns. -/
theorem pending_of_raises {as : List C} (h : Run (Raises offset ret) s as s')
    (hPending : s.Pending offset ret d) (hPassed : offset d + ret d < s.fsize) :
    s'.Pending offset ret d := by
  have hKept := h.invariant (fun s => s.Pending offset ret d ∧ offset d + ret d < s.fsize)
    (fun s c s' ⟨hPending, hPassed⟩ ⟨hStep, hGrows⟩ => by
      have hEffect := step_effect hStep
      refine ⟨?_, Nat.lt_of_lt_of_le hPassed hGrows⟩
      by_cases hd : d = c
      · subst hd
        cases hEffect with
        | load hPhase =>
          rcases hPending with hPhase' | ⟨fsize, hPhase', _⟩
          · rw [hPhase] at hPhase'
            cases hPhase'
          · rw [hPhase] at hPhase'
            cases hPhase'
        | pass _ _ _ => exact .inl (goto_phase_self ..)
        | fail fsize hPhase hGe =>
          rcases hPending with hPhase' | ⟨fsize', hPhase', hLess⟩
          · rw [hPhase] at hPhase'
            cases hPhase'
          · rw [hPhase] at hPhase'
            cases hPhase'
            omega
        | store _ =>
          dsimp only at hGrows
          omega
      · exact (hEffect.pending_of_ne hd).mpr hPending)
    ⟨hPending, hPassed⟩
  exact hKept.1

/-! ## Every interleaving -/

theorem raises_of_notOvertaking {as : List C}
    (h : Run (Guarded (NotOvertaking offset ret) (Step offset ret)) s as s') (hs : Ahead offset ret s) :
    Run (Raises offset ret) s as s' := by
  induction h with
  | nil s => exact .nil s
  | cons hHead _ ih =>
    obtain ⟨hAhead, hGrows⟩ := hs.step hHead.1 hHead.2
    exact .cons ⟨hHead.2, hGrows⟩ (ih hAhead)

theorem notOvertaking_of_raises {as : List C} (h : Run (Raises offset ret) s as s')
    (hDone : ∀ c, s'.phase c = .returned) :
    Run (Guarded (NotOvertaking offset ret) (Step offset ret)) s as s' := by
  induction h with
  | nil s => exact .nil s
  | cons hHead hTail ih =>
    refine .cons ⟨fun hStore d hPending => ?_, hHead.1⟩ (ih hDone)
    rename_i s t r c as
    -- otherwise `d` would still be waiting at the end
    by_contra hLess
    have hEffect := step_effect hHead.1
    have hd : d ≠ c := by
      rintro rfl
      omega
    have hSize : t.fsize = offset c + ret c := by
      cases hEffect with
      | load hPhase | pass _ hPhase _ | fail _ hPhase _ =>
        rw [hStore] at hPhase
        cases hPhase
      | store _ => rfl
    exact not_pending_of_returned (hDone d)
      (pending_of_raises hTail ((hEffect.pending_of_ne hd).mpr hPending) (by omega))

/-- The size never fell, and it is the largest in the end. -/
structure SizeKept [Fintype C] (offset ret : C → Nat) (n : Nat) (as : List C) (s : State C) : Prop where
  grows : Run (Raises offset ret) (init n) as s
  largest : s.fsize = max n (Finset.univ.sup fun c => offset c + ret c)

theorem sizeKept_iff [Fintype C] {n : Nat} {as : List C}
    (hDone : ∀ c, s.phase c = .returned) :
    SizeKept offset ret n as s ↔ Run (Guarded (NotOvertaking offset ret) (Step offset ret)) (init n) as s := by
  constructor
  · intro hKept
    exact notOvertaking_of_raises hKept.grows hDone
  · intro hGuarded
    have hAhead : Ahead offset ret (init n) := by
      rintro c (hPhase | ⟨_, hPhase, _⟩)
      · cases hPhase
      · cases hPhase
    have hGrows := raises_of_notOvertaking hGuarded hAhead
    have hRecorded := hGrows.invariant (Recorded offset ret n) (fun _ _ _ hInv hStep => hInv.step hStep)
      ⟨Nat.le_refl n, .inl rfl, fun c fsize hPhase => (by cases hPhase), fun c hPhase => (by cases hPhase)⟩
    refine ⟨hGrows, Nat.le_antisymm ?_ ?_⟩
    · rcases hRecorded.origin with hEq | ⟨c, hEq⟩
      · rw [hEq]
        exact Nat.le_max_left ..
      · rw [hEq]
        exact Nat.le_trans (Finset.le_sup (f := fun c => offset c + ret c) (Finset.mem_univ c))
          (Nat.le_max_right ..)
    · refine Nat.max_le.mpr ⟨hRecorded.initial, Finset.sup_le fun c _ => ?_⟩
      exact hRecorded.stored c (hDone c)

theorem step_compare {fsize : Nat} (hPhase : s.phase c = .compare fsize) :
    Step offset ret s c (s.goto c (if fsize < offset c + ret c then .store else .returned)) := by
  rw [Step, next, hPhase]

/-- A call that nobody disturbs raises the size to its own. -/
theorem run_alone (hPhase : s.phase c = .load) : ∃ as s', (∀ d ∈ as, d = c) ∧
    Run (Step offset ret) s as s' ∧ s'.phase c = .returned ∧ s'.fsize = max s.fsize (offset c + ret c) := by
  have hLoad : Step offset ret s c (s.goto c (.compare s.fsize)) := by
    rw [Step, next, hPhase]
  have hCompare := @step_compare C _ offset ret _ c _ (s.goto_phase_self c (.compare s.fsize))
  by_cases hLess : s.fsize < offset c + ret c
  · rw [if_pos hLess] at hCompare
    have hStore : Step offset ret ((s.goto c (.compare s.fsize)).goto c .store) c
        { ((s.goto c (.compare s.fsize)).goto c .store).goto c .returned with
          fsize := offset c + ret c } := by
      rw [Step, next, goto_phase_self]
    refine ⟨[c, c, c], _, by simp, .cons hLoad (.cons hCompare (.cons hStore (.nil _))),
      goto_phase_self .., ?_⟩
    exact (Nat.max_eq_right (Nat.le_of_lt hLess)).symm
  · rw [if_neg hLess] at hCompare
    refine ⟨[c, c], _, by simp, .cons hLoad (.cons hCompare (.nil _)), goto_phase_self .., ?_⟩
    exact (Nat.max_eq_left (Nat.le_of_not_lt hLess)).symm

/-- That is what the end of `mmio_write` does for one thread. -/
theorem finishWrite_alone {m m' : Mmio} {buf : Nat → UInt8} {len : Nat}
    (hFinish : m.finishWrite (offset c) buf len (ret c) = .ok m') (hSize : s.fsize = m.fsize)
    (hPhase : s.phase c = .load) : ∃ as s', (∀ d ∈ as, d = c) ∧ Run (Step offset ret) s as s' ∧
      s'.phase c = .returned ∧ s'.fsize = m'.fsize := by
  obtain ⟨as, s', hOwn, hRun, hReturned, hFsize⟩ := @run_alone C _ offset ret s c hPhase
  obtain ⟨_, rfl⟩ := Mmio.finishWrite_eq_ok hFinish
  exact ⟨as, s', hOwn, hRun, hReturned, hFsize.trans (by rw [hSize])⟩

section Schedules

def offsets (c : Bool) : Nat := if c then 4096 else 0

def lengths (c : Bool) : Nat := if c then 20 else 10

theorem sizeKept_inTurn : ∃ s, (∀ c, s.phase c = .returned) ∧
    SizeKept offsets lengths 5 [true, false, false, false, true, true] s := by
  refine ⟨_, ?_, (sizeKept_iff ?_).mpr (.cons ⟨fun h => ?_, rfl⟩ (.cons ⟨fun h => ?_, rfl⟩
    (.cons ⟨fun h => ?_, rfl⟩ (.cons ⟨fun _ d _ => ?_, rfl⟩ (.cons ⟨fun h => ?_, rfl⟩
    (.cons ⟨fun _ d hPending => ?_, rfl⟩ (.nil _)))))))⟩
  · decide
  · decide
  · cases h
  · cases h
  · cases h
  · cases d <;> decide
  · cases h
  · cases d with
    | false => exact absurd hPending (not_pending_of_returned rfl)
    | true => exact Nat.le_refl _

/-- The first call compares first and stores last. -/
theorem sizeKept_fails_overtaken : ∃ s, Run (Step offsets lengths) (init 5)
      [false, false, true, true, true, false] s ∧
    (∀ c, s.phase c = .returned) ∧
    ¬ SizeKept offsets lengths 5 [false, false, true, true, true, false] s := by
  refine ⟨_, .cons rfl (.cons rfl (.cons rfl (.cons rfl (.cons rfl (.cons rfl (.nil _)))))), by decide,
    fun hKept => ?_⟩
  have hLargest := hKept.largest
  revert hLargest
  decide

end Schedules

end State

end Libnvmmio.FileSize

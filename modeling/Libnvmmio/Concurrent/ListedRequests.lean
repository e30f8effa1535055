import Libnvmmio.Concurrent.SharedLists
import Libnvmmio.Concurrent.Stages

/-! # Requests over the shared lists

A system of requests has the control of `Concurrent.State` as a part. When a request
is at `UNLOCK_ENTRIES`, the walk over its list takes the place of the releases that
the control has, and the request goes on when the list ends.
-/

namespace Libnvmmio.SharedLists

open Concurrent.State (locateBlock)
open GuardedRun Mmio RadixLog

set_option autoImplicit false
set_option linter.unusedSectionVars false

variable {T E σ α : Type}

/-- A system with the control of requests as a part. -/
structure Controlled (T E σ α : Type) where
  Step : σ → T × α → σ → Prop
  Guard : σ → T × α → Prop
  Proper : σ → T × α → Prop
  control : σ → Concurrent.State T E RadixLog
  setControl : σ → Concurrent.State T E RadixLog → σ
  act : α → Option (Concurrent.Act Unit E)
  /-- the thread is in its request, and in no other function -/
  Ready : σ → T → Prop

def entryOf : Concurrent.Act Unit E → Option (EntrySlots.State.Act Slot E)
  | .entry a => some a
  | _ => none

namespace Controlled

/-- The walk over the list is between the stages `unlock` and `leave`. -/
def host [DecidableEq T] (C : Controlled T E σ α) : Host T Slot E σ α where
  Step := C.Step
  Guard := C.Guard
  Proper := C.Proper
  base s := (C.control s).base
  setBase s b := C.setControl s { C.control s with base := b }
  entry a := (C.act a).bind entryOf
  AtUnlock s t := C.Ready s t ∧ (C.control s).base.calls t = .idle ∧ ∃ type, (C.control s).stages t = .unlock type
  Leaves s t a := C.act a = some .step ∧ ∃ type, (C.control s).stages t = .unlock type
  leave s t := C.setControl s ((C.control s).goto t .leave)

variable [DecidableEq T] [DecidableEq E]

structure Lawful (C : Controlled T E σ α) : Prop where
  step_act : ∀ s t a s' c, C.act a = some c → C.Step s (t, a) s' →
    (C.control s).Step locateBlock (t, c) (C.control s')
  step_other : ∀ s t a s', C.act a = none → C.Step s (t, a) s' →
    (C.control s').base = (C.control s).base ∧ ∀ u, u ≠ t → (C.control s').stages u = (C.control s).stages u
  step_ready : ∀ s t a s' u, C.Step s (t, a) s' → u ≠ t → C.Ready s u → C.Ready s' u
  guard : ∀ s t a, C.Proper s (t, a) → (∀ c, C.act a = some c → (C.control s).StillInstalled (t, c)) →
    C.Guard s (t, a)
  control_setControl : ∀ s c, C.control (C.setControl s c) = c
  setControl_control : ∀ s, C.setControl s (C.control s) = s
  ready_setControl : ∀ s c u, C.Ready s u → C.Ready (C.setControl s c) u
  /-- the control takes its own steps at `UNLOCK_ENTRIES` -/
  lift : ∀ s t type c c', C.Ready s t → (C.control s).stages t = .unlock type →
    (∃ k, c = .entry (.unlock k)) ∨ c = .step → (C.control s).Step locateBlock (t, c) c' →
    ∃ a, Guarded C.Guard C.Step s (t, a) (C.setControl s c')

variable {C : Controlled T E σ α}

theorem step_of_unlock {c : Concurrent.State T E RadixLog} {t : T} {type : LockType} {k : EntrySlots.Hold Slot E}
    {b : EntrySlots.State T Slot E} (hStage : c.stages t = .unlock type) (hBase : c.base.Step (t, .unlock k) b) :
    c.Step locateBlock (t, .entry (.unlock k)) { c with base := b } := by
  have hSame : c.goto t (.unlock type) = c := by rw [Concurrent.State.goto, ← hStage, Function.update_eq_self]
  change c.access t (.unlock k) = _
  unfold Concurrent.State.access
  rw [hStage]
  refine (if_pos rfl).trans (Option.bind_eq_some_iff.mpr ⟨b, hBase, ?_⟩)
  unfold Concurrent.State.afterAccess Concurrent.State.tagAfter
  dsimp only
  rw [hSame]

theorem base_step_of_entry {c c' : Concurrent.State T E RadixLog} {t : T} {a : EntrySlots.State.Act Slot E}
    (hStep : c.Step locateBlock (t, .entry a) c') : c.base.Step (t, a) c'.base := by
  obtain ⟨_, hDone⟩ := Option.ite_none_right_eq_some.mp hStep
  obtain ⟨base, hBase, hDone⟩ := Option.bind_eq_some_iff.mp hDone
  cases hDone
  exact hBase

theorem host_lawful (hC : C.Lawful) : C.host.Lawful where
  step_entry s t a s' act hEntry hStep := by
    obtain ⟨c, hAct, hIs⟩ := Option.bind_eq_some_iff.mp hEntry
    cases c with
    | entry _ =>
      cases hIs
      exact base_step_of_entry (hC.step_act s t a s' _ hAct hStep)
    | _ => cases hIs
  step_other s t a s' hEntry hStep := by
    cases hAct : C.act a with
    | none => exact .inl (hC.step_other s t a s' hAct hStep).1
    | some c =>
      have hControl := hC.step_act s t a s' c hAct hStep
      rcases (Concurrent.State.step_effect locateBlock hControl).base_cases with hSame | ⟨act, hBase, hIs⟩
      · exact .inl hSame
      · rcases hIs with rfl | ⟨p, type, rfl⟩
        · have hSome : C.host.entry a = some act := Option.bind_eq_some_iff.mpr ⟨_, hAct, rfl⟩
          rw [hEntry] at hSome
          cases hSome
        · exact .inr ⟨p, type, hBase⟩
  step_atUnlock s t a s' u hStep hu hAt := by
    obtain ⟨hReady, hIdle, type, hStage⟩ := hAt
    have hOther : (C.control s').base.calls u = (C.control s).base.calls u ∧
        (C.control s').stages u = (C.control s).stages u := by
      cases hAct : C.act a with
      | none =>
        obtain ⟨hBase, hStages⟩ := hC.step_other s t a s' hAct hStep
        exact ⟨congrArg (fun b => b.calls u) hBase, hStages u hu⟩
      | some c =>
        have hEffect := Concurrent.State.step_effect locateBlock (hC.step_act s t a s' c hAct hStep)
        refine ⟨?_, hEffect.stages_of_ne hu⟩
        rcases hEffect.base_cases with hSame | ⟨_, hBase, _⟩
        · exact congrArg (fun b => b.calls u) hSame
        · exact ((EntrySlots.State.step_effect hBase).other hu).1
    exact ⟨hC.step_ready s t a s' u hStep hu hReady, hOther.1.trans hIdle, type, hOther.2.trans hStage⟩
  guard s t a hProper hInstalled := by
    refine hC.guard s t a hProper fun c hAct => ?_
    cases c with
    | entry act => exact hInstalled act (Option.bind_eq_some_iff.mpr ⟨_, hAct, rfl⟩)
    | _ => trivial
  base_setBase s b := congrArg Concurrent.State.base (hC.control_setControl s _)
  setBase_base s := hC.setControl_control s
  atUnlock_setBase s b u hCalls hAt := by
    obtain ⟨hReady, hIdle, type, hStage⟩ := hAt
    refine ⟨hC.ready_setControl _ _ _ hReady, ?_, type, ?_⟩
    · change (C.control (C.setControl s _)).base.calls u = .idle
      rw [hC.control_setControl]
      exact (congrFun hCalls u).trans hIdle
    · change (C.control (C.setControl s _)).stages u = _
      rw [hC.control_setControl]
      exact hStage
  idle s t hAt := hAt.2.1
  unlock s t k b hAt hBase := by
    obtain ⟨hReady, _, type, hStage⟩ := hAt
    exact hC.lift s t type _ _ hReady hStage (.inl ⟨k, rfl⟩) (step_of_unlock hStage hBase)
  leave s t hAt hNone := by
    obtain ⟨hReady, _, type, hStage⟩ := hAt
    have hStep : (C.control s).Step locateBlock (t, .step) ((C.control s).goto t .leave) := by
      change (C.control s).step t ((C.control s).stages t) = _
      rw [hStage]
      exact if_pos hNone
    obtain ⟨a, hNext⟩ := hC.lift s t type _ _ hReady hStage (.inr rfl) hStep
    exact ⟨[(t, a)], .cons hNext (.nil _)⟩
  base_leave s t := by
    change (C.control (C.setControl s _)).base = _
    rw [hC.control_setControl]
    rfl
  atUnlock_leave s t u hu hAt := by
    obtain ⟨hReady, hIdle, type, hStage⟩ := hAt
    refine ⟨hC.ready_setControl _ _ _ hReady, ?_, type, ?_⟩
    · change (C.control (C.setControl s _)).base.calls u = .idle
      rw [hC.control_setControl]
      exact hIdle
    · change (C.control (C.setControl s _)).stages u = _
      rw [hC.control_setControl]
      exact (Concurrent.State.goto_of_ne _ _ hu).trans hStage

/-- Elsewhere than at `UNLOCK_ENTRIES` the system takes its own steps. -/
theorem host_step (hC : C.Lawful) {s : State T E σ} {t : T} {a : α} {host : σ} (hWalk : s.walk t = .quiet)
    (hStage : ∀ type, (C.control s.host).stages t ≠ .unlock type) (hStep : C.Step s.host (t, a) host) :
    State.Step C.host s t (.host a) (s.hosted C.host t a host) := by
  refine .host a host hWalk (fun hLeaves => ?_) (fun k hEntry => ?_) hStep
  · obtain ⟨_, type, hAt⟩ := hLeaves
    exact hStage type hAt
  · obtain ⟨c, hAct, hIs⟩ := Option.bind_eq_some_iff.mp hEntry
    cases c with
    | entry b =>
      cases hIs
      obtain ⟨hAllows, _⟩ := Option.ite_none_right_eq_some.mp (hC.step_act _ _ _ _ _ hAct hStep)
      cases hAt : (C.control s.host).stages t with
      | unlock type => exact hStage type hAt
      | _ =>
        rw [hAt] at hAllows
        cases hAllows
    | _ => cases hIs

/-- A run over the shared lists is a run of the system, when no entry is held or locked at its start. -/
theorem run_of_lists (hC : C.Lawful) {host : σ} {next : E → Option E} {acts : List (T × Act α)} {s : State T E σ}
    (hRun : State.Runs C.host (init host next) acts s) (hSettled : (C.control host).base.Settled)
    (hIdle : ∀ t, (C.control host).base.calls t = .idle) (hNone : ∀ t, (C.control host).base.held t = []) :
    ∃ as, Run (Guarded C.Guard C.Step) host as s.host :=
  (State.refines_of_run (host_lawful hC) (State.inv_init hSettled hIdle hNone next) hRun).1

end Controlled

end Libnvmmio.SharedLists

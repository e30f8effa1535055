import Libnvmmio.Bravo.Refinement
import Libnvmmio.Concurrent.AtomicRequests

/-! # Requests over the biased lock

The lock of an mmio is a biased lock, and each access of its functions to shared data
is a step of its own. The same threads use the biased locks of other objects, whose
slots are in the same table. What holds of requests over a correct lock holds of these.
-/

namespace Libnvmmio.Concurrent

open GuardedRun Mmio RadixLog
open Bravo (Seen LockRun)

set_option autoImplicit false
set_option linter.unusedSectionVars false

variable {T E L : Type}

namespace Stage

def lockCall : Stage E → Option Bravo.Op
  | .enter _ | .reenter _ => some .readLock
  | .expendLock _ | .commitLock => some .writeLock
  | .expendUnlock _ | .commitUnlock => some .writeUnlock
  | .leave | .table => some .readUnlock
  | .scan => some .readTrylock
  | _ => none

def Expects (g : Stage E) : Bravo.Kind → Prop
  | .reading => g.lockCall = some .readLock ∨ g.lockCall = some .readTrylock ∨ g = .commitUnlock
  | .writing => g.lockCall = some .writeLock
  | .releasing => True

def locked : Stage E → Stage E
  | .enter r => .check r
  | .reenter r => .loop r
  | .scan => .table
  | .expendLock r => .expendUnlock r
  | .commitLock => .commitEpoch
  | g => g

def unlocked : Stage E → Stage E
  | .check r => .expendLock r
  | .expendUnlock r => .reenter r
  | .leave | .commitUnlock => .out
  | .table => .scan
  | g => g

end Stage

/-- The control of the requests does not look at its own lock. -/
structure Biased (T E L : Type) where
  shared : Shared T E
  bravo : Bravo.State T L

inductive BiasedAct (E L : Type) where
  | shared (act : SharedAct E)
  | lock (act : Bravo.State.Act L)

namespace Shared

variable [DecidableEq T] [DecidableEq E] [DecidableEq L]

/-- The calls of a thread on the lock of the mmio. While `commit_mmio` holds the lock,
`checkpoint_mmio` tries to take it for each table. -/
inductive MayCall (s : Shared T E) (t : T) : Bravo.Op → Prop where
  | stage (op : Bravo.Op) (hCall : (s.control.stages t).lockCall = some op)
      (hIdle : s.control.stages t = .table → s.control.base.calls t = .idle) : MayCall s t op
  | expend (off n : Nat) (hStage : s.control.stages t = .check ⟨.wr, off, n⟩) : MayCall s t .readUnlock
  | commit (hStage : s.control.stages t = .commitUnlock) : MayCall s t .readTrylock

def Private (s : Shared T E) (t : T) : SharedAct E → Prop
  | .control .step => (s.control.stages t).lockCall = none
  | .control .expend => False
  | _ => True

def observe (l : L) (s : Shared T E) : Seen T L → Shared T E
  | .rdlock t m | .wrlock t m =>
    if m = l then { s with control := s.control.goto t (s.control.stages t).locked } else s
  | .unlock t m =>
    if m = l then { s.leave t .step with control := s.control.goto t (s.control.stages t).unlocked } else s

end Shared

namespace Biased

variable [DecidableEq T] [DecidableEq E] [DecidableEq L]

def init (locks : E → RwLock T) (mapLen epoch fsize : Nat) (bytes : Nat → UInt8) : Biased T E L :=
  ⟨Shared.init locks mapLen epoch fsize bytes, Bravo.init⟩

/-- A thread does nothing else while it is in a call on a lock. -/
inductive Step (bravoHash : T → L → Fin Bravo.nrEntries) (l : L) (s : Biased T E L) (t : T) :
    BiasedAct E L → Biased T E L → Prop where
  | shared (act : SharedAct E) (shared : Shared T E) (hOutside : s.bravo.calls t = none)
      (hPrivate : s.shared.Private t act) (hStep : s.shared.Step t act shared) :
      Step bravoHash l s t (.shared act) ⟨shared, s.bravo⟩
  | lock (act : Bravo.State.Act L) (bravo : Bravo.State T L)
      (hCall : ∀ op, act = .call op l → s.shared.MayCall t op)
      (hStep : Bravo.State.Step bravoHash s.bravo (t, act) bravo) :
      Step bravoHash l s t (.lock act) ⟨(s.bravo.seen (t, act) bravo).foldl (Shared.observe l) s.shared, bravo⟩

/-- Requests as over a correct lock; read unlocks find their slots empty or their own. -/
def Proper (bravoHash : T → L → Fin Bravo.nrEntries) (fsize mapLen : Nat) (s : Biased T E L) (a : T × BiasedAct E L) :
    Prop :=
  match a.2 with
  | .shared act => s.shared.Proper fsize mapLen (a.1, act)
  | .lock act => Bravo.State.OwnSlot bravoHash s.bravo (a.1, act)

abbrev Runs (bravoHash : T → L → Fin Bravo.nrEntries) (l : L) (fsize mapLen : Nat) :
    Biased T E L → List (T × BiasedAct E L) → Biased T E L → Prop :=
  Run (Guarded (Proper bravoHash fsize mapLen) fun s a s' => Step bravoHash l s a.1 a.2 s')

end Biased

/-! ## Steps without a call on the lock -/

def State.withLock (c : State T E RadixLog) (k : RwLock T) : State T E RadixLog := { c with rwlock := k }

def Shared.withLock (s : Shared T E) (k : RwLock T) : Shared T E := { s with control := s.control.withLock k }

namespace State

variable [DecidableEq T] [DecidableEq E] {c c' : State T E RadixLog} {t : T} {k k' : RwLock T}

theorem step_withLock (hPrivate : (c.stages t).lockCall = none) (hStep : c.step t (c.stages t) = some c') :
    (c.withLock k).step t (c.stages t) = some (c'.withLock k) := by
  cases hStage : c.stages t with
  | check r | commitEpoch | retire h todo =>
    rw [hStage] at hStep
    cases hStep
    rfl
  | loop r | unlock type =>
    rw [hStage] at hStep
    obtain ⟨hIf, hDone⟩ := Option.ite_none_right_eq_some.mp hStep
    cases hDone
    exact if_pos hIf
  | body type todo =>
    rw [hStage] at hStep
    cases todo with
    | nil =>
      cases hStep
      rfl
    | cons h todo =>
      unfold step at hStep ⊢
      dsimp only at hStep
      split at hStep <;> cases hStep
      · exact if_pos ‹_›
      · exact if_neg ‹_›
  | out | inner r p size epoch =>
    rw [hStage] at hStep
    cases hStep
  | _ =>
    rw [hStage] at hPrivate
    cases hPrivate

theorem Step.withLock {act : Act Unit E} (hStep : Step locateBlock c (t, act) c')
    (hPrivate : act = .step → (c.stages t).lockCall = none) (hExpend : act ≠ .expend) (k : RwLock T) :
    Step locateBlock (c.withLock k) (t, act) (c'.withLock k) := by
  cases act with
  | request type off len | commit | checkpoint | finish =>
    obtain ⟨hIf, hDone⟩ := Option.ite_none_right_eq_some.mp hStep
    cases hDone
    exact if_pos hIf
  | step => exact step_withLock (c := c) (hPrivate rfl) hStep
  | expend => exact absurd rfl hExpend
  | locate x =>
    unfold Step next at hStep ⊢
    dsimp only at hStep
    split at hStep
    · rename_i r hStage
      have hSame : (c.withLock k).stages t = .loop r := hStage
      obtain ⟨hn, hDone⟩ := Option.ite_none_right_eq_some.mp hStep
      obtain ⟨base, hBase, hDone⟩ := Option.bind_eq_some_iff.mp hDone
      cases hDone
      simp only [hSame, if_pos hn]
      exact Option.bind_eq_some_iff.mpr ⟨base, hBase, rfl⟩
    · cases hStep
  | entry a =>
    obtain ⟨hAllows, hDone⟩ := Option.ite_none_right_eq_some.mp hStep
    obtain ⟨base, hBase, hDone⟩ := Option.bind_eq_some_iff.mp hDone
    cases hDone
    exact (if_pos hAllows).trans (Option.bind_eq_some_iff.mpr ⟨base, hBase, rfl⟩)

/-! ## Calls on the lock -/

theorem step_rdlock (hCall : (c.stages t).lockCall = some .readLock ∨ (c.stages t).lockCall = some .readTrylock)
    (hLock : c.rwlock.rdlock t = some k) :
    Step locateBlock c (t, .step) ((c.goto t (c.stages t).locked).withLock k) := by
  have hBoth : ∀ g, c.readLock t g = some ((c.goto t g).withLock k) := fun g =>
    Option.bind_eq_some_iff.mpr ⟨k, hLock, rfl⟩
  change c.step t (c.stages t) = _
  cases hStage : c.stages t with
  | enter r => exact hBoth _
  | reenter r => exact hBoth _
  | scan =>
    unfold step
    dsimp only
    rw [hLock]
    rfl
  | _ =>
    rw [hStage] at hCall
    rcases hCall with hCall | hCall <;> cases hCall

theorem step_wrlock (hCall : (c.stages t).lockCall = some .writeLock) (hLock : c.rwlock.wrlock t = some k) :
    Step locateBlock c (t, .step) ((c.goto t (c.stages t).locked).withLock k) := by
  have hBoth : ∀ g, c.writeLock t g = some ((c.goto t g).withLock k) := fun g =>
    Option.bind_eq_some_iff.mpr ⟨k, hLock, rfl⟩
  change c.step t (c.stages t) = _
  cases hStage : c.stages t with
  | expendLock r => exact hBoth _
  | commitLock => exact hBoth _
  | _ =>
    rw [hStage] at hCall
    cases hCall

theorem step_release {op : Bravo.Op} (hOp : op = .readUnlock ∨ op = .writeUnlock)
    (hCall : (c.stages t).lockCall = some op) (hIdle : c.stages t = .table → c.base.calls t = .idle)
    (hUnlock : c.rwlock.unlock t = some k) :
    Step locateBlock c (t, .step) ((c.goto t (c.stages t).unlocked).withLock k) := by
  have hAll : ∀ g, c.release t g = some ((c.goto t g).withLock k) := fun g =>
    Option.bind_eq_some_iff.mpr ⟨k, hUnlock, rfl⟩
  change c.step t (c.stages t) = _
  cases hStage : c.stages t with
  | leave => exact hAll _
  | expendUnlock r => exact hAll _
  | commitUnlock => exact hAll _
  | table => exact (if_pos (hIdle hStage)).trans (hAll _)
  | _ =>
    rw [hStage] at hCall
    rcases hOp with rfl | rfl <;> cases hCall

theorem step_expend {off n : Nat} (hStage : c.stages t = .check ⟨.wr, off, n⟩) (hUnlock : c.rwlock.unlock t = some k) :
    Step locateBlock c (t, .expend) ((c.goto t (c.stages t).unlocked).withLock k) := by
  unfold Step next
  dsimp only
  rw [hStage]
  exact Option.bind_eq_some_iff.mpr ⟨k, hUnlock, rfl⟩

end State

namespace Shared

variable [DecidableEq T] [DecidableEq E] [DecidableEq L] {s s' : Shared T E} {t u : T} {k k' : RwLock T}
    {fsize mapLen : Nat}
  {l : L}

theorem leave_withLock (s : Shared T E) (t : T) (act : Act Unit E) (k : RwLock T) :
    (s.withLock k).leave t act = (s.leave t act).withLock k := by
  rcases (s.withLock k).leave_cases t act with ⟨op, ret, hAct, hStage, hPhase, hLeave⟩ | ⟨hLeave, hStays⟩
  · rcases s.leave_cases t act with ⟨op', ret', _, _, hPhase', hLeave'⟩ | ⟨_, hStays'⟩
    · obtain ⟨rfl, rfl⟩ := Phase.finished.inj (hPhase.symm.trans hPhase')
      rw [hLeave, hLeave']
      rfl
    · exact absurd hPhase (hStays' hStage hAct op ret)
  · rcases s.leave_cases t act with ⟨op', ret', hAct', hStage', hPhase', _⟩ | ⟨hLeave', _⟩
    · exact absurd hPhase' (hStays hStage' hAct' op' ret')
    · rw [hLeave, hLeave']

theorem leave_logSize (s : Shared T E) (t : T) (act : Act Unit E) : (s.leave t act).logSize = s.logSize := by
  rcases s.leave_cases t act with ⟨_, _, _, _, _, hLeave⟩ | ⟨hSame, _⟩
  · rw [hLeave]
    rfl
  · rw [hSame]

theorem control_withLock {act : Act Unit E} {c : State T E RadixLog} (hPermits : s.Permits t act)
    (hStep : State.Step State.locateBlock (s.control.withLock k) (t, act) (c.withLock k')) :
    (s.withLock k).Step t (.control act)
      (({ s.leave t act with
        control := c, logSize := s.control.logSizeAfter s.logSize t c } : Shared T E).withLock k') := by
  have hNext := Step.control (s := s.withLock k) act _ hPermits hStep
  rw [leave_withLock] at hNext
  exact hNext

/-- A step that locks no entry. -/
theorem control_withLock_of_held {act : Act Unit E} {c : State T E RadixLog} (hPermits : s.Permits t act)
    (hStep : State.Step State.locateBlock (s.control.withLock k) (t, act) (c.withLock k'))
    (hHeld : c.base.held t = s.control.base.held t) :
    (s.withLock k).Step t (.control act) (({ s.leave t act with control := c } : Shared T E).withLock k') := by
  have hNext := control_withLock hPermits hStep
  rw [State.logSizeAfter_of_held hHeld, ← leave_logSize s t act] at hNext
  exact hNext

theorem Step.withLock {act : SharedAct E} (hStep : s.Step t act s') (hPrivate : s.Private t act) (k : RwLock T) :
    (s.withLock k).Step t act (s'.withLock k) := by
  cases hStep with
  | request q control hControl =>
    exact .request q (control.withLock k) (hControl.withLock (fun h => by cases h) (fun h => by cases h) k)
  | exceed type hStage hPhase hExceeds => exact .exceed type hStage hPhase hExceeds
  | copy type hStage hPhase hWithin => exact .copy type hStage hPhase hWithin
  | clip hPhase => exact .clip hPhase
  | move i x hActive hi => exact .move i x hActive hi
  | finish x hActive hComplete => exact .finish x hActive hComplete
  | compare op ret hPhase => exact .compare op ret hPhase
  | store op ret hPhase => exact .store op ret hPhase
  | control act control hPermits hControl =>
    apply control_withLock hPermits
    exact hControl.withLock (fun h => by subst h; exact hPrivate) (fun h => by subst h; exact hPrivate) k

theorem Step.stages_of_ne {act : SharedAct E} (hStep : s.Step t act s') (hu : u ≠ t) :
    s'.control.stages u = s.control.stages u := by
  cases hStep with
  | request q control hControl => exact (State.step_effect State.locateBlock hControl).stages_of_ne hu
  | control act control _ hControl => exact (State.step_effect State.locateBlock hControl).stages_of_ne hu
  | _ => rfl

def Ready (l : L) (s : Shared T E) : Seen T L → Prop
  | .rdlock t m => m = l →
      (s.control.stages t).lockCall = some .readLock ∨ (s.control.stages t).lockCall = some .readTrylock
  | .wrlock t m => m = l → (s.control.stages t).lockCall = some .writeLock
  | .unlock t m => m = l → ∃ op, (op = .readUnlock ∨ op = .writeUnlock) ∧ s.MayCall t op

theorem permits_of_lockCall {op : Bravo.Op} (hCall : (s.control.stages t).lockCall = some op) :
    s.Permits t .step := by
  intro type hStage
  rw [hStage] at hCall
  cases hCall

theorem observe_of_ne (e : Seen T L) (hu : u ≠ e.thread) :
    (s.observe l e).control.stages u = s.control.stages u := by
  cases e with
  | rdlock t m | wrlock t m | unlock t m =>
    unfold observe
    dsimp only
    split
    · exact Function.update_of_ne hu ..
    · rfl

/-- A step over a correct lock that takes it. -/
theorem lock_runs {op : Bravo.Op} (hCall : (s.control.stages t).lockCall = some op) (hLeave : op ≠ .readUnlock)
    (hStep : State.Step State.locateBlock (s.control.withLock k) (t, .step)
      ((s.control.goto t (s.control.stages t).locked).withLock k')) :
    Runs fsize mapLen (s.withLock k) [(t, .control .step)]
      (({ s with control := s.control.goto t (s.control.stages t).locked } : Shared T E).withLock k') := by
  have hStage : s.control.stages t ≠ .leave := by
    intro hStage
    rw [hStage] at hCall
    exact hLeave (Option.some.inj hCall).symm
  have hNext := control_withLock_of_held (permits_of_lockCall hCall) hStep rfl
  rw [leave_of_ne hStage] at hNext
  exact .cons ⟨trivial, hNext⟩ (.nil _)

theorem runs_other {locks : L → RwLock T} {m : L} (hm : m ≠ l) (next : Shared T E) (k : RwLock T) : ∃ acts,
    Runs fsize mapLen (s.withLock (locks l)) acts
      ((if m = l then next else s).withLock (Function.update locks m k l)) := by
  rw [if_neg hm, Function.update_of_ne (Ne.symm hm)]
  exact ⟨[], .nil _⟩

/-- The requests go on over a correct lock as the biased lock shows. -/
theorem observe_runs (fsize mapLen : Nat) {locks locks' : L → RwLock T} {e : Seen T L}
    (hApply : e.apply locks = some locks')
    (hReady : s.Ready l e) :
    ∃ acts, Runs fsize mapLen (s.withLock (locks l)) acts ((s.observe l e).withLock (locks' l)) := by
  cases e with
  | rdlock t m =>
    obtain ⟨k, hLock, rfl⟩ := Option.map_eq_some_iff.mp hApply
    by_cases hm : m = l
    · subst hm
      have hCall := hReady rfl
      have hStep := State.step_rdlock (c := s.control.withLock (locks m)) hCall hLock
      rw [observe, if_pos rfl, Function.update_self]
      rcases hCall with hCall | hCall
      · exact ⟨_, lock_runs hCall (fun h => by cases h) hStep⟩
      · exact ⟨_, lock_runs hCall (fun h => by cases h) hStep⟩
    · exact runs_other hm _ k
  | wrlock t m =>
    obtain ⟨k, hLock, rfl⟩ := Option.map_eq_some_iff.mp hApply
    by_cases hm : m = l
    · subst hm
      have hCall := hReady rfl
      rw [observe, if_pos rfl, Function.update_self]
      exact ⟨_, lock_runs hCall (fun h => by cases h)
        (State.step_wrlock (c := s.control.withLock (locks m)) hCall hLock)⟩
    · exact runs_other hm _ k
  | unlock t m =>
    obtain ⟨k, hUnlock, rfl⟩ := Option.map_eq_some_iff.mp hApply
    by_cases hm : m = l
    · subst hm
      obtain ⟨op, hOp, hMay⟩ := hReady rfl
      rw [observe, if_pos rfl, Function.update_self]
      cases hMay with
      | stage op hCall hIdle =>
        have hStep := State.step_release (c := s.control.withLock (locks m)) hOp hCall hIdle hUnlock
        exact ⟨[(t, .control .step)],
          .cons ⟨trivial, control_withLock_of_held (permits_of_lockCall hCall) hStep rfl⟩ (.nil _)⟩
      | expend off n hStage =>
        have hLeave : s.control.stages t ≠ .leave := by
          rw [hStage]
          exact fun h => by cases h
        have hStep := State.step_expend (c := s.control.withLock (locks m)) hStage hUnlock
        have hPermits : s.Permits t .expend := trivial
        have hNext := control_withLock_of_held hPermits hStep rfl
        rw [leave_of_ne hLeave] at hNext ⊢
        exact ⟨[(t, .control .expend)], .cons ⟨trivial, hNext⟩ (.nil _)⟩
      | commit hStage => rcases hOp with hOp | hOp <;> cases hOp
    · exact runs_other hm _ k

end Shared

/-! ## The simulation -/

namespace Biased

variable [DecidableEq T] [DecidableEq E] [DecidableEq L] {bravoHash : T → L → Fin Bravo.nrEntries} {l : L}
  {s s' : Biased T E L} {t u : T} {fsize mapLen : Nat} {f : Nat → UInt8} {locks locks' : L → RwLock T}

def InCall (l : L) (s : Biased T E L) (t : T) : Prop :=
  ∀ p, s.bravo.calls t = some (l, p) → (s.shared.control.stages t).Expects p.kind

theorem InCall.same (h : InCall l s u) (hCalls : s'.bravo.calls u = s.bravo.calls u)
    (hStages : s'.shared.control.stages u = s.shared.control.stages u) : InCall l s' u := by
  unfold InCall
  rw [hCalls, hStages]
  exact h

theorem InCall.none (h : s.bravo.calls t = none) : InCall l s t := by
  intro p hCall
  rw [h] at hCall
  cases hCall

theorem lockCall_ne_writeTrylock (g : Stage E) : g.lockCall ≠ some .writeTrylock := by
  cases g <;> exact fun h => by cases h

theorem InCall.call {op : Bravo.Op} {m : L} (hCalls : s.bravo.calls t = some (m, op.start))
    (hMay : m = l → s.shared.MayCall t op) : InCall l s t := by
  intro p hCall
  obtain ⟨rfl, rfl⟩ := Prod.mk.inj (Option.some.inj (hCalls.symm.trans hCall))
  cases hMay rfl with
  | stage op hStage _ =>
    cases op with
    | readLock => exact .inl hStage
    | readTrylock => exact .inr (.inl hStage)
    | writeLock => exact hStage
    | writeTrylock => exact absurd hStage (lockCall_ne_writeTrylock _)
    | readUnlock | writeUnlock => trivial
  | expend _ _ _ => trivial
  | commit hStage => exact .inr (.inr hStage)

theorem InCall.unlock {op : Bravo.Op} {m : L} (hCalls : s.bravo.calls t = some (m, op.start))
    (hOp : op = .readUnlock ∨ op = .writeUnlock) : InCall l s t := by
  intro p hCall
  obtain ⟨rfl, rfl⟩ := Prod.mk.inj (Option.some.inj (hCalls.symm.trans hCall))
  rcases hOp with rfl | rfl <;> trivial

/-- A step that nobody sees leaves the call what it is, or begins or ends it. -/
theorem InCall.quiet (h : InCall l s t) {act : Bravo.State.Act L} {bravo : Bravo.State T L}
    (hMay : ∀ op, act = .call op l → s.shared.MayCall t op)
    (hStep : Bravo.State.Step bravoHash s.bravo (t, act) bravo) : InCall l ⟨s.shared, bravo⟩ t := by
  cases act with
  | call op m =>
    have hCalls : bravo.calls t = some (m, op.start) := by
      rw [(Bravo.State.call_advances hStep).2]
      exact Function.update_self ..
    exact .call hCalls fun hm => hMay op (by rw [hm])
  | access clock =>
    obtain ⟨m, p, hCall, hAccess⟩ := Bravo.State.step_access hStep
    rcases Bravo.State.access_calls hCall hAccess with hCalls | ⟨q, hCalls, hKind⟩
    · apply InCall.none
      rw [hCalls]
      exact Function.update_self ..
    · intro p' hCall'
      rw [hCalls, Function.update_self] at hCall'
      obtain ⟨rfl, rfl⟩ := Prod.mk.inj (Option.some.inj hCall')
      rw [hKind]
      exact h p hCall

/-- Correct locks have the holds of the biased locks; the requests are atomic over the one of the mmio. -/
structure Follows (bravoHash : T → L → Fin Bravo.nrEntries) (l : L) (f : Nat → UInt8) (fsize mapLen : Nat)
    (locks : L → RwLock T) (s : Biased T E L) : Prop where
  accounted : s.bravo.Accounted bravoHash
  excluding : s.bravo.Excluding bravoHash
  represents : s.bravo.Represents locks
  inCall : ∀ t, InCall l s t
  atomic : Shared.Atomic f fsize mapLen (s.shared.withLock (locks l))

theorem Follows.atomic_run (h : Follows bravoHash l f fsize mapLen locks s) {acts : List (T × SharedAct E)}
    {c : Shared T E}
    (hRun : Shared.Runs fsize mapLen (s.shared.withLock (locks l)) acts c) : Shared.Atomic f fsize mapLen c :=
  hRun.invariant (Shared.Atomic f fsize mapLen) (fun _ _ _ hAtomic hStep => hAtomic.step hStep.1 hStep.2) h.atomic

theorem Follows.next (h : Follows bravoHash l f fsize mapLen locks s) (hAcc : s'.bravo.Accounted bravoHash)
    (hExc : s'.bravo.Excluding bravoHash) (hReps : s'.bravo.Represents locks') {acts : List (T × SharedAct E)}
    (hRun : Shared.Runs fsize mapLen (s.shared.withLock (locks l)) acts (s'.shared.withLock (locks' l)))
    (hCalls : ∀ u, u ≠ t → s'.bravo.calls u = s.bravo.calls u)
    (hStages : ∀ u, u ≠ t → s'.shared.control.stages u = s.shared.control.stages u) (hHere : InCall l s' t) :
    Follows bravoHash l f fsize mapLen locks' s' := by
  refine ⟨hAcc, hExc, hReps, fun u => ?_, ?_⟩
  · by_cases hu : u = t
    · rw [hu]
      exact hHere
    · exact (h.inCall u).same (hCalls u hu) (hStages u hu)
  · exact h.atomic_run hRun

theorem Follows.shared (h : Follows bravoHash l f fsize mapLen locks s) {act : SharedAct E} {shared : Shared T E}
    (hOutside : s.bravo.calls t = none) (hPrivate : s.shared.Private t act)
    (hProper : s.shared.Proper fsize mapLen (t, act)) (hStep : s.shared.Step t act shared) :
    Shared.Runs fsize mapLen (s.shared.withLock (locks l)) [(t, act)] (shared.withLock (locks l)) ∧
      Follows bravoHash l f fsize mapLen locks ⟨shared, s.bravo⟩ := by
  have hRun : Shared.Runs fsize mapLen (s.shared.withLock (locks l)) [(t, act)] (shared.withLock (locks l)) :=
    .cons ⟨hProper, hStep.withLock hPrivate (locks l)⟩ (.nil _)
  exact ⟨hRun, h.next h.accounted h.excluding h.represents hRun (fun _ _ => rfl)
    (fun _ hu => hStep.stages_of_ne hu) (.none hOutside)⟩

/-- While a thread commits, no try to take the lock succeeds. -/
theorem Follows.ready_rdlock (h : Follows bravoHash l f fsize mapLen locks s) {m : L} {p : Bravo.Point}
    (hCall : s.bravo.calls t = some (m, p)) (hKind : p.kind = .reading)
    (hApply : (Seen.rdlock t m).apply locks = some locks') : s.shared.Ready l (.rdlock t m) := by
  rintro rfl
  have hStage := h.inCall t p hCall
  rw [hKind] at hStage
  rcases hStage with hLock | hTry | hCommit
  · exact .inl hLock
  · exact .inr hTry
  · obtain ⟨k, hLock, _⟩ := Option.map_eq_some_iff.mp hApply
    have hNone := (RwLock.rdlock_eq_some hLock).2.1 t
    have hWrites : (locks m).writes t = (s.shared.control.stages t).writes.toNat := h.atomic.kept.locked.writes t
    rw [hCommit, hNone] at hWrites
    cases hWrites

/-- A step that is seen, as the requests go on after it. -/
theorem Follows.event (h : Follows bravoHash l f fsize mapLen locks s) {bravo : Bravo.State T L} {e : Seen T L}
    (hAcc : bravo.Accounted bravoHash) (hExc : bravo.Excluding bravoHash) (hReps : bravo.Represents locks')
    (hApply : e.apply locks = some locks') (hReady : s.shared.Ready l e)
    (hCalls : ∀ u, u ≠ e.thread → bravo.calls u = s.bravo.calls u)
    (hHere : InCall l ⟨s.shared.observe l e, bravo⟩ e.thread) : ∃ acts,
      Shared.Runs fsize mapLen (s.shared.withLock (locks l)) acts ((s.shared.observe l e).withLock (locks' l)) ∧
      Follows bravoHash l f fsize mapLen locks' ⟨s.shared.observe l e, bravo⟩ := by
  obtain ⟨acts, hRun⟩ := Shared.observe_runs fsize mapLen hApply hReady
  exact ⟨acts, hRun, h.next hAcc hExc hReps hRun hCalls (fun _ hu => Shared.observe_of_ne e hu) hHere⟩

theorem Follows.lock (h : Follows bravoHash l f fsize mapLen locks s) {act : Bravo.State.Act L}
    {bravo : Bravo.State T L}
    (hOwn : s.bravo.OwnSlot bravoHash (t, act)) (hMay : ∀ op, act = .call op l → s.shared.MayCall t op)
    (hStep : Bravo.State.Step bravoHash s.bravo (t, act) bravo) : ∃ acts locks',
      Shared.Runs fsize mapLen (s.shared.withLock (locks l)) acts
        (((s.bravo.seen (t, act) bravo).foldl (Shared.observe l) s.shared).withLock (locks' l)) ∧
      Follows bravoHash l f fsize mapLen locks'
        ⟨(s.bravo.seen (t, act) bravo).foldl (Shared.observe l) s.shared, bravo⟩ := by
  obtain ⟨_, _, _, hAccessed⟩ := Bravo.State.step_accessed h.accounted ⟨hOwn, hStep⟩
  have hAcc := h.accounted.accessed hAccessed
  have hExc := h.excluding.accessed h.accounted hAccessed
  have hCalls : ∀ u, u ≠ t → bravo.calls u = s.bravo.calls u := fun _ hu => Bravo.State.step_calls_of_ne hStep hu
  obtain ⟨locks', hSeen, hReps⟩ := h.represents.step hAcc hExc hStep
  have hApply : ∀ e, s.bravo.seen (t, act) bravo = [e] → e.apply locks = some locks' := by
    intro e hEvent
    rw [hEvent] at hSeen
    cases hSeen with
    | cons hHead hTail =>
      cases hTail
      exact hHead
  rcases Bravo.State.seen_cases hStep with hNone | ⟨op, m, rfl, hOp, hEvent⟩ | ⟨m, p, hCall, hDone, hEvent⟩
  · rw [hNone] at hSeen ⊢
    cases hSeen
    exact ⟨[], locks, .nil _, h.next hAcc hExc hReps (.nil _) hCalls (fun _ _ => rfl) ((h.inCall t).quiet hMay hStep)⟩
  · have hHere : bravo.calls t = some (m, op.start) := by
      rw [(Bravo.State.call_advances hStep).2]
      exact Function.update_self ..
    obtain ⟨acts, hDone⟩ := h.event hAcc hExc hReps (hApply _ hEvent) (fun hm => ⟨op, hOp, hMay op (by rw [hm])⟩)
      hCalls (.unlock hHere hOp)
    rw [hEvent]
    exact ⟨acts, locks', hDone⟩
  · rcases hEvent with ⟨hKind, hEvent⟩ | ⟨hKind, hEvent⟩
    · obtain ⟨acts, hDone⟩ := h.event hAcc hExc hReps (hApply _ hEvent)
        (h.ready_rdlock hCall hKind (hApply _ hEvent)) hCalls (.none hDone)
      rw [hEvent]
      exact ⟨acts, locks', hDone⟩
    · have hReady : s.shared.Ready l (.wrlock t m) := by
        rintro rfl
        have hStage := h.inCall t p hCall
        rw [hKind] at hStage
        exact hStage
      obtain ⟨acts, hDone⟩ := h.event hAcc hExc hReps (hApply _ hEvent) hReady hCalls (.none hDone)
      rw [hEvent]
      exact ⟨acts, locks', hDone⟩

theorem Follows.step (h : Follows bravoHash l f fsize mapLen locks s) {a : T × BiasedAct E L}
    (hProper : s.Proper bravoHash fsize mapLen a) (hStep : Step bravoHash l s a.1 a.2 s') : ∃ acts locks',
      Shared.Runs fsize mapLen (s.shared.withLock (locks l)) acts (s'.shared.withLock (locks' l)) ∧
      Follows bravoHash l f fsize mapLen locks' s' := by
  obtain ⟨t, act⟩ := a
  dsimp only at hStep
  cases hStep with
  | shared act shared hOutside hPrivate hStep => exact ⟨_, locks, h.shared hOutside hPrivate hProper hStep⟩
  | lock act bravo hMay hStep => exact h.lock hProper hMay hStep

/-- What requests over the biased lock have in common with requests over a correct one. -/
structure AsOverCorrect (l : L) (f : Nat → UInt8) (fsize mapLen : Nat) (first : Shared T E) (s : Biased T E L) :
    Prop where
  /-- some steps over a correct lock lead to the same state, -/
  simulated : ∃ acts k, Shared.Runs fsize mapLen first acts (s.shared.withLock k)
  /-- each thread has the side of the biased lock that its stage says, -/
  reads : ∀ t, s.bravo.reading (t, l) = (s.shared.control.stages t).reads.toNat
  writes : ∀ t, s.bravo.writing (t, l) = (s.shared.control.stages t).writes.toNat
  /-- and the requests are atomic. -/
  linearized : Shared.Linearized f s.shared

theorem init_follows (locks : E → RwLock T) (epoch : Nat) (hSmall : mapLen ≤ 2 ^ 48) :
    Follows bravoHash l f fsize mapLen (fun _ => .free) (init locks mapLen epoch fsize f) := by
  refine ⟨Bravo.State.init_accounted bravoHash, Bravo.State.init_excluding bravoHash, ⟨fun _ _ => rfl, fun _ _ => rfl⟩,
    fun t => .none rfl, Shared.atomic_init locks epoch hSmall⟩

theorem asOverCorrect_of_run {locks : E → RwLock T} {epoch : Nat} {as : List (T × BiasedAct E L)}
    (hSmall : mapLen ≤ 2 ^ 48) (hRun : Runs bravoHash l fsize mapLen (init locks mapLen epoch fsize f) as s) :
    AsOverCorrect l f fsize mapLen (Shared.init locks mapLen epoch fsize f) s := by
  obtain ⟨acts, _, hShared, ks, rfl, hFollows⟩ := hRun.forward
    (fun (s : Biased T E L) c => ∃ ks : L → RwLock T,
      c = s.shared.withLock (ks l) ∧ Follows bravoHash l f fsize mapLen ks s)
    (by
      rintro s a s' _ ⟨ks, rfl, h⟩ ⟨hProper, hStep⟩
      obtain ⟨acts, ks', hActs, hNext⟩ := h.step hProper hStep
      exact ⟨acts, _, hActs, ks', rfl, hNext⟩)
    ⟨fun _ => .free, rfl, init_follows locks epoch hSmall⟩
  obtain ⟨hAtomic, hRecorded⟩ := Shared.atomic_of_run hSmall hShared
  have hLinear := hRecorded.linearized hAtomic
  refine ⟨⟨acts, _, hShared⟩, fun t => ?_, fun t => ?_, ?_⟩
  · rw [← hFollows.represents.reads]
    exact hAtomic.kept.locked.reads t
  · rw [← hFollows.represents.writes]
    exact hAtomic.kept.locked.writes t
  · exact ⟨⟨hLinear.called, hLinear.finished, hLinear.point, hLinear.answered, hLinear.program⟩, hLinear.legal,
      hLinear.quiet⟩

/-! ## Over the shared lists -/

section Lists

open SharedLists (Controlled)

def InOwnSlots (bravoHash : T → L → Fin Bravo.nrEntries) (fsize mapLen : Nat) (s : Biased T E L)
    (a : T × BiasedAct E L) : Prop :=
  match a.2 with
  | .shared act => ∀ q, act = .request q → q.Inside fsize mapLen
  | .lock act => Bravo.State.OwnSlot bravoHash s.bravo (a.1, act)

def control? : BiasedAct E L → Option (Act Unit E)
  | .shared act => act.control?
  | .lock _ => none

/-- A thread walks over its list when it is in no call on a lock. -/
def requests (bravoHash : T → L → Fin Bravo.nrEntries) (l : L) (fsize mapLen : Nat) :
    Controlled T E (Biased T E L) (BiasedAct E L) where
  Step s a s' := Step bravoHash l s a.1 a.2 s'
  Guard := Proper bravoHash fsize mapLen
  Proper := InOwnSlots bravoHash fsize mapLen
  control s := s.shared.control
  setControl s c := ⟨{ s.shared with control := c }, s.bravo⟩
  act := control?
  Ready s t := s.bravo.calls t = none

theorem observe_base (s : Shared T E) (e : Seen T L) : (s.observe l e).control.base = s.control.base := by
  cases e with
  | rdlock t m | wrlock t m | unlock t m =>
    unfold Shared.observe
    dsimp only
    split <;> rfl

/-- An access to the lock has no effect on the entries and the other threads. -/
theorem observed_other {act : Bravo.State.Act L} {bravo : Bravo.State T L} (shared : Shared T E)
    (hStep : Bravo.State.Step bravoHash s.bravo (t, act) bravo) :
    ((s.bravo.seen (t, act) bravo).foldl (Shared.observe l) shared).control.base = shared.control.base ∧
      ∀ u, u ≠ t → ((s.bravo.seen (t, act) bravo).foldl (Shared.observe l) shared).control.stages u =
        shared.control.stages u := by
  rcases Bravo.State.seen_cases hStep with hNone | ⟨op, m, rfl, hOp, hEvent⟩ | ⟨m, p, hCall, hDone, hEvent⟩
  · rw [hNone]
    exact ⟨rfl, fun _ _ => rfl⟩
  · rw [hEvent]
    exact ⟨observe_base shared (.unlock t m), fun u hu => Shared.observe_of_ne (.unlock t m) hu⟩
  · rcases hEvent with ⟨_, hEvent⟩ | ⟨_, hEvent⟩
    · rw [hEvent]
      exact ⟨observe_base shared (.rdlock t m), fun u hu => Shared.observe_of_ne (.rdlock t m) hu⟩
    · rw [hEvent]
      exact ⟨observe_base shared (.wrlock t m), fun u hu => Shared.observe_of_ne (.wrlock t m) hu⟩

theorem requests_lawful (bravoHash : T → L → Fin Bravo.nrEntries) (l : L) (fsize mapLen : Nat) :
    (requests bravoHash l fsize mapLen : Controlled T E _ _).Lawful where
  step_act s t a s' c hAct hStep := by
    cases hStep with
    | shared act shared _ _ hShared =>
      cases SharedAct.control_eq hAct
      cases hShared with
      | control act control _ hControl => exact hControl
    | lock => cases hAct
  step_other s t a s' hAct hStep := by
    cases hStep with
    | shared act shared _ _ hShared => exact Shared.Step.control_other hAct hShared
    | lock act bravo _ hLock => exact observed_other s.shared hLock
  step_ready s t a s' u hStep hu hReady := by
    cases hStep with
    | shared => exact hReady
    | lock act bravo _ hLock => exact (Bravo.State.step_calls_of_ne hLock hu).trans hReady
  guard s t a hProper hInstalled := by
    cases a with
    | shared act => exact proper_of_inside hProper hInstalled
    | lock act => exact hProper
  control_setControl _ _ := rfl
  setControl_control _ := rfl
  ready_setControl _ _ _ hReady := hReady
  lift s t type c c' hReady hStage hAct hStep := by
    obtain ⟨hNext, hInstalled⟩ := Shared.Step.at_unlock hStage hAct hStep
    refine ⟨.shared (.control c), hInstalled, .shared _ _ hReady ?_ hNext⟩
    rcases hAct with ⟨k, rfl⟩ | rfl
    · trivial
    · change s.shared.control.stages t = _ at hStage
      change (s.shared.control.stages t).lockCall = none
      rw [hStage]
      rfl

end Lists

section Schedule

open Bravo.State (ownSlot_of_calls ownSlot_of_own)
open SharedLists.Controlled (host_step)
open SharedLists.State (proper_host proper_push proper_walk proper_unlockEntries)

def biasedPage : SharedLists.State Bool Nat (Biased Bool Nat Bool) :=
  SharedLists.init (init (fun _ => .free) 4096 0 1 fun _ => 0) fun _ => none

def sameSlot (_ : Bool) : Bool → Fin Bravo.nrEntries := Bravo.State.oneSlot (Fin.last 2)

/-- A write of a byte by one thread and a read of it by the other, which asks for it first. -/
def writeOverBiased : List (Bool × SharedLists.Act (BiasedAct Nat Bool)) :=
  [(true, .host (.shared (.request ⟨false, 0, 1, fun _ => 0⟩))),
    (false, .host (.shared (.request ⟨true, 0, 1, fun _ => 9⟩))), (false, .host (.lock (.call .readLock true))),
    (false, .host (.lock (.access 0))), (false, .host (.lock (.access 0))), (false, .host (.lock (.access 0))),
    (false, .host (.shared (.control .step))), (false, .host (.shared (.control (.locate ())))),
    (false, .host (.shared (.control (.entry .access)))), (false, .host (.shared (.control (.entry (.alloc 7))))),
    (false, .host (.shared (.control (.entry .access)))), (false, .host (.shared (.control (.entry .access)))),
    (false, .list), (false, .host (.shared (.control .step))), (false, .host (.shared (.control .step))),
    (false, .host (.shared .copy)), (false, .host (.shared (.move 0))), (false, .host (.shared .finish)),
    (false, .host (.shared .compare)), (false, .host (.shared (.control .step))), (false, .unlockEntries),
    (false, .list), (false, .list), (false, .list), (false, .host (.lock (.call .readUnlock true))),
    (false, .host (.lock (.access 0))), (false, .host (.lock (.access 0))),
    (true, .host (.lock (.call .readLock true))), (true, .host (.lock (.access 0))),
    (true, .host (.lock (.access 0))), (true, .host (.lock (.access 0))), (true, .host (.shared (.control .step))),
    (true, .host (.shared (.control (.locate ())))), (true, .host (.shared (.control (.entry .access)))),
    (true, .host (.shared (.control (.entry .access)))), (true, .list), (true, .host (.shared (.control .step))),
    (true, .host (.shared .copy)), (true, .host (.shared (.move 0))), (true, .host (.shared .finish)),
    (true, .host (.shared (.control .step))), (true, .unlockEntries), (true, .list), (true, .list), (true, .list),
    (true, .host (.lock (.call .readUnlock true))), (true, .host (.lock (.access 0))),
    (true, .host (.lock (.access 0)))]

theorem mayCall {s : Shared T E} {op : Bravo.Op} (hCall : (s.control.stages t).lockCall = some op)
    (hTable : s.control.stages t ≠ .table) : ∀ op', Bravo.State.Act.call op l = .call op' l → s.MayCall t op' := by
  intro op' hEq
  cases hEq
  exact .stage _ hCall fun hIs => absurd hIs hTable

end Schedule

end Biased

end Libnvmmio.Concurrent

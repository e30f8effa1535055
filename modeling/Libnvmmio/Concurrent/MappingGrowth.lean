import Libnvmmio.Concurrent.Stages
import Libnvmmio.Mmio.Growth
import Libnvmmio.Radixlog.Init

/-! # Growth of a mapping that is in use

A write that does not fit releases the reader side, takes the writer side, grows
the mapping until its request fits, and comes back to the reader side. Others
run between these steps, and may want to grow the mapping too. The lock is taken
for a correct reader-writer lock.
-/

namespace Libnvmmio.Concurrent

open GuardedRun Mmio RadixLog

set_option autoImplicit false
set_option linter.unusedSectionVars false

variable {T E R X : Type}

/-- The calls on one mmio with its mapping. `wanted` is the kind of the current
request of a thread and where it ends. -/
structure Mapping (T E R : Type) where
  control : State T E R
  start : Nat
  len : Nat
  wanted : T → LockType × Nat

inductive GrowAct (X E : Type) where
  | control (act : Act X E)
  /-- `posix_fallocate` and `mremap` in the loop of `expend_mmio` -/
  | grow (base : Nat)

/-- From the last test of the length until the reader side is released. -/
def Stage.mapped : Stage E → Bool
  | .reenter _ | .loop _ | .inner .. | .body .. | .retire .. | .unlock _ | .leave => true
  | _ => false

namespace Mapping

variable [DecidableEq T] [DecidableEq E]

def init (locks : E → RwLock T) (radixlog : R) (epoch start len : Nat) : Mapping T E R where
  control := Concurrent.init locks radixlog epoch
  start := start
  len := len
  wanted _ := (.rd, 0)

def noted (s : Mapping T E R) (t : T) : Act X E → T → LockType × Nat
  | .request type off len => Function.update s.wanted t (type, off + len)
  | _ => s.wanted

/-- What `check_expend` has found when a call goes on from a stage to the next. -/
def Tested (wanted : LockType × Nat) (len : Nat) : Stage E → Stage E → Prop
  | .check _, .loop _ => wanted.1 = .wr → wanted.2 ≤ len
  | .check _, .expendLock _ => len < wanted.2
  | .expendUnlock _, .reenter _ => wanted.2 ≤ len
  | _, _ => True

variable (locate : R → X → Nat → Nat → Slot × LogSize × R)

inductive Step (s : Mapping T E R) : T × GrowAct X E → Mapping T E R → Prop where
  | control (t : T) (act : Act X E) (control : State T E R)
      (hControl : State.Step locate s.control (t, act) control)
      (hTested : Tested (s.wanted t) s.len (s.control.stages t) (control.stages t)) :
      Step s (t, .control act) { s with control := control, wanted := s.noted t act }
  | grow (t : T) (base : Nat) (r : Range) (hStage : s.control.stages t = .expendUnlock r)
      (hShort : s.len < (s.wanted t).2) :
      Step s (t, .grow base) { s with start := base, len := newLen s.len }

def Below (n : Nat) (_ : Mapping T E R) : T × GrowAct X E → Prop
  | (_, .control (.request _ off len)) => off + len ≤ n
  | _ => True

def Reading (t : T) (s : Mapping T E R) (_ : T × GrowAct X E) : Prop :=
  (s.control.stages t).reads = true

def Expending (t : T) (s : Mapping T E R) (_ : T × GrowAct X E) : Prop :=
  ∃ r, s.control.stages t = .expendUnlock r

/-- A write finds its range mapped, nothing moves under a reader, an expansion is the one that
the thread would have made alone, and no mapping is longer than requests make it. -/
structure GrowsSafely (len n : Nat) (locate : R → X → Nat → Nat → Slot × LogSize × R) (s : Mapping T E R) :
    Prop where
  covers : ∀ t, (s.control.stages t).mapped = true → (s.wanted t).1 = .wr → (s.wanted t).2 ≤ s.len
  fixed : ∀ t as s', Run (Guarded (Reading t) (Step locate)) s as s' → s'.start = s.start ∧ s'.len = s.len
  expands : ∀ t as s', Run (Guarded (Expending t) (Step locate)) s as s' → (s.wanted t).2 ≤ s'.len →
    s'.len = grownLen s.len (s.wanted t).2
  bounded : s.len ≤ max len (max basicMmapSize (2 * n))

variable {locate} {s s' : Mapping T E R} {t u : T} {len n : Nat} {a : T × GrowAct X E}

theorem Tested.moves {act : Act X E} {c : State T E R} {g g' : Stage E} {wanted : LockType × Nat} {len : Nat}
    (h : Tested wanted len g g') (hMoves : State.Moves c t act g g')
    (hWas : g.mapped = true → wanted.1 = .wr → wanted.2 ≤ len) (hMapped : g'.mapped = true)
    (hWrite : wanted.1 = .wr) : wanted.2 ≤ len := by
  cases hMoves with
  | proceed r => exact h hWrite
  | request _ _ _ _ | commit | checkpoint _ | finish => cases hMapped
  | _ => exact hWas rfl hWrite

/-- A call that goes on to where its range must be mapped has tested it, or was there before. -/
theorem Tested.mapped {act : Act X E} {c c' : State T E R} {wanted : LockType × Nat} {len : Nat}
    (hEffect : State.Effect locate c t act c') (hTested : Tested wanted len (c.stages t) (c'.stages t))
    (hWas : (c.stages t).mapped = true → wanted.1 = .wr → wanted.2 ≤ len)
    (hMapped : (c'.stages t).mapped = true) (hWrite : wanted.1 = .wr) : wanted.2 ≤ len := by
  cases hEffect with
  | stay => exact hWas hMapped hWrite
  | move g hMoves =>
    rw [State.goto_self] at hTested hMapped
    exact hTested.moves hMoves hWas hMapped hWrite
  | rdlock g l hOpens _ =>
    rw [show _ = g from State.goto_self c t g] at hMapped
    generalize c.stages t = g₀ at hOpens hWas
    cases hOpens with
    | reenter r => exact hWas rfl hWrite
    | _ => cases hMapped
  | wrlock g l hSeals _ =>
    rw [show _ = g from State.goto_self c t g] at hMapped
    generalize c.stages t = g₀ at hSeals
    cases hSeals <;> cases hMapped
  | release g l hCloses _ =>
    rw [show _ = g from State.goto_self c t g] at hMapped hTested
    generalize c.stages t = g₀ at hCloses hWas hTested
    cases hCloses with
    | reenter r => exact hTested
    | _ => cases hMapped
  | bump _ =>
    rw [show _ = Stage.commitUnlock from State.goto_self c t _] at hMapped
    cases hMapped
  | table a base _ _ _ _ =>
    rw [show _ = Stage.table from State.goto_self c t _] at hMapped
    cases hMapped
  | retire _ _ hStage | locate _ _ _ _ _ _ hStage _ _ _ | inner _ _ _ _ _ _ hStage _ _ | unlock _ _ _ hStage _ _ =>
    rw [hStage] at hWas
    exact hWas rfl hWrite

/-! ## The invariant -/

structure Kept (len n : Nat) (s : Mapping T E R) : Prop where
  locked : State.Locked s.control
  covers : ∀ t, (s.control.stages t).mapped = true → (s.wanted t).1 = .wr → (s.wanted t).2 ≤ s.len
  bounded : s.len ≤ max len (max basicMmapSize (2 * n))
  wanted : ∀ t, (s.wanted t).2 ≤ n

/-- Nobody has the reader side, and nobody else the writer side, while a thread grows the mapping. -/
theorem alone (h : State.Locked s.control) {r : Range} (hStage : s.control.stages t = .expendUnlock r) :
    (s.control.stages u).reads = false ∧ ((s.control.stages u).writes = true → u = t) :=
  h.alone (by rw [hStage]; rfl) u

theorem noted_of_ne (hne : u ≠ t) (act : Act X E) : s.noted t act u = s.wanted u := by
  cases act with
  | request type off len => exact Function.update_of_ne hne ..
  | _ => rfl

/-- A request is noted when it enters; nothing else is. -/
theorem noted_cases {act : Act X E} {control : State T E R}
    (hControl : State.Step locate s.control (t, act) control) :
    (∃ type off len r, act = .request type off len ∧ s.control.stages t = .out ∧ control.stages t = .enter r ∧
      s.noted t act t = (type, off + len)) ∨ s.noted t act = s.wanted := by
  cases act with
  | request type off len =>
    obtain ⟨hOut, hDone⟩ := Option.ite_none_right_eq_some.mp hControl
    cases hDone
    exact .inl ⟨type, off, len, _, rfl, hOut, State.goto_self .., Function.update_self ..⟩
  | _ => exact .inr rfl

theorem Kept.control (h : Kept len n s) {act : Act X E} {control : State T E R}
    (hControl : State.Step locate s.control (t, act) control)
    (hTested : Tested (s.wanted t) s.len (s.control.stages t) (control.stages t))
    (hBelow : s.Below n (t, .control act)) :
    Kept len n { s with control := control, wanted := s.noted t act } := by
  have hEffect := State.step_effect locate hControl
  have hNoted := noted_cases hControl
  refine ⟨h.locked.step hEffect, fun u hMapped hWrite => ?_, h.bounded, fun u => ?_⟩
  · dsimp only at hMapped hWrite ⊢
    by_cases hu : u = t
    · subst hu
      rcases hNoted with ⟨_, _, _, r, _, _, hEnter, _⟩ | hSame
      · rw [hEnter] at hMapped
        cases hMapped
      · rw [hSame] at hWrite ⊢
        exact hTested.mapped hEffect (h.covers u) hMapped hWrite
    · rw [hEffect.stages_of_ne hu] at hMapped
      rw [noted_of_ne hu] at hWrite ⊢
      exact h.covers u hMapped hWrite
  · dsimp only
    by_cases hu : u = t
    · subst hu
      rcases hNoted with ⟨type, off, _, _, rfl, _, _, hIs⟩ | hSame
      · rw [hIs]
        exact hBelow
      · rw [hSame]
        exact h.wanted u
    · rw [noted_of_ne hu]
      exact h.wanted u

theorem newLen_le {current wanted : Nat} (hShort : current < wanted) (hWanted : wanted ≤ n) :
    newLen current ≤ max len (max basicMmapSize (2 * n)) := by
  rw [newLen]
  split <;> omega

theorem Kept.step (h : Kept len n s) (hStep : Guarded (Below n) (Step locate) s a s') : Kept len n s' := by
  obtain ⟨hBelow, hStep⟩ := hStep
  cases hStep with
  | control t act control hControl hTested => exact h.control hControl hTested hBelow
  | grow t base r hStage hShort =>
    refine ⟨h.locked, fun u hMapped hWrite => ?_, newLen_le hShort (h.wanted t), h.wanted⟩
    exact Nat.le_trans (h.covers u hMapped hWrite) (Nat.le_of_lt (lt_newLen s.len))

/-! ## Runs -/

/-- The part of the invariant that needs no bound on the requests. -/
theorem locked_step (h : State.Locked s.control) (hStep : Step locate s a s') : State.Locked s'.control := by
  cases hStep with
  | control t act control hControl _ => exact h.step (State.step_effect locate hControl)
  | grow _ _ _ _ _ => exact h

theorem fixed_of_run (h : State.Locked s.control) {as : List (T × GrowAct X E)}
    (hRun : Run (Guarded (Reading t) (Step locate)) s as s') : s'.start = s.start ∧ s'.len = s.len := by
  have hKept := hRun.invariant
    (fun r => State.Locked r.control ∧ r.start = s.start ∧ r.len = s.len)
    (fun r a r' ⟨hLocked, hStart, hLen⟩ ⟨hReading, hStep⟩ => by
      refine ⟨locked_step hLocked hStep, ?_⟩
      cases hStep with
      | control u act control _ _ => exact ⟨hStart, hLen⟩
      | grow u base range hStage _ =>
        have hNone := (alone hLocked hStage (u := t)).1
        rw [hReading] at hNone
        cases hNone)
    ⟨h, rfl, rfl⟩
  exact hKept.2

theorem expands_of_run (h : State.Locked s.control) {as : List (T × GrowAct X E)}
    (hRun : Run (Guarded (Expending t) (Step locate)) s as s') (hFits : (s.wanted t).2 ≤ s'.len) :
    s'.len = grownLen s.len (s.wanted t).2 := by
  have hKept := hRun.invariant
    (fun r => State.Locked r.control ∧ r.wanted t = s.wanted t ∧
      grownLen r.len (s.wanted t).2 = grownLen s.len (s.wanted t).2)
    (fun r a r' ⟨hLocked, hWanted, hLen⟩ ⟨⟨range, hHere⟩, hStep⟩ => by
      refine ⟨locked_step hLocked hStep, ?_⟩
      cases hStep with
      | control u act control hControl _ =>
        refine ⟨?_, hLen⟩
        dsimp only
        by_cases hu : t = u
        · subst hu
          rcases noted_cases hControl with ⟨_, _, _, _, _, hOut, _⟩ | hSame
          · rw [hHere] at hOut
            cases hOut
          · rw [hSame]
            exact hWanted
        · rw [noted_of_ne hu]
          exact hWanted
      | grow u base range' hStage hShort =>
        obtain rfl : u = t := by
          apply (alone hLocked hHere (u := u)).2
          rw [hStage]
          rfl
        refine ⟨hWanted, ?_⟩
        rw [hWanted] at hShort
        rw [← hLen, grownLen.eq_def r.len, if_pos hShort])
    ⟨h, rfl, rfl⟩
  rw [← hKept.2.2, grownLen, if_neg (Nat.not_lt.mpr hFits)]

theorem growsSafely_of_run {locks : E → RwLock T} {radixlog : R} {epoch start : Nat}
    {as : List (T × GrowAct X E)}
    (hRun : Run (Guarded (Below n) (Step locate)) (init locks radixlog epoch start len) as s) :
    GrowsSafely len n locate s := by
  have hKept := hRun.invariant (Kept len n) (fun _ _ _ h hStep => h.step hStep) {
    locked := ⟨fun _ => rfl, fun _ => rfl⟩
    covers := fun t hMapped => by cases hMapped
    bounded := Nat.le_max_left ..
    wanted := fun _ => Nat.zero_le _ }
  exact ⟨hKept.covers, fun t as s' hReading => fixed_of_run hKept.locked hReading,
    fun t as s' hExpending => expands_of_run hKept.locked hExpending, hKept.bounded⟩

section Schedules

/-- Two writes that both find a page too short. The second one has nothing left to grow. -/
def expendTwice : List (Bool × GrowAct Unit Nat) :=
  [(false, .control (.request .wr 0 8192)), (false, .control .step), (true, .control (.request .wr 0 5000)),
    (true, .control .step), (false, .control .expend), (true, .control .expend), (false, .control .step),
    (false, .grow (2 ^ 30)), (false, .control .step), (true, .control .step), (true, .control .step),
    (true, .control .step), (false, .control .step)]

theorem growsSafely_expendTwice : ∃ s, Run (Guarded (Below 8192) (Step State.locateBlock))
      (init (fun _ => .free) (initRadixlog 4096) 0 (2 ^ 21) 4096 : Mapping Bool Nat RadixLog) expendTwice s ∧
    s.len = basicMmapSize ∧ GrowsSafely 4096 8192 State.locateBlock s := by
  have hRun : ∃ s, Run (Guarded (Below 8192) (Step State.locateBlock))
      (init (fun _ => .free) (initRadixlog 4096) 0 (2 ^ 21) 4096 : Mapping Bool Nat RadixLog) expendTwice s ∧
      s.len = basicMmapSize := by
    refine ⟨_, .cons ⟨?_, .control _ _ _ rfl ?_⟩ (.cons ⟨?_, .control _ _ _ rfl ?_⟩
      (.cons ⟨?_, .control _ _ _ rfl ?_⟩ (.cons ⟨?_, .control _ _ _ rfl ?_⟩ (.cons ⟨?_, .control _ _ _ rfl ?_⟩
      (.cons ⟨?_, .control _ _ _ rfl ?_⟩ (.cons ⟨?_, .control _ _ _ rfl ?_⟩ (.cons ⟨?_, .grow _ _ _ rfl ?_⟩
      (.cons ⟨?_, .control _ _ _ rfl ?_⟩ (.cons ⟨?_, .control _ _ _ rfl ?_⟩ (.cons ⟨?_, .control _ _ _ rfl ?_⟩
      (.cons ⟨?_, .control _ _ _ rfl ?_⟩ (.cons ⟨?_, .control _ _ _ rfl ?_⟩ (.nil _))))))))))))), rfl⟩
    -- either there is nothing to test or the test compares two numbers
    all_goals first
      | trivial
      | (change (_ : Nat) ≤ _; decide)
  obtain ⟨s, hRun, hLen⟩ := hRun
  exact ⟨s, hRun, hLen, growsSafely_of_run hRun⟩

end Schedules

end Mapping

end Libnvmmio.Concurrent

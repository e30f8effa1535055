import Libnvmmio.Bravo.MutualExclusion

/-! # Progress of the biased lock

The functions of `bravo.c` wait in three places: for the underlying lock, to read
or to write, and in `revocate` for a slot. An access that does not wait brings
its call nearer to its end. When every call waits, each waits for a thread that
has returned from a lock and has not called the unlock.
-/

namespace Libnvmmio.Bravo

open GuardedRun

set_option autoImplicit false
set_option linter.unusedSectionVars false

/-- The accesses that a call can still make without waiting. -/
def Point.remaining : Point → Nat
  | .readBias _ => 8
  | .readCas _ => 7
  | .readRecheck _ => 6
  | .readBackOut _ => 5
  | .rdlock _ => 4
  | .slowBias => 3
  | .slowInhibit _ => 2
  | .slowSet => 1
  | .unlockLoad => 2
  | .unlockClear => 1
  | .unlockUnderlying => 1
  | .wrlock _ => nrEntries + 4
  | .writeBias => nrEntries + 3
  | .revokeBias => nrEntries + 2
  | .scan _ i => nrEntries - i + 1
  | .writeUnlock => 1

theorem Point.remaining_pos (p : Point) : 0 < p.remaining := by
  cases p <;> simp [Point.remaining]

theorem Op.start_remaining (op : Op) : op.start.remaining ≤ nrEntries + 4 := by
  cases op <;> decide

variable {T L : Type} [DecidableEq T] [DecidableEq L]

namespace State

def remaining (s : State T L) (t : T) : Nat := (s.calls t).elim 0 fun c => c.2.remaining

variable (bravoHash : T → L → Fin nrEntries)

/-- No access changes anything: all calls in progress wait. -/
def Stuck (s : State T L) : Prop :=
  ∀ t clock s', Step bravoHash s (t, .access clock) s' → s' = s

def Moving (s : State T L) (act : T × Act L) (s' : State T L) : Prop :=
  Step bravoHash s act s' ∧ s' ≠ s

def isAccess (t : T) : T × Act L → Bool
  | (u, .access _) => decide (u = t)
  | (_, .call _ _) => false

def isCall (t : T) : T × Act L → Bool
  | (_, .access _) => false
  | (u, .call _ _) => decide (u = t)

/-- Some thread has a hold on the lock that it has not given to an unlock. -/
def Held (s : State T L) (l : L) : Prop := ∃ u, 0 < s.reading (u, l) ∨ 0 < s.writing (u, l)

/-- A thread makes at most so many accesses for each of its calls, and if nothing
moves, whoever is in a call waits for a thread that holds the lock between calls. -/
structure Progresses (acts : List (T × Act L)) (s : State T L) : Prop where
  bounded : ∀ t, acts.countP (isAccess t) + s.remaining t ≤ (nrEntries + 4) * acts.countP (isCall t)
  waits : Stuck bravoHash s → ∀ t l p, s.calls t = some (l, p) → s.Held l

inductive Advances (s s' : State T L) (t : T) (l : L) : Point → Prop where
  | waits (startTime : UInt64) (i : Nat) (hi : i < nrEntries)
      (hSlot : (s.visibleReaders ⟨i, hi⟩).map Prod.fst = some l) (hSame : s' = s) :
      Advances s s' t l (.scan startTime i)
  | goes (p q : Point) (hCalls : s'.calls = Function.update s.calls t (some (l, q)))
      (hLess : q.remaining < p.remaining) : Advances s s' t l p
  | returns (p : Point) (hCalls : s'.calls = Function.update s.calls t none) : Advances s s' t l p

inductive Waits (s : State T L) (t : T) (l : L) : Point → Prop where
  | rdlock (hHeld : (s.locks l).underlying.rdlock t = none) : Waits s t l (.rdlock false)
  | wrlock (hHeld : (s.locks l).underlying.wrlock t = none) : Waits s t l (.wrlock false)
  | scan (startTime : UInt64) (i : Nat) (hi : i < nrEntries)
      (hSlot : (s.visibleReaders ⟨i, hi⟩).map Prod.fst = some l) : Waits s t l (.scan startTime i)

variable {bravoHash} {s s' : State T L} {t u : T} {l : L} {p : Point}

theorem remaining_of_calls (h : s.calls t = some (l, p)) : s.remaining t = p.remaining := by
  rw [remaining, h]
  rfl

theorem remaining_congr (h : s'.calls t = s.calls t) : s'.remaining t = s.remaining t := by
  rw [remaining, remaining, h]

theorem access_advances {clock : UInt64} (h : s.access bravoHash t l clock p = some s') :
    Advances s s' t l p := by
  cases p with
  | readBias trying =>
    rw [access] at h
    split at h
    · cases h
      exact .goes _ _ rfl (Nat.lt_succ_self 7)
    · cases h
      exact .goes _ _ rfl (show 4 < 8 by decide)
  | readCas trying =>
    rw [access] at h
    split at h
    · cases h
      exact .goes _ _ rfl (Nat.lt_succ_self 6)
    · cases h
      exact .goes _ _ rfl (show 4 < 7 by decide)
  | readRecheck trying =>
    rw [access] at h
    split at h
    · cases h
      exact .returns _ rfl
    · cases h
      exact .goes _ _ rfl (Nat.lt_succ_self 5)
  | readBackOut trying =>
    cases h
    exact .goes _ _ rfl (Nat.lt_succ_self 4)
  | rdlock trying =>
    rw [access] at h
    split at h
    · cases h
      exact .goes _ _ rfl (Nat.lt_succ_self 3)
    · obtain ⟨_, hDone⟩ := Option.ite_none_right_eq_some.mp h
      cases hDone
      exact .returns _ rfl
  | slowBias =>
    rw [access] at h
    split at h
    · cases h
      exact .returns _ rfl
    · cases h
      exact .goes _ _ rfl (Nat.lt_succ_self 2)
  | slowInhibit nowTime =>
    rw [access] at h
    split at h
    · cases h
      exact .goes _ _ rfl (Nat.lt_succ_self 1)
    · cases h
      exact .returns _ rfl
  | slowSet =>
    cases h
    exact .returns _ rfl
  | unlockLoad =>
    rw [access] at h
    split at h
    · cases h
      exact .goes _ _ rfl (Nat.lt_succ_self 1)
    · cases h
      exact .goes _ _ rfl (Nat.lt_succ_self 1)
  | unlockClear =>
    cases h
    exact .returns _ rfl
  | unlockUnderlying =>
    rw [access] at h
    split at h
    · cases h
      exact .returns _ rfl
    · cases h
  | wrlock trying =>
    rw [access] at h
    split at h
    · cases h
      exact .goes _ _ rfl (Nat.lt_succ_self (nrEntries + 3))
    · obtain ⟨_, hDone⟩ := Option.ite_none_right_eq_some.mp h
      cases hDone
      exact .returns _ rfl
  | writeBias =>
    rw [access] at h
    split at h
    · cases h
      exact .goes _ _ rfl (Nat.lt_succ_self (nrEntries + 2))
    · cases h
      exact .returns _ rfl
  | revokeBias =>
    cases h
    exact .goes _ _ rfl (Nat.lt_succ_self (nrEntries + 1))
  | scan startTime i =>
    rw [access] at h
    split at h
    · rename_i hi
      split at h
      · rename_i hSlot
        cases h
        exact .waits startTime i hi hSlot rfl
      · cases h
        refine .goes _ (.scan startTime (i + 1)) rfl ?_
        rw [Point.remaining, Point.remaining]
        omega
    · cases h
      exact .returns _ rfl
  | writeUnlock =>
    rw [access] at h
    split at h
    · cases h
      exact .returns _ rfl
    · cases h

theorem calls_of_pointOf (h : s.pointOf t l = some p) : s.calls t = some (l, p) := by
  obtain ⟨⟨k, q⟩, hCall, hPoint⟩ := Option.bind_eq_some_iff.mp h
  dsimp only at hPoint
  split at hPoint
  · rename_i hSame
    subst hSame
    cases hPoint
    exact hCall
  · cases hPoint

/-- An access that does not wait leaves its call with less to do. -/
theorem moving_lowers {act : T × Act L} (h : Moving bravoHash s act s') (t : T) :
    (isAccess t act).toNat + s'.remaining t ≤ s.remaining t + (nrEntries + 4) * (isCall t act).toNat := by
  obtain ⟨hStep, hNe⟩ := h
  obtain ⟨u, ⟨op, l⟩ | clock⟩ := act
  · obtain ⟨hIdle, hCalls⟩ := call_advances (show s.call u op l = some s' from hStep)
    by_cases hu : u = t
    · subst hu
      have hStart := remaining_of_calls (s := s') (t := u) (by rw [hCalls, Function.update_self])
      have hLe := op.start_remaining
      simp only [isAccess, isCall, decide_true, Bool.toNat_true, Bool.toNat_false]
      omega
    · have hKept : s'.calls t = s.calls t := by rw [hCalls, Function.update_of_ne (Ne.symm hu)]
      rw [remaining_congr hKept]
      exact Nat.le_trans (Nat.le_of_eq (Nat.zero_add _)) (Nat.le_add_right _ _)
  · obtain ⟨l, p, hCall, hAccess⟩ := step_access hStep
    by_cases hu : u = t
    · subst hu
      rw [remaining_of_calls hCall]
      simp only [isAccess, isCall, decide_true, Bool.toNat_true, Bool.toNat_false]
      cases access_advances hAccess with
      | waits startTime i hi hSlot hSame => exact absurd hSame hNe
      | goes _ q hCalls hLess =>
        rw [remaining_of_calls (s := s') (t := u) (by rw [hCalls, Function.update_self])]
        omega
      | returns _ hCalls =>
        have hDone : s'.remaining u = 0 := by rw [remaining, hCalls, Function.update_self]; rfl
        have hPos : 0 < p.remaining := p.remaining_pos
        omega
    · have hKept : s'.calls t = s.calls t := by
        cases access_advances hAccess with
        | waits startTime i hi hSlot hSame => rw [hSame]
        | goes _ q hCalls hLess => rw [hCalls, Function.update_of_ne (Ne.symm hu)]
        | returns _ hCalls => rw [hCalls, Function.update_of_ne (Ne.symm hu)]
      rw [remaining_congr hKept]
      simp [isAccess, hu]

/-- A call at which nothing moves waits for the underlying lock or at a slot. -/
theorem waits_of_stuck (h : Accounted bravoHash s) (hStuck : Stuck bravoHash s)
    (hCall : s.calls t = some (l, p)) : Waits s t l p := by
  have hPoint : (s.standing bravoHash t l).point = some p := pointOf_some hCall
  cases hAccess : s.access bravoHash t l 0 p with
  | some s' =>
    have hSame : s' = s := hStuck t 0 s' (by rw [Step, next, hCall]; exact hAccess)
    cases access_advances hAccess with
    | waits startTime i hi hSlot => exact .scan startTime i hi hSlot
    | goes _ q hCalls hLess =>
      rw [hSame] at hCalls
      have hMoved : s.calls t = some (l, q) := by rw [hCalls, Function.update_self]
      rw [hCall] at hMoved
      cases hMoved
      exact absurd hLess (Nat.lt_irrefl _)
    | returns _ hCalls =>
      rw [hSame] at hCalls
      have hMoved : s.calls t = none := by rw [hCalls, Function.update_self]
      rw [hCall] at hMoved
      cases hMoved
  | none =>
    cases p with
    | rdlock trying =>
      rw [access] at hAccess
      split at hAccess
      · cases hAccess
      · rename_i hHeld
        cases trying with
        | false => exact .rdlock hHeld
        | true => cases hAccess
    | wrlock trying =>
      rw [access] at hAccess
      split at hAccess
      · cases hAccess
      · rename_i hHeld
        cases trying with
        | false => exact .wrlock hHeld
        | true => cases hAccess
    | unlockUnderlying =>
      obtain ⟨_, hUnlock, _⟩ := RwLock.unlock_of_reads ((h.balanced t l).inUnderlying _ hPoint trivial)
      simp [access, hUnlock] at hAccess
    | writeUnlock =>
      have hWrites := (h.balanced t l).writes_eq hPoint
      have hHeld : 0 < (s.locks l).underlying.writes t := Nat.lt_of_lt_of_eq (Nat.succ_pos _) hWrites
      simp [access, (RwLock.unlock_of_writes hHeld).1] at hAccess
    | readBias trying | readCas trying | readRecheck trying | slowBias | slowInhibit now | unlockLoad
      | writeBias | scan startTime i =>
      rw [access] at hAccess
      split at hAccess
      · first
        | cases hAccess
        | split at hAccess <;> cases hAccess
      · cases hAccess
    | readBackOut trying | slowSet | unlockClear | revokeBias => cases hAccess

section Holders

variable (h : Accounted bravoHash s) (hStuck : Stuck bravoHash s)

include h hStuck

/-- A call that waits owes no read hold, so the recorded ones are between calls. -/
theorem reading_of_stuck (t : T) (l : L) : s.reading (t, l) =
    (s.standing bravoHash t l).reads + (s.standing bravoHash t l).registered.toNat := by
  have hReads := (h.balanced t l).reads
  rw [← hReads]
  cases hPoint : (s.standing bravoHash t l).point with
  | none => rfl
  | some p =>
    have hCall := calls_of_pointOf (show s.pointOf t l = some p from hPoint)
    cases waits_of_stuck h hStuck hCall with
    | rdlock | wrlock | scan => rfl

theorem held_of_slot {i : Nat} {hi : i < nrEntries}
    (hSlot : (s.visibleReaders ⟨i, hi⟩).map Prod.fst = some l) : s.Held l := by
  obtain ⟨⟨k, u⟩, hReader, hLock⟩ := Option.map_eq_some_iff.mp hSlot
  dsimp only at hLock
  subst hLock
  have hIn : (s.standing bravoHash u k).registered = true := by
    rw [standing, h.slots _ k u hReader]
    exact decide_eq_true hReader
  refine ⟨u, .inl ?_⟩
  rw [reading_of_stuck h hStuck, hIn]
  exact Nat.succ_pos _

theorem held_of_reads (hReads : 0 < (s.locks l).underlying.reads u) : s.Held l := by
  refine ⟨u, .inl ?_⟩
  rw [reading_of_stuck h hStuck]
  exact Nat.add_pos_left hReads _

/-- The writer is between its calls, or it revokes the bias and waits for a reader. -/
theorem held_of_writes (hWrites : 0 < (s.locks l).underlying.writes u) : s.Held l := by
  have hBalance := (h.balanced u l).writes
  change s.writing (u, l) + _ = (s.locks l).underlying.writes u at hBalance
  cases hPoint : (s.standing bravoHash u l).point with
  | none =>
    rw [hPoint] at hBalance
    exact ⟨u, .inr (Nat.lt_of_lt_of_eq hWrites hBalance.symm)⟩
  | some p =>
    rw [hPoint] at hBalance
    have hCall := calls_of_pointOf (show s.pointOf u l = some p from hPoint)
    cases waits_of_stuck h hStuck hCall with
    | rdlock | wrlock => exact ⟨u, .inr (Nat.lt_of_lt_of_eq hWrites hBalance.symm)⟩
    | scan startTime i hi hSlot => exact held_of_slot h hStuck hSlot

theorem held_of_waits (hWaits : Waits s t l p) : s.Held l := by
  cases hWaits with
  | rdlock hHeld =>
    cases hLock : (s.locks l).underlying with
    | reading ts =>
      rw [hLock] at hHeld
      cases hHeld
    | writing w =>
      apply held_of_writes h hStuck (u := w)
      rw [hLock, RwLock.writes, if_pos rfl]
      exact Nat.one_pos
  | wrlock hHeld =>
    cases hLock : (s.locks l).underlying with
    | writing w =>
      apply held_of_writes h hStuck (u := w)
      rw [hLock, RwLock.writes, if_pos rfl]
      exact Nat.one_pos
    | reading ts =>
      rw [hLock] at hHeld
      cases ts with
      | nil => cases hHeld
      | cons u us =>
        apply held_of_reads h hStuck (u := u)
        rw [hLock, RwLock.reads, List.count_cons_self]
        exact Nat.succ_pos _
  | scan startTime i hi hSlot => exact held_of_slot h hStuck hSlot

end Holders

theorem progresses_of_run {acts : List (T × Act L)}
    (hRun : Run (Guarded (OwnSlot bravoHash) (Moving bravoHash)) init acts s) :
    Progresses bravoHash acts s := by
  have hOwn : OwnSlotRun bravoHash acts s := hRun.mono fun _ _ _ hStep => ⟨hStep.1, hStep.2.1⟩
  obtain ⟨hAcc, _⟩ := hOwn.invariants
  constructor
  · intro t
    have hBound := hRun.amortized (remaining · t) (isAccess t) (isCall t) (nrEntries + 4)
      fun _ _ _ hStep => moving_lowers hStep.2 t
    have hNone : (init : State T L).remaining t = 0 := rfl
    rw [hNone, Nat.zero_add] at hBound
    exact hBound
  · intro hStuck t l p hCall
    exact held_of_waits hAcc hStuck (waits_of_stuck hAcc hStuck hCall)

section Schedules

theorem ne_of_calls (t : T) (h : s'.calls t ≠ s.calls t) : s' ≠ s := by
  rintro rfl
  exact h rfl

theorem nrEntries_pos : 0 < nrEntries := by decide

def firstSlot (_ : Bool) (_ : Unit) : Fin nrEntries := ⟨0, nrEntries_pos⟩

def revocation : List (Bool × Act Unit) :=
  [(true, .call .readLock ()), (true, .access 0), (true, .access 0), (true, .access 0),
    (false, .call .writeLock ()), (false, .access 0), (false, .access 0), (false, .access 0)]

theorem progresses_revocation : ∃ s, Progresses firstSlot revocation s ∧ Stuck firstSlot s ∧
    s.calls false = some ((), .scan 0 0) := by
  refine ⟨_, progresses_of_run (
    .cons ⟨trivial, rfl, ne_of_calls true (by decide)⟩
    (.cons ⟨ownSlot_of_calls rfl (by decide), rfl, ne_of_calls true (by decide)⟩
    (.cons ⟨ownSlot_of_calls rfl (by decide), rfl, ne_of_calls true (by decide)⟩
    (.cons ⟨ownSlot_of_calls rfl (by decide), rfl, ne_of_calls true (by decide)⟩
    (.cons ⟨trivial, rfl, ne_of_calls false (by decide)⟩
    (.cons ⟨ownSlot_of_calls rfl (by decide), rfl, ne_of_calls false (by decide)⟩
    (.cons ⟨ownSlot_of_calls rfl (by decide), rfl, ne_of_calls false (by decide)⟩
    (.cons ⟨ownSlot_of_calls rfl (by decide), rfl, ne_of_calls false (by decide)⟩ (.nil _))))))))), ?_, rfl⟩
  intro t clock s' hStep
  cases t with
  | false =>
    cases hStep
    rfl
  | true => cases hStep

end Schedules

end State

end Libnvmmio.Bravo

import Libnvmmio.Bravo.MutualExclusion

/-! # The biased lock is a reader-writer lock

Requests on an mmio are modelled over a correct reader-writer lock. Its callers see
of the biased lock the returns of calls that have the lock, and the unlocks that
they call: these are, in their order, the operations of correct locks.
-/

namespace Libnvmmio

namespace RwLock

variable {T : Type} {l : RwLock T} {t : T}

theorem rdlock_of_not_writing [DecidableEq T] (h : ∀ u, l.writes u = 0) (t : T) : ∃ l', l.rdlock t = some l' := by
  cases l with
  | reading ts => exact ⟨_, rfl⟩
  | writing w =>
    have hWriter := h w
    rw [writes, if_pos rfl] at hWriter
    cases hWriter

end RwLock

namespace Bravo

open GuardedRun

set_option autoImplicit false
set_option linter.unusedSectionVars false

inductive Seen (T L : Type) where
  | rdlock (t : T) (l : L)
  | wrlock (t : T) (l : L)
  | unlock (t : T) (l : L)

variable {T L : Type} [DecidableEq T] [DecidableEq L]

def Seen.thread : Seen T L → T
  | .rdlock t _ | .wrlock t _ | .unlock t _ => t

/-- The operation on correct locks; `none` if a correct lock would not let it through. -/
def Seen.apply (locks : L → RwLock T) : Seen T L → Option (L → RwLock T)
  | .rdlock t l => ((locks l).rdlock t).map (Function.update locks l)
  | .wrlock t l => ((locks l).wrlock t).map (Function.update locks l)
  | .unlock t l => ((locks l).unlock t).map (Function.update locks l)

abbrev LockRun : (L → RwLock T) → List (Seen T L) → (L → RwLock T) → Prop :=
  Run fun locks e locks' => e.apply locks = some locks'

inductive Kind where
  | reading | writing | releasing
  deriving DecidableEq

def Point.kind : Point → Kind
  | .readBias _ | .readCas _ | .readRecheck _ | .readBackOut _ | .rdlock _ => .reading
  | .slowBias | .slowInhibit _ | .slowSet => .reading
  | .unlockLoad | .unlockClear | .unlockUnderlying | .writeUnlock => .releasing
  | .wrlock _ | .writeBias | .revokeBias | .scan _ _ => .writing

namespace State

def seen (s : State T L) (a : T × Act L) (s' : State T L) : List (Seen T L) :=
  match a with
  | (t, .call .readUnlock l) => [.unlock t l]
  | (t, .call .writeUnlock l) => [.unlock t l]
  | (_, .call _ _) => []
  | (t, .access _) =>
    match s.calls t with
    | some (l, _) =>
      if s'.reading (t, l) = s.reading (t, l) + 1 then [.rdlock t l]
      else if s'.writing (t, l) = s.writing (t, l) + 1 then [.wrlock t l] else []
    | none => []

def seenOf (bravoHash : T → L → Fin nrEntries) (s : State T L) : List (T × Act L) → List (Seen T L)
  | [] => []
  | a :: as =>
    match s.next bravoHash a with
    | some s' => s.seen a s' ++ s'.seenOf bravoHash as
    | none => []

/-- The correct locks have the holds that the callers have. -/
structure Represents (locks : L → RwLock T) (s : State T L) : Prop where
  reads : ∀ t l, (locks l).reads t = s.reading (t, l)
  writes : ∀ t l, (locks l).writes t = s.writing (t, l)

variable {bravoHash : T → L → Fin nrEntries} {s s' : State T L} {t u : T} {l : L} {p : Point}
  {locks locks' : L → RwLock T}

/-! ## The holds -/

theorem Accounted.writing_le (h : Accounted bravoHash s) (t : T) (l : L) :
    s.writing (t, l) ≤ (s.locks l).underlying.writes t := by
  have hWrites := (h.balanced t l).writes
  change s.writing (t, l) + _ = (s.locks l).underlying.writes t at hWrites
  omega

theorem Accounted.writer_unique (h : Accounted bravoHash s) (hMine : 0 < s.writing (t, l))
    (hTheirs : 0 < s.writing (u, l)) : t = u :=
  RwLock.writer_unique (Nat.lt_of_lt_of_le hMine (h.writing_le t l))
    (Nat.lt_of_lt_of_le hTheirs (h.writing_le u l))

/-- A reader whose hold is in the slot is there to stay. -/
theorem Accounted.confirmed_of_reading (h : Accounted bravoHash s) (hReading : 0 < s.reading (u, l))
    (hNone : (s.locks l).underlying.reads u = 0) : (s.standing bravoHash u l).Confirmed := by
  have hReads := (h.balanced u l).reads
  change s.reading (u, l) + _ = (s.locks l).underlying.reads u + _ at hReads
  rw [hNone, Nat.zero_add] at hReads
  have hLe := Bool.toNat_le (s.standing bravoHash u l).registered
  constructor
  · cases hIn : (s.standing bravoHash u l).registered with
    | true => rfl
    | false =>
      rw [hIn] at hReads
      change _ = 0 at hReads
      omega
  · intro p hPoint hTentative
    rw [hPoint] at hReads
    change s.reading (u, l) + p.owesRead = _ at hReads
    cases p with
    | readRecheck | readBackOut =>
      change s.reading (u, l) + 1 = _ at hReads
      omega
    | _ => exact hTentative

/-- No reader holds a lock that a writer holds. -/
theorem Excluding.reading_eq_zero (h : Excluding bravoHash s) (hAcc : Accounted bravoHash s)
    (hWriting : 0 < s.writing (t, l)) (u : T) : s.reading (u, l) = 0 := by
  have hWrites : 0 < (s.locks l).underlying.writes t := Nat.lt_of_lt_of_le hWriting (hAcc.writing_le t l)
  by_contra hReading
  have hConfirmed := hAcc.confirmed_of_reading (Nat.pos_of_ne_zero hReading)
    (RwLock.reads_eq_zero_of_writes hWrites u)
  obtain ⟨v, startTime, i, hPoint, _⟩ := h.waited l (h.unbiased t l (.inl hWriting)) u hConfirmed
  -- the revocation that waits for the slot is the writer's own, which has returned
  have hRevokes := (hAcc.balanced v l).writes_pos (.inr ⟨startTime, i, hPoint⟩)
  obtain rfl := RwLock.writer_unique hWrites hRevokes
  have hTwice := (hAcc.balanced t l).writes
  rw [hPoint] at hTwice
  change s.writing (t, l) + 1 = (s.locks l).underlying.writes t at hTwice
  have hLe := RwLock.writes_le_one (s.locks l).underlying t
  omega

/-! ## The accesses -/

inductive Gains (s s' : State T L) (t : T) (l : L) (p : Point) : Prop where
  | nothing (hReading : s'.reading = s.reading) (hWriting : s'.writing = s.writing)
  | read (hKind : p.kind = .reading)
      (hReading : s'.reading = Function.update s.reading (t, l) (s.reading (t, l) + 1))
      (hWriting : s'.writing = s.writing) (hDone : s'.calls t = none)
  | write (hKind : p.kind = .writing) (hReading : s'.reading = s.reading)
      (hWriting : s'.writing = Function.update s.writing (t, l) (s.writing (t, l) + 1))
      (hDone : s'.calls t = none)

theorem access_gains {clock : UInt64} (h : s.access bravoHash t l clock p = some s') : Gains s s' t l p := by
  cases p with
  | readBackOut | slowSet | unlockClear | revokeBias =>
    cases h
    first
      | exact .nothing rfl rfl
      | exact .read rfl rfl rfl (Function.update_self ..)
  | rdlock | wrlock =>
    rw [access] at h
    split at h
    · cases h
      exact .nothing rfl rfl
    · obtain ⟨_, hDone⟩ := Option.ite_none_right_eq_some.mp h
      cases hDone
      exact .nothing rfl rfl
  | scan startTime i =>
    rw [access] at h
    split at h
    · split at h <;> cases h <;> exact .nothing rfl rfl
    · cases h
      exact .write rfl rfl rfl (Function.update_self ..)
  | _ =>
    rw [access] at h
    split at h <;> cases h <;>
      first
        | exact .nothing rfl rfl
        | exact .read rfl rfl rfl (Function.update_self ..)
        | exact .write rfl rfl rfl (Function.update_self ..)

/-- After an access the call goes on with what it is for, or has returned. -/
theorem access_calls {clock : UInt64} (hCall : s.calls t = some (l, p))
    (h : s.access bravoHash t l clock p = some s') :
    s'.calls = Function.update s.calls t none ∨
      ∃ q, s'.calls = Function.update s.calls t (some (l, q)) ∧ q.kind = p.kind := by
  cases p with
  | readBackOut | slowSet | unlockClear | revokeBias =>
    cases h
    first
      | exact .inl rfl
      | exact .inr ⟨_, rfl, rfl⟩
  | rdlock | wrlock =>
    rw [access] at h
    split at h
    · cases h
      exact .inr ⟨_, rfl, rfl⟩
    · obtain ⟨_, hDone⟩ := Option.ite_none_right_eq_some.mp h
      cases hDone
      exact .inl rfl
  | scan startTime i =>
    rw [access] at h
    split at h
    · split at h <;> cases h
      · refine .inr ⟨_, ?_, rfl⟩
        rw [← hCall, Function.update_eq_self]
      · exact .inr ⟨_, rfl, rfl⟩
    · cases h
      exact .inl rfl
  | _ =>
    rw [access] at h
    split at h <;> cases h <;>
      first
        | exact .inl rfl
        | exact .inr ⟨_, rfl, rfl⟩

/-! ## The operations -/

/-- An operation on one lock that changes the holds on it as the step does. -/
theorem Represents.update (h : Represents locks s) {k : RwLock T} (hReads : ∀ u, k.reads u = s'.reading (u, l))
    (hWrites : ∀ u, k.writes u = s'.writing (u, l))
    (hOther : ∀ u m, m ≠ l → s'.reading (u, m) = s.reading (u, m) ∧ s'.writing (u, m) = s.writing (u, m)) :
    Represents (Function.update locks l k) s' := by
  constructor
  · intro u m
    by_cases hm : m = l
    · rw [hm, Function.update_self]
      exact hReads u
    · rw [Function.update_of_ne hm, (hOther u m hm).1]
      exact h.reads u m
  · intro u m
    by_cases hm : m = l
    · rw [hm, Function.update_self]
      exact hWrites u
    · rw [Function.update_of_ne hm, (hOther u m hm).2]
      exact h.writes u m

theorem update_pair (f : T × L → Nat) (t : T) (l : L) (n : Nat) (u : T) :
    Function.update f (t, l) n (u, l) = if u = t then n else f (u, l) := by
  rw [Function.update_apply]
  exact if_congr (by simp) rfl rfl

theorem update_pair_other (f : T × L → Nat) (t u : T) {l m : L} (hm : m ≠ l) (n : Nat) :
    Function.update f (t, l) n (u, m) = f (u, m) :=
  Function.update_of_ne (fun hEq => hm (Prod.mk.inj hEq).2) ..

/-- An operation that changes what a thread reads, -/
theorem Represents.updateReading (h : Represents locks s) {k : RwLock T} {n : Nat}
    (hReading : s'.reading = Function.update s.reading (t, l) n) (hWriting : s'.writing = s.writing)
    (hReads : ∀ u, k.reads u = if u = t then n else (locks l).reads u)
    (hWrites : ∀ u, k.writes u = (locks l).writes u) :
    Represents (Function.update locks l k) s' := by
  refine h.update (fun u => ?_) (fun u => ?_) fun u m hm => ?_
  · rw [hReads, hReading, update_pair, h.reads]
  · rw [hWrites, hWriting, h.writes]
  · rw [hReading, hWriting, update_pair_other _ _ _ hm]
    exact ⟨rfl, rfl⟩

/-- and one that changes what it writes. -/
theorem Represents.updateWriting (h : Represents locks s) {k : RwLock T} {n : Nat} (hReading : s'.reading = s.reading)
    (hWriting : s'.writing = Function.update s.writing (t, l) n) (hReads : ∀ u, k.reads u = (locks l).reads u)
    (hWrites : ∀ u, k.writes u = if u = t then n else (locks l).writes u) :
    Represents (Function.update locks l k) s' := by
  refine h.update (fun u => ?_) (fun u => ?_) fun u m hm => ?_
  · rw [hReads, hReading, h.reads]
  · rw [hWrites, hWriting, update_pair, h.writes]
  · rw [hReading, hWriting, update_pair_other _ _ _ hm]
    exact ⟨rfl, rfl⟩

theorem Represents.rdlock (h : Represents locks s) (hAcc : Accounted bravoHash s') (hExc : Excluding bravoHash s')
    (hReading : s'.reading = Function.update s.reading (t, l) (s.reading (t, l) + 1))
    (hWriting : s'.writing = s.writing) :
    ∃ locks', (Seen.rdlock t l).apply locks = some locks' ∧ Represents locks' s' := by
  have hNoWriter : ∀ u, (locks l).writes u = 0 := by
    intro u
    rw [h.writes, ← hWriting]
    by_contra hWriter
    have hNone := hExc.reading_eq_zero hAcc (Nat.pos_of_ne_zero hWriter) t
    rw [hReading, Function.update_self] at hNone
    cases hNone
  obtain ⟨k, hLock⟩ := RwLock.rdlock_of_not_writing hNoWriter t
  obtain ⟨hReads, _, hWrites⟩ := RwLock.rdlock_eq_some hLock
  refine ⟨Function.update locks l k, by rw [Seen.apply, hLock]; rfl,
    h.updateReading hReading hWriting (fun u => ?_) fun u => ?_⟩
  · rw [hReads, ← h.reads]
    split
    · rename_i hu
      rw [hu]
    · rfl
  · rw [hWrites, hNoWriter]

theorem Represents.wrlock (h : Represents locks s) (hAcc : Accounted bravoHash s') (hExc : Excluding bravoHash s')
    (hReading : s'.reading = s.reading)
    (hWriting : s'.writing = Function.update s.writing (t, l) (s.writing (t, l) + 1)) :
    ∃ locks', (Seen.wrlock t l).apply locks = some locks' ∧ Represents locks' s' := by
  have hMine : s'.writing (t, l) = s.writing (t, l) + 1 := by rw [hWriting, Function.update_self]
  have hOne : s.writing (t, l) = 0 := by
    have hLe := Nat.le_trans (hAcc.writing_le t l) (RwLock.writes_le_one _ t)
    omega
  have hOthers : ∀ u, u ≠ t → s.writing (u, l) = 0 := by
    intro u hu
    by_contra hWriter
    have hSame : s'.writing (u, l) = s.writing (u, l) := by rw [hWriting, update_pair, if_neg hu]
    exact hu (hAcc.writer_unique (l := l) (by omega) (by omega))
  have hFree : locks l = .free := by
    apply RwLock.eq_free
    intro u
    rw [h.reads, h.writes, ← hReading]
    refine ⟨hExc.reading_eq_zero hAcc (t := t) (by omega) u, ?_⟩
    by_cases hu : u = t
    · rw [hu]
      exact hOne
    · exact hOthers u hu
  refine ⟨Function.update locks l (.writing t), by rw [Seen.apply, hFree]; rfl,
    h.updateWriting hReading hWriting (fun u => ?_) fun u => ?_⟩
  · rw [hFree]
    rfl
  · rw [hFree, hOne]
    exact if_congr eq_comm rfl rfl

theorem Represents.unlock (h : Represents locks s)
    (hHolds : 0 < s.reading (t, l) ∧ s'.reading = Function.update s.reading (t, l) (s.reading (t, l) - 1) ∧
        s'.writing = s.writing ∨
      0 < s.writing (t, l) ∧ s'.writing = Function.update s.writing (t, l) (s.writing (t, l) - 1) ∧
        s'.reading = s.reading) :
    ∃ locks', (Seen.unlock t l).apply locks = some locks' ∧ Represents locks' s' := by
  rcases hHolds with ⟨hHeld, hReading, hWriting⟩ | ⟨hHeld, hWriting, hReading⟩
  · rw [← h.reads] at hHeld
    obtain ⟨k, hUnlock, hReads, hWrites, hNone⟩ := RwLock.unlock_of_reads hHeld
    refine ⟨Function.update locks l k, by rw [Seen.apply, hUnlock]; rfl,
      h.updateReading hReading hWriting (fun u => ?_) fun u => ?_⟩
    · rw [hReads, ← h.reads]
      split
      · rename_i hu
        rw [hu]
      · rfl
    · rw [hWrites, hNone]
  · rw [← h.writes] at hHeld
    obtain ⟨hUnlock, hWrites⟩ := RwLock.unlock_of_writes hHeld
    refine ⟨Function.update locks l .free, by rw [Seen.apply, hUnlock]; rfl,
      h.updateWriting hReading hWriting (fun u => ?_) fun u => ?_⟩
    · rw [RwLock.reads_eq_zero_of_writes hHeld]
      rfl
    · rw [← h.writes, hWrites, hWrites, if_pos rfl]
      split <;> rfl

theorem represents_refl (h : Represents locks s) (hReading : s'.reading = s.reading)
    (hWriting : s'.writing = s.writing) : Represents locks s' := by
  constructor
  · intro u k
    rw [hReading]
    exact h.reads u k
  · intro u k
    rw [hWriting]
    exact h.writes u k

theorem Represents.call (h : Represents locks s) {op : Op} (hStep : s.call t op l = some s') :
    ∃ locks', LockRun locks (s.seen (t, .call op l) s') locks' ∧ Represents locks' s' := by
  unfold State.call at hStep
  split at hStep
  · cases hStep
  · split at hStep
    · obtain ⟨hHeld, hDone⟩ := Option.ite_none_right_eq_some.mp hStep
      have hReading : s'.reading = Function.update s.reading (t, l) (s.reading (t, l) - 1) := by
        cases hDone
        rfl
      have hWriting : s'.writing = s.writing := by
        cases hDone
        rfl
      obtain ⟨locks', hUnlock, hNext⟩ := h.unlock (.inl ⟨hHeld, hReading, hWriting⟩)
      exact ⟨locks', .cons hUnlock (.nil _), hNext⟩
    · obtain ⟨hHeld, hDone⟩ := Option.ite_none_right_eq_some.mp hStep
      have hWriting : s'.writing = Function.update s.writing (t, l) (s.writing (t, l) - 1) := by
        cases hDone
        rfl
      have hReading : s'.reading = s.reading := by
        cases hDone
        rfl
      obtain ⟨locks', hUnlock, hNext⟩ := h.unlock (.inr ⟨hHeld, hWriting, hReading⟩)
      exact ⟨locks', .cons hUnlock (.nil _), hNext⟩
    · cases hStep
      refine ⟨locks, ?_, represents_refl h rfl rfl⟩
      cases op with
      | readUnlock | writeUnlock => contradiction
      | _ => exact .nil locks

theorem seen_access (hCall : s.calls t = some (l, p)) (clock : UInt64) :
    s.seen (t, .access clock) s' =
      if s'.reading (t, l) = s.reading (t, l) + 1 then [.rdlock t l]
      else if s'.writing (t, l) = s.writing (t, l) + 1 then [.wrlock t l] else [] := by
  simp only [seen, hCall]

theorem step_calls_of_ne {act : Act L} (hStep : Step bravoHash s (t, act) s') (hu : u ≠ t) :
    s'.calls u = s.calls u := by
  cases act with
  | call op m =>
    rw [(call_advances hStep).2]
    exact Function.update_of_ne hu ..
  | access clock =>
    obtain ⟨m, p, hCall, hAccess⟩ := step_access hStep
    rcases access_calls hCall hAccess with hCalls | ⟨q, hCalls, _⟩
    · rw [hCalls]
      exact Function.update_of_ne hu ..
    · rw [hCalls]
      exact Function.update_of_ne hu ..

/-- An unlock is seen at its call, a lock at its return; other steps are not seen. -/
theorem seen_cases {act : Act L} (hStep : Step bravoHash s (t, act) s') : s.seen (t, act) s' = [] ∨
    (∃ op m, act = .call op m ∧ (op = .readUnlock ∨ op = .writeUnlock) ∧ s.seen (t, act) s' = [.unlock t m]) ∨
    ∃ m p, s.calls t = some (m, p) ∧ s'.calls t = none ∧
      (p.kind = .reading ∧ s.seen (t, act) s' = [.rdlock t m] ∨
        p.kind = .writing ∧ s.seen (t, act) s' = [.wrlock t m]) := by
  cases act with
  | call op m =>
    cases op with
    | readUnlock => exact .inr (.inl ⟨_, m, rfl, .inl rfl, rfl⟩)
    | writeUnlock => exact .inr (.inl ⟨_, m, rfl, .inr rfl, rfl⟩)
    | _ => exact .inl rfl
  | access clock =>
    obtain ⟨m, p, hCall, hAccess⟩ := step_access hStep
    rw [seen_access hCall]
    cases access_gains hAccess with
    | nothing hReading hWriting =>
      rw [hReading, hWriting, if_neg (by omega), if_neg (by omega)]
      exact .inl rfl
    | read hKind hReading _ hDone =>
      rw [if_pos (by rw [hReading, Function.update_self])]
      exact .inr (.inr ⟨m, p, hCall, hDone, .inl ⟨hKind, rfl⟩⟩)
    | write hKind hReading hWriting hDone =>
      rw [hReading, if_neg (by omega), if_pos (by rw [hWriting, Function.update_self])]
      exact .inr (.inr ⟨m, p, hCall, hDone, .inr ⟨hKind, rfl⟩⟩)

theorem Represents.access (h : Represents locks s) (hAcc : Accounted bravoHash s') (hExc : Excluding bravoHash s')
    (hCall : s.calls t = some (l, p)) {clock : UInt64} (hStep : s.access bravoHash t l clock p = some s') :
    ∃ locks', LockRun locks (s.seen (t, .access clock) s') locks' ∧ Represents locks' s' := by
  rw [seen_access hCall]
  cases access_gains hStep with
  | nothing hReading hWriting =>
    rw [hReading, hWriting, if_neg (by omega), if_neg (by omega)]
    exact ⟨locks, .nil locks, represents_refl h hReading hWriting⟩
  | read _ hReading hWriting _ =>
    obtain ⟨locks', hLock, hNext⟩ := h.rdlock hAcc hExc hReading hWriting
    rw [if_pos (by rw [hReading, Function.update_self])]
    exact ⟨locks', .cons hLock (.nil _), hNext⟩
  | write _ hReading hWriting _ =>
    obtain ⟨locks', hLock, hNext⟩ := h.wrlock hAcc hExc hReading hWriting
    rw [hReading, if_neg (by omega), if_pos (by rw [hWriting, Function.update_self])]
    exact ⟨locks', .cons hLock (.nil _), hNext⟩

/-! ## Runs -/

theorem Represents.step (h : Represents locks s) (hAcc : Accounted bravoHash s') (hExc : Excluding bravoHash s')
    {a : T × Act L} (hStep : Step bravoHash s a s') :
    ∃ locks', LockRun locks (s.seen a s') locks' ∧ Represents locks' s' := by
  obtain ⟨t, call | clock⟩ := a
  · exact h.call hStep
  · obtain ⟨l, p, hCall, hAccess⟩ := step_access hStep
    exact h.access hAcc hExc hCall hAccess

theorem Represents.run {as : List (T × Act L)} (h : Represents locks s) (hAcc : Accounted bravoHash s)
    (hExc : Excluding bravoHash s) (hRun : Run (Guarded (OwnSlot bravoHash) (Step bravoHash)) s as s') :
    ∃ locks', LockRun locks (s.seenOf bravoHash as) locks' ∧ Represents locks' s' := by
  induction hRun generalizing locks with
  | nil s => exact ⟨locks, .nil locks, h⟩
  | @cons s s₁ s' a as hHead _ ih =>
    obtain ⟨t, l, b, hAccessed⟩ := step_accessed hAcc hHead
    have hAcc₁ := hAcc.accessed hAccessed
    have hExc₁ := hExc.accessed hAcc hAccessed
    obtain ⟨locks₁, hFirst, hNext⟩ := h.step hAcc₁ hExc₁ hHead.2
    obtain ⟨locks', hRest, hLast⟩ := ih hNext hAcc₁ hExc₁
    refine ⟨locks', ?_, hLast⟩
    rw [seenOf, show s.next bravoHash a = some s₁ from hHead.2]
    exact hFirst.append hRest

/-- In a run whose read unlocks find their slots empty or their own, what the callers see is a
run of correct locks, in which the threads hold what they hold. -/
theorem refines_of_ownSlots {as : List (T × Act L)} (hRun : OwnSlotRun bravoHash as s) :
    ∃ locks, LockRun (fun _ => .free) (init.seenOf bravoHash as) locks ∧ Represents locks s :=
  Represents.run ⟨fun _ _ => rfl, fun _ _ => rfl⟩ (init_accounted bravoHash) (init_excluding bravoHash) hRun

theorem refines_readAndUnlock : ∃ locks s, OwnSlotRun oneSlot readAndUnlock s ∧
    LockRun (fun _ => .free) [.rdlock 1 true, .unlock 1 true] locks ∧ Represents locks s := by
  obtain ⟨s, hRun, _⟩ := readAndUnlock_run
  obtain ⟨locks, hSeen, hLocks⟩ := refines_of_ownSlots hRun
  exact ⟨locks, s, hRun, hSeen, hLocks⟩

end State

end Bravo

end Libnvmmio

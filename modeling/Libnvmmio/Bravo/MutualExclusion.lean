import Libnvmmio.Bravo.Accesses
import Mathlib.Algebra.BigOperators.Group.Finset.Piecewise
import Mathlib.Data.Fintype.Fin

/-! # Mutual exclusion and the accounts of the holds

In a run whose read unlocks find their slots empty or their own, a writer
excludes the readers and every hold is given back to where it was taken. A
read unlock that finds another registration in its slot breaks both.
-/

namespace Libnvmmio.Bravo

open GuardedRun

set_option autoImplicit false
set_option linter.unusedSectionVars false

variable {T L : Type} [DecidableEq T] [DecidableEq L]

theorem Standing.Balanced.writes_pos {a : Standing} (h : a.Balanced) (hExcludes : a.Excludes) :
    0 < a.writes := by
  have hWrites := h.writes
  rcases hExcludes with hHeld | ⟨startTime, i, hPoint⟩
  · omega
  · rw [hPoint] at hWrites
    change a.writing + 1 = a.writes at hWrites
    omega

namespace State

variable {bravoHash : T → L → Fin nrEntries} {s s' : State T L} {t : T} {l : L} {a : Standing}

theorem Accounted.accessed (h : Accounted bravoHash s) (hStep : Accessed bravoHash s s' t l a) :
    Accounted bravoHash s' where
  slots i k u hSlot := (hStep.slots i k u hSlot).elim (h.slots i k u) id
  balanced u k := by
    rw [hStep.changes u k]
    split
    · exact hStep.balanced
    · exact h.balanced u k

variable (bravoHash)

/-- Whoever holds the lock for writing has turned the bias off, and while it is off
the readers by slot have a revocation ahead of them that waits for their slots. -/
structure Excluding (s : State T L) : Prop where
  unbiased : ∀ u k, (s.standing bravoHash u k).Excludes → (s.locks k).rbias = false
  waited : ∀ k, (s.locks k).rbias = false → ∀ u, (s.standing bravoHash u k).Confirmed →
    ∃ v startTime i, (s.standing bravoHash v k).point = some (.scan startTime i) ∧ i ≤ bravoHash u k

theorem init_excluding : Excluding bravoHash (init : State T L) where
  unbiased u k := by
    rintro (hHeld | ⟨_, _, hEq⟩)
    · exact absurd hHeld (Nat.lt_irrefl 0)
    · cases hEq
  waited k hOff := by cases hOff

variable {bravoHash}

theorem Excluding.other_lock (h : Excluding bravoHash s) (hChanges : Changes bravoHash s s' t l a) {k : L}
    (hk : k ≠ l) (hBias : (s'.locks k).rbias = (s.locks k).rbias) :
    (∀ u, (s'.standing bravoHash u k).Excludes → (s'.locks k).rbias = false) ∧
      ((s'.locks k).rbias = false → ∀ u, (s'.standing bravoHash u k).Confirmed →
        ∃ v startTime i, (s'.standing bravoHash v k).point = some (.scan startTime i) ∧
          i ≤ bravoHash u k) := by
  have hSame : ∀ u, s'.standing bravoHash u k = s.standing bravoHash u k :=
    fun u => hChanges.other fun hOwn => hk hOwn.2
  simp only [hSame, hBias]
  exact ⟨fun u => h.unbiased u k, h.waited k⟩

theorem Excluding.accessed (h : Excluding bravoHash s) (hAcc : Accounted bravoHash s)
    (hStep : Accessed bravoHash s s' t l a) : Excluding bravoHash s' := by
  have hAcc' := hAcc.accessed hStep
  have hOwn := hStep.changes.own
  have hOther : ∀ u, u ≠ t → s'.standing bravoHash u l = s.standing bravoHash u l :=
    fun u hu => hStep.changes.other fun hEq => hu hEq.1
  suffices hHere : ((∀ k, k ≠ l → (s'.locks k).rbias = (s.locks k).rbias) ∧
      (∀ u, (s'.standing bravoHash u l).Excludes → (s'.locks l).rbias = false)) ∧
      ((s'.locks l).rbias = false → ∀ u, (s'.standing bravoHash u l).Confirmed →
        ∃ v startTime i, (s'.standing bravoHash v l).point = some (.scan startTime i) ∧
          i ≤ bravoHash u l) by
    obtain ⟨⟨hBias, hUnbiased⟩, hWaited⟩ := hHere
    constructor
    · intro u k
      by_cases hk : k = l
      · subst hk
        exact hUnbiased u
      · exact (h.other_lock hStep.changes hk (hBias k hk)).1 u
    · intro k
      by_cases hk : k = l
      · subst hk
        exact hWaited
      · exact (h.other_lock hStep.changes hk (hBias k hk)).2
  cases hStep.effect with
  | quiet hBias hScan hExcludes hConfirmed =>
    refine ⟨⟨fun k _ => hBias k, fun u hu => ?_⟩, fun hOff u hu => ?_⟩
    · rw [hBias l]
      by_cases hut : u = t
      · rw [hut, hOwn] at hu
        exact (hExcludes hu).elim (h.unbiased t l) id
      · rw [hOther u hut] at hu
        exact h.unbiased u l hu
    · rw [hBias l] at hOff
      have hBefore : (s.standing bravoHash u l).Confirmed := by
        by_cases hut : u = t
        · rw [hut, hOwn] at hu
          rw [hut]
          exact hConfirmed hOff hu
        · rw [hOther u hut] at hu
          exact hu
      obtain ⟨v, startTime, i, hPoint, hLe⟩ := h.waited l hOff u hBefore
      have hvt : v ≠ t := by
        intro hEq
        rw [hEq] at hPoint
        exact hScan startTime i hPoint
      exact ⟨v, startTime, i, by rw [hOther v hvt]; exact hPoint, hLe⟩
  | revoke startTime hBias hOff hPoint =>
    exact ⟨⟨hBias, fun _ _ => hOff⟩,
      fun _ u _ => ⟨t, startTime, 0, by rw [hOwn]; exact hPoint, Nat.zero_le _⟩⟩
  | rebias hBias hOn hReads =>
    refine ⟨⟨hBias, fun u hu => ?_⟩, fun hOff => ?_⟩
    · -- a reader holds the underlying lock, so nobody excludes readers
      have hWrites := (hAcc'.balanced u l).writes_pos hu
      have hReads' : 0 < (s'.locks l).underlying.reads t := by
        rw [← hOwn] at hReads
        exact hReads
      have hNone := RwLock.writes_eq_zero_of_reads hReads' u
      exact absurd hNone (Nat.ne_of_gt hWrites)
    · rw [hOn] at hOff
      cases hOff
  | scan startTime i hBias hPoint hConfirmed hPassed =>
    have hOff := h.unbiased t l (.inr ⟨startTime, i, hPoint⟩)
    refine ⟨⟨fun k _ => hBias k, fun _ _ => (hBias l).trans hOff⟩, fun _ u hu => ?_⟩
    have hBefore : (s.standing bravoHash u l).Confirmed := by
      by_cases hut : u = t
      · rw [hut, hOwn] at hu
        rw [hut]
        exact hConfirmed hu
      · rw [hOther u hut] at hu
        exact hu
    -- the revocation that the reader has ahead of it is this one
    obtain ⟨v, startTime', i', hPoint', hLe⟩ := h.waited l hOff u hBefore
    have hv : 0 < (s.locks l).underlying.writes v :=
      (hAcc.balanced v l).writes_pos (.inr ⟨startTime', i', hPoint'⟩)
    have ht : 0 < (s.locks l).underlying.writes t :=
      (hAcc.balanced t l).writes_pos (.inr ⟨startTime, i, hPoint⟩)
    obtain rfl := RwLock.writer_unique hv ht
    rw [hPoint] at hPoint'
    cases hPoint'
    obtain ⟨j, hNext, hNextLe⟩ := hPassed u (of_decide_eq_true hBefore.1) hLe
    exact ⟨v, startTime, j, by rw [hOwn]; exact hNext, hNextLe⟩

abbrev OwnSlotRun (bravoHash : T → L → Fin nrEntries) (acts : List (T × Act L)) (s : State T L) : Prop :=
  Run (Guarded (OwnSlot bravoHash) (Step bravoHash)) init acts s

theorem OwnSlotRun.invariants {acts : List (T × Act L)} (h : OwnSlotRun bravoHash acts s) :
    Accounted bravoHash s ∧ Excluding bravoHash s := by
  apply h.invariant (fun s => Accounted bravoHash s ∧ Excluding bravoHash s)
  · rintro s act s' ⟨hAcc, hExc⟩ hStep
    obtain ⟨t, l, a, hAccessed⟩ := step_accessed hAcc hStep
    exact ⟨hAcc.accessed hAccessed, hExc.accessed hAcc hAccessed⟩
  · exact ⟨init_accounted bravoHash, init_excluding bravoHash⟩

/-- While a thread is between its write lock and its write unlock, no thread is
between its read lock and its read unlock. -/
theorem mutualExclusion_of_ownSlots {acts : List (T × Act L)} (hRun : OwnSlotRun bravoHash acts s)
    (t u : T) (l : L) : ¬ (0 < s.writing (t, l) ∧ 0 < s.reading (u, l)) := by
  rintro ⟨hWriting, hReading⟩
  obtain ⟨hAcc, hExc⟩ := hRun.invariants
  have hWrites : 0 < (s.locks l).underlying.writes t := (hAcc.balanced t l).writes_pos (.inl hWriting)
  have hOff := hExc.unbiased t l (.inl hWriting)
  -- the reader is one by its slot
  have hNone : (s.standing bravoHash u l).reads = 0 := RwLock.reads_eq_zero_of_writes hWrites u
  have hReads := (hAcc.balanced u l).reads
  rw [hNone, Nat.zero_add] at hReads
  change s.reading (u, l) + _ = _ at hReads
  have hConfirmed : (s.standing bravoHash u l).Confirmed := by
    have hLe := Bool.toNat_le (s.standing bravoHash u l).registered
    refine ⟨?_, fun p hPoint hTent => ?_⟩
    · cases hIn : (s.standing bravoHash u l).registered with
      | true => rfl
      | false =>
        rw [hIn] at hReads
        change _ = 0 at hReads
        omega
    · rw [hPoint] at hReads
      have hOwes : p.owesRead = 1 := by
        cases p with
        | readRecheck trying => rfl
        | readBackOut trying => rfl
        | _ => exact hTent.elim
      change s.reading (u, l) + p.owesRead = _ at hReads
      omega
  -- a revocation waits for that slot, and it is the writer's own
  obtain ⟨v, startTime, i, hPoint, _⟩ := hExc.waited l hOff u hConfirmed
  have hv : 0 < (s.locks l).underlying.writes v :=
    (hAcc.balanced v l).writes_pos (.inr ⟨startTime, i, hPoint⟩)
  obtain rfl := RwLock.writer_unique hWrites hv
  have hTwice := (hAcc.balanced t l).writes
  rw [hPoint] at hTwice
  change s.writing (t, l) + 1 = (s.locks l).underlying.writes t at hTwice
  have hLe : (s.locks l).underlying.writes t ≤ 1 := RwLock.writes_le_one _ t
  omega

section Runs

theorem step_goto {p : Point} {clock : UInt64}
    (h : (s.goto t l p).access bravoHash t l clock p = some s') :
    Step bravoHash (s.goto t l p) (t, .access clock) s' := by
  have hCall : (s.goto t l p).calls t = some (l, p) := Function.update_self ..
  rw [Step, next, hCall]
  exact h

@[simp] theorem goto_goto (s : State T L) (t : T) (l : L) (p q : Point) :
    (s.goto t l p).goto t l q = s.goto t l q := by
  simp only [goto, Function.update_idem]

@[simp] theorem holdWrite_goto (s : State T L) (t : T) (l : L) (p : Point) :
    (s.goto t l p).holdWrite t l = s.holdWrite t l := by
  simp only [goto, holdWrite, finish, Function.update_idem]

theorem holdWrite_writing (s : State T L) (t : T) (l : L) :
    (s.holdWrite t l).writing (t, l) = s.writing (t, l) + 1 := Function.update_self ..

/-- A scan of slots that do not hold the lock goes through. -/
theorem run_scan {startTime : UInt64} (clock : UInt64)
    (hPass : ∀ j, (s.visibleReaders j).map Prod.fst ≠ some l) {n i : Nat} (hn : i + n = nrEntries) :
    Run (Step bravoHash) (s.goto t l (.scan startTime i)) (List.replicate n (t, .access clock))
      (s.goto t l (.scan startTime nrEntries)) := by
  induction n generalizing i with
  | zero =>
    rw [Nat.add_zero] at hn
    rw [hn]
    exact .nil _
  | succ n ih =>
    have hi : i < nrEntries := by omega
    refine .cons (step_goto ?_) (ih (i := i + 1) (by omega))
    rw [access, dif_pos hi, if_neg (by exact hPass ⟨i, hi⟩), goto_goto]

/-- A write lock that holds the underlying lock returns once no slot holds its lock. -/
theorem run_revocate (bravoHash : T → L → Fin nrEntries) (hPass : ∀ j, (s.visibleReaders j).map Prod.fst ≠ some l) :
    ∃ acts s', Run (Step bravoHash) (s.goto t l .writeBias) acts s' ∧ (∀ act ∈ acts, act.1 = t) ∧
      s'.writing (t, l) = s.writing (t, l) + 1 ∧ s'.reading = s.reading := by
  cases hBias : (s.locks l).rbias with
  | false =>
    refine ⟨[(t, .access 0)], s.holdWrite t l, .cons (step_goto ?_) (.nil _), by simp,
      holdWrite_writing s t l, rfl⟩
    rw [access, if_neg (by exact ne_true_of_eq_false hBias), holdWrite_goto]
  | true =>
    have hRevoke : Step bravoHash (s.goto t l .writeBias) (t, .access 0) (s.goto t l .revokeBias) := by
      apply step_goto
      rw [access, if_pos (by exact hBias), goto_goto]
    have hOff : Step bravoHash (s.goto t l .revokeBias) (t, .access 0)
        ((s.setRbias l false).goto t l (.scan 0 0)) := by
      apply step_goto
      rw [access]
      exact congrArg some (goto_goto (s.setRbias l false) t l _ _)
    have hScan : Run (Step bravoHash) ((s.setRbias l false).goto t l (.scan 0 0))
        (List.replicate nrEntries (t, .access 0)) ((s.setRbias l false).goto t l (.scan 0 nrEntries)) :=
      run_scan (s := s.setRbias l false) 0 hPass (Nat.zero_add nrEntries)
    have hLast : Step bravoHash ((s.setRbias l false).goto t l (.scan 0 nrEntries)) (t, .access 0)
        (((s.setRbias l false).setInhibit l 0).holdWrite t l) := by
      apply step_goto
      rw [access, dif_neg (Nat.lt_irrefl _)]
      exact congrArg some (holdWrite_goto ((s.setRbias l false).setInhibit l 0) t l _)
    refine ⟨_, _, ((Run.cons hRevoke (.cons hOff (.nil _))).append hScan).snoc hLast, ?_,
      holdWrite_writing _ t l, rfl⟩
    intro act hMem
    simp only [List.mem_append, List.mem_replicate, List.mem_cons, List.not_mem_nil, or_false] at hMem
    rcases hMem with ((rfl | rfl) | ⟨_, rfl⟩) | rfl <;> rfl

theorem run_writeLock (bravoHash : T → L → Fin nrEntries) (hIdle : s.calls t = none)
    (hFree : (s.locks l).underlying = .free)
    (hPass : ∀ j, (s.visibleReaders j).map Prod.fst ≠ some l) :
    ∃ acts s', Run (Step bravoHash) s acts s' ∧ (∀ act ∈ acts, act.1 = t) ∧
      s'.writing (t, l) = s.writing (t, l) + 1 ∧ s'.reading = s.reading := by
  have hCall : Step bravoHash s (t, .call .writeLock l) (s.goto t l (.wrlock false)) := by
    rw [Step, next]
    unfold call
    rw [hIdle]
    rfl
  have hLock : Step bravoHash (s.goto t l (.wrlock false)) (t, .access 0)
      ((s.setUnderlying l (.writing t)).goto t l .writeBias) := by
    have hUnder : ((s.goto t l (.wrlock false)).locks l).underlying = .free := hFree
    apply step_goto
    rw [access, hUnder]
    exact congrArg some (goto_goto (s.setUnderlying l (.writing t)) t l _ _)
  obtain ⟨acts, s', hRun, hMine, hWriting, hReading⟩ :=
    run_revocate bravoHash (s := s.setUnderlying l (.writing t)) (t := t) hPass
  refine ⟨_, s', .cons hCall (.cons hLock hRun), ?_, hWriting, hReading⟩
  intro act hMem
  simp only [List.mem_cons] at hMem
  rcases hMem with rfl | rfl | hMem
  · rfl
  · rfl
  · exact hMine act hMem

end Runs

section Holds

def slotsOf (s : State T L) (l : L) : Finset (Fin nrEntries) :=
  Finset.univ.filter fun i => (s.visibleReaders i).map Prod.fst = some l

/-- Each registration stands in one slot, the one of its hash. -/
theorem card_slotsOf [Fintype T] (h : Accounted bravoHash s) (l : L) :
    (s.slotsOf l).card = ∑ t, (s.standing bravoHash t l).registered.toNat := by
  have hSlots : s.slotsOf l = (Finset.univ.filter fun t =>
      (s.standing bravoHash t l).registered = true).image (bravoHash · l) := by
    ext i
    simp only [slotsOf, Finset.mem_filter, Finset.mem_univ, true_and, Finset.mem_image, standing,
      decide_eq_true_eq]
    constructor
    · intro hHolds
      obtain ⟨⟨k, t⟩, hSlot, hLock⟩ := Option.map_eq_some_iff.mp hHolds
      dsimp only at hLock
      subst hLock
      have hHash := h.slots i k t hSlot
      exact ⟨t, by rw [hHash]; exact hSlot, hHash⟩
    · rintro ⟨t, hSlot, rfl⟩
      rw [hSlot]
      rfl
  rw [hSlots, Finset.card_image_of_injOn, Finset.card_filter]
  · apply Finset.sum_congr rfl
    intro t _
    cases (s.standing bravoHash t l).registered <;> rfl
  · intro t ht u hu hEq
    simp only [Finset.coe_filter, Finset.mem_univ, true_and, Set.mem_ofPred_eq, standing,
      decide_eq_true_eq] at ht hu
    dsimp only at hEq
    rw [hEq, hu] at ht
    exact (Prod.mk.inj (Option.some.inj ht)).2.symm

/-- With no call in progress, the holds recorded are the holds of the threads, and a lock
that nobody holds can be locked for writing. -/
structure HoldsAccounted [Fintype T] (bravoHash : T → L → Fin nrEntries) (s : State T L) (l : L) : Prop where
  count : (s.locks l).underlying.readers + (s.slotsOf l).card = ∑ t, s.reading (t, l)
  free : (∀ t, s.reading (t, l) = 0 ∧ s.writing (t, l) = 0) →
    (s.locks l).underlying = .free ∧ s.slotsOf l = ∅
  enters : (∀ t, s.reading (t, l) = 0 ∧ s.writing (t, l) = 0) → ∀ t, ∃ acts s',
    Run (Step bravoHash) s acts s' ∧ (∀ act ∈ acts, act.1 = t) ∧ 0 < s'.writing (t, l)

theorem holdsAccounted_of_ownSlots [Fintype T] {acts : List (T × Act L)}
    (hRun : OwnSlotRun bravoHash acts s) (hQuiet : ∀ t, s.calls t = none) (l : L) :
    HoldsAccounted bravoHash s l := by
  have hAcc := hRun.invariants.1
  have hReads : ∀ t, s.reading (t, l) =
      (s.locks l).underlying.reads t + (s.standing bravoHash t l).registered.toNat := by
    intro t
    have hEq := (hAcc.balanced t l).reads
    rw [show (s.standing bravoHash t l).point = none from pointOf_none (hQuiet t)] at hEq
    exact hEq
  have hWrites : ∀ t, s.writing (t, l) = (s.locks l).underlying.writes t := by
    intro t
    have hEq := (hAcc.balanced t l).writes
    rw [show (s.standing bravoHash t l).point = none from pointOf_none (hQuiet t)] at hEq
    exact hEq
  have hFree : (∀ t, s.reading (t, l) = 0 ∧ s.writing (t, l) = 0) →
      (s.locks l).underlying = .free ∧ s.slotsOf l = ∅ := by
    intro hNobody
    constructor
    · apply RwLock.eq_free
      intro t
      have hRead := hReads t
      have hWrite := hWrites t
      have hNone := hNobody t
      omega
    · rw [← Finset.card_eq_zero, card_slotsOf hAcc]
      apply Finset.sum_eq_zero
      intro t _
      have hRead := hReads t
      have hNone := hNobody t
      omega
  refine ⟨?_, hFree, fun hNobody t => ?_⟩
  · rw [card_slotsOf hAcc, ← RwLock.sum_reads, ← Finset.sum_add_distrib]
    exact (Finset.sum_congr rfl fun t _ => hReads t).symm
  · obtain ⟨hUnder, hEmpty⟩ := hFree hNobody
    obtain ⟨acts', s', hEnter, hMine, hWriting, _⟩ :=
      run_writeLock bravoHash (hQuiet t) hUnder fun j hHolds =>
        Finset.notMem_empty j (by rw [← hEmpty, slotsOf, Finset.mem_filter]; exact ⟨Finset.mem_univ j, hHolds⟩)
    exact ⟨acts', s', hEnter, hMine, by omega⟩

end Holds

section Schedules

theorem ownSlot_of_calls {p : Point} {clock : UInt64} (hCall : s.calls t = some (l, p))
    (hp : p ≠ .unlockLoad) : OwnSlot bravoHash s (t, .access clock) := by
  intro k hLoad
  rw [hCall] at hLoad
  cases hLoad
  exact absurd rfl hp

theorem ownSlot_of_own {clock : UInt64} (hCall : s.calls t = some (l, .unlockLoad))
    (hOwn : s.visibleReaders (bravoHash t l) = some (l, t)) : OwnSlot bravoHash s (t, .access clock) := by
  intro k hLoad
  rw [hCall] at hLoad
  cases hLoad
  exact .inr hOwn

def readAndUnlock : List (Fin 3 × Act Bool) :=
  [(1, .call .readLock true), (1, .access 0), (1, .access 0), (1, .access 0),
    (1, .call .readUnlock true), (1, .access 0), (1, .access 0)]

def oneSlot (_ : Fin 3) (_ : Bool) : Fin nrEntries := ⟨0, by decide⟩

theorem readAndUnlock_run : ∃ s, OwnSlotRun oneSlot readAndUnlock s ∧ ∀ t, s.calls t = none := by
  refine ⟨_, .cons ⟨trivial, rfl⟩ (.cons ⟨ownSlot_of_calls rfl (by decide), rfl⟩
    (.cons ⟨ownSlot_of_calls rfl (by decide), rfl⟩ (.cons ⟨ownSlot_of_calls rfl (by decide), rfl⟩
    (.cons ⟨trivial, rfl⟩ (.cons ⟨ownSlot_of_own rfl rfl, rfl⟩
    (.cons ⟨ownSlot_of_calls rfl (by decide), rfl⟩ (.nil _))))))), ?_⟩
  decide

theorem three_le_nrEntries : 3 ≤ nrEntries := by decide

def slotOfThread (t : Fin 3) (_ : Bool) : Fin nrEntries := t.castLE three_le_nrEntries

/-- Threads 0 and 1 have the lock by their slots, and a writer comes. When thread 0 has left,
the writer waits for the slot of thread 1. -/
def writerBehindReaders : List (Fin 3 × Act Bool) :=
  [(1, .call .readLock true), (1, .access 0), (1, .access 0), (1, .access 0), (0, .call .readLock true),
    (0, .access 0), (0, .access 0), (0, .access 0), (2, .call .writeLock true), (2, .access 0), (2, .access 0),
    (2, .access 0), (2, .access 0), (0, .call .readUnlock true), (0, .access 0), (0, .access 0), (2, .access 0),
    (2, .access 0)]

theorem mutualExclusion_writerBehindReaders : ∃ s, OwnSlotRun slotOfThread writerBehindReaders s ∧
    s.reading (1, true) = 1 ∧ s.calls 2 = some (true, .scan 0 1) ∧
    ¬ (0 < s.writing (2, true) ∧ 0 < s.reading (1, true)) := by
  have hRun : ∃ s, OwnSlotRun slotOfThread writerBehindReaders s ∧
      s.reading (1, true) = 1 ∧ s.calls 2 = some (true, .scan 0 1) := by
    refine ⟨_, .cons ⟨trivial, rfl⟩ (.cons ⟨?_, rfl⟩ (.cons ⟨?_, rfl⟩ (.cons ⟨?_, rfl⟩ (.cons ⟨trivial, rfl⟩
      (.cons ⟨?_, rfl⟩ (.cons ⟨?_, rfl⟩ (.cons ⟨?_, rfl⟩ (.cons ⟨trivial, rfl⟩ (.cons ⟨?_, rfl⟩ (.cons ⟨?_, rfl⟩
      (.cons ⟨?_, rfl⟩ (.cons ⟨?_, rfl⟩ (.cons ⟨trivial, rfl⟩ (.cons ⟨ownSlot_of_own rfl rfl, rfl⟩
      (.cons ⟨?_, rfl⟩ (.cons ⟨?_, rfl⟩ (.cons ⟨?_, rfl⟩ (.nil _)))))))))))))))))), rfl, rfl⟩
    all_goals exact ownSlot_of_calls rfl (by decide)
  obtain ⟨s, hRun, hReading, hScan⟩ := hRun
  exact ⟨s, hRun, hReading, hScan, mutualExclusion_of_ownSlots hRun 2 1 true⟩

theorem holdsAccounted_readAndUnlock : ∃ s, OwnSlotRun oneSlot readAndUnlock s ∧
    HoldsAccounted oneSlot s true := by
  obtain ⟨s, hRun, hQuiet⟩ := readAndUnlock_run
  exact ⟨s, hRun, holdsAccounted_of_ownSlots hRun hQuiet true⟩

/-- Thread 1 reads lock `true` by the slot. Thread 0 reads lock `false` by the underlying
lock, and its unlock clears the slot. -/
def collision : List (Fin 3 × Act Bool) :=
  [(1, .call .readLock true), (1, .access 0), (1, .access 0), (1, .access 0),
    (0, .call .readLock false), (0, .access 0), (0, .access 0), (0, .access 0), (0, .access 0),
    (0, .call .readUnlock false), (0, .access 0), (0, .access 0)]

theorem collision_run : ∃ s, Run (Step oneSlot) init collision s ∧ (∀ t, s.calls t = none) ∧
    (∀ j, s.visibleReaders j = none) ∧ (s.locks true).underlying = .free ∧
    s.reading (1, true) = 1 ∧ (s.locks false).underlying = .reading [0] ∧
    ∀ t, s.reading (t, false) = 0 := by
  refine ⟨_, .cons rfl (.cons rfl (.cons rfl (.cons rfl (.cons rfl (.cons rfl (.cons rfl (.cons rfl
    (.cons rfl (.cons rfl (.cons rfl (.cons rfl (.nil _)))))))))))), by decide, ?_, rfl, rfl, rfl, by decide⟩
  intro j
  change Function.update (Function.update (fun _ => none) (oneSlot 0 false) _) (oneSlot 0 false) none j = none
  rw [Function.update_idem]
  exact congrFun (Function.update_eq_self _ _) j

/-- The reader has lost its slot, so a writer comes in beside it. -/
theorem mutualExclusion_fails_after_collision : ∃ acts s, Run (Step oneSlot) init acts s ∧
    0 < s.writing (2, true) ∧ 0 < s.reading (1, true) := by
  obtain ⟨s, hRun, hQuiet, hEmpty, hFree, hReading, _, _⟩ := collision_run
  obtain ⟨acts, s', hWrite, _, hWriting, hKept⟩ := run_writeLock oneSlot (hQuiet 2) hFree
    fun j hHolds => by
      rw [hEmpty j] at hHolds
      cases hHolds
  refine ⟨_, s', hRun.append hWrite, by omega, ?_⟩
  rw [hKept, hReading]
  exact Nat.zero_lt_one

/-- Nobody holds lock `false`, and its underlying lock is held for reading. -/
theorem holdsAccounted_fails_after_collision : ∃ s, Run (Step oneSlot) init collision s ∧
    (∀ t, s.calls t = none) ∧ ¬ HoldsAccounted oneSlot s false := by
  obtain ⟨s, hRun, hQuiet, _, _, _, hHeld, hNobody⟩ := collision_run
  refine ⟨s, hRun, hQuiet, fun hAcc => ?_⟩
  have hCount := hAcc.count
  rw [hHeld, Finset.sum_eq_zero fun t _ => hNobody t] at hCount
  change 1 + _ = 0 at hCount
  omega

end Schedules

end State

end Libnvmmio.Bravo

import Libnvmmio.Bravo.Accounts

/-! # What a step does

One inversion of the step function gives the new standing of the thread and
what happens to the bias. Everything about runs follows from it.
-/

namespace Libnvmmio.Bravo

open GuardedRun

set_option autoImplicit false
set_option linter.unusedSectionVars false

namespace Standing

/-- The thread holds the lock for writing, or waits until the readers are gone. -/
def Excludes (a : Standing) : Prop := 0 < a.writing ∨ ∃ startTime i, a.point = some (.scan startTime i)

/-- The thread is a reader by its slot, and will not withdraw. -/
def Confirmed (a : Standing) : Prop := a.registered = true ∧ ∀ p, a.point = some p → ¬ p.Tentative

variable {a : Standing} {p q : Point}

theorem Balanced.move (h : a.Balanced) (hPoint : a.point = some p) (hRead : q.owesRead = p.owesRead)
    (hWrite : q.owesWrite = p.owesWrite) (hSlot : q.InSlot → a.registered = true)
    (hUnder : q.InUnderlying → 0 < a.reads) : { a with point := some q }.Balanced where
  reads := by
    have hReads := h.reads
    rw [hPoint] at hReads
    dsimp only [Option.elim] at hReads ⊢
    rw [hRead, hReads]
  writes := by
    have hWrites := h.writes
    rw [hPoint] at hWrites
    dsimp only [Option.elim] at hWrites ⊢
    rw [hWrite, hWrites]
  inSlot r hr := by
    cases hr
    exact hSlot
  inUnderlying r hr := by
    cases hr
    exact hUnder

/-- The call ends; what it owed is settled by the new numbers. -/
theorem balanced_of_point_none (hPoint : a.point = none)
    (hReads : a.reading = a.reads + a.registered.toNat) (hWrites : a.writing = a.writes) :
    a.Balanced where
  reads := by
    rw [hPoint]
    exact hReads
  writes := by
    rw [hPoint]
    exact hWrites
  inSlot r hr := by
    rw [hPoint] at hr
    cases hr
  inUnderlying r hr := by
    rw [hPoint] at hr
    cases hr

theorem Balanced.reads_eq (h : a.Balanced) (hPoint : a.point = some p) :
    a.reading + p.owesRead = a.reads + a.registered.toNat := by
  have hReads := h.reads
  rw [hPoint] at hReads
  exact hReads

theorem Balanced.writes_eq (h : a.Balanced) (hPoint : a.point = some p) :
    a.writing + p.owesWrite = a.writes := by
  have hWrites := h.writes
  rw [hPoint] at hWrites
  exact hWrites

end Standing

variable {T L : Type} [DecidableEq T] [DecidableEq L]

namespace State

variable (bravoHash : T → L → Fin nrEntries)

/-- What a step of `t` on `l` does to the bias and to those who rely on it; `a` is the new standing. -/
inductive Effect (s s' : State T L) (t : T) (l : L) (a : Standing) : Prop where
  | quiet (hBias : ∀ k, (s'.locks k).rbias = (s.locks k).rbias)
      (hScan : ∀ startTime i, (s.standing bravoHash t l).point ≠ some (.scan startTime i))
      (hExcludes : a.Excludes → (s.standing bravoHash t l).Excludes ∨ (s.locks l).rbias = false)
      (hConfirmed : (s.locks l).rbias = false → a.Confirmed → (s.standing bravoHash t l).Confirmed)
  | revoke (startTime : UInt64) (hBias : ∀ k, k ≠ l → (s'.locks k).rbias = (s.locks k).rbias)
      (hOff : (s'.locks l).rbias = false) (hPoint : a.point = some (.scan startTime 0))
  | rebias (hBias : ∀ k, k ≠ l → (s'.locks k).rbias = (s.locks k).rbias)
      (hOn : (s'.locks l).rbias = true) (hReads : 0 < a.reads)
  | scan (startTime : UInt64) (i : Nat) (hBias : ∀ k, (s'.locks k).rbias = (s.locks k).rbias)
      (hPoint : (s.standing bravoHash t l).point = some (.scan startTime i))
      (hConfirmed : a.Confirmed → (s.standing bravoHash t l).Confirmed)
      (hPassed : ∀ u, s.visibleReaders (bravoHash u l) = some (l, u) → i ≤ bravoHash u l →
        ∃ j, a.point = some (.scan startTime j) ∧ j ≤ bravoHash u l)

structure Accessed (s s' : State T L) (t : T) (l : L) (a : Standing) : Prop where
  changes : Changes bravoHash s s' t l a
  balanced : a.Balanced
  slots : ∀ i k u, s'.visibleReaders i = some (k, u) → s.visibleReaders i = some (k, u) ∨ bravoHash u k = i
  effect : Effect bravoHash s s' t l a

variable {bravoHash} {s s' : State T L} {t : T} {l : L} {p q : Point}

section Steps

variable (h : Accounted bravoHash s) (hCall : s.calls t = some (l, p))

include hCall

/-- A step that leaves the bias as it is, ends in a balanced standing and has nothing to do with a scan. -/
theorem accessed_quiet {a : Standing} (hChanges : Changes bravoHash s s' t l a) (hBalanced : a.Balanced)
    (hSlots : ∀ i k u, s'.visibleReaders i = some (k, u) →
      s.visibleReaders i = some (k, u) ∨ bravoHash u k = i)
    (hBias : ∀ k, (s'.locks k).rbias = (s.locks k).rbias)
    (hScan : ∀ startTime i, p ≠ .scan startTime i) (hScan' : ∀ startTime i, a.point ≠ some (.scan startTime i))
    (hWriting : 0 < a.writing → 0 < s.writing (t, l) ∨ (s.locks l).rbias = false)
    (hConfirmed : (s.locks l).rbias = false → a.Confirmed → (s.standing bravoHash t l).Confirmed) :
    ∃ a, Accessed bravoHash s s' t l a := by
  have hPoint : (s.standing bravoHash t l).point = some p := pointOf_some hCall
  refine ⟨a, hChanges, hBalanced, hSlots, .quiet hBias (fun startTime i hEq => ?_) ?_ hConfirmed⟩
  · rw [hPoint] at hEq
    exact hScan startTime i (Option.some.inj hEq)
  · rintro (hHeld | ⟨startTime, i, hEq⟩)
    · exact (hWriting hHeld).imp_left .inl
    · exact absurd hEq (hScan' startTime i)

theorem confirmed_of_firm (hFirm : ¬ p.Tentative) (hIn : (s.standing bravoHash t l).registered = true) :
    (s.standing bravoHash t l).Confirmed := by
  refine ⟨hIn, fun r hr hTent => ?_⟩
  rw [show (s.standing bravoHash t l).point = some p from pointOf_some hCall] at hr
  cases hr
  exact hFirm hTent

include h

theorem accessed_goto (hRead : q.owesRead = p.owesRead) (hWrite : q.owesWrite = p.owesWrite)
    (hSlot : q.InSlot → (s.standing bravoHash t l).registered = true)
    (hUnder : q.InUnderlying → 0 < (s.standing bravoHash t l).reads)
    (hScan : ∀ startTime i, p ≠ .scan startTime i) (hScan' : ∀ startTime i, q ≠ .scan startTime i)
    (hTentative : p.Tentative → q.Tentative) :
    ∃ a, Accessed bravoHash s (s.goto t l q) t l a := by
  have hPoint : (s.standing bravoHash t l).point = some p := pointOf_some hCall
  refine accessed_quiet hCall ((Changes.refl s t l).goto (AtMost.of_calls hCall) q)
    ((h.balanced t l).move hPoint hRead hWrite hSlot hUnder) (fun _ _ _ => .inl) (fun _ => rfl) hScan
    (fun startTime i hEq => hScan' startTime i (Option.some.inj hEq)) .inl ?_
  rintro _ ⟨hIn, hFirm⟩
  exact confirmed_of_firm hCall (fun hTent => hFirm q rfl (hTentative hTent)) hIn

/-- A read lock returns; on the fast path the bias is on. -/
theorem accessed_holdRead (hRead : p.owesRead = 1) (hWrite : p.owesWrite = 0)
    (hScan : ∀ startTime i, p ≠ .scan startTime i)
    (hBias : p.Tentative → (s.locks l).rbias = true) :
    ∃ a, Accessed bravoHash s (s.holdRead t l) t l a := by
  have hPoint : (s.standing bravoHash t l).point = some p := pointOf_some hCall
  have hReads := (h.balanced t l).reads_eq hPoint
  have hWrites := (h.balanced t l).writes_eq hPoint
  rw [hRead] at hReads
  rw [hWrite] at hWrites
  refine accessed_quiet hCall ((Changes.refl s t l).holdRead (AtMost.of_calls hCall))
    (Standing.balanced_of_point_none rfl hReads hWrites) (fun _ _ _ => .inl) (fun _ => rfl) hScan
    (fun _ _ hEq => by cases hEq) .inl ?_
  rintro hOff ⟨hIn, _⟩
  refine confirmed_of_firm hCall (fun hTent => ?_) hIn
  rw [hBias hTent] at hOff
  cases hOff

theorem accessed_finish (hRead : p.owesRead = 0) (hWrite : p.owesWrite = 0)
    (hScan : ∀ startTime i, p ≠ .scan startTime i) (hTentative : ¬ p.Tentative) :
    ∃ a, Accessed bravoHash s (s.finish t) t l a := by
  have hPoint : (s.standing bravoHash t l).point = some p := pointOf_some hCall
  have hReads := (h.balanced t l).reads_eq hPoint
  have hWrites := (h.balanced t l).writes_eq hPoint
  rw [hRead] at hReads
  rw [hWrite] at hWrites
  refine accessed_quiet hCall ((Changes.refl s t l).finish (AtMost.of_calls hCall))
    (Standing.balanced_of_point_none rfl hReads hWrites) (fun _ _ _ => .inl) (fun _ => rfl) hScan
    (fun _ _ hEq => by cases hEq) .inl ?_
  rintro _ ⟨hIn, _⟩
  exact confirmed_of_firm hCall hTentative hIn

end Steps

section Slots

variable {trying : Bool}

theorem accessed_register (h : Accounted bravoHash s) (hCall : s.calls t = some (l, .readCas trying))
    (hFree : s.visibleReaders (bravoHash t l) = none) :
    ∃ a, Accessed bravoHash s
      ((s.setSlot (bravoHash t l) (some (l, t))).goto t l (.readRecheck trying)) t l a := by
  have hPoint : (s.standing bravoHash t l).point = some _ := pointOf_some hCall
  have hReads := (h.balanced t l).reads_eq hPoint
  have hWrites := (h.balanced t l).writes_eq hPoint
  have hOut : (s.standing bravoHash t l).registered = false := by simp [standing, hFree]
  rw [hOut] at hReads
  refine accessed_quiet hCall
    ((changes_setSlot bravoHash (.inr rfl) (.inl hFree)).goto (AtMost.of_calls hCall) _)
    ⟨?_, hWrites, fun _ _ _ => decide_eq_true rfl, ?_⟩ ?_ (fun _ => rfl) (fun _ _ hEq => by cases hEq)
    (fun _ _ hEq => by cases hEq) .inl ?_
  · simp only [decide_true]
    exact congrArg (· + 1) hReads
  · rintro _ hEq hUnder
    cases hEq
    exact hUnder.elim
  · intro i k u hEq
    by_cases hi : i = bravoHash t l
    · subst hi
      have hSelf : some (l, t) = some (k, u) := by simpa [setSlot, goto] using hEq
      cases hSelf
      exact .inr rfl
    · left
      simpa [setSlot, goto, Function.update_of_ne hi] using hEq
  · rintro _ ⟨_, hFirm⟩
    exact absurd trivial (hFirm _ rfl)

theorem slots_of_clear {i : Fin nrEntries} {k : L} {u : T}
    (hEq : (s.setSlot (bravoHash t l) none).visibleReaders i = some (k, u)) :
    s.visibleReaders i = some (k, u) := by
  by_cases hi : i = bravoHash t l
  · subst hi
    simp [setSlot] at hEq
  · simpa [setSlot, Function.update_of_ne hi] using hEq

theorem accessed_backOut (h : Accounted bravoHash s) (hCall : s.calls t = some (l, .readBackOut trying)) :
    ∃ a, Accessed bravoHash s ((s.setSlot (bravoHash t l) none).goto t l (.rdlock trying)) t l a := by
  have hPoint : (s.standing bravoHash t l).point = some _ := pointOf_some hCall
  have hReads := (h.balanced t l).reads_eq hPoint
  have hWrites := (h.balanced t l).writes_eq hPoint
  have hIn := (h.balanced t l).inSlot _ hPoint trivial
  rw [hIn] at hReads
  refine accessed_quiet hCall
    ((changes_setSlot bravoHash (.inl rfl) (.inr (of_decide_eq_true hIn))).goto (AtMost.of_calls hCall) _)
    ⟨Nat.succ.inj hReads, hWrites, ?_, ?_⟩ (fun _ _ _ hEq => .inl (slots_of_clear hEq)) (fun _ => rfl)
    (fun _ _ hEq => by cases hEq) (fun _ _ hEq => by cases hEq) .inl ?_
  · rintro _ hEq hIn
    cases hEq
    exact hIn.elim
  · rintro _ hEq hUnder
    cases hEq
    exact hUnder.elim
  · rintro _ ⟨hIn, _⟩
    cases hIn

theorem accessed_unlockClear (h : Accounted bravoHash s) (hCall : s.calls t = some (l, .unlockClear)) :
    ∃ a, Accessed bravoHash s ((s.setSlot (bravoHash t l) none).finish t) t l a := by
  have hPoint : (s.standing bravoHash t l).point = some _ := pointOf_some hCall
  have hReads := (h.balanced t l).reads_eq hPoint
  have hWrites := (h.balanced t l).writes_eq hPoint
  have hIn := (h.balanced t l).inSlot _ hPoint trivial
  rw [hIn] at hReads
  refine accessed_quiet hCall
    ((changes_setSlot bravoHash (.inl rfl) (.inr (of_decide_eq_true hIn))).finish (AtMost.of_calls hCall))
    (Standing.balanced_of_point_none rfl (Nat.succ.inj hReads) hWrites)
    (fun _ _ _ hEq => .inl (slots_of_clear hEq)) (fun _ => rfl) (fun _ _ hEq => by cases hEq)
    (fun _ _ hEq => by cases hEq) .inl ?_
  rintro _ ⟨hIn, _⟩
  cases hIn

end Slots

section Underlying

variable {u : RwLock T}

theorem rbias_setUnderlying (s : State T L) (l : L) (u : RwLock T) (k : L) :
    ((s.setUnderlying l u).locks k).rbias = (s.locks k).rbias := by
  by_cases hk : k = l
  · subst hk
    simp only [setUnderlying, setLock, Function.update_self]
  · simp only [setUnderlying, setLock, Function.update_of_ne hk]

theorem accessed_rdlock {trying : Bool} (h : Accounted bravoHash s)
    (hCall : s.calls t = some (l, .rdlock trying)) (hLock : (s.locks l).underlying.rdlock t = some u) :
    ∃ a, Accessed bravoHash s ((s.setUnderlying l u).goto t l .slowBias) t l a := by
  have hPoint : (s.standing bravoHash t l).point = some _ := pointOf_some hCall
  have hReads := (h.balanced t l).reads_eq hPoint
  have hWrites := (h.balanced t l).writes_eq hPoint
  obtain ⟨hMore, hNone, hNone'⟩ := RwLock.rdlock_eq_some hLock
  have hOwn : u.reads t = (s.locks l).underlying.reads t + 1 := by rw [hMore, if_pos rfl]
  refine accessed_quiet hCall
    ((changes_setUnderlying bravoHash (fun v hv => by rw [hMore, if_neg hv]; rfl)
      (fun v _ => (hNone' v).trans (hNone v).symm)).goto (AtMost.of_calls hCall) _)
    ⟨?_, ?_, ?_, ?_⟩ (fun _ _ _ => .inl) (rbias_setUnderlying s l u) (fun _ _ hEq => by cases hEq)
    (fun _ _ hEq => by cases hEq) .inl ?_
  · change s.reading (t, l) + 1 = u.reads t + (s.standing bravoHash t l).registered.toNat
    change s.reading (t, l) + 0 =
      (s.locks l).underlying.reads t + (s.standing bravoHash t l).registered.toNat at hReads
    omega
  · exact hWrites.trans ((hNone t).trans (hNone' t).symm)
  · rintro _ hEq hIn
    cases hEq
    exact hIn.elim
  · rintro _ _ _
    change 0 < u.reads t
    omega
  · rintro _ ⟨hIn, _⟩
    exact confirmed_of_firm hCall (fun hTent => hTent) hIn

theorem accessed_wrlock {trying : Bool} (h : Accounted bravoHash s)
    (hCall : s.calls t = some (l, .wrlock trying)) (hLock : (s.locks l).underlying.wrlock t = some u) :
    ∃ a, Accessed bravoHash s ((s.setUnderlying l u).goto t l .writeBias) t l a := by
  have hPoint : (s.standing bravoHash t l).point = some _ := pointOf_some hCall
  have hReads := (h.balanced t l).reads_eq hPoint
  have hWrites := (h.balanced t l).writes_eq hPoint
  obtain ⟨hFree, hNone, hMine⟩ := RwLock.wrlock_eq_some hLock
  refine accessed_quiet hCall
    ((changes_setUnderlying bravoHash (fun v _ => by rw [hNone, hFree]; rfl)
      (fun v hv => by rw [hMine, if_neg hv, hFree]; rfl)).goto (AtMost.of_calls hCall) _)
    ⟨?_, ?_, ?_, ?_⟩ (fun _ _ _ => .inl) (rbias_setUnderlying s l u) (fun _ _ hEq => by cases hEq)
    (fun _ _ hEq => by cases hEq) .inl ?_
  · refine hReads.trans ?_
    change (s.locks l).underlying.reads t + _ = u.reads t + _
    rw [hNone t, hFree, RwLock.reads_free]
  · change s.writing (t, l) + 1 = u.writes t
    change s.writing (t, l) + 0 = (s.locks l).underlying.writes t at hWrites
    rw [hMine, if_pos rfl]
    rw [hFree, RwLock.writes_free] at hWrites
    omega
  · rintro _ hEq hIn
    cases hEq
    exact hIn.elim
  · rintro _ hEq hUnder
    cases hEq
    exact hUnder.elim
  · rintro _ ⟨hIn, _⟩
    exact confirmed_of_firm hCall (fun hTent => hTent) hIn

theorem accessed_unlockUnderlying (h : Accounted bravoHash s)
    (hCall : s.calls t = some (l, .unlockUnderlying))
    (hLock : (s.locks l).underlying.unlock t = some u) :
    ∃ a, Accessed bravoHash s ((s.setUnderlying l u).finish t) t l a := by
  have hPoint : (s.standing bravoHash t l).point = some _ := pointOf_some hCall
  have hReads := (h.balanced t l).reads_eq hPoint
  have hWrites := (h.balanced t l).writes_eq hPoint
  have hHeld : 0 < (s.locks l).underlying.reads t := (h.balanced t l).inUnderlying _ hPoint trivial
  obtain ⟨u', hUnlock, hLess, hNone', hNone⟩ := RwLock.unlock_of_reads hHeld
  obtain rfl : u' = u := Option.some.inj (hUnlock.symm.trans hLock)
  have hOwn : u'.reads t = (s.locks l).underlying.reads t - 1 := by rw [hLess, if_pos rfl]
  refine accessed_quiet hCall
    ((changes_setUnderlying bravoHash (fun v hv => by rw [hLess, if_neg hv]; rfl)
      (fun v _ => (hNone' v).trans (hNone v).symm)).finish (AtMost.of_calls hCall))
    (Standing.balanced_of_point_none rfl ?_ ?_) (fun _ _ _ => .inl) (rbias_setUnderlying s l u')
    (fun _ _ hEq => by cases hEq) (fun _ _ hEq => by cases hEq) .inl ?_
  · change s.reading (t, l) = u'.reads t + (s.standing bravoHash t l).registered.toNat
    change s.reading (t, l) + 1 =
      (s.locks l).underlying.reads t + (s.standing bravoHash t l).registered.toNat at hReads
    omega
  · exact hWrites.trans ((hNone t).trans (hNone' t).symm)
  · rintro _ ⟨hIn, _⟩
    exact confirmed_of_firm hCall (fun hTent => hTent) hIn

theorem accessed_writeUnlock (h : Accounted bravoHash s) (hCall : s.calls t = some (l, .writeUnlock))
    (hLock : (s.locks l).underlying.unlock t = some u) :
    ∃ a, Accessed bravoHash s ((s.setUnderlying l u).finish t) t l a := by
  have hPoint : (s.standing bravoHash t l).point = some _ := pointOf_some hCall
  have hReads := (h.balanced t l).reads_eq hPoint
  have hWrites := (h.balanced t l).writes_eq hPoint
  change s.writing (t, l) + 1 = (s.locks l).underlying.writes t at hWrites
  have hHeld : 0 < (s.locks l).underlying.writes t := by omega
  obtain ⟨hUnlock, hMine⟩ := RwLock.unlock_of_writes hHeld
  obtain rfl : RwLock.free = u := Option.some.inj (hUnlock.symm.trans hLock)
  have hNone := RwLock.reads_eq_zero_of_writes hHeld
  have hReads' : ∀ v, v ≠ t → RwLock.free.reads v = (s.locks l).underlying.reads v :=
    fun v _ => (hNone v).symm
  have hWrites' : ∀ v, v ≠ t → RwLock.free.writes v = (s.locks l).underlying.writes v := by
    intro v hv
    rw [hMine, if_neg hv, RwLock.writes_free]
  refine accessed_quiet hCall
    ((changes_setUnderlying bravoHash hReads' hWrites').finish (AtMost.of_calls hCall))
    (Standing.balanced_of_point_none rfl ?_ ?_) (fun _ _ _ => .inl) (rbias_setUnderlying s l .free)
    (fun _ _ hEq => by cases hEq) (fun _ _ hEq => by cases hEq) .inl ?_
  · refine hReads.trans ?_
    change (s.locks l).underlying.reads t + _ = 0 + _
    rw [hNone t]
  · change s.writing (t, l) = 0
    rw [hMine, if_pos rfl] at hWrites
    omega
  · rintro _ ⟨hIn, _⟩
    exact confirmed_of_firm hCall (fun hTent => hTent) hIn

end Underlying

section Bias

theorem rbias_setRbias (s : State T L) (l : L) (b : Bool) :
    ((s.setRbias l b).locks l).rbias = b := by
  simp only [setRbias, setLock, Function.update_self]

theorem rbias_setLock_of_ne (s : State T L) {k l : L} (b : BravoRwlock T) (hk : k ≠ l) :
    ((s.setLock l b).locks k).rbias = (s.locks k).rbias := by
  simp only [setLock, Function.update_of_ne hk]

theorem rbias_setInhibit (s : State T L) (l : L) (time : UInt64) (k : L) :
    ((s.setInhibit l time).locks k).rbias = (s.locks k).rbias := by
  by_cases hk : k = l
  · subst hk
    simp only [setInhibit, setLock, Function.update_self]
  · exact rbias_setLock_of_ne s _ hk

theorem accessed_slowSet (h : Accounted bravoHash s) (hCall : s.calls t = some (l, .slowSet)) :
    ∃ a, Accessed bravoHash s ((s.setRbias l true).holdRead t l) t l a := by
  have hPoint : (s.standing bravoHash t l).point = some _ := pointOf_some hCall
  have hReads := (h.balanced t l).reads_eq hPoint
  have hWrites := (h.balanced t l).writes_eq hPoint
  have hHeld := (h.balanced t l).inUnderlying _ hPoint trivial
  refine ⟨_, (changes_setRbias bravoHash s l true t).holdRead (AtMost.of_calls hCall),
    Standing.balanced_of_point_none rfl hReads hWrites, fun _ _ _ => .inl,
    .rebias (fun k hk => rbias_setLock_of_ne s _ hk) (rbias_setRbias s l true) hHeld⟩

theorem accessed_holdWrite (h : Accounted bravoHash s) (hCall : s.calls t = some (l, .writeBias))
    (hOff : (s.locks l).rbias = false) : ∃ a, Accessed bravoHash s (s.holdWrite t l) t l a := by
  have hPoint : (s.standing bravoHash t l).point = some _ := pointOf_some hCall
  have hReads := (h.balanced t l).reads_eq hPoint
  have hWrites := (h.balanced t l).writes_eq hPoint
  refine accessed_quiet hCall ((Changes.refl s t l).holdWrite (AtMost.of_calls hCall))
    (Standing.balanced_of_point_none rfl hReads hWrites) (fun _ _ _ => .inl) (fun _ => rfl)
    (fun _ _ hEq => by cases hEq) (fun _ _ hEq => by cases hEq) (fun _ => .inr hOff) ?_
  rintro _ ⟨hIn, _⟩
  exact confirmed_of_firm hCall (fun hTent => hTent) hIn

theorem accessed_revokeBias (h : Accounted bravoHash s) (hCall : s.calls t = some (l, .revokeBias))
    (clock : UInt64) : ∃ a, Accessed bravoHash s ((s.setRbias l false).goto t l (.scan clock 0)) t l a := by
  have hPoint : (s.standing bravoHash t l).point = some _ := pointOf_some hCall
  refine ⟨_, (changes_setRbias bravoHash s l false t).goto (AtMost.of_calls hCall) _,
    (h.balanced t l).move hPoint rfl rfl (fun hIn => hIn.elim) (fun hUnder => hUnder.elim),
    fun _ _ _ => .inl, .revoke clock (fun k hk => rbias_setLock_of_ne s _ hk) (rbias_setRbias s l false) rfl⟩

/-- The scan waits at a slot, goes on to the next, or is over. -/
theorem accessed_scan (h : Accounted bravoHash s) {startTime clock : UInt64} {i : Nat}
    (hCall : s.calls t = some (l, .scan startTime i))
    (hStep : s.access bravoHash t l clock (.scan startTime i) = some s') :
    ∃ a, Accessed bravoHash s s' t l a := by
  have hPoint : (s.standing bravoHash t l).point = some _ := pointOf_some hCall
  have hReads := (h.balanced t l).reads_eq hPoint
  have hWrites := (h.balanced t l).writes_eq hPoint
  have hFirm : ¬ (Point.scan startTime i).Tentative := fun hTent => hTent
  rw [access] at hStep
  split at hStep
  · rename_i hi
    split at hStep
    · cases hStep
      exact ⟨_, Changes.refl s t l, h.balanced t l, fun _ _ _ => .inl,
        .scan startTime i (fun _ => rfl) hPoint id fun u _ hLe => ⟨i, hPoint, hLe⟩⟩
    · rename_i hPass
      cases hStep
      refine ⟨_, (Changes.refl s t l).goto (AtMost.of_calls hCall) _,
        (h.balanced t l).move hPoint rfl rfl (fun hIn => hIn.elim) (fun hUnder => hUnder.elim),
        fun _ _ _ => .inl, .scan startTime i (fun _ => rfl) hPoint ?_ fun u hIn hLe => ⟨i + 1, rfl, ?_⟩⟩
      · rintro ⟨hIn, _⟩
        exact confirmed_of_firm hCall hFirm hIn
      · -- the slot just passed does not hold the lock
        rcases Nat.lt_or_eq_of_le hLe with hLt | hEq
        · exact hLt
        · exfalso
          apply hPass
          rw [show (⟨i, hi⟩ : Fin nrEntries) = bravoHash u l from Fin.ext hEq, hIn]
          rfl
  · rename_i hi
    cases hStep
    refine ⟨_, (changes_setInhibit bravoHash s l _ t).holdWrite (AtMost.of_calls hCall),
      Standing.balanced_of_point_none rfl hReads hWrites, fun _ _ _ => .inl,
      .scan startTime i (rbias_setInhibit s l _) hPoint ?_ fun u _ hLe => ?_⟩
    · rintro ⟨hIn, _⟩
      exact confirmed_of_firm hCall hFirm hIn
    · have hLt := (bravoHash u l).isLt
      omega

end Bias

/-- Every access of a call, if a read unlock about to look at its slot finds it empty or its own. -/
theorem access_accessed (h : Accounted bravoHash s) (hCall : s.calls t = some (l, p)) {clock : UInt64}
    (hOwn : p = .unlockLoad → s.visibleReaders (bravoHash t l) = none ∨
      s.visibleReaders (bravoHash t l) = some (l, t))
    (hStep : s.access bravoHash t l clock p = some s') : ∃ a, Accessed bravoHash s s' t l a := by
  have hPoint : (s.standing bravoHash t l).point = some p := pointOf_some hCall
  cases p with
  | readBias trying =>
    rw [access] at hStep
    split at hStep
    · cases hStep
      exact accessed_goto h hCall rfl rfl (fun hIn => hIn.elim) (fun hUnder => hUnder.elim)
        (fun _ _ hEq => by cases hEq) (fun _ _ hEq => by cases hEq) (fun hTent => hTent.elim)
    · cases hStep
      exact accessed_goto h hCall rfl rfl (fun hIn => hIn.elim) (fun hUnder => hUnder.elim)
        (fun _ _ hEq => by cases hEq) (fun _ _ hEq => by cases hEq) (fun hTent => hTent.elim)
  | readCas trying =>
    rw [access] at hStep
    split at hStep
    · rename_i hFree
      cases hStep
      exact accessed_register h hCall hFree
    · cases hStep
      exact accessed_goto h hCall rfl rfl (fun hIn => hIn.elim) (fun hUnder => hUnder.elim)
        (fun _ _ hEq => by cases hEq) (fun _ _ hEq => by cases hEq) (fun hTent => hTent.elim)
  | readRecheck trying =>
    rw [access] at hStep
    split at hStep
    · rename_i hOn
      cases hStep
      exact accessed_holdRead h hCall rfl rfl (fun _ _ hEq => by cases hEq) (fun _ => hOn)
    · cases hStep
      exact accessed_goto h hCall rfl rfl (fun _ => (h.balanced t l).inSlot _ hPoint trivial)
        (fun hUnder => hUnder.elim) (fun _ _ hEq => by cases hEq) (fun _ _ hEq => by cases hEq)
        (fun _ => trivial)
  | readBackOut trying =>
    cases hStep
    exact accessed_backOut h hCall
  | rdlock trying =>
    rw [access] at hStep
    split at hStep
    · rename_i u hLock
      cases hStep
      exact accessed_rdlock h hCall hLock
    · split at hStep
      · cases hStep
        exact accessed_finish h hCall rfl rfl (fun _ _ hEq => by cases hEq) (fun hTent => hTent)
      · cases hStep
  | slowBias =>
    rw [access] at hStep
    split at hStep
    · cases hStep
      exact accessed_holdRead h hCall rfl rfl (fun _ _ hEq => by cases hEq) (fun hTent => hTent.elim)
    · cases hStep
      exact accessed_goto h hCall rfl rfl (fun hIn => hIn.elim)
        (fun _ => (h.balanced t l).inUnderlying _ hPoint trivial)
        (fun _ _ hEq => by cases hEq) (fun _ _ hEq => by cases hEq) (fun hTent => hTent.elim)
  | slowInhibit nowTime =>
    rw [access] at hStep
    split at hStep
    · cases hStep
      exact accessed_goto h hCall rfl rfl (fun hIn => hIn.elim)
        (fun _ => (h.balanced t l).inUnderlying _ hPoint trivial)
        (fun _ _ hEq => by cases hEq) (fun _ _ hEq => by cases hEq) (fun hTent => hTent.elim)
    · cases hStep
      exact accessed_holdRead h hCall rfl rfl (fun _ _ hEq => by cases hEq) (fun hTent => hTent.elim)
  | slowSet =>
    cases hStep
    exact accessed_slowSet h hCall
  | unlockLoad =>
    have hReads := (h.balanced t l).reads_eq hPoint
    rw [access] at hStep
    split at hStep
    · rename_i v hFull
      cases hStep
      have hIn : s.visibleReaders (bravoHash t l) = some (l, t) :=
        (hOwn rfl).resolve_left (by rw [hFull]; exact Option.some_ne_none v)
      exact accessed_goto h hCall rfl rfl (fun _ => decide_eq_true hIn) (fun hUnder => hUnder.elim)
        (fun _ _ hEq => by cases hEq) (fun _ _ hEq => by cases hEq) (fun hTent => hTent.elim)
    · rename_i hFree
      cases hStep
      refine accessed_goto h hCall rfl rfl (fun hIn => hIn.elim) (fun _ => ?_)
        (fun _ _ hEq => by cases hEq) (fun _ _ hEq => by cases hEq) (fun hTent => hTent.elim)
      -- not by the slot, so by the underlying lock
      have hOut : (s.standing bravoHash t l).registered = false := by simp [standing, hFree]
      rw [hOut] at hReads
      exact Nat.lt_of_lt_of_eq (Nat.succ_pos _) hReads
  | unlockClear =>
    cases hStep
    exact accessed_unlockClear h hCall
  | unlockUnderlying =>
    rw [access] at hStep
    split at hStep
    · rename_i u hLock
      cases hStep
      exact accessed_unlockUnderlying h hCall hLock
    · cases hStep
  | wrlock trying =>
    rw [access] at hStep
    split at hStep
    · rename_i u hLock
      cases hStep
      exact accessed_wrlock h hCall hLock
    · split at hStep
      · cases hStep
        exact accessed_finish h hCall rfl rfl (fun _ _ hEq => by cases hEq) (fun hTent => hTent)
      · cases hStep
  | writeBias =>
    rw [access] at hStep
    split at hStep
    · cases hStep
      exact accessed_goto h hCall rfl rfl (fun hIn => hIn.elim) (fun hUnder => hUnder.elim)
        (fun _ _ hEq => by cases hEq) (fun _ _ hEq => by cases hEq) (fun hTent => hTent.elim)
    · rename_i hOff
      cases hStep
      exact accessed_holdWrite h hCall (eq_false_of_ne_true hOff)
  | revokeBias =>
    cases hStep
    exact accessed_revokeBias h hCall clock
  | scan startTime i => exact accessed_scan h hCall hStep
  | writeUnlock =>
    rw [access] at hStep
    split at hStep
    · rename_i u hLock
      cases hStep
      exact accessed_writeUnlock h hCall hLock
    · cases hStep

/-- The call itself: an unlock takes a hold of the thread over. -/
theorem call_accessed (h : Accounted bravoHash s) {op : Op} (hStep : s.call t op l = some s') :
    ∃ a, Accessed bravoHash s s' t l a := by
  unfold call at hStep
  split at hStep
  · cases hStep
  · rename_i hCall
    have hPoint : (s.standing bravoHash t l).point = none := pointOf_none hCall
    have hReads := (h.balanced t l).reads
    have hWrites := (h.balanced t l).writes
    rw [hPoint] at hReads hWrites
    change s.reading (t, l) = _ at hReads
    change s.writing (t, l) = _ at hWrites
    have hFirm : (s.standing bravoHash t l).registered = true → (s.standing bravoHash t l).Confirmed := by
      refine fun hIn => ⟨hIn, fun p hp => ?_⟩
      rw [hPoint] at hp
      cases hp
    have hScan : ∀ startTime i, (s.standing bravoHash t l).point ≠ some (.scan startTime i) := by
      intro startTime i hEq
      rw [hPoint] at hEq
      cases hEq
    have hNothing : Changes bravoHash s s t l (s.standing bravoHash t l) := Changes.refl s t l
    have hGoto := hNothing.goto (AtMost.of_none hCall)
    -- the acquiring calls take nothing over
    have hAcquire : ∀ p : Point, p.owesRead = 0 → p.owesWrite = 0 → ¬ p.InSlot → ¬ p.InUnderlying →
        (∀ startTime i, p ≠ .scan startTime i) → ∃ a, Accessed bravoHash s (s.goto t l p) t l a := by
      intro p hRead hWrite hSlot hUnder hNoScan
      refine ⟨_, hGoto p, ⟨?_, ?_, ?_, ?_⟩, fun _ _ _ => .inl, .quiet (fun _ => rfl) hScan ?_ ?_⟩
      · change s.reading (t, l) + p.owesRead = _
        rw [hRead]
        exact hReads
      · change s.writing (t, l) + p.owesWrite = _
        rw [hWrite]
        exact hWrites
      · rintro q hq hIn
        cases hq
        exact absurd hIn hSlot
      · rintro q hq hIn
        cases hq
        exact absurd hIn hUnder
      · rintro (hHeld | ⟨startTime, i, hEq⟩)
        · exact .inl (.inl hHeld)
        · exact absurd (Option.some.inj hEq) (hNoScan startTime i)
      · exact fun _ hConf => hFirm hConf.1
    cases op with
    | readLock =>
      cases hStep
      exact hAcquire _ rfl rfl id id (fun _ _ hEq => by cases hEq)
    | readTrylock =>
      cases hStep
      exact hAcquire _ rfl rfl id id (fun _ _ hEq => by cases hEq)
    | writeLock =>
      cases hStep
      exact hAcquire _ rfl rfl id id (fun _ _ hEq => by cases hEq)
    | writeTrylock =>
      cases hStep
      exact hAcquire _ rfl rfl id id (fun _ _ hEq => by cases hEq)
    | readUnlock =>
      dsimp only at hStep
      split at hStep
      · rename_i hHeld
        cases hStep
        have hLast := changes_reading bravoHash (s.goto t l .unlockLoad) t l (s.reading (t, l) - 1)
        rw [(hGoto _).own] at hLast
        refine ⟨_, (hGoto _).trans hLast, ⟨?_, hWrites, ?_, ?_⟩, fun _ _ _ => .inl,
          .quiet (fun _ => rfl) hScan ?_ ?_⟩
        · change s.reading (t, l) - 1 + 1 = _
          rw [Nat.sub_add_cancel hHeld]
          exact hReads
        · rintro q hq hIn
          cases hq
          exact hIn.elim
        · rintro q hq hIn
          cases hq
          exact hIn.elim
        · rintro (hHeld | ⟨_, _, hEq⟩)
          · exact .inl (.inl hHeld)
          · cases hEq
        · exact fun _ hConf => hFirm hConf.1
      · cases hStep
    | writeUnlock =>
      dsimp only at hStep
      split at hStep
      · rename_i hHeld
        cases hStep
        have hLast := changes_writing bravoHash (s.goto t l .writeUnlock) t l (s.writing (t, l) - 1)
        rw [(hGoto _).own] at hLast
        refine ⟨_, (hGoto _).trans hLast, ⟨hReads, ?_, ?_, ?_⟩, fun _ _ _ => .inl,
          .quiet (fun _ => rfl) hScan ?_ ?_⟩
        · change s.writing (t, l) - 1 + 1 = _
          rw [Nat.sub_add_cancel hHeld]
          exact hWrites
        · rintro q hq hIn
          cases hq
          exact hIn.elim
        · rintro q hq hIn
          cases hq
          exact hIn.elim
        · rintro (_ | ⟨_, _, hEq⟩)
          · exact .inl (.inl hHeld)
          · cases hEq
        · exact fun _ hConf => hFirm hConf.1
      · cases hStep

theorem call_advances {op : Op} (h : s.call t op l = some s') :
    s.calls t = none ∧ s'.calls = Function.update s.calls t (some (l, op.start)) := by
  unfold call at h
  split at h
  · cases h
  · rename_i hIdle
    refine ⟨hIdle, ?_⟩
    cases op with
    | readLock | readTrylock | writeLock | writeTrylock =>
      cases h
      rfl
    | readUnlock | writeUnlock =>
      obtain ⟨_, hDone⟩ := Option.ite_none_right_eq_some.mp h
      cases hDone
      rfl

theorem step_access {clock : UInt64} (h : Step bravoHash s (t, .access clock) s') :
    ∃ l p, s.calls t = some (l, p) ∧ s.access bravoHash t l clock p = some s' := by
  rw [Step, next] at h
  cases hCall : s.calls t with
  | none =>
    rw [hCall] at h
    cases h
  | some c =>
    rw [hCall] at h
    exact ⟨c.1, c.2, rfl, h⟩

theorem step_accessed {act : T × Act L} (h : Accounted bravoHash s)
    (hStep : Guarded (OwnSlot bravoHash) (Step bravoHash) s act s') :
    ∃ t l a, Accessed bravoHash s s' t l a := by
  obtain ⟨hOwn, hNext⟩ := hStep
  obtain ⟨t, call | clock⟩ := act
  · rename_i l
    exact ⟨t, l, call_accessed h hNext⟩
  · cases hCall : s.calls t with
    | none =>
      rw [Step, next, hCall] at hNext
      cases hNext
    | some c =>
      obtain ⟨l, p⟩ := c
      rw [Step, next, hCall] at hNext
      refine ⟨t, l, access_accessed h hCall (fun hp => ?_) hNext⟩
      subst hp
      exact hOwn l hCall

end State

end Libnvmmio.Bravo

import Libnvmmio.Bravo.Lock

/-! # The holds of each thread on each lock

Everything the lock knows of one thread and one lock is its standing. An access
changes one standing only, and as long as read unlocks find their own slots,
the holds that the callers count are those that the shared data records.
-/

namespace Libnvmmio.Bravo

open GuardedRun

set_option autoImplicit false
set_option linter.unusedSectionVars false

namespace Point

/-- A read hold that the call has taken and not returned yet, or has yet to release. -/
def owesRead : Point → Nat
  | .readRecheck _ | .readBackOut _ | .slowBias | .slowInhibit _ | .slowSet => 1
  | .unlockLoad | .unlockClear | .unlockUnderlying => 1
  | _ => 0

def owesWrite : Point → Nat
  | .writeBias | .revokeBias | .scan _ _ | .writeUnlock => 1
  | _ => 0

def InSlot : Point → Prop
  | .readRecheck _ | .readBackOut _ | .unlockClear => True
  | _ => False

def InUnderlying : Point → Prop
  | .slowBias | .slowInhibit _ | .slowSet | .unlockUnderlying => True
  | _ => False

def Tentative : Point → Prop
  | .readRecheck _ | .readBackOut _ => True
  | _ => False

end Point

structure Standing where
  point : Option Point
  reading : Nat
  writing : Nat
  reads : Nat
  writes : Nat
  registered : Bool

structure Standing.Balanced (a : Standing) : Prop where
  reads : a.reading + a.point.elim 0 Point.owesRead = a.reads + a.registered.toNat
  writes : a.writing + a.point.elim 0 Point.owesWrite = a.writes
  inSlot : ∀ p, a.point = some p → p.InSlot → a.registered = true
  inUnderlying : ∀ p, a.point = some p → p.InUnderlying → 0 < a.reads

variable {T L : Type} [DecidableEq T] [DecidableEq L]

namespace State

def pointOf (s : State T L) (t : T) (l : L) : Option Point :=
  (s.calls t).bind fun c => if c.1 = l then some c.2 else none

def AtMost (s : State T L) (t : T) (l : L) : Prop := ∀ k p, s.calls t = some (k, p) → k = l

variable (bravoHash : T → L → Fin nrEntries)

def standing (s : State T L) (t : T) (l : L) : Standing where
  point := s.pointOf t l
  reading := s.reading (t, l)
  writing := s.writing (t, l)
  reads := (s.locks l).underlying.reads t
  writes := (s.locks l).underlying.writes t
  registered := decide (s.visibleReaders (bravoHash t l) = some (l, t))

/-- The step gives one thread a new standing with one lock and touches no other standing. -/
def Changes (s s' : State T L) (t : T) (l : L) (a : Standing) : Prop :=
  ∀ u k, s'.standing bravoHash u k = if u = t ∧ k = l then a else s.standing bravoHash u k

variable {bravoHash} {s s' s'' : State T L} {t : T} {l : L} {a b : Standing}

theorem Changes.own (h : Changes bravoHash s s' t l a) : s'.standing bravoHash t l = a := by
  rw [h t l, if_pos ⟨rfl, rfl⟩]

theorem Changes.other (h : Changes bravoHash s s' t l a) {u : T} {k : L} (hne : ¬ (u = t ∧ k = l)) :
    s'.standing bravoHash u k = s.standing bravoHash u k := by
  rw [h u k, if_neg hne]

theorem Changes.trans (h : Changes bravoHash s s' t l a) (h' : Changes bravoHash s' s'' t l b) :
    Changes bravoHash s s'' t l b := by
  intro u k
  rw [h' u k, h u k]
  split <;> rfl

theorem pointOf_some {p : Point} (h : s.calls t = some (l, p)) : s.pointOf t l = some p := by
  rw [pointOf, h, Option.bind_some, if_pos rfl]

theorem pointOf_none (h : s.calls t = none) : s.pointOf t l = none := by
  rw [pointOf, h, Option.bind_none]

theorem AtMost.of_calls {p : Point} (h : s.calls t = some (l, p)) : s.AtMost t l := by
  intro k q hCall
  rw [h] at hCall
  cases hCall
  rfl

theorem AtMost.of_none (h : s.calls t = none) : s.AtMost t l := by
  intro k q hCall
  rw [h] at hCall
  cases hCall

theorem AtMost.pointOf_ne (h : s.AtMost t l) {k : L} (hne : k ≠ l) : s.pointOf t k = none := by
  cases hCall : s.calls t with
  | none => exact pointOf_none hCall
  | some c =>
    obtain ⟨k', p⟩ := c
    have hSame := h k' p hCall
    rw [pointOf, hCall, Option.bind_some, if_neg (by rw [hSame]; exact Ne.symm hne)]

theorem pointOf_goto (h : s.AtMost t l) (p : Point) (u : T) (k : L) :
    (s.goto t l p).pointOf u k = if u = t ∧ k = l then some p else s.pointOf u k := by
  by_cases hu : u = t
  · subst hu
    by_cases hk : k = l
    · subst hk
      rw [if_pos ⟨rfl, rfl⟩]
      exact pointOf_some (Function.update_self ..)
    · rw [if_neg fun h => hk h.2, h.pointOf_ne hk]
      exact (AtMost.of_calls (s := s.goto u l p) (Function.update_self ..)).pointOf_ne hk
  · rw [if_neg fun h => hu h.1]
    simp only [pointOf, goto, Function.update_of_ne hu]

theorem pointOf_finish (h : s.AtMost t l) (u : T) (k : L) :
    (s.finish t).pointOf u k = if u = t ∧ k = l then none else s.pointOf u k := by
  by_cases hu : u = t
  · subst hu
    have hNone : (s.finish u).pointOf u k = none := pointOf_none (Function.update_self ..)
    by_cases hk : k = l
    · subst hk
      rw [if_pos ⟨rfl, rfl⟩, hNone]
    · rw [if_neg fun h => hk h.2, h.pointOf_ne hk, hNone]
  · rw [if_neg fun h => hu h.1]
    simp only [pointOf, finish, Function.update_of_ne hu]

theorem Changes.refl (s : State T L) (t : T) (l : L) :
    Changes bravoHash s s t l (s.standing bravoHash t l) := by
  intro u k
  split
  · rename_i hOwn
    obtain ⟨rfl, rfl⟩ := hOwn
    rfl
  · rfl

variable (bravoHash)

theorem changes_goto (h : s.AtMost t l) (p : Point) :
    Changes bravoHash s (s.goto t l p) t l { s.standing bravoHash t l with point := some p } := by
  intro u k
  have hPoint := pointOf_goto h p u k
  rw [standing, hPoint]
  split
  · rename_i hOwn
    obtain ⟨rfl, rfl⟩ := hOwn
    rfl
  · rfl

theorem changes_finish (h : s.AtMost t l) :
    Changes bravoHash s (s.finish t) t l { s.standing bravoHash t l with point := none } := by
  intro u k
  have hPoint := pointOf_finish h u k
  rw [standing, hPoint]
  split
  · rename_i hOwn
    obtain ⟨rfl, rfl⟩ := hOwn
    rfl
  · rfl

theorem changes_reading (s : State T L) (t : T) (l : L) (n : Nat) :
    Changes bravoHash s { s with reading := Function.update s.reading (t, l) n } t l
      { s.standing bravoHash t l with reading := n } := by
  intro u k
  split
  · rename_i hOwn
    obtain ⟨rfl, rfl⟩ := hOwn
    simp only [standing, Function.update_self]
    rfl
  · rename_i hOther
    simp only [standing, Function.update_of_ne fun h => hOther (Prod.mk.inj h)]
    rfl

theorem changes_writing (s : State T L) (t : T) (l : L) (n : Nat) :
    Changes bravoHash s { s with writing := Function.update s.writing (t, l) n } t l
      { s.standing bravoHash t l with writing := n } := by
  intro u k
  split
  · rename_i hOwn
    obtain ⟨rfl, rfl⟩ := hOwn
    simp only [standing, Function.update_self]
    rfl
  · rename_i hOther
    simp only [standing, Function.update_of_ne fun h => hOther (Prod.mk.inj h)]
    rfl

variable {bravoHash}

theorem Changes.goto (h : Changes bravoHash s s' t l a) (hAt : s'.AtMost t l) (p : Point) :
    Changes bravoHash s (s'.goto t l p) t l { a with point := some p } := by
  have hLast := changes_goto bravoHash hAt p
  rw [h.own] at hLast
  exact h.trans hLast

theorem Changes.finish (h : Changes bravoHash s s' t l a) (hAt : s'.AtMost t l) :
    Changes bravoHash s (s'.finish t) t l { a with point := none } := by
  have hLast := changes_finish bravoHash hAt
  rw [h.own] at hLast
  exact h.trans hLast

theorem Changes.holdRead (h : Changes bravoHash s s' t l a) (hAt : s'.AtMost t l) :
    Changes bravoHash s (s'.holdRead t l) t l { a with point := none, reading := a.reading + 1 } := by
  have hReading : s'.reading (t, l) = a.reading := congrArg Standing.reading h.own
  have hLast := changes_reading bravoHash (s'.finish t) t l (a.reading + 1)
  rw [(h.finish hAt).own, ← hReading] at hLast
  rw [← hReading]
  exact (h.finish hAt).trans hLast

theorem Changes.holdWrite (h : Changes bravoHash s s' t l a) (hAt : s'.AtMost t l) :
    Changes bravoHash s (s'.holdWrite t l) t l { a with point := none, writing := a.writing + 1 } := by
  have hWriting : s'.writing (t, l) = a.writing := congrArg Standing.writing h.own
  have hLast := changes_writing bravoHash (s'.finish t) t l (a.writing + 1)
  rw [(h.finish hAt).own, ← hWriting] at hLast
  rw [← hWriting]
  exact (h.finish hAt).trans hLast

variable (bravoHash)

/-- A slot that is free, or holds the registration of the thread, gets a new content for the thread. -/
theorem changes_setSlot {v : Option (L × T)} (hv : v = none ∨ v = some (l, t))
    (h : s.visibleReaders (bravoHash t l) = none ∨ s.visibleReaders (bravoHash t l) = some (l, t)) :
    Changes bravoHash s (s.setSlot (bravoHash t l) v) t l
      { s.standing bravoHash t l with registered := decide (v = some (l, t)) } := by
  intro u k
  by_cases hOwn : u = t ∧ k = l
  · obtain ⟨rfl, rfl⟩ := hOwn
    rw [if_pos ⟨rfl, rfl⟩]
    simp only [standing, setSlot, Function.update_self]
    rfl
  · rw [if_neg hOwn]
    have hKept : (Function.update s.visibleReaders (bravoHash t l) v (bravoHash u k) = some (k, u)) =
        (s.visibleReaders (bravoHash u k) = some (k, u)) := by
      by_cases hSlot : bravoHash u k = bravoHash t l
      · have hNe : ∀ w : Option (L × T), w = none ∨ w = some (l, t) → w ≠ some (k, u) := by
          rintro w (rfl | rfl) hEq
          · cases hEq
          · cases hEq
            exact hOwn ⟨rfl, rfl⟩
        rw [hSlot, Function.update_self]
        exact propext ⟨fun hEq => absurd hEq (hNe v hv), fun hEq => absurd hEq (hNe _ h)⟩
      · rw [Function.update_of_ne hSlot]
    simp only [standing, setSlot, hKept]
    rfl

theorem changes_setLock {b : BravoRwlock T} (h : b.underlying = (s.locks l).underlying) (t : T) :
    Changes bravoHash s (s.setLock l b) t l (s.standing bravoHash t l) := by
  intro u k
  have hSame : ((s.setLock l b).locks k).underlying = (s.locks k).underlying := by
    by_cases hk : k = l
    · subst hk
      simp only [setLock, Function.update_self, h]
    · simp only [setLock, Function.update_of_ne hk]
  have hAll : (s.setLock l b).standing bravoHash u k = s.standing bravoHash u k := by
    simp only [standing, hSame]
    rfl
  rw [hAll]
  exact Changes.refl s t l u k

theorem changes_setRbias (s : State T L) (l : L) (rbias : Bool) (t : T) :
    Changes bravoHash s (s.setRbias l rbias) t l (s.standing bravoHash t l) :=
  changes_setLock (b := { s.locks l with rbias := rbias }) bravoHash rfl t

theorem changes_setInhibit (s : State T L) (l : L) (time : UInt64) (t : T) :
    Changes bravoHash s (s.setInhibit l time) t l (s.standing bravoHash t l) :=
  changes_setLock (b := { s.locks l with inhibitUntil := time }) bravoHash rfl t

theorem changes_setUnderlying {lock : RwLock T}
    (hReads : ∀ u, u ≠ t → lock.reads u = (s.locks l).underlying.reads u)
    (hWrites : ∀ u, u ≠ t → lock.writes u = (s.locks l).underlying.writes u) :
    Changes bravoHash s (s.setUnderlying l lock) t l
      { s.standing bravoHash t l with reads := lock.reads t, writes := lock.writes t } := by
  intro u k
  by_cases hk : k = l
  · subst hk
    by_cases hu : u = t
    · subst hu
      rw [if_pos ⟨rfl, rfl⟩]
      simp only [standing, setUnderlying, setLock, Function.update_self]
      rfl
    · rw [if_neg fun h => hu h.1]
      simp only [standing, setUnderlying, setLock, Function.update_self, hReads u hu, hWrites u hu]
      rfl
  · rw [if_neg fun h => hk h.2]
    simp only [standing, setUnderlying, setLock, Function.update_of_ne hk]
    rfl

/-- The accounts: registrations stand in the slots of their hash, and every standing is balanced. -/
structure Accounted (s : State T L) : Prop where
  slots : ∀ i k u, s.visibleReaders i = some (k, u) → bravoHash u k = i
  balanced : ∀ u k, (s.standing bravoHash u k).Balanced

theorem init_accounted : Accounted bravoHash (init : State T L) where
  slots i k u hSlot := by cases hSlot
  balanced u k := by
    refine ⟨rfl, rfl, fun p hPoint => ?_, fun p hPoint => ?_⟩
    · cases hPoint
    · cases hPoint

end State

end Libnvmmio.Bravo

import Libnvmmio.Concurrent.Requests
import Libnvmmio.Concurrent.Installed

/-! # What the stage of a call says

The stage of a call determines which side of the lock of the mmio its thread
has, and in which of its accesses to entries it is. A thread that waits for the
lock of the mmio holds no entry.
-/

namespace Libnvmmio.Concurrent

open GuardedRun Mmio RadixLog

set_option autoImplicit false
set_option linter.unusedSectionVars false

variable {T E R X : Type}

namespace Stage

def reads : Stage E → Bool
  | .check _ | .loop _ | .inner .. | .body .. | .retire .. | .unlock _ | .leave | .table => true
  | _ => false

def writes : Stage E → Bool
  | .expendUnlock _ | .commitEpoch | .commitUnlock => true
  | _ => false

end Stage

namespace State

variable [DecidableEq T] [DecidableEq E] {s s' : State T E R} {t : T}

/-! ## The steps -/

inductive Moves (s : State T E R) (t : T) (act : Act X E) : Stage E → Stage E → Prop where
  | request (type : LockType) (offset len : Nat) (hAct : act = .request type offset len) :
      Moves s t act .out (.enter ⟨type, offset, (toInt len).toNat⟩)
  | commit : Moves s t act .out .commitLock
  | checkpoint (hAct : act = .checkpoint) : Moves s t act .out .scan
  | finish : Moves s t act .scan .out
  | proceed (r : Range) : Moves s t act (.check r) (.loop r)
  | collect (r : Range) (hDone : r.n = 0) : Moves s t act (.loop r) (.body r.type (s.listOf t r.type))
  | fresh (type : LockType) (h : EntrySlots.Hold Slot E) (todo : List (EntrySlots.Hold Slot E))
      (hFresh : s.epoch ≤ s.tag h.entry) : Moves s t act (.body type (h :: todo)) (.body type todo)
  | stale (type : LockType) (h : EntrySlots.Hold Slot E) (todo : List (EntrySlots.Hold Slot E)) :
      Moves s t act (.body type (h :: todo)) (.retire h todo)
  | done (type : LockType) : Moves s t act (.body type []) (.unlock type)
  | leave (type : LockType) (hNone : s.base.held t = []) : Moves s t act (.unlock type) .leave

inductive Opens : Stage E → Stage E → Prop where
  | enter (r : Range) : Opens (.enter r) (.check r)
  | reenter (r : Range) : Opens (.reenter r) (.loop r)
  | table : Opens .scan .table

inductive Seals : Stage E → Stage E → Prop where
  | expend (r : Range) : Seals (.expendLock r) (.expendUnlock r)
  | commit : Seals .commitLock .commitEpoch

inductive Closes (s : State T E R) (t : T) : Stage E → Stage E → Prop where
  | expend (r : Range) : Closes s t (.check r) (.expendLock r)
  | reenter (r : Range) : Closes s t (.expendUnlock r) (.reenter r)
  | leave : Closes s t .leave .out
  | commit : Closes s t .commitUnlock .out
  | table (hIdle : s.base.calls t = .idle) : Closes s t .table .scan

variable (locate : R → X → Nat → Nat → Slot × LogSize × R)

inductive Effect (s : State T E R) (t : T) (act : Act X E) : State T E R → Prop where
  | stay : Effect s t act s
  | move (g : Stage E) (hMoves : Moves s t act (s.stages t) g) : Effect s t act (s.goto t g)
  | rdlock (g : Stage E) (l : RwLock T) (hOpens : Opens (s.stages t) g)
      (hLock : s.rwlock.rdlock t = some l) : Effect s t act { s.goto t g with rwlock := l }
  | wrlock (g : Stage E) (l : RwLock T) (hSeals : Seals (s.stages t) g)
      (hLock : s.rwlock.wrlock t = some l) : Effect s t act { s.goto t g with rwlock := l }
  | release (g : Stage E) (l : RwLock T) (hCloses : Closes s t (s.stages t) g)
      (hUnlock : s.rwlock.unlock t = some l) : Effect s t act { s.goto t g with rwlock := l }
  | bump (hStage : s.stages t = .commitEpoch) :
      Effect s t act { s.goto t .commitUnlock with epoch := (s.epoch + 1) % 2 ^ 64 }
  | retire (h : EntrySlots.Hold Slot E) (todo : List (EntrySlots.Hold Slot E))
      (hStage : s.stages t = .retire h todo) :
      Effect s t act
        { s.goto t (.body .wr todo) with tag := Function.update s.tag h.entry (s.epoch % 2 ^ 20) }
  | locate (r : Range) (p : Slot) (size : LogSize) (radixlog : R) (x : X)
      (base : EntrySlots.State T Slot E) (hStage : s.stages t = .loop r)
      (hn : 0 < r.n) (hLocate : locate s.radixlog x r.off r.n = (p, size, radixlog))
      (hBase : s.base.Step (t, .lock p r.type) base) :
      Effect s t act { s.goto t (.inner r p size s.epoch) with base := base, radixlog := radixlog }
  | inner (r : Range) (p : Slot) (size : LogSize) (epoch : Nat) (a : EntrySlots.State.Act Slot E)
      (base : EntrySlots.State T Slot E) (hStage : s.stages t = .inner r p size epoch)
      (hAct : act = .entry a) (hBase : s.base.Step (t, a) base) :
      Effect s t act { s.goto t (s.afterAccess t base (.inner r p size epoch)) with
        base := base, tag := s.tagAfter t (.inner r p size epoch) a }
  | unlock (type : LockType) (h : EntrySlots.Hold Slot E) (base : EntrySlots.State T Slot E)
      (hStage : s.stages t = .unlock type) (hAct : act = .entry (.unlock h))
      (hBase : s.base.Step (t, .unlock h) base) :
      Effect s t act { s.goto t (.unlock type) with base := base }
  | table (a : EntrySlots.State.Act Slot E) (base : EntrySlots.State T Slot E)
      (hStage : s.stages t = .table) (hAct : act = .entry a)
      (hAllows : Allows (.table : Stage E) a = true) (hBase : s.base.Step (t, a) base) :
      Effect s t act { s.goto t .table with base := base, tag := s.tagAfter t .table a }

theorem Effect.move_of {act : Act X E} {g g' : Stage E} (hStage : s.stages t = g)
    (hMoves : Moves s t act g g') : Effect locate s t act (s.goto t g') := by
  subst hStage
  exact .move g' hMoves

theorem readLock_effect {act : Act X E} {g g' : Stage E} (hStage : s.stages t = g) (hOpens : Opens g g')
    (h : s.readLock t g' = some s') : Effect locate s t act s' := by
  obtain ⟨l, hLock, hDone⟩ := Option.bind_eq_some_iff.mp h
  cases hDone
  subst hStage
  exact .rdlock g' l hOpens hLock

theorem writeLock_effect {act : Act X E} {g g' : Stage E} (hStage : s.stages t = g) (hSeals : Seals g g')
    (h : s.writeLock t g' = some s') : Effect locate s t act s' := by
  obtain ⟨l, hLock, hDone⟩ := Option.bind_eq_some_iff.mp h
  cases hDone
  subst hStage
  exact .wrlock g' l hSeals hLock

theorem release_effect {act : Act X E} {g g' : Stage E} (hStage : s.stages t = g)
    (hCloses : Closes s t g g') (h : s.release t g' = some s') : Effect locate s t act s' := by
  obtain ⟨l, hUnlock, hDone⟩ := Option.bind_eq_some_iff.mp h
  cases hDone
  subst hStage
  exact .release g' l hCloses hUnlock

theorem step_step_effect {act : Act X E} (h : s.step t (s.stages t) = some s') :
    Effect locate s t act s' := by
  cases hStage : s.stages t with
  | out | inner _ _ _ _ =>
    rw [hStage] at h
    cases h
  | enter r =>
    rw [hStage] at h
    exact readLock_effect locate hStage (.enter r) h
  | check r =>
    rw [hStage] at h
    cases h
    exact .move_of locate hStage (.proceed r)
  | expendLock r =>
    rw [hStage] at h
    exact writeLock_effect locate hStage (.expend r) h
  | expendUnlock r =>
    rw [hStage] at h
    exact release_effect locate hStage (.reenter r) h
  | reenter r =>
    rw [hStage] at h
    exact readLock_effect locate hStage (.reenter r) h
  | loop r =>
    rw [hStage] at h
    obtain ⟨hDone, hEq⟩ := Option.ite_none_right_eq_some.mp h
    cases hEq
    exact .move_of locate hStage (.collect r hDone)
  | body type todo =>
    rw [hStage] at h
    cases todo with
    | nil =>
      cases h
      exact .move_of locate hStage (.done type)
    | cons k todo =>
      unfold step at h
      dsimp only at h
      split at h
      · cases h
        exact .move_of locate hStage (.stale type k todo)
      · cases h
        exact .move_of locate hStage (.fresh type k todo (by omega))
  | retire k todo =>
    rw [hStage] at h
    cases h
    exact .retire k todo hStage
  | unlock type =>
    rw [hStage] at h
    obtain ⟨hNone, hEq⟩ := Option.ite_none_right_eq_some.mp h
    cases hEq
    exact .move_of locate hStage (.leave type hNone)
  | leave =>
    rw [hStage] at h
    exact release_effect locate hStage .leave h
  | commitLock =>
    rw [hStage] at h
    exact writeLock_effect locate hStage .commit h
  | commitEpoch =>
    rw [hStage] at h
    cases h
    exact .bump hStage
  | commitUnlock =>
    rw [hStage] at h
    exact release_effect locate hStage .commit h
  | scan =>
    rw [hStage] at h
    unfold step at h
    dsimp only at h
    split at h <;> cases h
    · rename_i l hLock
      exact .rdlock .table l (by rw [hStage]; exact .table) hLock
    · exact .stay
  | table =>
    rw [hStage] at h
    obtain ⟨hIdle, hRelease⟩ := Option.ite_none_right_eq_some.mp h
    exact release_effect locate hStage (.table hIdle) hRelease

theorem access_effect {a : EntrySlots.State.Act Slot E} (h : s.access t a = some s') :
    Effect locate s t (.entry a) s' := by
  obtain ⟨hAllows, hDone⟩ := Option.ite_none_right_eq_some.mp h
  obtain ⟨base, hBase, hDone⟩ := Option.bind_eq_some_iff.mp hDone
  cases hDone
  cases hStage : s.stages t with
  | inner r p size epoch => exact .inner r p size epoch a base hStage rfl hBase
  | unlock type =>
    rw [hStage] at hAllows
    cases a with
    | unlock k => exact .unlock type k base hStage rfl hBase
    | _ => cases hAllows
  | table =>
    rw [hStage] at hAllows
    exact .table a base hStage rfl hAllows hBase
  | _ =>
    rw [hStage] at hAllows
    cases hAllows

theorem step_effect {a : T × Act X E} (h : Step locate s a s') : Effect locate s a.1 a.2 s' := by
  obtain ⟨t, act⟩ := a
  unfold Step at h
  cases act with
  | request type offset len =>
    obtain ⟨hOut, hDone⟩ := Option.ite_none_right_eq_some.mp h
    cases hDone
    exact .move_of locate hOut (.request type offset len rfl)
  | commit =>
    obtain ⟨hOut, hDone⟩ := Option.ite_none_right_eq_some.mp h
    cases hDone
    exact .move_of locate hOut .commit
  | checkpoint =>
    obtain ⟨hOut, hDone⟩ := Option.ite_none_right_eq_some.mp h
    cases hDone
    exact .move_of locate hOut (.checkpoint rfl)
  | step => exact step_step_effect locate h
  | expend =>
    unfold next at h
    dsimp only at h
    split at h
    · rename_i off n hStage
      exact release_effect locate hStage (.expend _) h
    · cases h
  | locate x =>
    unfold next at h
    dsimp only at h
    split at h
    · rename_i r hStage
      obtain ⟨hn, hDone⟩ := Option.ite_none_right_eq_some.mp h
      obtain ⟨base, hBase, hDone⟩ := Option.bind_eq_some_iff.mp hDone
      cases hDone
      exact .locate r _ _ _ x base hStage hn rfl hBase
    · cases h
  | entry a => exact access_effect locate h
  | finish =>
    obtain ⟨hScan, hDone⟩ := Option.ite_none_right_eq_some.mp h
    cases hDone
    exact .move_of locate hScan .finish

section Fields

variable (s) (u : T) (g : Stage E)

@[simp] theorem goto_self : (s.goto u g).stages u = g := Function.update_self ..

variable {u}

theorem goto_of_ne (hne : t ≠ u) : (s.goto u g).stages t = s.stages t := Function.update_of_ne hne ..

end Fields

variable {locate}

theorem Effect.stages_of_ne {act : Act X E} {u : T} (h : Effect locate s t act s') (hne : u ≠ t) :
    s'.stages u = s.stages u := by
  cases h with
  | stay => rfl
  | _ => exact Function.update_of_ne hne ..

/-- An access to the entries is the only way that these change. -/
theorem Effect.base_cases {act : Act X E} (h : Effect locate s t act s') :
    s'.base = s.base ∨ ∃ a, s.base.Step (t, a) s'.base ∧ (act = .entry a ∨ ∃ p type, a = .lock p type) := by
  cases h with
  | locate r p size radixlog x base _ _ _ hBase => exact .inr ⟨_, hBase, .inr ⟨p, r.type, rfl⟩⟩
  | inner r p size epoch a base _ hAct hBase => exact .inr ⟨a, hBase, .inl hAct⟩
  | unlock type k base _ hAct hBase => exact .inr ⟨_, hBase, .inl hAct⟩
  | table a base _ hAct _ hBase => exact .inr ⟨a, hBase, .inl hAct⟩
  | _ => exact .inl rfl

theorem settled_step (h : s.base.Settled) {a : T × Act X E}
    (hStep : Guarded StillInstalled (Step locate) s a s') : s'.base.Settled := by
  rcases (step_effect locate hStep.2).base_cases with hSame | ⟨b, hBase, hAct⟩
  · rw [hSame]
    exact h
  · refine h.step ⟨?_, hBase⟩
    rcases hAct with hAct | ⟨p, type, rfl⟩
    · have hGuard := hStep.1
      rw [show a = (a.1, .entry b) from Prod.ext rfl hAct] at hGuard
      exact hGuard
    · trivial

/-! ## The lock of the mmio -/

/-- Each thread has the side of the lock that its stage says. -/
structure Locked (s : State T E R) : Prop where
  reads : ∀ t, s.rwlock.reads t = (s.stages t).reads.toNat
  writes : ∀ t, s.rwlock.writes t = (s.stages t).writes.toNat

theorem Moves.sides {act : Act X E} {g g' : Stage E} (h : Moves s t act g g') :
    g'.reads = g.reads ∧ g'.writes = g.writes := by
  cases h <;> exact ⟨rfl, rfl⟩

theorem Opens.sides {g g' : Stage E} (h : Opens g g') :
    g.reads = false ∧ g.writes = false ∧ g'.reads = true ∧ g'.writes = false := by
  cases h <;> exact ⟨rfl, rfl, rfl, rfl⟩

theorem Seals.sides {g g' : Stage E} (h : Seals g g') :
    g.reads = false ∧ g.writes = false ∧ g'.reads = false ∧ g'.writes = true := by
  cases h <;> exact ⟨rfl, rfl, rfl, rfl⟩

theorem Closes.sides {g g' : Stage E} (h : Closes s t g g') :
    g'.reads = false ∧ g'.writes = false := by
  cases h <;> exact ⟨rfl, rfl⟩

theorem afterAccess_sides (base : EntrySlots.State T Slot E) (r : Range) (p : Slot) (size : LogSize)
    (epoch : Nat) : (s.afterAccess t base (.inner r p size epoch)).reads = true ∧
      (s.afterAccess t base (.inner r p size epoch)).writes = false := by
  unfold afterAccess
  dsimp only
  split
  · exact ⟨rfl, rfl⟩
  · split <;> exact ⟨rfl, rfl⟩

theorem Locked.same (h : Locked s) (hLock : s'.rwlock = s.rwlock)
    (hOther : ∀ u, u ≠ t → s'.stages u = s.stages u)
    (hSides : (s'.stages t).reads = (s.stages t).reads ∧ (s'.stages t).writes = (s.stages t).writes) :
    Locked s' := by
  constructor
  · intro u
    rw [hLock, h.reads u]
    by_cases hu : u = t
    · rw [hu, hSides.1]
    · rw [hOther u hu]
  · intro u
    rw [hLock, h.writes u]
    by_cases hu : u = t
    · rw [hu, hSides.2]
    · rw [hOther u hu]

theorem Locked.step (h : Locked s) {act : Act X E} (hEffect : Effect locate s t act s') : Locked s' := by
  have hOther := fun u => hEffect.stages_of_ne (u := u)
  cases hEffect with
  | stay => exact h
  | move g hMoves => exact h.same rfl hOther (by rw [goto_self]; exact hMoves.sides)
  | rdlock g l hOpens hLock =>
    obtain ⟨hReads, hNone, hNone'⟩ := RwLock.rdlock_eq_some hLock
    obtain ⟨hWas, _, hIs, hIs'⟩ := hOpens.sides
    constructor
    · intro u
      change l.reads u = _
      rw [hReads, h.reads]
      by_cases hu : u = t
      · subst hu
        rw [show _ = g from goto_self s u g, hWas, hIs, if_pos rfl]
        rfl
      · rw [hOther u hu, if_neg hu, Nat.add_zero]
    · intro u
      change l.writes u = _
      rw [hNone']
      by_cases hu : u = t
      · subst hu
        rw [show _ = g from goto_self s u g, hIs']
        rfl
      · rw [hOther u hu, ← h.writes u, hNone]
  | wrlock g l hSeals hLock =>
    obtain ⟨hFree, hNone, hWrites⟩ := RwLock.wrlock_eq_some hLock
    obtain ⟨_, _, hIs, hIs'⟩ := hSeals.sides
    constructor
    · intro u
      change l.reads u = _
      rw [hNone]
      by_cases hu : u = t
      · subst hu
        rw [show _ = g from goto_self s u g, hIs]
        rfl
      · rw [hOther u hu, ← h.reads u, hFree, RwLock.reads_free]
    · intro u
      change l.writes u = _
      rw [hWrites]
      by_cases hu : u = t
      · subst hu
        rw [show _ = g from goto_self s u g, hIs', if_pos rfl]
        rfl
      · rw [hOther u hu, ← h.writes u, hFree, RwLock.writes_free, if_neg hu]
  | release g l hCloses hUnlock =>
    have hLess := RwLock.unlock_eq_some hUnlock
    obtain ⟨hIs, hIs'⟩ := hCloses.sides
    constructor
    · intro u
      change l.reads u = _
      rw [(hLess u).1, h.reads]
      by_cases hu : u = t
      · subst hu
        rw [show _ = g from goto_self s u g, hIs, if_pos rfl]
        cases (s.stages u).reads <;> rfl
      · rw [hOther u hu, if_neg hu, Nat.sub_zero]
    · intro u
      change l.writes u = _
      rw [(hLess u).2, h.writes]
      by_cases hu : u = t
      · subst hu
        rw [show _ = g from goto_self s u g, hIs', if_pos rfl]
        cases (s.stages u).writes <;> rfl
      · rw [hOther u hu, if_neg hu, Nat.sub_zero]
  | bump hStage => exact h.same rfl hOther (by rw [show _ = _ from goto_self s t _, hStage]; exact ⟨rfl, rfl⟩)
  | retire k todo hStage => exact h.same rfl hOther (by rw [show _ = _ from goto_self s t _, hStage]; exact ⟨rfl, rfl⟩)
  | locate r p size radixlog x base hStage _ _ _ =>
    exact h.same rfl hOther (by rw [show _ = _ from goto_self s t _, hStage]; exact ⟨rfl, rfl⟩)
  | inner r p size epoch a base hStage _ _ =>
    exact h.same rfl hOther (by rw [show _ = _ from goto_self s t _, hStage]; exact afterAccess_sides ..)
  | unlock type k base hStage _ _ => exact h.same rfl hOther (by rw [show _ = _ from goto_self s t _, hStage]; exact ⟨rfl, rfl⟩)
  | table a base hStage _ _ _ => exact h.same rfl hOther (by rw [show _ = _ from goto_self s t _, hStage]; exact ⟨rfl, rfl⟩)

/-- A thread with the writer side is alone. -/
theorem Locked.alone (h : Locked s) (hWrites : (s.stages t).writes = true) (u : T) :
    (s.stages u).reads = false ∧ ((s.stages u).writes = true → u = t) := by
  have hMine : 0 < s.rwlock.writes t := by
    rw [h.writes, hWrites]
    exact Nat.zero_lt_one
  constructor
  · have hNone := RwLock.reads_eq_zero_of_writes hMine u
    rw [h.reads] at hNone
    cases hReads : (s.stages u).reads with
    | false => rfl
    | true =>
      rw [hReads] at hNone
      cases hNone
  · intro hTheirs
    refine RwLock.writer_unique (l := s.rwlock) ?_ hMine
    rw [h.writes, hTheirs]
    exact Nat.zero_lt_one

/-! ## The accesses to entries -/

/-- Where a thread is in its accesses to entries, and whether it may hold any. -/
def Fits (base : EntrySlots.State T Slot E) (t : T) : Stage E → Prop
  | .inner r p _ _ => (base.calls t).target = some (p, r.type)
  | .table => ((base.calls t).Scanning ∨ base.calls t = .idle) ∧ base.held t = []
  | .loop _ | .body .. | .retire .. | .unlock _ => base.calls t = .idle
  | _ => base.calls t = .idle ∧ base.held t = []

def Attached (s : State T E R) : Prop := ∀ t, Fits s.base t (s.stages t)

theorem Fits.congr {base base' : EntrySlots.State T Slot E} {g : Stage E} (h : Fits base t g)
    (hCalls : base'.calls t = base.calls t) (hHeld : base'.held t = base.held t) : Fits base' t g := by
  cases g with
  | inner r p size epoch =>
    rw [Fits, hCalls]
    exact h
  | _ =>
    simp only [Fits, hCalls, hHeld]
    exact h

theorem Moves.fits {act : Act X E} {g g' : Stage E} (h : Moves s t act g g') (hFits : Fits s.base t g) :
    Fits s.base t g' := by
  cases h with
  | request _ _ _ _ => exact hFits
  | commit => exact hFits
  | checkpoint _ => exact hFits
  | finish => exact hFits
  | proceed r => exact hFits.1
  | collect r _ => exact hFits
  | fresh _ _ _ _ => exact hFits
  | stale _ _ _ => exact hFits
  | done _ => exact hFits
  | leave _ hNone => exact ⟨hFits, hNone⟩

theorem Opens.fits {base : EntrySlots.State T Slot E} {g g' : Stage E} (h : Opens g g')
    (hFits : Fits base t g) : Fits base t g' := by
  cases h with
  | enter r => exact hFits
  | reenter r => exact hFits.1
  | table => exact ⟨.inr hFits.1, hFits.2⟩

theorem Seals.fits {base : EntrySlots.State T Slot E} {g g' : Stage E} (h : Seals g g')
    (hFits : Fits base t g) : Fits base t g' := by
  cases h <;> exact hFits

theorem Closes.fits {g g' : Stage E} (h : Closes s t g g') (hFits : Fits s.base t g) :
    Fits s.base t g' := by
  cases h with
  | table hIdle => exact ⟨hIdle, hFits.2⟩
  | _ => exact hFits

theorem Attached.step (h : Attached s) {act : Act X E} (hEffect : Effect locate s t act s') :
    Attached s' := by
  intro u
  by_cases hu : u = t
  · subst hu
    have hHere := h u
    cases hEffect with
    | stay => exact hHere
    | move g hMoves =>
      rw [goto_self]
      exact hMoves.fits hHere
    | rdlock g l hOpens _ =>
      rw [show _ = g from goto_self s u g]
      exact hOpens.fits hHere
    | wrlock g l hSeals _ =>
      rw [show _ = g from goto_self s u g]
      exact hSeals.fits hHere
    | release g l hCloses _ =>
      rw [show _ = g from goto_self s u g]
      exact hCloses.fits hHere
    | bump hStage =>
      rw [hStage] at hHere
      rw [show _ = Stage.commitUnlock from goto_self s u _]
      exact hHere
    | retire k todo hStage =>
      rw [hStage] at hHere
      rw [show _ = Stage.body .wr todo from goto_self s u _]
      exact hHere
    | locate r p size radixlog x base hStage hn hLocate hBase =>
      rw [show _ = Stage.inner r p size s.epoch from goto_self s u _]
      obtain ⟨_, hDone⟩ := Option.ite_none_right_eq_some.mp hBase
      cases hDone
      rw [Fits, EntrySlots.State.goto_self]
      rfl
    | inner r p size epoch a base hStage hAct hBase =>
      rw [hStage] at hHere
      rw [show _ = s.afterAccess u base _ from goto_self s u _]
      have hRequest := (EntrySlots.State.step_effect hBase).request hHere
      unfold afterAccess
      dsimp only
      split
      · exact ‹_›
      · rename_i hBusy
        rcases hRequest with ⟨hTarget, _⟩ | ⟨hIdle, _⟩
        · split <;> exact hTarget
        · exact absurd hIdle hBusy
    | unlock type k base hStage hAct hBase =>
      rw [hStage] at hHere
      rw [show _ = Stage.unlock type from goto_self s u _]
      obtain ⟨⟨hIdle, _⟩, hDone⟩ := Option.ite_none_right_eq_some.mp hBase
      obtain ⟨l, _, hDone⟩ := Option.bind_eq_some_iff.mp hDone
      cases hDone
      exact hIdle
    | table a base hStage hAct hAllows hBase =>
      rw [hStage] at hHere
      rw [show _ = Stage.table from goto_self s u _]
      obtain ⟨hWhere, hNone⟩ := hHere
      rcases hWhere with hScan | hIdle
      · obtain ⟨hScan', hHeld⟩ := (EntrySlots.State.step_effect hBase).scan hScan
        exact ⟨hScan', hHeld.trans hNone⟩
      · -- only the next slot can be considered now
        unfold EntrySlots.State.Step at hBase
        cases a with
        | lock _ _ => cases hAllows
        | unlock _ => cases hAllows
        | alloc _ => cases hAllows
        | checkpoint q =>
          obtain ⟨_, hDone⟩ := Option.ite_none_right_eq_some.mp hBase
          cases hDone
          refine ⟨.inl ?_, hNone⟩
          rw [EntrySlots.State.goto_self]
          trivial
        | test stale =>
          simp only [EntrySlots.State.next, hIdle] at hBase
          cases hBase
        | access =>
          simp only [EntrySlots.State.next, hIdle] at hBase
          cases hBase
  · rw [hEffect.stages_of_ne hu]
    rcases hEffect.base_cases with hSame | ⟨a, hBase, _⟩
    · rw [hSame]
      exact h u
    · obtain ⟨hCalls, hHeld⟩ := (EntrySlots.State.step_effect hBase).other hu
      exact (h u).congr hCalls hHeld

end State

end Libnvmmio.Concurrent

import Libnvmmio.Concurrent.Stages
import Libnvmmio.Foundation.RetryCounter
import Libnvmmio.Mmio.Checkpoint
import Libnvmmio.Radixlog.Init

/-! # Counting requests while they run

`mmio_read` and `mmio_write` increment their counters by `increase_counter`,
under the reader side of the lock; `determine_policy` reads and clears them under
the writer side, the lock being taken for a correct one. Whatever the order of the
accesses, a commit sees exactly the requests that have returned since the last one.
-/

namespace Libnvmmio.Concurrent

open GuardedRun Mmio RadixLog RetryCounter

set_option autoImplicit false
set_option linter.unusedSectionVars false

variable {T E R X : Type}

inductive Decision where
  | start
  | loaded (r : Nat)
  | summed (totalCnt : Nat)
  | chosen (newPolicy : Policy)
  | cleared (newPolicy : Policy)
  | decided (newPolicy : Option Policy)

/-- The calls on one mmio with its counters. `counters.total` is the number of requests
that have returned since the last commit. -/
structure Counting (T E R : Type) where
  control : State T E R
  counters : Counters T LockType
  decisions : T → Decision

inductive CountAct (X E : Type) where
  | control (act : Act X E)
  /-- `increase_counter` is called -/
  | start (type : LockType)
  | access (a : Access)
  /-- an access of `determine_policy` -/
  | determine

namespace Counting

def init (locks : E → RwLock T) (radixlog : R) (epoch : Nat) : Counting T E R where
  control := Concurrent.init locks radixlog epoch
  counters := ⟨fun _ => 0, fun _ => none, fun _ => 0⟩
  decisions _ := .start

variable [DecidableEq T] [DecidableEq E]

def choice (write totalCnt : Nat) : Policy :=
  if hybridWriteRatio < write / totalCnt * 100 % 2 ^ 64 then .redo else .undo

def determine (c : Counters T LockType) : Decision → Option (Counters T LockType × Decision)
  | .start => some (c, .loaded (c.value .rd))
  | .loaded r => some (c, .summed ((r + c.value .wr) % 2 ^ 64))
  | .summed totalCnt =>
    if 0 < totalCnt then some (c, .chosen (choice (c.value .wr) totalCnt)) else some (c, .decided none)
  | .chosen newPolicy => some (c.store .rd 0, .cleared newPolicy)
  | .cleared newPolicy => some (c.store .wr 0, .decided (some newPolicy))
  | .decided _ => none

/-- The increment of a request is over when the request has returned, and a commit that
has returned starts a new count. -/
def countersAfter (s : Counting T E R) (t : T) : Counters T LockType :=
  match s.control.stages t with
  | .leave => s.counters.finish t
  | .commitUnlock => { s.counters with total := fun _ => 0 }
  | _ => s.counters

def decisionsAfter (s : Counting T E R) (t : T) : T → Decision :=
  match s.control.stages t with
  | .commitUnlock => Function.update s.decisions t .start
  | _ => s.decisions

variable (locate : R → X → Nat → Nat → Slot × LogSize × R)

inductive Step (s : Counting T E R) : T × CountAct X E → Counting T E R → Prop where
  | control (t : T) (act : Act X E) (control : State T E R)
      (hControl : State.Step locate s.control (t, act) control)
      (hCounted : ∀ type, s.control.stages t = .body type [] → s.counters.attempts t = some (type, .counted))
      (hDecided : s.control.stages t = .commitUnlock → ∃ p, s.decisions t = .decided p) :
      Step s (t, .control act) ⟨control, s.countersAfter t, s.decisionsAfter t⟩
  | start (t : T) (type : LockType) (hStage : s.control.stages t = .body type [])
      (hIdle : s.counters.attempts t = none) :
      Step s (t, .start type) { s with counters := s.counters.start t type }
  | access (t : T) (a : Access) (counters : Counters T LockType)
      (hAccess : s.counters.access (2 ^ 64) t a = some counters) :
      Step s (t, .access a) { s with counters := counters }
  | determine (t : T) (counters : Counters T LockType) (decision : Decision)
      (hStage : s.control.stages t = .commitUnlock)
      (hDetermine : determine s.counters (s.decisions t) = some (counters, decision)) :
      Step s (t, .determine) ⟨s.control, counters, Function.update s.decisions t decision⟩

/-- Fewer than `2 ^ 64 - 1` requests have been counted since the last commit. -/
def Unwrapped (s : Counting T E R) (_ : T × CountAct X E) : Prop :=
  s.counters.value .rd + s.counters.value .wr + 1 < 2 ^ 64

/-- The policy for `r` reads and `w` writes: the division leaves no ratio between 0 and 1. -/
def wanted (r w : Nat) : Option Policy :=
  if r + w = 0 then none else if r = 0 then some .redo else some .undo

/-- A commit decides by the requests that have returned since the last one, and when no thread has
the lock the counters are the numbers of these. -/
structure CountsExactly (s : Counting T E R) : Prop where
  decided : ∀ t p, s.decisions t = .decided p → p = wanted (s.counters.total .rd) (s.counters.total .wr)
  quiet : (∀ t, (s.control.stages t).reads = false ∧ (s.control.stages t).writes = false) →
    ∀ type, s.counters.value type = s.counters.total type

def failed : T × CountAct X E → Bool
  | (_, .access a) => a.failed
  | _ => false

def succeeded : T × CountAct X E → Bool
  | (_, .access a) => a.succeeded
  | _ => false

/-! ## The stages -/

def Fits : Stage E → Option (LockType × Attempt) → Prop
  | .body _ [], _ => True
  | .unlock _, x | .leave, x => ∃ type, x = some (type, .counted)
  | _, x => x = none

def After : Stage E → Stage E → Prop
  | .body _ [], g => ∃ type, g = .unlock type
  | .unlock _, g => (∃ type, g = .unlock type) ∨ g = .leave
  | .leave, g | .commitUnlock, g => g = .out
  | _, g => (∀ type, g ≠ .unlock type) ∧ g ≠ .leave

def stepOnly : Stage E → Bool
  | .body _ [] | .leave | .commitUnlock => true
  | _ => false

section Stages

variable {locate} {s s' : State T E R} {t : T} {act : Act X E}

theorem step_of_stepOnly (h : State.Step locate s (t, act) s') (hOnly : stepOnly (s.stages t) = true) :
    s.step t (s.stages t) = some s' := by
  generalize hStage : s.stages t = g at hOnly
  cases act with
  | step => rwa [← hStage]
  | request _ _ _ | commit | checkpoint | finish =>
    obtain ⟨hAt, _⟩ := Option.ite_none_right_eq_some.mp h
    rw [hStage] at hAt
    subst hAt
    cases hOnly
  | expend | locate _ =>
    rw [State.Step, State.next, hStage] at h
    cases g <;> first | cases h | cases hOnly
  | entry a =>
    obtain ⟨hAllows, _⟩ := Option.ite_none_right_eq_some.mp h
    rw [hStage] at hAllows
    cases g <;> first | cases hAllows | cases hOnly

theorem after_of_moves {g g' : Stage E} (h : State.Moves s t act g g') : After g g' := by
  cases h with
  | fresh type k todo _ => simp [After]
  | stale type k todo => simp [After]
  | done type => exact ⟨type, rfl⟩
  | leave type _ => exact .inr rfl
  | _ => simp [After]

theorem stages_of_release {g : Stage E} (h : s.release t g = some s') : s'.stages t = g := by
  obtain ⟨l, _, hDone⟩ := Option.bind_eq_some_iff.mp h
  cases hDone
  exact State.goto_self s t g

theorem after_of_effect (h : State.Effect locate s t act s') (hOnly : stepOnly (s.stages t) = false) :
    After (s.stages t) (s'.stages t) := by
  cases h with
  | stay =>
    cases hStage : s.stages t with
    | body type todo =>
      cases todo with
      | nil =>
        rw [hStage] at hOnly
        cases hOnly
      | cons k todo => simp [After]
    | leave | commitUnlock =>
      rw [hStage] at hOnly
      cases hOnly
    | _ => simp [After]
  | move g hMoves =>
    rw [State.goto_self]
    exact after_of_moves hMoves
  | rdlock g l hOpens _ =>
    rw [show _ = g from State.goto_self s t g]
    generalize s.stages t = g₀ at hOpens
    cases hOpens <;> simp [After]
  | wrlock g l hSeals _ =>
    rw [show _ = g from State.goto_self s t g]
    generalize s.stages t = g₀ at hSeals
    cases hSeals <;> simp [After]
  | release g l hCloses _ =>
    rw [show _ = g from State.goto_self s t g]
    generalize s.stages t = g₀ at hCloses
    cases hCloses <;> simp [After]
  | bump hStage =>
    rw [hStage, show _ = Stage.commitUnlock from State.goto_self s t _]
    simp [After]
  | retire k todo hStage =>
    rw [hStage, show _ = Stage.body .wr todo from State.goto_self s t _]
    simp [After]
  | locate r p size radixlog x base hStage _ _ _ =>
    rw [hStage, show _ = Stage.inner r p size s.epoch from State.goto_self s t _]
    simp [After]
  | inner r p size epoch a base hStage _ _ =>
    rw [hStage, show _ = s.afterAccess t base (.inner r p size epoch) from State.goto_self s t _, State.afterAccess]
    split
    · simp [After]
    · split <;> simp [After]
  | unlock type k base hStage _ _ =>
    rw [hStage, show _ = Stage.unlock type from State.goto_self s t _]
    exact .inl ⟨type, rfl⟩
  | table a base hStage _ _ _ =>
    rw [hStage, show _ = Stage.table from State.goto_self s t _]
    simp [After]

theorem after_of_step (h : State.Step locate s (t, act) s') : After (s.stages t) (s'.stages t) := by
  cases hOnly : stepOnly (s.stages t) with
  | true =>
    have hStep := step_of_stepOnly h hOnly
    cases hStage : s.stages t with
    | body type todo =>
      rw [hStage] at hStep hOnly
      cases todo with
      | nil =>
        cases hStep
        exact ⟨type, State.goto_self s t _⟩
      | cons k todo => cases hOnly
    | leave | commitUnlock =>
      rw [hStage] at hStep
      exact stages_of_release hStep
    | _ =>
      rw [hStage] at hOnly
      cases hOnly
  | false => exact after_of_effect (State.step_effect locate h) hOnly

end Stages

/-! ## The invariant -/

def Right (total : LockType → Nat) : Decision → Prop
  | .start => True
  | .loaded r => r = total .rd
  | .summed totalCnt => totalCnt = total .rd + total .wr
  | .chosen p | .cleared p => some p = wanted (total .rd) (total .wr)
  | .decided p => p = wanted (total .rd) (total .wr)

def clears : Decision → LockType → Bool
  | .cleared _, .rd | .decided (some _), _ => true
  | _, _ => false

structure Kept [Fintype T] (s : Counting T E R) : Prop where
  locked : State.Locked s.control
  fits : ∀ t, Fits (s.control.stages t) (s.counters.attempts t)
  begins : ∀ t, s.control.stages t ≠ .commitUnlock → s.decisions t = .start
  loaded : Counters.Loaded (2 ^ 64) s.counters
  right : ∀ t, Right s.counters.total (s.decisions t)
  cleared : ∀ t k, clears (s.decisions t) k = true → s.counters.value k = 0
  exact : ∀ k, (∀ t, clears (s.decisions t) k = false) → s.counters.Exact k

section Invariant

variable [Fintype T] {locate} {s s' : Counting T E R} {t u : T} {act : Act X E} {k : LockType}

theorem Fits.idle {g : Stage E} {x : Option (LockType × Attempt)} (h : Fits g x) (hReads : g.reads = false) :
    x = none := by
  cases g with
  | body | unlock | leave => cases hReads
  | _ => exact h

/-- An increment that has not succeeded is made at the end of the loop. -/
theorem Fits.body {g : Stage E} {a : Attempt} (h : Fits g (some (k, a))) (hOpen : a ≠ .counted) :
    ∃ type, g = .body type [] := by
  cases g with
  | body type todo =>
    cases todo with
    | nil => exact ⟨type, rfl⟩
    | cons k todo => cases h
  | unlock | leave =>
    obtain ⟨type, hEq⟩ := h
    cases hEq
    exact absurd rfl hOpen
  | _ => cases h

theorem Fits.after {g g' : Stage E} {x : Option (LockType × Attempt)} (h : Fits g x) (hAfter : After g g')
    (hCounted : ∀ type, g = .body type [] → x = some (type, .counted)) (hStays : g ≠ .leave) : Fits g' x := by
  have hOther : x = none → (∀ type, g' ≠ .unlock type) ∧ g' ≠ .leave → Fits g' x := by
    rintro rfl ⟨hUnlock, hLeave⟩
    cases g' with
    | body type todo => cases todo <;> trivial
    | unlock type => exact absurd rfl (hUnlock type)
    | leave => exact absurd rfl hLeave
    | _ => rfl
  cases g with
  | body type todo =>
    cases todo with
    | nil =>
      obtain ⟨type', rfl⟩ := hAfter
      exact ⟨type, hCounted type rfl⟩
    | cons k todo => exact hOther h hAfter
  | unlock type =>
    rcases hAfter with ⟨type', rfl⟩ | rfl
    · exact h
    · exact h
  | leave => exact absurd rfl hStays
  | commitUnlock =>
    rw [show g' = .out from hAfter]
    exact h
  | _ => exact hOther h hAfter

/-- While a thread has the reader side, no commit is at its decision. -/
theorem Kept.undecided (h : Kept s) (hReads : (s.control.stages t).reads = true) (u : T) :
    s.decisions u = .start := by
  apply h.begins
  intro hStage
  have hNone := (h.locked.alone (by rw [hStage]; rfl) t).1
  rw [hReads] at hNone
  cases hNone

/-- While a commit decides, no request counts and no other commit decides. -/
theorem Kept.alone (h : Kept s) (hStage : s.control.stages t = .commitUnlock) :
    (∀ u, s.counters.attempts u = none) ∧ ∀ u, u ≠ t → s.decisions u = .start := by
  have hAlone := h.locked.alone (t := t) (by rw [hStage]; rfl)
  refine ⟨fun u => (h.fits u).idle (hAlone u).1, fun u hne => h.begins u fun hTheirs => ?_⟩
  exact hne ((hAlone u).2 (by rw [hTheirs]; rfl))

/-- Counters that are exact stay right for a commit that has yet to come. -/
theorem Kept.reading (h : Kept s) (hReads : (s.control.stages t).reads = true)
    {control : State T E R} {counters : Counters T LockType} (hLocked : State.Locked control)
    (hFits : ∀ u, Fits (control.stages u) (counters.attempts u))
    (hLoaded : Counters.Loaded (2 ^ 64) counters) (hExact : ∀ k, counters.Exact k) :
    Kept ⟨control, counters, s.decisions⟩ := by
  have hNone := h.undecided hReads
  refine ⟨hLocked, hFits, fun u _ => hNone u, hLoaded, fun u => ?_, fun u k hClears => ?_, fun k _ => hExact k⟩
  · dsimp only
    rw [hNone u]
    trivial
  · dsimp only at hClears
    rw [hNone u] at hClears
    cases hClears

theorem Kept.exact_of_reading (h : Kept s) (hReads : (s.control.stages t).reads = true) (k : LockType) :
    s.counters.Exact k :=
  h.exact k fun u => by rw [h.undecided hReads u]; rfl

theorem fits_goto {stages : T → Stage E} (h : ∀ u, Fits (stages u) (s.counters.attempts u))
    {x : Option (LockType × Attempt)} (hHere : Fits (stages t) x) (u : T) :
    Fits (stages u) ((s.counters.goto t x).attempts u) := by
  rw [Counters.goto_attempts]
  split
  · rename_i hu
    rw [hu]
    exact hHere
  · exact h u

theorem Kept.start (h : Kept s) {type : LockType} (hStage : s.control.stages t = .body type [])
    (hIdle : s.counters.attempts t = none) : Kept { s with counters := s.counters.start t type } := by
  have hReads : (s.control.stages t).reads = true := by
    rw [hStage]
    rfl
  exact h.reading hReads h.locked (fits_goto h.fits (by rw [hStage]; trivial)) h.loaded.start
    fun k => (h.exact_of_reading hReads k).start hIdle

theorem attempts_of_effect {c c' : Counters T LockType} {a : Access} (h : Counters.Effect (2 ^ 64) c t a c') :
    ∃ k y x, c.attempts t = some (k, y) ∧ y ≠ .counted ∧ c'.attempts = (c.goto t x).attempts := by
  cases h with
  | load k hAt => exact ⟨k, _, _, hAt, by simp, rfl⟩
  | reload k old hAt => exact ⟨k, _, _, hAt, by simp, rfl⟩
  | count k new hAt => exact ⟨k, _, _, hAt, by simp, rfl⟩
  | retry k old new hAt _ => exact ⟨k, _, _, hAt, by simp, rfl⟩

theorem Kept.access (h : Kept s) {a : Access} {counters : Counters T LockType}
    (hUnwrapped : s.counters.value .rd + s.counters.value .wr + 1 < 2 ^ 64)
    (hAccess : s.counters.access (2 ^ 64) t a = some counters) : Kept { s with counters := counters } := by
  have hEffect := Counters.access_effect hAccess
  obtain ⟨k, y, x, hAt, hOpen, hAttempts⟩ := attempts_of_effect hEffect
  have hFits := h.fits t
  rw [hAt] at hFits
  obtain ⟨type, hStage⟩ := hFits.body hOpen
  have hReads : (s.control.stages t).reads = true := by
    rw [hStage]
    rfl
  have hSmall : ∀ k, s.counters.value k + 1 < 2 ^ 64 := by
    intro k
    cases k <;> omega
  refine h.reading hReads h.locked (fun u => ?_) (h.loaded.access hSmall hEffect)
    (Counters.Exact.access (h.exact_of_reading hReads) h.loaded hSmall hEffect)
  rw [hAttempts]
  exact fits_goto h.fits (by rw [hStage]; trivial) u

theorem Kept.leave (h : Kept s) (hStage : s.control.stages t = .leave) {control : State T E R}
    (hLocked : State.Locked control) (hOut : control.stages t = .out)
    (hOther : ∀ u, u ≠ t → control.stages u = s.control.stages u) :
    Kept ⟨control, s.counters.finish t, s.decisions⟩ := by
  have hReads : (s.control.stages t).reads = true := by
    rw [hStage]
    rfl
  have hFits := h.fits t
  rw [hStage] at hFits
  obtain ⟨type, hAt⟩ := hFits
  refine h.reading hReads hLocked (fun u => ?_) (h.loaded.finish hAt)
    fun k => (h.exact_of_reading hReads k).finish hAt
  rw [Counters.finish_of_counted hAt]
  change Fits _ ((s.counters.goto t none).attempts u)
  rw [Counters.goto_attempts]
  split
  · rename_i hu
    rw [hu, hOut]
    rfl
  · rename_i hne
    rw [hOther u hne]
    exact h.fits u

/-- What a commit leaves in the counters: nothing. -/
theorem Kept.value_of_decided (h : Kept s) (hStage : s.control.stages t = .commitUnlock) {p : Option Policy}
    (hDecided : s.decisions t = .decided p) (k : LockType) : s.counters.value k = 0 := by
  obtain ⟨hNone, hOther⟩ := h.alone hStage
  cases p with
  | some p => exact h.cleared t k (by rw [hDecided]; rfl)
  | none =>
    have hRight := h.right t
    rw [hDecided, Right, wanted] at hRight
    have hClears : ∀ u, clears (s.decisions u) k = false := by
      intro u
      by_cases hu : u = t
      · rw [hu, hDecided]
        rfl
      · rw [hOther u hu]
        rfl
    rw [(h.exact k hClears).value_eq hNone]
    split at hRight
    · cases k <;> omega
    · split at hRight <;> cases hRight

theorem Kept.commit (h : Kept s) (hStage : s.control.stages t = .commitUnlock) {p : Option Policy}
    (hDecided : s.decisions t = .decided p) {control : State T E R} (hLocked : State.Locked control)
    (hOut : control.stages t = .out) (hOther : ∀ u, u ≠ t → control.stages u = s.control.stages u) :
    Kept ⟨control, { s.counters with total := fun _ => 0 }, Function.update s.decisions t .start⟩ := by
  obtain ⟨hNone, hStart⟩ := h.alone hStage
  have hAll : ∀ u, Function.update s.decisions t .start u = .start := by
    intro u
    by_cases hu : u = t
    · rw [hu, Function.update_self]
    · rw [Function.update_of_ne hu, hStart u hu]
  refine ⟨hLocked, fun u => ?_, fun u _ => hAll u, h.loaded.grown rfl fun _ => Nat.le_refl _, fun u => ?_,
    fun u k hClears => ?_, fun k _ => ?_⟩
  · dsimp only
    by_cases hu : u = t
    · rw [hu, hOut, hNone t]
      rfl
    · rw [hOther u hu]
      exact h.fits u
  · dsimp only
    rw [hAll u]
    trivial
  · dsimp only at hClears
    rw [hAll u] at hClears
    cases hClears
  · have hEmpty : holders s.counters.pending k = ∅ := by
      rw [holders_eq_empty_iff]
      intro u hSome
      rw [Counters.pending, hNone u] at hSome
      cases hSome
    change s.counters.value k = 0 + (holders s.counters.pending k).card
    rw [hEmpty, h.value_of_decided hStage hDecided k]
    rfl

theorem Kept.control (h : Kept s) {control : State T E R}
    (hControl : State.Step locate s.control (t, act) control)
    (hCounted : ∀ type, s.control.stages t = .body type [] → s.counters.attempts t = some (type, .counted))
    (hDecided : s.control.stages t = .commitUnlock → ∃ p, s.decisions t = .decided p) :
    Kept ⟨control, s.countersAfter t, s.decisionsAfter t⟩ := by
  have hEffect := State.step_effect locate hControl
  have hLocked := h.locked.step hEffect
  have hOther := fun u => hEffect.stages_of_ne (u := u)
  have hAfter := after_of_step hControl
  by_cases hLeave : s.control.stages t = .leave
  · rw [hLeave] at hAfter
    rw [countersAfter, decisionsAfter, hLeave]
    exact h.leave hLeave hLocked hAfter hOther
  · by_cases hCommit : s.control.stages t = .commitUnlock
    · obtain ⟨p, hp⟩ := hDecided hCommit
      rw [hCommit] at hAfter
      rw [countersAfter, decisionsAfter, hCommit]
      exact h.commit hCommit hp hLocked hAfter hOther
    · have hCounters : s.countersAfter t = s.counters := by
        rw [countersAfter]
        split
        · rename_i hStage
          exact absurd hStage hLeave
        · rename_i hStage
          exact absurd hStage hCommit
        · rfl
      have hDecisions : s.decisionsAfter t = s.decisions := by
        rw [decisionsAfter]
        split
        · rename_i hStage
          exact absurd hStage hCommit
        · rfl
      rw [hCounters, hDecisions]
      refine ⟨hLocked, fun u => ?_, fun u hStage => ?_, h.loaded, h.right, h.cleared, h.exact⟩
      · dsimp only
        by_cases hu : u = t
        · subst hu
          exact (h.fits u).after hAfter hCounted hLeave
        · rw [hOther u hu]
          exact h.fits u
      · dsimp only at hStage ⊢
        by_cases hu : u = t
        · rw [hu]
          exact h.begins t hCommit
        · rw [hOther u hu] at hStage
          exact h.begins u hStage

/-- The division leaves 100 if there are writes only, and otherwise 0. -/
theorem choice_eq {r w : Nat} (hSome : 0 < r + w) : some (choice w (r + w)) = wanted r w := by
  rw [wanted, if_neg (by omega), choice]
  by_cases hr : r = 0
  · subst hr
    rw [if_pos rfl, Nat.zero_add, Nat.div_self (by omega)]
    rfl
  · rw [if_neg hr, Nat.div_eq_of_lt (by omega)]
    rfl

/-- A commit that has not cleared a counter leaves it exact. -/
theorem Kept.exact_of_clears (h : Kept s) (hStage : s.control.stages t = .commitUnlock)
    (hClears : clears (s.decisions t) k = false) : s.counters.Exact k := by
  apply h.exact k
  intro u
  by_cases hu : u = t
  · rw [hu]
    exact hClears
  · rw [(h.alone hStage).2 u hu]
    rfl

theorem Kept.decide (h : Kept s) (hStage : s.control.stages t = .commitUnlock)
    {counters : Counters T LockType} {decision : Decision}
    (hAttempts : counters.attempts = s.counters.attempts) (hTotal : counters.total = s.counters.total)
    (hRight : Right s.counters.total decision)
    (hCleared : ∀ k, clears decision k = true → counters.value k = 0)
    (hExact : ∀ k, clears decision k = false → clears (s.decisions t) k = false ∧ counters.value k = s.counters.value k) :
    Kept ⟨s.control, counters, Function.update s.decisions t decision⟩ := by
  obtain ⟨hNone, hStart⟩ := h.alone hStage
  have hAt : ∀ u, Function.update s.decisions t decision u = if u = t then decision else .start := by
    intro u
    rw [Function.update_apply]
    split
    · rfl
    · exact hStart u ‹_›
  refine ⟨h.locked, fun u => ?_, fun u hOut => ?_, ⟨fun u k old hEq => ?_, fun u k old new hEq => ?_⟩, fun u => ?_,
    fun u k hClears => ?_, fun k hClears => ?_⟩
  · rw [hAttempts]
    exact h.fits u
  · dsimp only at hOut ⊢
    rw [hAt, if_neg]
    rintro rfl
    exact hOut hStage
  · rw [hAttempts, hNone u] at hEq
    cases hEq
  · rw [hAttempts, hNone u] at hEq
    cases hEq
  · dsimp only
    rw [hAt, hTotal]
    split
    · exact hRight
    · trivial
  · dsimp only at hClears ⊢
    rw [hAt] at hClears
    split at hClears
    · exact hCleared k hClears
    · cases hClears
  · have hHere := hClears t
    dsimp only at hHere
    rw [hAt, if_pos rfl] at hHere
    obtain ⟨hWas, hValue⟩ := hExact k hHere
    have hOld := h.exact_of_clears hStage hWas
    have hPending : counters.pending = s.counters.pending := by
      funext u
      rw [Counters.pending, Counters.pending, hAttempts]
    rw [Counters.Exact, hValue, hTotal, hPending]
    exact hOld

/-- Before it clears them, a commit finds in the counters the requests that have returned. -/
theorem Kept.value_eq (h : Kept s) (hStage : s.control.stages t = .commitUnlock)
    (hClears : clears (s.decisions t) k = false) : s.counters.value k = s.counters.total k := by
  obtain ⟨hNone, _⟩ := h.alone hStage
  exact (h.exact_of_clears hStage hClears).value_eq hNone

theorem Kept.determined (h : Kept s) (hStage : s.control.stages t = .commitUnlock)
    (hUnwrapped : s.counters.value .rd + s.counters.value .wr + 1 < 2 ^ 64)
    {counters : Counters T LockType} {decision : Decision}
    (hDetermine : determine s.counters (s.decisions t) = some (counters, decision)) :
    Kept ⟨s.control, counters, Function.update s.decisions t decision⟩ := by
  have hValue := fun k => h.value_eq hStage (k := k)
  have hRight := h.right t
  cases hAt : s.decisions t with
  | start =>
    rw [hAt] at hDetermine hValue
    cases hDetermine
    exact h.decide hStage rfl rfl (hValue .rd rfl) (fun k hClears => by cases hClears)
      fun k _ => ⟨by rw [hAt]; rfl, rfl⟩
  | loaded r =>
    rw [hAt] at hDetermine hValue hRight
    cases hDetermine
    refine h.decide hStage rfl rfl ?_ (fun k hClears => by cases hClears) fun k _ => ⟨by rw [hAt]; rfl, rfl⟩
    have hRd := hValue .rd rfl
    have hWr := hValue .wr rfl
    have hLoaded : r = s.counters.total .rd := hRight
    change (r + s.counters.value .wr) % 2 ^ 64 = s.counters.total .rd + s.counters.total .wr
    rw [Nat.mod_eq_of_lt (by omega), hLoaded, hWr]
  | summed totalCnt =>
    rw [hAt] at hDetermine hValue hRight
    rw [Right] at hRight
    unfold determine at hDetermine
    dsimp only at hDetermine
    split at hDetermine
    · rename_i hSome
      cases hDetermine
      refine h.decide hStage rfl rfl ?_ (fun k hClears => by cases hClears) fun k _ => ⟨by rw [hAt]; rfl, rfl⟩
      rw [Right, hValue .wr rfl, hRight]
      exact choice_eq (by rwa [← hRight])
    · rename_i hZero
      cases hDetermine
      refine h.decide hStage rfl rfl ?_ (fun k hClears => by cases hClears) fun k _ => ⟨by rw [hAt]; rfl, rfl⟩
      rw [Right, wanted, if_pos (by omega)]
  | chosen newPolicy =>
    rw [hAt] at hDetermine hRight
    cases hDetermine
    refine h.decide hStage rfl rfl hRight (fun k hClears => ?_) fun k hClears => ?_
    · cases k with
      | rd => exact Counters.store_self ..
      | wr => cases hClears
    · cases k with
      | rd => cases hClears
      | wr => exact ⟨by rw [hAt]; rfl, Counters.store_of_ne (by simp) 0⟩
  | cleared newPolicy =>
    rw [hAt] at hDetermine hRight
    cases hDetermine
    refine h.decide hStage rfl rfl hRight (fun k _ => ?_) fun k hClears => by cases hClears
    cases k with
    | rd =>
      rw [Counters.store_of_ne (by simp)]
      exact h.cleared t .rd (by rw [hAt]; rfl)
    | wr => exact Counters.store_self ..
  | decided p =>
    rw [hAt] at hDetermine
    cases hDetermine

theorem Kept.step (h : Kept s) {a : T × CountAct X E} (hStep : Guarded Unwrapped (Step locate) s a s') :
    Kept s' := by
  obtain ⟨hUnwrapped, hStep⟩ := hStep
  cases hStep with
  | control t act control hControl hCounted hDecided => exact h.control hControl hCounted hDecided
  | start t type hStage hIdle => exact h.start hStage hIdle
  | access t a counters hAccess => exact h.access hUnwrapped hAccess
  | determine t counters decision hStage hDetermine => exact h.determined hStage hUnwrapped hDetermine

theorem init_kept (locks : E → RwLock T) (radixlog : R) (epoch : Nat) : Kept (init locks radixlog epoch) where
  locked := ⟨fun _ => rfl, fun _ => rfl⟩
  fits _ := rfl
  begins _ _ := rfl
  loaded := by constructor <;> simp [init]
  right _ := trivial
  cleared _ _ hEq := by cases hEq
  exact k _ := by
    have hEmpty : holders (fun _ : T => (none : Option LockType)) k = ∅ :=
      holders_eq_empty_iff.mpr fun _ => by simp
    change 0 = 0 + (holders (fun _ : T => (none : Option LockType)) k).card
    rw [hEmpty]
    rfl

theorem Kept.countsExactly (h : Kept s) : CountsExactly s := by
  refine ⟨fun t p hDecided => ?_, fun hQuiet type => ?_⟩
  · have hRight := h.right t
    rwa [hDecided] at hRight
  · have hNone : ∀ t, s.counters.attempts t = none := fun t => (h.fits t).idle (hQuiet t).1
    refine (h.exact type fun t => ?_).value_eq hNone
    rw [h.begins t]
    · rfl
    · intro hStage
      have hWrites := (hQuiet t).2
      rw [hStage] at hWrites
      cases hWrites

/-! ## Retries -/

/-- Outside `increase_counter` no attempt becomes stale. -/
theorem retries_step (h : Kept s) {a : T × CountAct X E} (hStep : Step locate s a s') :
    (failed a).toNat + s'.counters.staleCount ≤
      s.counters.staleCount + (Fintype.card T - 1) * (succeeded a).toNat := by
  cases hStep with
  | control t act control _ _ _ =>
    have hLe : (s.countersAfter t).staleCount ≤ s.counters.staleCount := by
      rw [countersAfter]
      split
      · exact Counters.staleCount_finish_le
      · exact Nat.le_refl _
      · exact Nat.le_refl _
    simpa [failed, succeeded] using hLe
  | start t type _ _ => simpa [failed, succeeded] using Counters.staleCount_start_le type
  | access t a counters hAccess => exact Counters.staleCount_access (Counters.access_effect hAccess)
  | determine t counters decision hStage hDetermine =>
    have hSame : counters.attempts = s.counters.attempts := by
      cases hAt : s.decisions t with
      | summed totalCnt =>
        rw [hAt, Counting.determine] at hDetermine
        split at hDetermine <;> cases hDetermine <;> rfl
      | _ =>
        rw [hAt] at hDetermine
        cases hDetermine <;> rfl
    have hZero : counters.staleCount = 0 := by
      apply Counters.staleCount_eq_zero
      rw [hSame]
      exact (h.alone hStage).1
    simp [failed, succeeded, hZero]

end Invariant

/-- In every interleaving, commits decide by exactly the requests that have returned since the last
commit, and a retry of `increase_counter` is paid for by a success of another thread. -/
theorem countsExactly_of_run [Fintype T] {locks : E → RwLock T} {radixlog : R} {epoch : Nat}
    {as : List (T × CountAct X E)} {s : Counting T E R}
    (hRun : Run (Guarded Unwrapped (Step locate)) (init locks radixlog epoch) as s) :
    CountsExactly s ∧ as.countP failed ≤ (Fintype.card T - 1) * as.countP succeeded := by
  have hInit := init_kept locks radixlog epoch
  have hKeeps : ∀ (s : Counting T E R) a s', Kept s → Guarded Unwrapped (Step locate) s a s' → Kept s' :=
    fun _ _ _ h hStep => h.step hStep
  refine ⟨(hRun.invariant Kept hKeeps hInit).countsExactly, ?_⟩
  have hBound := (hRun.keeping Kept hKeeps hInit).amortized (fun s => s.counters.staleCount) failed succeeded
    (Fintype.card T - 1) fun _ _ _ hStep => retries_step hStep.1 hStep.2.2
  have hNone : (init locks radixlog epoch).counters.staleCount = 0 := Counters.staleCount_eq_zero fun _ => rfl
  omega

section Schedules

/-- Two empty reads. The increment of the first gets in between the accesses of the second. -/
def countTwice : List (Bool × CountAct Unit Nat) :=
  [(true, .control (.request .rd 0 0)), (true, .control .step), (true, .control .step), (true, .control .step),
    (true, .start .rd), (true, .access .load),
    (false, .control (.request .rd 0 0)), (false, .control .step), (false, .control .step), (false, .control .step),
    (false, .start .rd), (false, .access .load), (false, .access .reload), (false, .access (.swap true)),
    (true, .access .reload), (true, .access (.swap false))]

theorem countsExactly_countTwice : ∃ s : Counting Bool Nat RadixLog,
    Run (Guarded Unwrapped (Step State.locateBlock)) (init (fun _ => .free) (initRadixlog 4096) 0) countTwice s ∧
      s.counters.value .rd = 1 ∧ CountsExactly s ∧
      countTwice.countP failed ≤ (Fintype.card Bool - 1) * countTwice.countP succeeded := by
  have hRun : ∃ s : Counting Bool Nat RadixLog,
      Run (Guarded Unwrapped (Step State.locateBlock)) (init (fun _ => .free) (initRadixlog 4096) 0) countTwice s ∧
        s.counters.value .rd = 1 := by
    refine ⟨_, .cons ⟨?_, .control _ _ _ rfl ?_ ?_⟩ (.cons ⟨?_, .control _ _ _ rfl ?_ ?_⟩
      (.cons ⟨?_, .control _ _ _ rfl ?_ ?_⟩ (.cons ⟨?_, .control _ _ _ rfl ?_ ?_⟩
      (.cons ⟨?_, .start _ _ rfl rfl⟩ (.cons ⟨?_, .access _ _ _ rfl⟩
      (.cons ⟨?_, .control _ _ _ rfl ?_ ?_⟩ (.cons ⟨?_, .control _ _ _ rfl ?_ ?_⟩
      (.cons ⟨?_, .control _ _ _ rfl ?_ ?_⟩ (.cons ⟨?_, .control _ _ _ rfl ?_ ?_⟩
      (.cons ⟨?_, .start _ _ rfl rfl⟩ (.cons ⟨?_, .access _ _ _ rfl⟩ (.cons ⟨?_, .access _ _ _ rfl⟩
      (.cons ⟨?_, .access _ _ _ rfl⟩ (.cons ⟨?_, .access _ _ _ rfl⟩ (.cons ⟨?_, .access _ _ _ rfl⟩
      (.nil _)))))))))))))))), rfl⟩
    -- the calls here end no loop and no commit, and the counters are small
    all_goals first
      | (intro type hStage; cases hStage)
      | (intro hStage; cases hStage)
      | (change (_ : Nat) < _; decide)
  obtain ⟨s, hRun, hValue⟩ := hRun
  exact ⟨s, hRun, hValue, countsExactly_of_run State.locateBlock hRun⟩

end Schedules

end Counting

end Libnvmmio.Concurrent

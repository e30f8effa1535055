import Libnvmmio.Foundation.GuardedRun
import Libnvmmio.Radixlog.LogSize
import Mathlib.Logic.Function.Basic

/-! # The checkpoint thread and the release of its object

`create_checkpoint_thread` starts a thread for each mapping of an object. The
last close cancels it, unmaps the region and pushes the object to the pool, from
where another open takes it. A cancelled thread goes on until it reaches
`usleep`; nothing joins it.
-/

namespace Libnvmmio.CheckpointThread

open GuardedRun

set_option autoImplicit false
set_option linter.unusedSectionVars false

inductive Part where
  | mapping | object | tables | entries
  deriving DecidableEq, Repr

inductive Point where
  | unborn
  | sleep
  /-- load `end`, `start` and `epoch` -/
  | start
  | trylock (offset endoff : Nat)
  | find (offset endoff : Nat)
  /-- load `table->log_size` -/
  | size (offset endoff : Nat)
  /-- load `table->entries[i]` and its epoch -/
  | slot (offset endoff : Nat) (s : LogSize) (i : Nat)
  | trylockEntry (offset endoff : Nat) (s : LogSize) (i : Nat)
  /-- load the epoch once more -/
  | test (offset endoff : Nat) (s : LogSize) (i : Nat)
  /-- load the policy; `NTSTORE` and `FENCE` if it is `REDO` -/
  | copy (offset endoff : Nat) (s : LogSize) (i : Nat)
  /-- `table->entries[i] = NULL` -/
  | clear (offset endoff : Nat) (s : LogSize) (i : Nat)
  | free (offset endoff : Nat) (s : LogSize) (i : Nat)
  | unlockEntry (offset endoff : Nat) (s : LogSize) (i : Nat)
  | unlock (offset endoff : Nat) (s : LogSize)
  | ended
  deriving DecidableEq

/-- What the thread sees in memory. The environment chooses: once the object is
released, its memory may hold what another file has put there. -/
inductive Seen where
  | length (endoff : Nat)
  | size (s : LogSize)
  /-- whether a lock is taken, a table is found, an entry is stale -/
  | flag (b : Bool)

/-- `while (offset < endoff)`, and back to `usleep` when the loop is over. -/
def region (offset endoff : Nat) : Point := if offset < endoff then .trylock offset endoff else .sleep

def nextSlot (offset endoff : Nat) (s : LogSize) (i : Nat) : Point :=
  if i + 1 < s.nrEntries then .slot offset endoff s (i + 1) else .unlock offset endoff s

def nextRegion (offset endoff : Nat) (s : LogSize) : Point := region (offset + s.nrEntries * s.size) endoff

namespace Point

def next : Point → Seen → Option Point
  | .start, .length endoff => some (region 0 endoff)
  | .trylock offset endoff, .flag taken =>
    some (if taken then .find offset endoff else nextRegion offset endoff .log4K)
  | .find offset endoff, .flag found =>
    some (if found then .size offset endoff else .unlock offset endoff .log4K)
  | .size offset endoff, .size s => some (.slot offset endoff s 0)
  | .slot offset endoff s i, .flag stale =>
    some (if stale then .trylockEntry offset endoff s i else nextSlot offset endoff s i)
  | .trylockEntry offset endoff s i, .flag taken =>
    some (if taken then .test offset endoff s i else nextSlot offset endoff s i)
  | .test offset endoff s i, .flag stale =>
    some (if stale then .copy offset endoff s i else .unlockEntry offset endoff s i)
  | .copy offset endoff s i, .flag _ => some (.clear offset endoff s i)
  | .clear offset endoff s i, .flag _ => some (.free offset endoff s i)
  | .free offset endoff s i, .flag _ => some (nextSlot offset endoff s i)
  | .unlockEntry offset endoff s i, .flag _ => some (nextSlot offset endoff s i)
  | .unlock offset endoff s, .flag _ => some (nextRegion offset endoff s)
  | _, _ => none

def touches : Point → List Part
  | .unborn | .sleep | .ended => []
  | .start | .trylock _ _ | .unlock _ _ _ => [.object]
  | .find _ _ => [.object, .tables]
  | .size _ _ | .clear _ _ _ _ => [.tables]
  | .slot _ _ _ _ => [.tables, .entries]
  | .trylockEntry _ _ _ _ | .test _ _ _ _ | .free _ _ _ _ | .unlockEntry _ _ _ _ => [.entries]
  | .copy _ _ _ _ => [.entries, .mapping]

/-- The thread is in `usleep`, or is gone. -/
def Parked (c : Point) : Prop := c = .sleep ∨ c = .ended

instance (c : Point) : Decidable c.Parked := inferInstanceAs (Decidable (_ ∨ _))

theorem Parked.touches {c : Point} (h : c.Parked) : c.touches = [] := by
  rcases h with rfl | rfl <;> rfl

theorem parked_of_touches {c : Point} (h : c.touches = []) : c.Parked ∨ c = .unborn := by
  cases c with
  | unborn => exact .inr rfl
  | sleep => exact .inl (.inl rfl)
  | ended => exact .inl (.inr rfl)
  | _ => cases h

theorem region_born (offset endoff : Nat) : region offset endoff ≠ .unborn := by
  unfold region
  split <;> nofun

theorem nextSlot_born (offset endoff : Nat) (s : LogSize) (i : Nat) :
    nextSlot offset endoff s i ≠ .unborn := by
  unfold nextSlot
  split <;> nofun

theorem ite_born {b : Prop} [Decidable b] {c c' : Point} (h : c ≠ .unborn) (h' : c' ≠ .unborn) :
    (if b then c else c') ≠ .unborn := by
  split
  · exact h
  · exact h'

/-- A step of `checkpoint_mmio` uses memory, and leads to another one or to `usleep`. -/
theorem next_spec {c c' : Point} {seen : Seen} (h : c.next seen = some c') :
    c.touches ≠ [] ∧ c' ≠ .unborn := by
  unfold next at h
  split at h <;> cases h <;> refine ⟨nofun, ?_⟩
  · exact region_born _ _
  · exact ite_born nofun (region_born _ _)
  · exact ite_born nofun nofun
  · nofun
  · exact ite_born nofun (nextSlot_born _ _ _ _)
  · exact ite_born nofun (nextSlot_born _ _ _ _)
  · exact ite_born nofun nofun
  · nofun
  · nofun
  · exact nextSlot_born _ _ _ _
  · exact nextSlot_born _ _ _ _
  · exact region_born _ _

end Point

inductive Status (T : Type) where
  | pooled
  | inUse (t : T)
  /-- after `pthread_cancel` -/
  | cancelled (t : T)
  /-- after `munmap` -/
  | unmapped (t : T)
  /-- after `init_mmio` -/
  | cleared
  deriving DecidableEq

structure State (T O : Type) where
  status : O → Status T
  /-- the object that the thread was created for -/
  parm : T → Option O
  calls : T → Point
  cancelled : T → Bool
  /-- the region that the thread was created for is unmapped -/
  unmapped : T → Bool
  /-- the accesses by threads whose region was unmapped before -/
  late : List (T × Part)

variable {T O : Type}

def init : State T O where
  status _ := .pooled
  parm _ := none
  calls _ := .unborn
  cancelled _ := false
  unmapped _ := false
  late := []

inductive Act (T O : Type) where
  /-- `get_new_mmio`, whose `pthread_create` makes the thread -/
  | «open» (o : O) (t : T)
  | cancel (o : O)
  | unmap (o : O)
  | clear (o : O)
  | push (o : O)
  | run (t : T) (seen : Seen)

namespace State

variable [DecidableEq T] [DecidableEq O]

def setStatus (s : State T O) (o : O) (status : Status T) : State T O :=
  { s with status := Function.update s.status o status }

def goto (s : State T O) (t : T) (c : Point) : State T O :=
  { s with calls := Function.update s.calls t c }

def touch (s : State T O) (t : T) (parts : List Part) : State T O :=
  if s.unmapped t then { s with late := parts.map (t, ·) ++ s.late } else s

def openMmio (s : State T O) (o : O) (t : T) : State T O :=
  { (s.setStatus o (.inUse t)).goto t .sleep with parm := Function.update s.parm t (some o) }

def cancelThread (s : State T O) (o : O) (t : T) : State T O :=
  { s.setStatus o (.cancelled t) with cancelled := Function.update s.cancelled t true }

def unmapRegion (s : State T O) (o : O) (t : T) : State T O :=
  { s.setStatus o (.unmapped t) with unmapped := Function.update s.unmapped t true }

def next (s : State T O) : Act T O → Option (State T O)
  | .open o t => if s.status o = .pooled ∧ s.calls t = .unborn then some (s.openMmio o t) else none
  | .cancel o =>
    match s.status o with
    | .inUse t => some (s.cancelThread o t)
    | _ => none
  | .unmap o =>
    match s.status o with
    | .cancelled t => some (s.unmapRegion o t)
    | _ => none
  | .clear o =>
    match s.status o with
    | .unmapped _ => some (s.setStatus o .cleared)
    | _ => none
  | .push o => if s.status o = .cleared then some (s.setStatus o .pooled) else none
  | .run t seen =>
    match s.calls t with
    | .sleep => some (s.goto t (if s.cancelled t then .ended else .start))
    | c =>
      match c.next seen with
      | some c' => some ((s.touch t c.touches).goto t c')
      | none => none

def Step (s : State T O) (a : Act T O) (s' : State T O) : Prop := s.next a = some s'

/-- When `release_mmio` unmaps the region, the thread is in `usleep` or gone. -/
def ThreadParked (s : State T O) : Act T O → Prop
  | .unmap o => ∀ t, s.status o = .cancelled t → (s.calls t).Parked
  | _ => True

/-- No thread has touched what it was created for after the region was unmapped,
and none is about to. -/
structure NoneLate (s : State T O) : Prop where
  late : s.late = []
  next : ∀ t, s.unmapped t = true → (s.calls t).touches = []

structure Quiet (s : State T O) : Prop where
  marked : ∀ o t, s.status o = .cancelled t → s.cancelled t = true
  born : ∀ o t, s.status o = .inUse t ∨ s.status o = .cancelled t → s.calls t ≠ .unborn
  parked : ∀ t, s.unmapped t = true → (s.calls t).Parked ∧ s.cancelled t = true
  late : s.late = []

section Step

variable {s s' : State T O}

theorem Quiet.noneLate (h : s.Quiet) : s.NoneLate := ⟨h.late, fun t ht => (h.parked t ht).1.touches⟩

inductive Effect (s : State T O) : Act T O → State T O → Prop where
  | «open» (o : O) (t : T) (hFresh : s.calls t = .unborn) : Effect s (.open o t) (s.openMmio o t)
  | cancel (o : O) (t : T) (hStatus : s.status o = .inUse t) : Effect s (.cancel o) (s.cancelThread o t)
  | unmap (o : O) (t : T) (hStatus : s.status o = .cancelled t) : Effect s (.unmap o) (s.unmapRegion o t)
  | settle (a : Act T O) (o : O) (status : Status T) (hNoThread : status = .cleared ∨ status = .pooled) :
      Effect s a (s.setStatus o status)
  | wake (t : T) (seen : Seen) (hSleep : s.calls t = .sleep) :
      Effect s (.run t seen) (s.goto t (if s.cancelled t then .ended else .start))
  | advance (t : T) (seen : Seen) (c : Point) (hNext : (s.calls t).next seen = some c)
      (hTouches : (s.calls t).touches ≠ []) (hBorn : c ≠ .unborn) :
      Effect s (.run t seen) ((s.touch t (s.calls t).touches).goto t c)

theorem step_effect {a : Act T O} (hStep : Step s a s') : Effect s a s' := by
  unfold Step at hStep
  cases a with
  | «open» o t =>
    obtain ⟨⟨_, hFresh⟩, hDone⟩ := Option.ite_none_right_eq_some.mp hStep
    cases hDone
    exact .open o t hFresh
  | cancel o =>
    simp only [next] at hStep
    split at hStep <;> cases hStep
    exact .cancel o _ ‹_›
  | unmap o =>
    simp only [next] at hStep
    split at hStep <;> cases hStep
    exact .unmap o _ ‹_›
  | clear o =>
    simp only [next] at hStep
    split at hStep <;> cases hStep
    exact .settle _ o _ (.inl rfl)
  | push o =>
    obtain ⟨_, hDone⟩ := Option.ite_none_right_eq_some.mp hStep
    cases hDone
    exact .settle _ o _ (.inr rfl)
  | run t seen =>
    simp only [next] at hStep
    split at hStep
    · cases hStep
      exact .wake t seen ‹_›
    · split at hStep <;> cases hStep
      rename_i c hNext
      exact .advance t seen c hNext (Point.next_spec hNext).1 (Point.next_spec hNext).2

theorem goto_calls (s : State T O) (t u : T) (c : Point) :
    (s.goto t c).calls u = if u = t then c else s.calls u := Function.update_apply ..

theorem setStatus_status (s : State T O) (o o' : O) (status : Status T) :
    (s.setStatus o status).status o' = if o' = o then status else s.status o' := Function.update_apply ..

theorem Quiet.touch (h : s.Quiet) {t : T} (hTouches : (s.calls t).touches ≠ []) (parts : List Part) :
    s.touch t parts = s := by
  unfold State.touch
  rw [if_neg]
  exact fun hUnmapped => hTouches (h.parked t hUnmapped).1.touches

theorem Quiet.goto (h : s.Quiet) {t : T} {c : Point} (hBorn : c ≠ .unborn)
    (hParked : s.unmapped t = true → c.Parked) : (s.goto t c).Quiet where
  marked := h.marked
  born o u hUser := by
    rw [goto_calls]
    split
    · exact hBorn
    · exact h.born o u hUser
  parked u hUnmapped := by
    rw [goto_calls]
    refine ⟨?_, (h.parked u hUnmapped).2⟩
    split
    · rename_i hu
      exact hParked (hu ▸ hUnmapped)
    · exact (h.parked u hUnmapped).1
  late := h.late

theorem Quiet.setStatus (h : s.Quiet) {o : O} {status : Status T}
    (hMarked : ∀ t, status = .cancelled t → s.cancelled t = true)
    (hBorn : ∀ t, status = .inUse t ∨ status = .cancelled t → s.calls t ≠ .unborn) :
    (s.setStatus o status).Quiet where
  marked o' t hStatus := by
    rw [setStatus_status] at hStatus
    split at hStatus
    · exact hMarked t hStatus
    · exact h.marked o' t hStatus
  born o' t hUser := by
    rw [setStatus_status] at hUser
    split at hUser
    · exact hBorn t hUser
    · exact h.born o' t hUser
  parked := h.parked
  late := h.late

theorem Quiet.openMmio (h : s.Quiet) (o : O) (t : T) : (s.openMmio o t).Quiet := by
  have hAsleep : (s.goto t .sleep).Quiet := h.goto nofun fun _ => .inl rfl
  have hInUse : ((s.goto t .sleep).setStatus o (.inUse t)).Quiet := by
    apply hAsleep.setStatus
    · nofun
    · rintro u (hIs | hIs)
      · cases hIs
        rw [goto_calls, if_pos rfl]
        nofun
      · cases hIs
  exact ⟨hInUse.marked, hInUse.born, hInUse.parked, hInUse.late⟩

theorem Quiet.cancelThread (h : s.Quiet) {o : O} {t : T} (hStatus : s.status o = .inUse t) :
    (s.cancelThread o t).Quiet := by
  have hCancelled : ∀ u, Function.update s.cancelled t true u = true ↔ u = t ∨ s.cancelled u = true := by
    intro u
    rw [Function.update_apply]
    split
    · rename_i hu
      exact ⟨fun _ => .inl hu, fun _ => rfl⟩
    · rename_i hu
      exact ⟨.inr, fun hEither => hEither.resolve_left hu⟩
  have hMarked : Quiet { s with cancelled := Function.update s.cancelled t true } :=
    ⟨fun o' u hIs => (hCancelled u).mpr (.inr (h.marked o' u hIs)), h.born,
      fun u hUnmapped => ⟨(h.parked u hUnmapped).1, (hCancelled u).mpr (.inr (h.parked u hUnmapped).2)⟩, h.late⟩
  apply hMarked.setStatus
  · rintro _ ⟨⟩
    exact (hCancelled t).mpr (.inl rfl)
  · rintro u (hIs | hIs)
    · cases hIs
    · cases hIs
      exact h.born o t (.inl hStatus)

theorem Quiet.unmapRegion (h : s.Quiet) {o : O} {t : T} (hStatus : s.status o = .cancelled t)
    (hParked : (s.calls t).Parked) : (s.unmapRegion o t).Quiet := by
  have hUnmapped : Quiet { s with unmapped := Function.update s.unmapped t true } := by
    refine ⟨h.marked, h.born, fun u hIs => ?_, h.late⟩
    change Function.update s.unmapped t true u = true at hIs
    rw [Function.update_apply] at hIs
    split at hIs
    · rename_i hu
      rw [hu]
      exact ⟨hParked, h.marked o t hStatus⟩
    · exact h.parked u hIs
  exact hUnmapped.setStatus nofun (by rintro u (hIs | hIs) <;> cases hIs)

theorem Quiet.step (h : s.Quiet) {a : Act T O} (hStep : Guarded ThreadParked Step s a s') : s'.Quiet := by
  obtain ⟨hGuard, hStep⟩ := hStep
  cases step_effect hStep with
  | «open» o t hFresh => exact h.openMmio o t
  | cancel o t hStatus => exact h.cancelThread hStatus
  | unmap o t hStatus => exact h.unmapRegion hStatus (hGuard t hStatus)
  | settle _ o status hNoThread =>
    apply h.setStatus
    · rcases hNoThread with rfl | rfl <;> nofun
    · rintro u (hIs | hIs) <;> rcases hNoThread with rfl | rfl <;> cases hIs
  | wake t seen hSleep =>
    apply h.goto
    · split <;> nofun
    · intro hUnmapped
      rw [if_pos (h.parked t hUnmapped).2]
      exact .inr rfl
  | advance t seen c hNext hTouches hBorn =>
    rw [h.touch hTouches]
    exact h.goto hBorn fun hUnmapped => absurd (h.parked t hUnmapped).1.touches hTouches

/-- A step that parks no thread too late is one that meets the condition, and no other. -/
theorem Quiet.noneLate_step_iff (h : s.Quiet) {a : Act T O} (hStep : Step s a s') :
    s'.NoneLate ↔ s.ThreadParked a := by
  refine ⟨fun hNone => ?_, fun hGuard => (h.step ⟨hGuard, hStep⟩).noneLate⟩
  cases a with
  | unmap o =>
    intro t hStatus
    change s.next (.unmap o) = some s' at hStep
    simp only [State.next, hStatus] at hStep
    cases hStep
    have hTouches : (s.calls t).touches = [] := hNone.next t (Function.update_self ..)
    exact (Point.parked_of_touches hTouches).resolve_right (h.born o t (.inr hStatus))
  | _ => trivial

theorem init_quiet : (init : State T O).Quiet where
  marked _ _ h := by cases h
  born _ _ h := by rcases h with h | h <;> cases h
  parked _ h := by cases h
  late := rfl

end Step

/-- In every interleaving in which each region is unmapped while its thread is in
`usleep` or gone, no thread touches what it was created for after that. -/
theorem noneLate_of_run {as : List (Act T O)} {s : State T O}
    (hRun : Run (Guarded ThreadParked Step) init as s) : s.NoneLate :=
  (hRun.invariant Quiet (fun _ _ _ h hStep => h.step hStep) init_quiet).noneLate

section Schedules

def closeAndReopen (t : Nat) : List (Act Nat Nat) := [.cancel 0, .unmap 0, .clear 0, .push 0, .open 0 t]

/-- The thread is in `usleep` when the region is unmapped, and ends there. -/
theorem noneLate_asleep : ∃ s : State Nat Nat, Run (Guarded ThreadParked Step) init
    ([.open 0 0] ++ closeAndReopen 1 ++ [.run 0 (.flag true)]) s ∧ s.NoneLate := by
  have hRun : ∃ s : State Nat Nat, Run (Guarded ThreadParked Step) init
      ([.open 0 0] ++ closeAndReopen 1 ++ [.run 0 (.flag true)]) s :=
    ⟨_, .cons ⟨trivial, rfl⟩ (.cons ⟨trivial, rfl⟩ (.cons ⟨fun t h => by cases h; exact .inl rfl, rfl⟩
      (.cons ⟨trivial, rfl⟩ (.cons ⟨trivial, rfl⟩ (.cons ⟨trivial, rfl⟩ (.cons ⟨trivial, rfl⟩ (.nil _)))))))⟩
  obtain ⟨s, hRun⟩ := hRun
  exact ⟨s, hRun, noneLate_of_run hRun⟩

/-- The thread has woken up when the region is unmapped. It reads the object, which by
then belongs to another open, and goes on to write an old log to the mapping. -/
def awake : List (Act Nat Nat) :=
  [.open 0 0, .run 0 (.flag true)] ++ closeAndReopen 1 ++
    [.run 0 (.length 4096), .run 0 (.flag true), .run 0 (.flag true), .run 0 (.size .log4K),
      .run 0 (.flag true), .run 0 (.flag true), .run 0 (.flag true), .run 0 (.flag true)]

theorem awake_run : ∃ s : State Nat Nat, Run Step init awake s ∧ s.status 0 = .inUse 1 ∧
    (0, Part.mapping) ∈ s.late :=
  ⟨_, .cons rfl (.cons rfl (.cons rfl (.cons rfl (.cons rfl (.cons rfl (.cons rfl (.cons rfl (.cons rfl
    (.cons rfl (.cons rfl (.cons rfl (.cons rfl (.cons rfl (.cons rfl (.nil _))))))))))))))), rfl, by decide⟩

theorem noneLate_fails_awake : ∃ s : State Nat Nat, Run Step init awake s ∧ s.status 0 = .inUse 1 ∧
    ¬ s.NoneLate := by
  obtain ⟨s, hRun, hStatus, hLate⟩ := awake_run
  refine ⟨s, hRun, hStatus, fun hNone => ?_⟩
  rw [hNone.late] at hLate
  cases hLate

end Schedules

end State

end Libnvmmio.CheckpointThread

import Libnvmmio.Concurrent.LockedBlocks

/-! # Requests on one mmio are atomic under UNDO

Between its last lock and its first unlock a request copies: `mmio_write` from
its buffer to the mapping, `mmio_read` from the mapping to its buffer. The copies
are not atomic, and those of different threads overlap in time. The locks on the
entries of all blocks of a request make each request take effect as a whole, at
a point between its call and its return. The size of the file is not under these
locks: reads compare their end with it, writes move it.
-/

namespace Libnvmmio.Concurrent

open AtomicCopies (Op Transfer Legal replay)
open GuardedRun Mmio RadixLog

set_option autoImplicit false
set_option linter.unusedSectionVars false

variable {T E : Type}

/-- Where a request is with its copy; `ret` is what it will return. -/
inductive Phase where
  | idle
  | waiting
  /-- `check_fsize` holds of a read -/
  | clipping
  | copying
  /-- a write compares `fsize` with its end, -/
  | comparing (op : Op UInt8) (ret : Nat)
  /-- and stores it. -/
  | storing (op : Op UInt8) (ret : Nat)
  | finished (op : Op UInt8) (ret : Nat)

/-- A request that has returned, with the lengths of the log at its call and at its return. -/
structure Returned (T : Type) where
  thread : T
  request : Request
  op : Op UInt8
  ret : Nat
  called : Nat
  returned : Nat

structure Shared (T E : Type) where
  control : State T E RadixLog
  fsize : Nat
  logSize : E → LogSize
  copies : AtomicCopies.State T UInt8
  phase : T → Phase
  request : T → Request
  called : T → Nat
  returned : List (Returned T)

inductive SharedAct (E : Type) where
  | request (q : Request)
  /-- the list of entries is done; a read checks its end, and `memcpy` or `NTSTORE` begins -/
  | copy
  | clip
  | move (i : Nat)
  | finish
  | compare
  | store
  | control (act : Act Unit E)

namespace Shared

variable [DecidableEq T] [DecidableEq E]

def init (locks : E → RwLock T) (mapLen epoch fsize : Nat) (bytes : Nat → UInt8) : Shared T E where
  control := Concurrent.init locks (initRadixlog mapLen) epoch
  fsize := fsize
  logSize _ := LogSize.log4K
  copies := ⟨bytes, fun _ => none, []⟩
  phase _ := .idle
  request _ := ⟨false, 0, 0, bytes⟩
  called _ := 0
  returned := []

def goto (s : Shared T E) (t : T) (p : Phase) : Shared T E :=
  { s with phase := Function.update s.phase t p }

/-- `check_fsize`, in `mmio_read` only -/
def Exceeds (s : Shared T E) (t : T) : Prop :=
  (s.request t).write = false ∧ (s.fsize : Int) < toOffT ((s.request t).off + (s.request t).len)

def start (s : Shared T E) (t : T) (len : Nat) : Shared T E :=
  { s.goto t .copying with
    copies := s.copies.setActive t (some { (s.request t).transfer with len := len }) }

/-- What a request returns: a read its length, a write what its entries have received. -/
def count (s : Shared T E) (t : T) (x : Transfer UInt8) : Nat :=
  if x.write then carriedCount (s.request t).len (s.request t).off (s.control.listedSizes s.logSize t) else x.len

def copied (s : Shared T E) (t : T) (x : Transfer UInt8) : Phase :=
  if x.write then .comparing x.op (s.count t x) else .finished x.op (s.count t x)

/-- A request unlocks its entries when it has copied and `fsize` is up to date. -/
def Permits (s : Shared T E) (t : T) : Act Unit E → Prop
  | .request .. => False
  | .step => ∀ type, s.control.stages t = .body type [] → ∃ op ret, s.phase t = .finished op ret
  | _ => True

def leave (s : Shared T E) (t : T) (act : Act Unit E) : Shared T E :=
  match act, s.control.stages t, s.phase t with
  | .step, .leave, .finished op ret =>
    { s.goto t .idle with
      returned := s.returned ++ [⟨t, s.request t, op, ret, s.called t, s.copies.log.length⟩] }
  | _, _, _ => s

inductive Step (s : Shared T E) (t : T) : SharedAct E → Shared T E → Prop where
  | request (q : Request) (control : State T E RadixLog)
      (hControl : State.Step State.locateBlock s.control (t, .request q.type q.off q.len) control) :
      Step s t (.request q) { s.goto t .waiting with
        control := control, request := Function.update s.request t q
        called := Function.update s.called t s.copies.log.length }
  | exceed (type : LockType) (hStage : s.control.stages t = .body type []) (hPhase : s.phase t = .waiting)
      (hExceeds : s.Exceeds t) : Step s t .copy (s.goto t .clipping)
  | copy (type : LockType) (hStage : s.control.stages t = .body type []) (hPhase : s.phase t = .waiting)
      (hWithin : ¬ s.Exceeds t) : Step s t .copy (s.start t (s.request t).len)
  /-- `len = mmio->fsize - offset` loads the size once more -/
  | clip (hPhase : s.phase t = .clipping) :
      Step s t .clip (s.start t
        (if s.fsize < (s.request t).off then 2 ^ 64 - ((s.request t).off - s.fsize) else s.fsize - (s.request t).off))
  | move (i : Nat) (x : Transfer UInt8) (hActive : s.copies.active t = some x) (hi : i < x.len) :
      Step s t (.move i) { s with copies := s.copies.move t x i }
  | finish (x : Transfer UInt8) (hActive : s.copies.active t = some x) (hComplete : x.Complete) :
      Step s t .finish { s.goto t (s.copied t x) with copies := s.copies.finish t x }
  | compare (op : Op UInt8) (ret : Nat) (hPhase : s.phase t = .comparing op ret) :
      Step s t .compare
        (s.goto t (if s.fsize < (s.request t).off + ret then .storing op ret else .finished op ret))
  | store (op : Op UInt8) (ret : Nat) (hPhase : s.phase t = .storing op ret) :
      Step s t .store { s.goto t (.finished op ret) with fsize := (s.request t).off + ret }
  | control (act : Act Unit E) (control : State T E RadixLog) (hPermits : s.Permits t act)
      (hControl : State.Step State.locateBlock s.control (t, act) control) :
      Step s t (.control act) { s.leave t act with
        control := control, logSize := s.control.logSizeAfter s.logSize t control }

/-- Trylocks find their entries installed. -/
def Proper (fsize mapLen : Nat) (s : Shared T E) (a : T × SharedAct E) : Prop :=
  match a.2 with
  | .request q => q.Inside fsize mapLen
  | .control act => s.control.StillInstalled (a.1, act)
  | _ => True

abbrev Runs (fsize mapLen : Nat) : Shared T E → List (T × SharedAct E) → Shared T E → Prop :=
  Run (Guarded (Proper fsize mapLen) fun s a s' => Step s a.1 a.2 s')

end Shared

/-! ## The phases -/

namespace Stage

def outside : Stage E → Bool
  | .out | .commitLock | .commitEpoch | .commitUnlock | .scan | .table => true
  | _ => false

def leaving : Stage E → Bool
  | .body _ [] | .unlock _ | .leave => true
  | _ => false

theorem leaving_of_body {g : Stage E} {type : LockType} (h : g = .body type []) : g.leaving = true := by
  rw [h]
  rfl

end Stage

structure Request.Owns (q : Request) (x : Transfer UInt8) : Prop where
  write : x.write = q.write
  off : x.off = q.off
  len : x.len = q.len
  buf : q.write = true → x.buf = q.buf

theorem Request.Owns.answeredBy {q : Request} {x : Transfer UInt8} {r : RadixLog} {ret : Nat} (h : q.Owns x)
    (hWrite : q.write = true → q.Reports r ret) (hRead : q.write = false → ret = q.len) :
    q.AnsweredBy r x.op ret := by
  unfold Transfer.op
  split
  · rename_i hIs
    rw [h.write] at hIs
    exact ⟨hIs, h.off, h.len, h.buf hIs, hWrite hIs⟩
  · rename_i hIs
    rw [h.write, Bool.not_eq_true] at hIs
    exact ⟨hIs, h.off, h.len, hRead hIs⟩

namespace State

variable [DecidableEq T] [DecidableEq E] {c c' : State T E RadixLog} {t : T}

theorem Effect.outside {act : Act Unit E} (hEffect : Effect locateBlock c t act c')
    (hOutside : (c.stages t).outside = true) (hAct : ∀ type off len, act ≠ .request type off len) :
    (c'.stages t).outside = true := by
  cases hEffect with
  | stay => exact hOutside
  | move g hMoves =>
    rw [goto_self]
    generalize c.stages t = g₀ at hOutside hMoves
    cases hMoves with
    | request type off len hIs => exact absurd hIs (hAct type off len)
    | commit | checkpoint _ | finish => rfl
    | _ => cases hOutside
  | rdlock g l hOpens _ =>
    rw [show _ = g from goto_self c t g]
    generalize c.stages t = g₀ at hOutside hOpens
    cases hOpens with
    | table => rfl
    | _ => cases hOutside
  | wrlock g l hSeals _ =>
    rw [show _ = g from goto_self c t g]
    generalize c.stages t = g₀ at hOutside hSeals
    cases hSeals with
    | commit => rfl
    | _ => cases hOutside
  | release g l hCloses _ =>
    rw [show _ = g from goto_self c t g]
    generalize c.stages t = g₀ at hOutside hCloses
    cases hCloses with
    | leave | commit | table _ => rfl
    | _ => cases hOutside
  | bump _ =>
    rw [show _ = Stage.commitUnlock from goto_self c t _]
    rfl
  | table a base _ _ _ _ =>
    rw [show _ = Stage.table from goto_self c t _]
    rfl
  | retire _ _ hStage | locate _ _ _ _ _ _ hStage _ _ _ | inner _ _ _ _ _ _ hStage _ _
  | unlock _ _ _ hStage _ _ =>
    rw [hStage] at hOutside
    cases hOutside

theorem Effect.leaving {act : Act Unit E} (hEffect : Effect locateBlock c t act c')
    (hLeaving : (c.stages t).leaving = true) (hMore : c.stages t ≠ .leave) :
    (c'.stages t).leaving = true := by
  cases hEffect with
  | stay => exact hLeaving
  | move g hMoves =>
    rw [goto_self]
    generalize c.stages t = g₀ at hLeaving hMoves
    cases hMoves with
    | done _ | leave _ _ => rfl
    | _ => cases hLeaving
  | rdlock g l hOpens _ =>
    generalize c.stages t = g₀ at hLeaving hOpens
    cases hOpens <;> cases hLeaving
  | wrlock g l hSeals _ =>
    generalize c.stages t = g₀ at hLeaving hSeals
    cases hSeals <;> cases hLeaving
  | release g l hCloses _ =>
    generalize c.stages t = g₀ at hLeaving hMore hCloses
    cases hCloses with
    | leave => exact absurd rfl hMore
    | _ => cases hLeaving
  | unlock type _ _ _ _ _ =>
    rw [show _ = Stage.unlock type from goto_self c t _]
    rfl
  | bump hStage | retire _ _ hStage | locate _ _ _ _ _ _ hStage _ _ _ | inner _ _ _ _ _ _ hStage _ _
  | table _ _ hStage _ _ _ =>
    rw [hStage] at hLeaving
    cases hLeaving

end State

namespace Shared

variable [DecidableEq T] [DecidableEq E] {s s' : Shared T E} {t u : T} {fsize mapLen : Nat} {f : Nat → UInt8}

/-- A thread holds the entries of all blocks of its request, and its list has their sizes. -/
structure Covered (s : Shared T E) (t : T) : Prop where
  holds : ∀ a, (s.request t).off ≤ a → a < (s.request t).off + (s.request t).len →
    s.control.Holds t (s.request t).type a
  passed : ∃ r, (s.request t).range.Walked (SizeAt s.control.radixlog) (s.control.listedSizes s.logSize t) r ∧ r.n = 0

/-- What the phase of a thread says of its stage and its copy. A read never finds its end behind
the end of the file. -/
def InPhase (fsize mapLen : Nat) (s : Shared T E) (t : T) : Phase → Prop
  | .idle => s.copies.active t = none ∧ (s.control.stages t).outside = true
  | .waiting => s.copies.active t = none ∧ (s.request t).Inside fsize mapLen ∧
      s.control.Locking t (s.request t) (s.control.stages t) ∧
      s.control.Passing s.logSize t (s.request t) (s.control.stages t)
  | .clipping => False
  | .copying => ∃ x type, s.copies.active t = some x ∧ (s.request t).Owns x ∧
      s.control.stages t = .body type [] ∧ s.Covered t
  | .comparing op ret => s.copies.active t = none ∧ (s.request t).AnsweredBy s.control.radixlog op ret ∧
      ∃ type, s.control.stages t = .body type []
  | .storing op ret => s.copies.active t = none ∧ (s.request t).AnsweredBy s.control.radixlog op ret ∧
      (∃ type, s.control.stages t = .body type []) ∧ fsize ≤ (s.request t).off + ret
  | .finished op ret => s.copies.active t = none ∧ (s.request t).AnsweredBy s.control.radixlog op ret ∧
      (s.control.stages t).leaving = true

structure Atomic (f : Nat → UInt8) (fsize mapLen : Nat) (s : Shared T E) : Prop where
  kept : s.control.Kept mapLen
  sized : s.control.Sized s.logSize
  grown : fsize ≤ s.fsize
  consistent : s.copies.Consistent f
  phases : ∀ t, s.InPhase fsize mapLen t (s.phase t)

theorem Covered.later (h : s.Covered u) (hWell : s.control.radixlog.WellFormed)
    (hExt : Extended s.control.radixlog s'.control.radixlog)
    (hHeld : ∀ k ∈ s.control.base.held u, k ∈ s'.control.base.held u)
    (hSizes : s'.control.listedSizes s'.logSize u = s.control.listedSizes s.logSize u)
    (hRequest : s'.request u = s.request u) : s'.Covered u := by
  obtain ⟨r, hWalked, hDone⟩ := h.passed
  constructor
  · rw [hRequest]
    intro a hLow hHigh
    exact (h.holds a hLow hHigh).later hWell hExt hHeld
  · rw [hRequest, hSizes]
    exact ⟨r, hWalked.mono fun _ _ hSize => hSize.extended hWell hExt, hDone⟩

theorem InPhase.later {p : Phase} (h : s.InPhase fsize mapLen u p) (hWell : s.control.radixlog.WellFormed)
    (hExt : Extended s.control.radixlog s'.control.radixlog)
    (hStages : s'.control.stages u = s.control.stages u)
    (hHeld : s'.control.base.held u = s.control.base.held u)
    (hSizes : s'.control.listedSizes s'.logSize u = s.control.listedSizes s.logSize u)
    (hActive : s'.copies.active u = s.copies.active u) (hRequest : s'.request u = s.request u) :
    s'.InPhase fsize mapLen u p := by
  have hHolds : ∀ k ∈ s.control.base.held u, k ∈ s'.control.base.held u := fun k hk => hHeld ▸ hk
  cases p with
  | idle =>
    unfold InPhase at h ⊢
    rw [hStages, hActive]
    exact h
  | waiting =>
    obtain ⟨hNone, hInside, hLocking, hPassing⟩ := h
    unfold InPhase
    rw [hStages, hActive, hRequest]
    exact ⟨hNone, hInside, hLocking.later hWell hExt hHolds, hPassing.later hWell hExt hSizes⟩
  | clipping => exact h
  | copying =>
    obtain ⟨x, type, hx, hOwns, hBody, hCovered⟩ := h
    exact ⟨x, type, hActive.trans hx, hRequest ▸ hOwns, hStages.trans hBody,
      hCovered.later hWell hExt hHolds hSizes hRequest⟩
  | comparing op ret =>
    obtain ⟨hNone, hAnswered, hBody⟩ := h
    unfold InPhase
    rw [hStages, hActive, hRequest]
    exact ⟨hNone, hAnswered.extended hWell hExt, hBody⟩
  | storing op ret =>
    obtain ⟨hNone, hAnswered, hBody⟩ := h
    unfold InPhase
    rw [hStages, hActive, hRequest]
    exact ⟨hNone, hAnswered.extended hWell hExt, hBody⟩
  | finished op ret =>
    obtain ⟨hNone, hAnswered, hLeaving⟩ := h
    unfold InPhase
    rw [hStages, hActive, hRequest]
    exact ⟨hNone, hAnswered.extended hWell hExt, hLeaving⟩

theorem Atomic.inPhase (h : Atomic f fsize mapLen s) {p : Phase} (hPhase : s.phase t = p) :
    s.InPhase fsize mapLen t p := by
  rw [← hPhase]
  exact h.phases t

theorem Atomic.active (h : Atomic f fsize mapLen s) {x : Transfer UInt8} (hActive : s.copies.active t = some x) :
    s.phase t = .copying ∧ (s.request t).Owns x ∧ (∃ type, s.control.stages t = .body type []) ∧ s.Covered t := by
  have hPhase := h.phases t
  cases hp : s.phase t with
  | copying =>
    rw [hp] at hPhase
    obtain ⟨y, type, hy, hOwns, hBody, hCovered⟩ := hPhase
    cases hActive.symm.trans hy
    exact ⟨rfl, hOwns, ⟨type, hBody⟩, hCovered⟩
  | clipping =>
    rw [hp] at hPhase
    exact hPhase.elim
  | _ =>
    rw [hp] at hPhase
    cases hActive.symm.trans hPhase.1

/-- The locks on the entries keep the copies apart. -/
theorem Atomic.exclusive (h : Atomic f fsize mapLen s) : s.copies.Exclusive := by
  intro t u x y a hne hx hy hWrite ha hb
  obtain ⟨_, hOwns, _, hCovered⟩ := h.active hx
  obtain ⟨_, hOwns', _, hCovered'⟩ := h.active hy
  obtain ⟨hLow, hHigh⟩ := ha
  obtain ⟨hLow', hHigh'⟩ := hb
  rw [hOwns.off] at hLow hHigh
  rw [hOwns'.off] at hLow' hHigh'
  rw [hOwns.len] at hHigh
  rw [hOwns'.len] at hHigh'
  have hMine := hCovered.holds a hLow hHigh
  have hTheirs := hCovered'.holds a hLow' hHigh'
  rw [Request.type, if_pos (hOwns.write.symm.trans hWrite)] at hMine
  exact hne (h.kept.writer_unique hMine hTheirs)

/-- A step of the copies and the sizes alone leaves the other threads in their phases. -/
theorem Atomic.copied (h : Atomic f fsize mapLen s) (hControl : s'.control = s.control)
    (hLogSize : s'.logSize = s.logSize)
    (hRequest : s'.request = s.request) (hGrown : fsize ≤ s'.fsize) (hConsistent : s'.copies.Consistent f)
    (hActive : ∀ u, u ≠ t → s'.copies.active u = s.copies.active u)
    (hPhase : ∀ u, u ≠ t → s'.phase u = s.phase u) (hHere : s'.InPhase fsize mapLen t (s'.phase t)) :
    Atomic f fsize mapLen s' := by
  refine ⟨hControl ▸ h.kept, by rw [hControl, hLogSize]; exact h.sized, hGrown, hConsistent, fun u => ?_⟩
  by_cases hu : u = t
  · rw [hu]
    exact hHere
  · rw [hPhase u hu]
    exact (h.phases u).later h.kept.ordered.wellFormed (by rw [hControl]; exact Extended.refl _)
      (by rw [hControl]) (by rw [hControl]) (by rw [hControl, hLogSize]) (hActive u hu) (by rw [hRequest])

theorem Atomic.request (h : Atomic f fsize mapLen s) {q : Request} {control : State T E RadixLog}
    (hInside : q.Inside fsize mapLen)
    (hControl : State.Step State.locateBlock s.control (t, .request q.type q.off q.len) control) :
    Atomic f fsize mapLen { s.goto t .waiting with
      control := control, request := Function.update s.request t q
      called := Function.update s.called t s.copies.log.length } := by
  obtain ⟨hOut, hDone⟩ := Option.ite_none_right_eq_some.mp hControl
  have hEffect := State.step_effect State.locateBlock hControl
  have hInstalled : s.control.StillInstalled (t, (.request q.type q.off q.len : Act Unit E)) := trivial
  have hKept := h.kept.step ⟨⟨hInstalled, hInside.mapped⟩, hControl⟩
  cases hDone
  refine ⟨hKept, h.sized, h.grown, h.consistent, fun u => ?_⟩
  by_cases hu : u = t
  · subst hu
    have hIdle : s.copies.active u = none := by
      cases hActive : s.copies.active u with
      | none => rfl
      | some x =>
        obtain ⟨_, _, ⟨type, hBody⟩, _⟩ := h.active hActive
        rw [hOut] at hBody
        cases hBody
    rw [show (Shared.mk _ _ _ _ _ _ _ _).phase u = Phase.waiting from Function.update_self ..]
    unfold InPhase
    dsimp only
    rw [State.goto_self, Function.update_self]
    refine ⟨hIdle, hInside, ?_, trivial⟩
    have hInt : (toInt q.len).toNat = q.len := by
      rw [toInt_of_lt hInside.int, Int.toNat_natCast]
    change (⟨q.type, q.off, (toInt q.len).toNat⟩ : Range) = q.range
    rw [hInt]
    rfl
  · rw [show (Shared.mk _ _ _ _ _ _ _ _).phase u = s.phase u from Function.update_of_ne hu ..]
    obtain ⟨hStages, hHeld⟩ := hEffect.other hu
    exact (h.phases u).later h.kept.ordered.wellFormed (Extended.refl _) hStages hHeld rfl rfl
      (Function.update_of_ne hu ..)

theorem leave_cases (s : Shared T E) (t : T) (act : Act Unit E) :
    (∃ op ret, act = .step ∧ s.control.stages t = .leave ∧ s.phase t = .finished op ret ∧
      s.leave t act = { s.goto t .idle with
        returned := s.returned ++ [⟨t, s.request t, op, ret, s.called t, s.copies.log.length⟩] }) ∨
    (s.leave t act = s ∧ (s.control.stages t = .leave → act = .step → ∀ op ret, s.phase t ≠ .finished op ret)) := by
  unfold leave
  split
  · rename_i op ret hStage hPhase
    exact .inl ⟨op, ret, rfl, hStage, hPhase, rfl⟩
  · rename_i hNot
    exact .inr ⟨rfl, fun hStage hAct op ret hPhase => hNot op ret hAct hStage hPhase⟩

/-- The body of a request is not over before its copy is finished. -/
theorem Permits.not_body {act : Act Unit E} {control : State T E RadixLog} (h : s.Permits t act)
    (hControl : State.Step State.locateBlock s.control (t, act) control)
    (hNone : ∀ op ret, s.phase t ≠ .finished op ret) (type : LockType) : s.control.stages t ≠ .body type [] := by
  intro hStage
  obtain rfl := State.act_eq_step hControl (.inl ⟨type, hStage⟩)
  obtain ⟨op, ret, hPhase⟩ := h type hStage
  exact hNone op ret hPhase

/-- The phase of a thread fits its stage after a step that is not its return. -/
theorem Atomic.goes_on (h : Atomic f fsize mapLen s) {act : Act Unit E} {control : State T E RadixLog}
    (hPermits : s.Permits t act) (hAct : ∀ type off len, act ≠ .request type off len)
    (hControl : State.Step State.locateBlock s.control (t, act) control) (hKept : control.Kept mapLen)
    (hStays : s.control.stages t = .leave → act = .step → ∀ op ret, s.phase t ≠ .finished op ret) :
    Shared.InPhase fsize mapLen { s with
      control := control, logSize := s.control.logSizeAfter s.logSize t control } t (s.phase t) := by
  have hEffect := State.step_effect State.locateBlock hControl
  have hHere := h.phases t
  have hBody := hPermits.not_body hControl
  cases hPhase : s.phase t with
  | idle =>
    rw [hPhase] at hHere
    exact ⟨hHere.1, hEffect.outside hHere.2 hAct⟩
  | waiting =>
    rw [hPhase] at hHere hBody
    obtain ⟨hNone, hInside, hLocking, hPassing⟩ := hHere
    exact ⟨hNone, hInside, hEffect.locking h.kept hLocking (hBody fun _ _ hIs => by cases hIs),
      hEffect.passing h.kept hKept h.sized hLocking hPassing⟩
  | clipping =>
    rw [hPhase] at hHere
    exact hHere.elim
  | copying =>
    rw [hPhase] at hHere hBody
    obtain ⟨_, type, _, _, hStage, _⟩ := hHere
    exact absurd hStage (hBody (fun _ _ hIs => by cases hIs) type)
  | comparing op ret =>
    rw [hPhase] at hHere hBody
    obtain ⟨_, _, type, hStage⟩ := hHere
    exact absurd hStage (hBody (fun _ _ hIs => by cases hIs) type)
  | storing op ret =>
    rw [hPhase] at hHere hBody
    obtain ⟨_, _, ⟨type, hStage⟩, _⟩ := hHere
    exact absurd hStage (hBody (fun _ _ hIs => by cases hIs) type)
  | finished op ret =>
    rw [hPhase] at hHere
    have hExt := hEffect.extended h.kept
    refine ⟨hHere.1, hHere.2.1.extended h.kept.ordered.wellFormed hExt, hEffect.leaving hHere.2.2 fun hStage => ?_⟩
    exact hStays hStage (State.act_eq_step hControl (.inr hStage)) op ret hPhase

theorem Atomic.control (h : Atomic f fsize mapLen s) {act : Act Unit E} {control : State T E RadixLog}
    (hPermits : s.Permits t act) (hInstalled : s.control.StillInstalled (t, act))
    (hControl : State.Step State.locateBlock s.control (t, act) control) :
    Atomic f fsize mapLen { s.leave t act with
      control := control, logSize := s.control.logSizeAfter s.logSize t control } := by
  have hEffect := State.step_effect State.locateBlock hControl
  have hExt := hEffect.extended h.kept
  have hAct : ∀ type off len, act ≠ .request type off len := by
    rintro type off len rfl
    exact hPermits
  have hInside : State.InsideMapped mapLen s.control (t, act) := by
    cases act with
    | request type off len => exact hPermits.elim
    | _ => trivial
  have hKept : control.Kept mapLen := h.kept.step ⟨⟨hInstalled, hInside⟩, hControl⟩
  obtain ⟨hSame, hSized⟩ := h.sized.step h.kept hKept hEffect
  have hOther : ∀ phase returned u, u ≠ t → Shared.InPhase fsize mapLen { s with
      control := control, logSize := s.control.logSizeAfter s.logSize t control
      phase := phase, returned := returned } u (s.phase u) := by
    intro phase returned u hu
    obtain ⟨hStages, hHeld⟩ := hEffect.other hu
    exact (h.phases u).later h.kept.ordered.wellFormed hExt hStages hHeld (State.listedSizes_congr hHeld (hSame u))
      rfl rfl
  rcases s.leave_cases t act with ⟨op, ret, rfl, hStage, hPhase, hLeave⟩ | ⟨hLeave, hStays⟩
  · -- the request returns
    rw [hLeave]
    refine ⟨hKept, hSized, h.grown, h.consistent, fun u => ?_⟩
    by_cases hu : u = t
    · subst hu
      have hOut : control.stages u = .out := by
        have hStep : s.control.step u (s.control.stages u) = some control := hControl
        rw [hStage] at hStep
        obtain ⟨l, _, hDone⟩ := Option.bind_eq_some_iff.mp hStep
        cases hDone
        exact State.goto_self s.control u _
      rw [show (Shared.mk _ _ _ _ _ _ _ _).phase u = Phase.idle from Function.update_self ..]
      exact ⟨(h.inPhase hPhase).1, by rw [hOut]; rfl⟩
    · rw [show (Shared.mk _ _ _ _ _ _ _ _).phase u = s.phase u from Function.update_of_ne hu ..]
      exact hOther _ _ u hu
  · rw [hLeave]
    refine ⟨hKept, hSized, h.grown, h.consistent, fun u => ?_⟩
    by_cases hu : u = t
    · subst hu
      exact h.goes_on hPermits hAct hControl hKept hStays
    · exact hOther _ _ u hu

theorem not_exceeds {q : Request} (hRequest : s.request t = q) (hEnd : q.write = false → q.off + q.len ≤ s.fsize) :
    ¬ s.Exceeds t := by
  subst hRequest
  rintro ⟨hRead, hLess⟩
  have hWithin := hEnd hRead
  have hLe := toOffT_le ((s.request t).off + (s.request t).len)
  omega

/-- The file reaches at least as far as at open, and so does every read. -/
theorem Atomic.not_exceeds (h : Atomic f fsize mapLen s) (hPhase : s.phase t = .waiting) : ¬ s.Exceeds t := by
  obtain ⟨_, hInside, _, _⟩ := h.inPhase hPhase
  exact Shared.not_exceeds rfl fun hRead => Nat.le_trans (hInside.sized hRead) h.grown

theorem Atomic.start (h : Atomic f fsize mapLen s) {type : LockType} (hStage : s.control.stages t = .body type [])
    (hPhase : s.phase t = .waiting) : Atomic f fsize mapLen (s.start t (s.request t).len) := by
  obtain ⟨hIdle, _, hLocking, hPassing⟩ := h.inPhase hPhase
  rw [hStage] at hLocking hPassing
  refine h.copied (t := t) rfl rfl rfl h.grown (h.consistent.start hIdle fun _ => rfl)
    (fun u hu => Function.update_of_ne hu ..) (fun u hu => Function.update_of_ne hu ..) ?_
  rw [show (s.start t _).phase t = Phase.copying from Function.update_self ..]
  exact ⟨_, type, Function.update_self .., ⟨rfl, rfl, rfl, fun _ => rfl⟩, hStage, hLocking.2.2, hPassing⟩

/-- What a request returns when it has copied. -/
theorem Covered.answeredBy (h : s.Covered t) {x : Transfer UInt8} (hOwns : (s.request t).Owns x) :
    (s.request t).AnsweredBy s.control.radixlog x.op (s.count t x) := by
  refine hOwns.answeredBy (fun hWrite => ?_) fun hRead => ?_
  · obtain ⟨r, hWalked, hDone⟩ := h.passed
    refine ⟨_, r, hWalked, hDone, ?_⟩
    rw [count, if_pos (hOwns.write.trans hWrite)]
  · rw [count, if_neg (by rw [hOwns.write, hRead]; decide), hOwns.len]

theorem Atomic.step (h : Atomic f fsize mapLen s) {a : T × SharedAct E} (hProper : s.Proper fsize mapLen a)
    (hStep : s.Step a.1 a.2 s') : Atomic f fsize mapLen s' := by
  obtain ⟨t, act⟩ := a
  dsimp only at hStep
  cases hStep with
  | request q control hControl => exact h.request hProper hControl
  | exceed type hStage hPhase hExceeds => exact absurd hExceeds (h.not_exceeds hPhase)
  | copy type hStage hPhase hWithin => exact h.start hStage hPhase
  | clip hPhase => exact (h.inPhase hPhase).elim
  | move i x hActive hi =>
    obtain ⟨hPhase, hOwns, ⟨type, hStage⟩, hCovered⟩ := h.active hActive
    obtain ⟨y, hSelf, hOther, hWrite, hOff, hLen, hBuf⟩ := s.copies.move_active t x i
    refine h.copied (t := t) rfl rfl rfl h.grown (h.consistent.move h.exclusive hActive hi) hOther (fun u hu => rfl) ?_
    rw [show (Shared.mk _ _ _ _ _ _ _ _).phase t = Phase.copying from hPhase]
    refine ⟨y, type, hSelf, ⟨hWrite.trans hOwns.write, hOff.trans hOwns.off, hLen.trans hOwns.len, fun hIs => ?_⟩,
      hStage, ⟨hCovered.holds, hCovered.passed⟩⟩
    exact (hBuf (hOwns.write.trans hIs)).trans (hOwns.buf hIs)
  | finish x hActive hComplete =>
    obtain ⟨_, hOwns, ⟨type, hStage⟩, hCovered⟩ := h.active hActive
    have hAnswered := hCovered.answeredBy hOwns
    refine h.copied (t := t) rfl rfl rfl h.grown (h.consistent.finish h.exclusive hActive hComplete)
      (fun u hu => Function.update_of_ne hu ..) (fun u hu => Function.update_of_ne hu ..) ?_
    rw [show (Shared.mk _ _ _ _ _ _ _ _).phase t = s.copied t x from Function.update_self ..]
    unfold Shared.copied
    split
    · exact ⟨Function.update_self .., hAnswered, type, hStage⟩
    · exact ⟨Function.update_self .., hAnswered, Stage.leaving_of_body hStage⟩
  | compare op ret hPhase =>
    obtain ⟨hNone, hAnswered, type, hStage⟩ := h.inPhase hPhase
    refine h.copied (t := t) rfl rfl rfl h.grown h.consistent (fun u hu => rfl)
      (fun u hu => Function.update_of_ne hu ..) ?_
    rw [show (s.goto t _).phase t = _ from Function.update_self ..]
    split
    · rename_i hLess
      exact ⟨hNone, hAnswered, ⟨type, hStage⟩, Nat.le_trans h.grown (Nat.le_of_lt hLess)⟩
    · exact ⟨hNone, hAnswered, Stage.leaving_of_body hStage⟩
  | store op ret hPhase =>
    obtain ⟨hNone, hAnswered, ⟨type, hStage⟩, hMore⟩ := h.inPhase hPhase
    refine h.copied (t := t) rfl rfl rfl hMore h.consistent (fun u hu => rfl)
      (fun u hu => Function.update_of_ne hu ..) ?_
    rw [show (Shared.mk _ _ _ _ _ _ _ _).phase t = Phase.finished op ret from Function.update_self ..]
    exact ⟨hNone, hAnswered, Stage.leaving_of_body hStage⟩
  | control act control hPermits hControl => exact h.control hPermits hProper hControl

/-! ## The history -/

end Shared

def Phase.outcome : Phase → Option (Op UInt8 × Nat)
  | .comparing op ret | .storing op ret | .finished op ret => some (op, ret)
  | _ => none

def Phase.ops (p : Phase) : List (Op UInt8) := p.outcome.toList.map Prod.fst

namespace Shared

variable [DecidableEq T] [DecidableEq E] {s s' : Shared T E} {t u : T} {fsize mapLen : Nat} {f : Nat → UInt8}

def effects (s : Shared T E) (t : T) : List (Op UInt8) :=
  (s.copies.log.filter fun o => o.1 = t).map Prod.snd

def results (s : Shared T E) (t : T) : List (Op UInt8) :=
  (s.returned.filter fun c => c.thread = t).map Returned.op

/-- Each call has taken effect once, between its call and its return. -/
structure Recorded (s : Shared T E) : Prop where
  called : ∀ t, s.called t ≤ s.copies.log.length
  finished : ∀ t, ∀ op ∈ (s.phase t).ops, ∃ i, s.called t ≤ i ∧ s.copies.log[i]? = some (t, op)
  point : ∀ c ∈ s.returned, ∃ i, c.called ≤ i ∧ i < c.returned ∧ s.copies.log[i]? = some (c.thread, c.op)
  answered : ∀ c ∈ s.returned, c.request.AnsweredBy s.control.radixlog c.op c.ret
  program : ∀ t, s.effects t = s.results t ++ (s.phase t).ops

@[simp] theorem ops_copied (x : Transfer UInt8) : (s.copied t x).ops = [x.op] := by
  unfold copied
  split <;> rfl

/-- A step that neither ends a copy nor returns. -/
theorem Recorded.copied (h : Recorded s) (hControl : s'.control = s.control) (hLog : s'.copies.log = s.copies.log)
    (hCalled : s'.called = s.called) (hReturned : s'.returned = s.returned)
    (hPhase : ∀ u, (s'.phase u).ops = (s.phase u).ops) : Recorded s' := by
  refine ⟨fun u => ?_, fun u op hop => ?_, fun c hc => ?_, fun c hc => ?_, fun u => ?_⟩
  · rw [hLog, hCalled]
    exact h.called u
  · rw [hLog, hCalled]
    rw [hPhase u] at hop
    exact h.finished u op hop
  · rw [hLog]
    exact h.point c (hReturned ▸ hc)
  · rw [hControl]
    exact h.answered c (hReturned ▸ hc)
  · unfold effects results
    rw [hLog, hReturned, hPhase u]
    exact h.program u

theorem ops_goto {p : Phase} (hOps : p.ops = (s.phase t).ops) (u : T) :
    ((s.goto t p).phase u).ops = (s.phase u).ops := by
  by_cases hu : u = t
  · rw [hu, ← hOps]
    exact congrArg Phase.ops (Function.update_self ..)
  · exact congrArg Phase.ops (Function.update_of_ne hu ..)

theorem Recorded.request (h : Recorded s) (hIdle : s.phase t = .idle) {q : Request} {control : State T E RadixLog}
    (hRadix : control.radixlog = s.control.radixlog) : Recorded { s.goto t .waiting with
      control := control, request := Function.update s.request t q
      called := Function.update s.called t s.copies.log.length } := by
  have hOps : Phase.waiting.ops = (s.phase t).ops := by
    rw [hIdle]
    rfl
  refine ⟨fun u => ?_, fun u op hop => ?_, h.point, fun c hc => ?_, fun u => ?_⟩
  · dsimp only
    rw [Function.update_apply]
    split
    · exact Nat.le_refl _
    · exact h.called u
  · by_cases hu : u = t
    · rw [hu, show (Shared.mk _ _ _ _ _ _ _ _).phase t = Phase.waiting from Function.update_self ..] at hop
      cases hop
    · rw [show (Shared.mk _ _ _ _ _ _ _ _).phase u = s.phase u from Function.update_of_ne hu ..] at hop
      obtain ⟨i, hLow, hAt⟩ := h.finished u op hop
      refine ⟨i, ?_, hAt⟩
      rw [show (Shared.mk _ _ _ _ _ _ _ _).called u = s.called u from Function.update_of_ne hu ..]
      exact hLow
  · rw [show (Shared.mk _ _ _ _ _ _ _ _).control.radixlog = s.control.radixlog from hRadix]
    exact h.answered c hc
  · exact (h.program u).trans (congrArg _ (ops_goto hOps u).symm)

/-- An index of the log keeps its operation. -/
theorem log_finish {x : Transfer UInt8} {i : Nat} {o : T × Op UInt8} (hAt : s.copies.log[i]? = some o) :
    (s.copies.finish t x).log[i]? = some o := by
  obtain ⟨hi, _⟩ := List.getElem?_eq_some_iff.mp hAt
  exact (List.getElem?_append_left hi).trans hAt

theorem Recorded.finish (h : Recorded s) (hCopying : s.phase t = .copying) (x : Transfer UInt8) :
    Recorded { s.goto t (s.copied t x) with copies := s.copies.finish t x } := by
  have hLog : (s.copies.finish t x).log = s.copies.log ++ [(t, x.op)] := rfl
  refine ⟨fun u => ?_, fun u op hop => ?_, fun c hc => ?_, h.answered, fun u => ?_⟩
  · dsimp only
    rw [hLog, List.length_append]
    exact Nat.le_add_right_of_le (h.called u)
  · by_cases hu : u = t
    · subst hu
      rw [show (Shared.mk _ _ _ _ _ _ _ _).phase u = s.copied u x from Function.update_self .., ops_copied,
        List.mem_singleton] at hop
      subst hop
      refine ⟨s.copies.log.length, h.called u, ?_⟩
      dsimp only
      rw [hLog, List.getElem?_concat_length]
    · rw [show (Shared.mk _ _ _ _ _ _ _ _).phase u = s.phase u from Function.update_of_ne hu ..] at hop
      obtain ⟨i, hLow, hAt⟩ := h.finished u op hop
      exact ⟨i, hLow, log_finish hAt⟩
  · obtain ⟨i, hLow, hHigh, hAt⟩ := h.point c hc
    exact ⟨i, hLow, hHigh, log_finish hAt⟩
  · have hProgram := h.program u
    unfold effects at hProgram ⊢
    dsimp only
    rw [hLog, List.filter_append, List.map_append]
    by_cases hu : u = t
    · subst hu
      have hNone : (s.phase u).ops = [] := by
        rw [hCopying]
        rfl
      rw [hNone, List.append_nil] at hProgram
      rw [show (Shared.mk _ _ _ _ _ _ _ _).phase u = s.copied u x from Function.update_self .., hProgram]
      simp [results, Shared.goto]
    · rw [show (Shared.mk _ _ _ _ _ _ _ _).phase u = s.phase u from Function.update_of_ne hu .., hProgram]
      simp [results, Shared.goto, Ne.symm hu]

theorem Recorded.leave (h : Recorded s) {act : Act Unit E} {control : State T E RadixLog} {logSize : E → LogSize}
    (hWell : s.control.radixlog.WellFormed) (hExt : Extended s.control.radixlog control.radixlog)
    (hAnswered : ∀ op ret, s.phase t = .finished op ret → (s.request t).AnsweredBy s.control.radixlog op ret) :
    Recorded { s.leave t act with control := control, logSize := logSize } := by
  rcases s.leave_cases t act with ⟨op, ret, _, _, hPhase, hLeave⟩ | ⟨hLeave, _⟩
  · obtain ⟨i, hLow, hAt⟩ := h.finished t op (by rw [hPhase]; exact List.mem_singleton_self op)
    obtain ⟨hi, _⟩ := List.getElem?_eq_some_iff.mp hAt
    rw [hLeave]
    refine ⟨h.called, fun u op' hop => ?_, fun c hc => ?_, fun c hc => ?_, fun u => ?_⟩
    · by_cases hu : u = t
      · rw [hu, show (Shared.mk _ _ _ _ _ _ _ _).phase t = Phase.idle from Function.update_self ..] at hop
        cases hop
      · rw [show (Shared.mk _ _ _ _ _ _ _ _).phase u = s.phase u from Function.update_of_ne hu ..] at hop
        exact h.finished u op' hop
    · rcases List.mem_append.mp hc with hOld | hNew
      · exact h.point c hOld
      · rw [List.mem_singleton.mp hNew]
        exact ⟨i, hLow, hi, hAt⟩
    · rcases List.mem_append.mp hc with hOld | hNew
      · exact (h.answered c hOld).extended hWell hExt
      · rw [List.mem_singleton.mp hNew]
        exact (hAnswered op ret hPhase).extended hWell hExt
    · have hProgram := h.program u
      unfold results at hProgram ⊢
      dsimp only
      rw [List.filter_append, List.map_append]
      by_cases hu : u = t
      · subst hu
        rw [hPhase] at hProgram
        rw [show (Shared.mk _ _ _ _ _ _ _ _).phase u = Phase.idle from Function.update_self ..]
        simpa [Phase.ops, Phase.outcome, effects, Shared.goto] using hProgram
      · rw [show (Shared.mk _ _ _ _ _ _ _ _).phase u = s.phase u from Function.update_of_ne hu ..]
        simpa [effects, Shared.goto, Ne.symm hu] using hProgram
  · rw [hLeave]
    exact ⟨h.called, h.finished, h.point, fun c hc => (h.answered c hc).extended hWell hExt, h.program⟩

/-- A request begins where no other is. -/
theorem Atomic.idle_of_out (h : Atomic f fsize mapLen s) (hOut : s.control.stages t = .out) : s.phase t = .idle := by
  have hHere := h.phases t
  cases hPhase : s.phase t with
  | idle => rfl
  | waiting =>
    rw [hPhase, InPhase, hOut] at hHere
    exact hHere.2.2.1.elim
  | clipping =>
    rw [hPhase] at hHere
    exact hHere.elim
  | copying =>
    rw [hPhase] at hHere
    obtain ⟨_, _, _, _, hStage, _⟩ := hHere
    rw [hOut] at hStage
    cases hStage
  | comparing op ret =>
    rw [hPhase] at hHere
    obtain ⟨_, _, _, hStage⟩ := hHere
    rw [hOut] at hStage
    cases hStage
  | storing op ret =>
    rw [hPhase] at hHere
    obtain ⟨_, _, ⟨_, hStage⟩, _⟩ := hHere
    rw [hOut] at hStage
    cases hStage
  | finished op ret =>
    rw [hPhase, InPhase, hOut] at hHere
    cases hHere.2.2

theorem Recorded.step (h : Recorded s) (hAtomic : Atomic f fsize mapLen s) {a : T × SharedAct E}
    (hStep : s.Step a.1 a.2 s') : Recorded s' := by
  obtain ⟨t, act⟩ := a
  dsimp only at hStep
  cases hStep with
  | request q control hControl =>
    obtain ⟨hOut, hDone⟩ := Option.ite_none_right_eq_some.mp hControl
    cases hDone
    exact h.request (hAtomic.idle_of_out hOut) rfl
  | exceed type hStage hPhase _ =>
    exact h.copied rfl rfl rfl rfl (ops_goto (by rw [hPhase]; rfl))
  | copy type hStage hPhase _ => exact h.copied rfl rfl rfl rfl (ops_goto (by rw [hPhase]; rfl))
  | clip hPhase => exact h.copied rfl rfl rfl rfl (ops_goto (by rw [hPhase]; rfl))
  | move i x hActive hi =>
    refine h.copied rfl ?_ rfl rfl fun u => rfl
    dsimp only [AtomicCopies.State.move]
    split <;> rfl
  | finish x hActive hComplete => exact h.finish (hAtomic.active hActive).1 x
  | compare op ret hPhase =>
    refine h.copied rfl rfl rfl rfl (ops_goto ?_)
    rw [hPhase]
    split <;> rfl
  | store op ret hPhase => exact h.copied rfl rfl rfl rfl (ops_goto (by rw [hPhase]; rfl))
  | control act control hPermits hControl =>
    have hExt := (State.step_effect State.locateBlock hControl).extended hAtomic.kept
    exact h.leave hAtomic.kept.ordered.wellFormed hExt fun op ret hPhase => (hAtomic.inPhase hPhase).2.1

/-- Some order of the requests explains what all of them have returned and the bytes of the
file; it keeps the order of requests that did not overlap. -/
structure Linearized (f : Nat → UInt8) (s : Shared T E) : Prop extends Recorded s where
  legal : Legal f s.copies.ops
  quiet : (∀ t, s.copies.active t = none) → s.copies.array = replay f s.copies.ops

theorem atomic_init (locks : E → RwLock T) (epoch : Nat) (hSmall : mapLen ≤ 2 ^ 48) :
    Atomic f fsize mapLen (init locks mapLen epoch fsize f) := by
  refine ⟨State.kept_init locks epoch hSmall, fun t k hk => ?_, Nat.le_refl _, ?_, fun t => ⟨rfl, rfl⟩⟩
  · cases hk
  · refine ⟨trivial, fun a _ => rfl, fun t x a hActive => ?_, fun t x i hActive => ?_⟩ <;> cases hActive

theorem recorded_init (locks : E → RwLock T) (epoch : Nat) : Recorded (init locks mapLen epoch fsize f) := by
  refine ⟨fun t => Nat.le_refl 0, fun t op hop => ?_, fun c hc => ?_, fun c hc => ?_, fun t => rfl⟩
  · cases hop
  · cases hc
  · cases hc

theorem atomic_of_run {locks : E → RwLock T} {epoch : Nat} {as : List (T × SharedAct E)}
    (hSmall : mapLen ≤ 2 ^ 48) (hRun : Runs fsize mapLen (init locks mapLen epoch fsize f) as s) :
    Atomic f fsize mapLen s ∧ Recorded s := by
  apply Run.invariant (fun s => Atomic f fsize mapLen s ∧ Recorded s) _ hRun
  · exact ⟨atomic_init locks epoch hSmall, recorded_init locks epoch⟩
  · rintro s a s' ⟨hAtomic, hRecorded⟩ ⟨hProper, hStep⟩
    exact ⟨hAtomic.step hProper hStep, hRecorded.step hAtomic hStep⟩

theorem Recorded.linearized (h : Recorded s) (hAtomic : Atomic f fsize mapLen s) : Linearized f s := by
  refine ⟨h, hAtomic.consistent.legal, fun hNone => funext fun a => ?_⟩
  apply hAtomic.consistent.settled
  intro t x hActive
  rw [hNone t] at hActive
  cases hActive

theorem linearized_of_run {locks : E → RwLock T} {epoch : Nat} {as : List (T × SharedAct E)}
    (hSmall : mapLen ≤ 2 ^ 48) (hRun : Runs fsize mapLen (init locks mapLen epoch fsize f) as s) : Linearized f s := by
  obtain ⟨hAtomic, hRecorded⟩ := atomic_of_run hSmall hRun
  exact hRecorded.linearized hAtomic

end Shared

/-! ## Over the shared lists -/

section Lists

open SharedLists (Controlled)
open Shared

variable [DecidableEq T] [DecidableEq E] {s : Shared T E} {t : T} {fsize mapLen : Nat} {f : Nat → UInt8}

def SharedAct.control? : SharedAct E → Option (Act Unit E)
  | .control act => some act
  | _ => none

theorem SharedAct.control_eq {a : SharedAct E} {act : Act Unit E} (h : a.control? = some act) : a = .control act := by
  cases a with
  | control _ =>
    cases h
    rfl
  | _ => cases h

def requests (fsize mapLen : Nat) : Controlled T E (Shared T E) (SharedAct E) where
  Step s a s' := s.Step a.1 a.2 s'
  Guard := Proper fsize mapLen
  Proper _ a := ∀ q, a.2 = .request q → q.Inside fsize mapLen
  control := Shared.control
  setControl s c := { s with control := c }
  act := SharedAct.control?
  Ready _ _ := True

theorem Shared.leave_of_ne (hStage : s.control.stages t ≠ .leave) (act : Act Unit E) : s.leave t act = s := by
  rcases s.leave_cases t act with ⟨_, _, _, hLeave, _⟩ | ⟨hSame, _⟩
  · exact absurd hLeave hStage
  · exact hSame

theorem proper_of_inside {a : SharedAct E} (hInside : ∀ q, a = .request q → q.Inside fsize mapLen)
    (hInstalled : ∀ act, a.control? = some act → s.control.StillInstalled (t, act)) : Proper fsize mapLen s (t, a) := by
  cases a with
  | request q => exact hInside q rfl
  | control act => exact hInstalled act rfl
  | _ => trivial

/-- At `UNLOCK_ENTRIES` the requests take the steps of their control. -/
theorem Shared.Step.at_unlock {type : LockType} {act : Act Unit E} {c : State T E RadixLog}
    (hStage : s.control.stages t = .unlock type) (hAct : (∃ k, act = .entry (.unlock k)) ∨ act = .step)
    (hStep : s.control.Step State.locateBlock (t, act) c) :
    s.Step t (.control act) { s with control := c } ∧ s.control.StillInstalled (t, act) := by
  have hPermits : s.Permits t act := by
    rcases hAct with ⟨k, rfl⟩ | rfl
    · trivial
    · intro type' hBody
      rw [hStage] at hBody
      cases hBody
  have hNext := Step.control act c hPermits hStep
  rw [leave_of_ne (by rw [hStage]; rintro ⟨⟩), State.logSizeAfter_of_unlock hStage] at hNext
  refine ⟨hNext, ?_⟩
  rcases hAct with ⟨k, rfl⟩ | rfl <;> trivial

/-- A step elsewhere than in the control begins a request at most. -/
theorem Shared.Step.control_other {a : SharedAct E} {s' : Shared T E} (hAct : a.control? = none)
    (hStep : s.Step t a s') :
    s'.control.base = s.control.base ∧ ∀ u, u ≠ t → s'.control.stages u = s.control.stages u := by
  cases hStep with
  | request q control hControl =>
    obtain ⟨_, hDone⟩ := Option.ite_none_right_eq_some.mp hControl
    cases hDone
    exact ⟨rfl, fun _ hu => Function.update_of_ne hu ..⟩
  | control => cases hAct
  | _ => exact ⟨rfl, fun _ _ => rfl⟩

theorem requests_lawful (fsize mapLen : Nat) : (requests fsize mapLen : Controlled T E _ _).Lawful where
  step_act s t a s' c hAct hStep := by
    cases SharedAct.control_eq hAct
    cases hStep with
    | control act control _ hControl => exact hControl
  step_other _ _ _ _ hAct hStep := Shared.Step.control_other hAct hStep
  step_ready _ _ _ _ _ _ _ hReady := hReady
  guard _ _ _ hProper hInstalled := proper_of_inside hProper hInstalled
  control_setControl _ _ := rfl
  setControl_control _ := rfl
  ready_setControl _ _ _ hReady := hReady
  lift _ _ _ c _ _ hStage hAct hStep := by
    obtain ⟨hNext, hInstalled⟩ := Shared.Step.at_unlock hStage hAct hStep
    exact ⟨.control c, hInstalled, hNext⟩

section Schedules

open SharedLists.State (proper_host proper_push proper_walk proper_unlockEntries)

def page : SharedLists.State Bool Nat (Shared Bool Nat) :=
  SharedLists.init (Shared.init (fun _ => .free) 4096 0 1 fun _ => 0) fun _ => none

/-- A write of two bytes to a file of one by one thread, and a read of the first by the other, which asks for it before. -/
def writeThenRead : List (Bool × SharedLists.Act (SharedAct Nat)) :=
  [(true, .host (.request ⟨false, 0, 1, fun _ => 0⟩)), (false, .host (.request ⟨true, 0, 2, fun _ => 9⟩)),
    (false, .host (.control .step)), (false, .host (.control .step)), (false, .host (.control (.locate ()))),
    (false, .host (.control (.entry .access))), (false, .host (.control (.entry (.alloc 7)))),
    (false, .host (.control (.entry .access))), (false, .host (.control (.entry .access))), (false, .list),
    (false, .host (.control .step)), (false, .host (.control .step)), (false, .host .copy), (false, .host (.move 1)),
    (false, .host (.move 0)), (false, .host .finish), (false, .host .compare), (false, .host .store),
    (false, .host (.control .step)), (false, .unlockEntries), (false, .list), (false, .list), (false, .list),
    (false, .host (.control .step)), (true, .host (.control .step)), (true, .host (.control .step)),
    (true, .host (.control (.locate ()))), (true, .host (.control (.entry .access))),
    (true, .host (.control (.entry .access))), (true, .list), (true, .host (.control .step)), (true, .host .copy),
    (true, .host (.move 0)), (true, .host .finish), (true, .host (.control .step)), (true, .unlockEntries),
    (true, .list), (true, .list), (true, .list), (true, .host (.control .step))]

def copying (moves : Nat) : Transfer UInt8 :=
  ⟨true, 0, 2, fun _ => 9, ([1, 0].take moves).foldl (fun moved i => Function.update moved i true) fun _ => false⟩

end Schedules

end Lists

end Libnvmmio.Concurrent

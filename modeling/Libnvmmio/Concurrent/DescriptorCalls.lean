import Libnvmmio.Concurrent.AtomicRequests
import Libnvmmio.File.Positions
import Libnvmmio.Foundation.History

/-! # Calls on shared descriptors

Threads call `read`, `write`, `lseek` and `fsync` on descriptors of one file. A
descriptor has a position and a mutex, which a call holds from before it loads the
position until it has stored it; requests through different descriptors overlap.
Under UNDO the calls take effect one after the other.
-/

namespace Libnvmmio.Concurrent

open AtomicCopies (Op Legal replay)
open GuardedRun Mmio RadixLog

set_option autoImplicit false
set_option linter.unusedSectionVars false

inductive DescriptorCall where
  | read (buf : Nat → UInt8) (len : Nat)
  | write (buf : Nat → UInt8) (len : Nat)
  | lseek (offset : Int) (whence : Whence)
  | fsync

/-- What a call does and returns; `fsize` is the size that `lseek` has loaded. -/
inductive Effected where
  | transfer (op : Op UInt8) (ret : Nat)
  | seek (fsize pos : Int)

namespace DescriptorCall

def request : DescriptorCall → Int → Option Request
  | .read buf len, .ofNat off => some ⟨false, off, len, buf⟩
  | .write buf len, .ofNat off => some ⟨true, off, len, buf⟩
  | _, _ => none

def AnsweredAt (r : RadixLog) (pos : Int) : DescriptorCall → Effected → Prop
  | c, .transfer op ret => ∃ q, c.request pos = some q ∧ q.AnsweredBy r op ret
  | .lseek offset whence, .seek fsize pos' => Inode.seek fsize pos offset whence = .ok pos'
  | _, _ => False

theorem AnsweredAt.extended {r r' : RadixLog} {pos : Int} {c : DescriptorCall} {e : Effected} (h : c.AnsweredAt r pos e)
    (hWell : r.WellFormed) (hExt : Extended r r') : c.AnsweredAt r' pos e := by
  cases e with
  | transfer op ret =>
    cases c <;> (obtain ⟨q, hRequest, hAnswered⟩ := h; exact ⟨q, hRequest, hAnswered.extended hWell hExt⟩)
  | seek fsize pos' => cases c <;> exact h

end DescriptorCall

structure CallEffect (D : Type) where
  desc : D
  call : DescriptorCall
  effect : Effected

def CallEffect.op {D : Type} (o : CallEffect D) : Option (Op UInt8) :=
  match o.effect with
  | .transfer op _ => some op
  | .seek _ _ => none

/-! ## The calls one after the other -/

structure FilePositions (D : Type) where
  bytes : Nat → UInt8
  pos : D → Int

namespace FilePositions

variable {D : Type} [DecidableEq D]

def apply (a : FilePositions D) (o : CallEffect D) : FilePositions D :=
  match o.effect with
  | .transfer op ret =>
    ⟨op.apply a.bytes, Function.update a.pos o.desc (Inode.addOff (a.pos o.desc) (toInt ret))⟩
  | .seek _ pos => ⟨a.bytes, Function.update a.pos o.desc pos⟩

/-- The call answers at the position of its descriptor, a read with what the file holds. -/
def Answers (r : RadixLog) (a : FilePositions D) (o : CallEffect D) : Prop :=
  o.call.AnsweredAt r (a.pos o.desc) o.effect ∧ ∀ op, o.op = some op → op.Answers a.bytes

def replay (a : FilePositions D) (ops : List (CallEffect D)) : FilePositions D := ops.foldl apply a

def Legal (r : RadixLog) : FilePositions D → List (CallEffect D) → Prop
  | _, [] => True
  | a, o :: ops => a.Answers r o ∧ Legal r (a.apply o) ops

theorem replay_snoc (a : FilePositions D) (ops : List (CallEffect D)) (o : CallEffect D) :
    a.replay (ops ++ [o]) = (a.replay ops).apply o := List.foldl_append ..

theorem Legal.extended {r r' : RadixLog} {a : FilePositions D} {ops : List (CallEffect D)} (h : Legal r a ops)
    (hWell : r.WellFormed) (hExt : Extended r r') : Legal r' a ops := by
  induction ops generalizing a with
  | nil => trivial
  | cons o ops ih => exact ⟨⟨h.1.1.extended hWell hExt, h.1.2⟩, ih h.2⟩

theorem legal_snoc {r : RadixLog} {a : FilePositions D} {ops : List (CallEffect D)} {o : CallEffect D}
    (h : Legal r a ops)
    (hAnswers : (a.replay ops).Answers r o) : Legal r a (ops ++ [o]) := by
  induction ops generalizing a with
  | nil => exact ⟨hAnswers, trivial⟩
  | cons first ops ih => exact ⟨h.1, ih h.2 hAnswers⟩

theorem apply_bytes (a : FilePositions D) (o : CallEffect D) :
    (a.apply o).bytes = AtomicCopies.replay a.bytes o.op.toList := by
  unfold apply CallEffect.op
  cases o.effect <;> rfl

end FilePositions

/-! ## The calls step by step -/

inductive Site (D : Type) where
  | out
  /-- `MUTEX_LOCK` -/
  | called (d : D) (c : DescriptorCall)
  | locked (d : D) (c : DescriptorCall)
  /-- in `mmio_read`, `mmio_write` or `commit_mmio`, with what it has copied and will return -/
  | inside (d : D) (c : DescriptorCall) (done : Option (Op UInt8 × Nat))
  /-- the new position has been computed -/
  | storing (d : D) (c : DescriptorCall) (pos : Int) (e : Effected)
  /-- `MUTEX_UNLOCK` -/
  | unlocking (d : D) (c : DescriptorCall) (e : Option Effected)

structure Descriptors (T D E : Type) where
  shared : Shared T E
  pos : D → Int
  mutex : D → Option T
  sites : T → Site D
  history : History T (CallEffect D)

inductive DescriptorAct (D E : Type) where
  | call (d : D) (c : DescriptorCall)
  | lock
  /-- the call of `mmio_read`, `mmio_write` or `commit_mmio`, and its return -/
  | enter
  | leave
  | shared (act : SharedAct E)
  | finish
  | seek
  | store
  | unlock

variable {T D E : Type}

namespace Descriptors

variable [DecidableEq T] [DecidableEq D] [DecidableEq E]

def init (locks : E → RwLock T) (mapLen epoch fsize : Nat) (bytes : Nat → UInt8) (pos : D → Int) :
    Descriptors T D E where
  shared := Shared.init locks mapLen epoch fsize bytes
  pos := pos
  mutex _ := none
  sites _ := .out
  history := .empty

def goto (s : Descriptors T D E) (t : T) (g : Site D) : Descriptors T D E :=
  { s with sites := Function.update s.sites t g }

inductive Step (s : Descriptors T D E) (t : T) : DescriptorAct D E → Descriptors T D E → Prop where
  | call (d : D) (c : DescriptorCall) (hSite : s.sites t = .out) (hStage : s.shared.control.stages t = .out) :
      Step s t (.call d c) { s.goto t (.called d c) with history := s.history.call t }
  | lock (d : D) (c : DescriptorCall) (hSite : s.sites t = .called d c) (hFree : s.mutex d = none) :
      Step s t .lock { s.goto t (.locked d c) with mutex := Function.update s.mutex d (some t) }
  | enter (d : D) (c : DescriptorCall) (q : Request) (shared : Shared T E) (hSite : s.sites t = .locked d c)
      (hRequest : c.request (s.pos d) = some q) (hShared : s.shared.Step t (.request q) shared) :
      Step s t .enter { s.goto t (.inside d c none) with shared := shared }
  | commit (d : D) (shared : Shared T E) (hSite : s.sites t = .locked d .fsync)
      (hShared : s.shared.Step t (.control .commit) shared) :
      Step s t .enter { s.goto t (.inside d .fsync none) with shared := shared }
  /-- a step of the request or the commit -/
  | inside (d : D) (c : DescriptorCall) (done : Option (Op UInt8 × Nat)) (act : SharedAct E) (shared : Shared T E)
      (hSite : s.sites t = .inside d c done) (hStage : s.shared.control.stages t ≠ .out) (hAct : act ≠ .finish)
      (hShared : s.shared.Step t act shared) : Step s t (.shared act) { s with shared := shared }
  /-- a step of the checkpoint thread, which makes no calls -/
  | background (act : Act Unit E) (shared : Shared T E) (hSite : s.sites t = .out) (hAct : act ≠ .commit)
      (hShared : s.shared.Step t (.control act) shared) :
      Step s t (.shared (.control act)) { s with shared := shared }
  | finish (d : D) (c : DescriptorCall) (done : Option (Op UInt8 × Nat)) (x : AtomicCopies.Transfer UInt8)
    (shared : Shared T E)
      (hSite : s.sites t = .inside d c done) (hActive : s.shared.copies.active t = some x)
      (hShared : s.shared.Step t .finish shared) :
      Step s t .finish { s.goto t (.inside d c (some (x.op, s.shared.count t x))) with
        shared := shared, history := s.history.effect t ⟨d, c, .transfer x.op (s.shared.count t x)⟩ }
  /-- `file->pos += ret` loads the position -/
  | leave (d : D) (c : DescriptorCall) (op : Op UInt8) (ret : Nat) (hSite : s.sites t = .inside d c (some (op, ret)))
      (hStage : s.shared.control.stages t = .out) :
      Step s t .leave (s.goto t (.storing d c (Inode.addOff (s.pos d) (toInt ret)) (.transfer op ret)))
  | synced (d : D) (hSite : s.sites t = .inside d .fsync none) (hStage : s.shared.control.stages t = .out) :
      Step s t .leave (s.goto t (.unlocking d .fsync none))
  | seek (d : D) (offset : Int) (whence : Whence) (pos : Int)
      (hSite : s.sites t = .locked d (.lseek offset whence))
      (hSeek : Inode.seek s.shared.fsize (s.pos d) offset whence = .ok pos) :
      Step s t .seek { s.goto t (.storing d (.lseek offset whence) pos (.seek s.shared.fsize pos)) with
        history := s.history.effect t ⟨d, .lseek offset whence, .seek s.shared.fsize pos⟩ }
  | store (d : D) (c : DescriptorCall) (pos : Int) (e : Effected) (hSite : s.sites t = .storing d c pos e) :
      Step s t .store { s.goto t (.unlocking d c (some e)) with pos := Function.update s.pos d pos }
  | unlock (d : D) (c : DescriptorCall) (e : Option Effected) (hSite : s.sites t = .unlocking d c e) :
      Step s t .unlock { s.goto t .out with
        mutex := Function.update s.mutex d none, history := s.history.ret t }

def Proper (fsize mapLen : Nat) (s : Descriptors T D E) (a : T × DescriptorAct D E) : Prop :=
  match a.2 with
  | .enter => ∀ d c q, s.sites a.1 = .locked d c → c.request (s.pos d) = some q →
      q.Inside fsize mapLen
  | .shared act => s.shared.Proper fsize mapLen (a.1, act)
  | _ => True

abbrev Runs (fsize mapLen : Nat) : Descriptors T D E → List (T × DescriptorAct D E) → Descriptors T D E → Prop :=
  Run (Guarded (Proper fsize mapLen) fun s a s' => Step s a.1 a.2 s')

end Descriptors

/-! ## What a call holds and has done -/

namespace Site

variable {D : Type}

def holding : Site D → Option D
  | .out | .called _ _ => none
  | .locked d _ | .inside d _ _ | .storing d _ _ _ | .unlocking d _ _ => some d

/-- The position of that descriptor when the call will have stored it. -/
def target (pos : Int) : Site D → Int
  | .inside _ _ (some (_, ret)) => Inode.addOff pos (toInt ret)
  | .storing _ _ pos' _ => pos'
  | _ => pos

def effect : Site D → Option (CallEffect D)
  | .inside d c (some (op, ret)) => some ⟨d, c, .transfer op ret⟩
  | .storing d c _ e => some ⟨d, c, e⟩
  | .unlocking d c e => e.map (⟨d, c, ·⟩)
  | _ => none

end Site

namespace Shared

variable [DecidableEq T] [DecidableEq E] {s s' : Shared T E} {t u : T}

theorem Step.other {act : SharedAct E} (h : s.Step t act s') (hu : u ≠ t) :
    s'.phase u = s.phase u ∧ s'.request u = s.request u := by
  cases h with
  | request q control hControl => exact ⟨Function.update_of_ne hu .., Function.update_of_ne hu ..⟩
  | move => exact ⟨rfl, rfl⟩
  | control act control hPermits hControl =>
    rcases s.leave_cases t act with ⟨_, _, _, _, _, hLeave⟩ | ⟨hLeave, _⟩
    · rw [hLeave]
      exact ⟨Function.update_of_ne hu .., rfl⟩
    · rw [hLeave]
      exact ⟨rfl, rfl⟩
  | _ => exact ⟨Function.update_of_ne hu .., rfl⟩

structure Continues (s s' : Shared T E) (t : T) : Prop where
  request : s'.request = s.request
  log : s'.copies.log = s.copies.log
  phase : (s'.phase t).outcome = (s.phase t).outcome ∧ (s.phase t = .idle → s'.phase t = .idle) ∨
    (s.phase t).outcome.isSome ∧ s'.phase t = .idle

theorem Step.continues {act : SharedAct E} (h : s.Step t act s') (hRequest : ∀ q, act ≠ .request q)
    (hFinish : act ≠ .finish) : s.Continues s' t := by
  have hGoto : ∀ p, p.outcome = (s.phase t).outcome → s.phase t ≠ .idle → s.Continues (s.goto t p) t := by
    intro p hOutcome hBusy
    refine ⟨rfl, rfl, .inl ⟨?_, fun hIdle => absurd hIdle hBusy⟩⟩
    rw [← hOutcome]
    exact congrArg Phase.outcome (Function.update_self ..)
  cases h with
  | request q _ _ => exact absurd rfl (hRequest q)
  | finish => exact absurd rfl hFinish
  | exceed type hStage hPhase _ => exact hGoto _ (by rw [hPhase]; rfl) (by rw [hPhase]; rintro ⟨⟩)
  | copy type hStage hPhase _ =>
    have hOn := hGoto .copying (by rw [hPhase]; rfl) (by rw [hPhase]; rintro ⟨⟩)
    exact ⟨rfl, rfl, hOn.phase⟩
  | clip hPhase =>
    have hOn := hGoto .copying (by rw [hPhase]; rfl) (by rw [hPhase]; rintro ⟨⟩)
    exact ⟨rfl, rfl, hOn.phase⟩
  | move i x =>
    refine ⟨rfl, ?_, .inl ⟨rfl, id⟩⟩
    dsimp only [AtomicCopies.State.move]
    split <;> rfl
  | compare op ret hPhase =>
    refine hGoto _ ?_ (by rw [hPhase]; rintro ⟨⟩)
    rw [hPhase]
    split <;> rfl
  | store op ret hPhase =>
    have hOn := hGoto (.finished op ret) (by rw [hPhase]; rfl) (by rw [hPhase]; rintro ⟨⟩)
    exact ⟨rfl, rfl, hOn.phase⟩
  | control act control hPermits hControl =>
    rcases s.leave_cases t act with ⟨op, ret, _, _, hPhase, hLeave⟩ | ⟨hLeave, _⟩
    · rw [hLeave]
      exact ⟨rfl, rfl, .inr ⟨by rw [hPhase]; rfl, Function.update_self ..⟩⟩
    · rw [hLeave]
      exact ⟨rfl, rfl, .inl ⟨rfl, id⟩⟩

theorem Continues.idle (h : s.Continues s' t) (hIdle : s.phase t = .idle) : s'.phase t = .idle := by
  rcases h.phase with ⟨_, hStays⟩ | ⟨_, hIs⟩
  · exact hStays hIdle
  · exact hIs

theorem Step.extended {f : Nat → UInt8} {fsize mapLen : Nat} (hAtomic : s.Atomic f fsize mapLen) {act : SharedAct E}
    (h : s.Step t act s') : Extended s.control.radixlog s'.control.radixlog := by
  cases h with
  | request q control hControl => exact (State.step_effect State.locateBlock hControl).extended hAtomic.kept
  | control act control _ hControl => exact (State.step_effect State.locateBlock hControl).extended hAtomic.kept
  | _ => exact Extended.refl _

end Shared

namespace Descriptors

variable [DecidableEq T] [DecidableEq D] [DecidableEq E] {s s' : Descriptors T D E} {t u : T} {fsize mapLen : Nat}
  {f : Nat → UInt8} {pos : D → Int}

def AtSite (s : Descriptors T D E) (t : T) : Site D → Prop
  | .inside d c none => (s.shared.phase t).outcome = none ∧
      (s.shared.phase t ≠ .idle → c.request (s.pos d) = some (s.shared.request t))
  | .inside d c (some (op, ret)) => c.AnsweredAt s.shared.control.radixlog (s.pos d) (.transfer op ret) ∧
      (s.shared.phase t = .idle ∨ (s.shared.phase t).outcome = some (op, ret))
  | _ => s.shared.phase t = .idle

/-- The positions are those after the calls that have had their effect, but for the
positions that are still to be stored. -/
structure Positioned (a : FilePositions D) (s : Descriptors T D E) : Prop where
  free : ∀ d, (∀ t, (s.sites t).holding ≠ some d) → a.pos d = s.pos d
  busy : ∀ t d, (s.sites t).holding = some d → a.pos d = (s.sites t).target (s.pos d)

structure Serial (f : Nat → UInt8) (pos : D → Int) (fsize mapLen : Nat) (s : Descriptors T D E) : Prop where
  atomic : s.shared.Atomic f fsize mapLen
  history : s.history.Ordered
  mutex : ∀ t d, (s.sites t).holding = some d → s.mutex d = some t
  sites : ∀ t, s.AtSite t (s.sites t)
  pending : ∀ t, s.history.pending t = (s.sites t).effect
  transfers : s.history.ops.filterMap CallEffect.op = s.shared.copies.ops
  legal : (FilePositions.mk f pos).Legal s.shared.control.radixlog s.history.ops
  bytes : ((FilePositions.mk f pos).replay s.history.ops).bytes = replay f s.shared.copies.ops
  positioned : s.Positioned ((FilePositions.mk f pos).replay s.history.ops)

theorem AtSite.later {g : Site D} (h : s.AtSite u g) (hWell : s.shared.control.radixlog.WellFormed)
    (hExt : Extended s.shared.control.radixlog s'.shared.control.radixlog)
    (hPhase : s'.shared.phase u = s.shared.phase u) (hRequest : s'.shared.request u = s.shared.request u)
    (hPos : ∀ d, g.holding = some d → s'.pos d = s.pos d) : s'.AtSite u g := by
  cases g with
  | inside d c done =>
    cases done with
    | none =>
      dsimp only [AtSite] at h ⊢
      rw [hPhase, hRequest, hPos d rfl]
      exact h
    | some outcome =>
      dsimp only [AtSite] at h ⊢
      rw [hPhase, hPos d rfl]
      exact ⟨h.1.extended hWell hExt, h.2⟩
  | _ =>
    dsimp only [AtSite] at h ⊢
    rw [hPhase]
    exact h

/-- At most one call holds the mutex of a descriptor. -/
theorem Serial.alone (h : Serial f pos fsize mapLen s) {d : D} (hMine : (s.sites t).holding = some d) (hu : u ≠ t) :
    (s.sites u).holding ≠ some d := by
  intro hTheirs
  have hSame := (h.mutex t d hMine).symm.trans (h.mutex u d hTheirs)
  exact hu (Option.some.inj hSame).symm

theorem Serial.sites_next (h : Serial f pos fsize mapLen s) {g : Site D}
    (hSites : s'.sites = Function.update s.sites t g)
    (hExt : Extended s.shared.control.radixlog s'.shared.control.radixlog)
    (hShared : ∀ u, u ≠ t → s'.shared.phase u = s.shared.phase u ∧ s'.shared.request u = s.shared.request u)
    (hPos : ∀ d, (s.sites t).holding ≠ some d → s'.pos d = s.pos d) (hHere : s'.AtSite t g) :
    ∀ u, s'.AtSite u (s'.sites u) := by
  intro u
  rw [hSites]
  by_cases hu : u = t
  · rw [hu, Function.update_self]
    exact hHere
  · rw [Function.update_of_ne hu]
    obtain ⟨hPhase, hRequest⟩ := hShared u hu
    exact (h.sites u).later h.atomic.kept.ordered.wellFormed hExt hPhase hRequest fun d hHolds =>
      hPos d fun hMine => h.alone hMine hu hHolds

theorem holding_update {g : Site D} {d : D} (hSites : s'.sites = Function.update s.sites t g)
    (hHolds : (s'.sites u).holding = some d) :
    u = t ∧ g.holding = some d ∨ u ≠ t ∧ (s.sites u).holding = some d := by
  rw [hSites, Function.update_apply] at hHolds
  split at hHolds
  · exact .inl ⟨‹_›, hHolds⟩
  · exact .inr ⟨‹_›, hHolds⟩

theorem Serial.mutex_next (h : Serial f pos fsize mapLen s) {g : Site D}
    (hSites : s'.sites = Function.update s.sites t g)
    (hHolding : g.holding = (s.sites t).holding) (hMutex : s'.mutex = s.mutex) :
    ∀ u d, (s'.sites u).holding = some d → s'.mutex d = some u := by
  intro u d hHolds
  rw [hMutex]
  rcases holding_update hSites hHolds with ⟨rfl, hMine⟩ | ⟨_, hTheirs⟩
  · exact h.mutex u d (hHolding.symm.trans hMine)
  · exact h.mutex u d hTheirs

/-- A call that keeps its mutex, and stores nothing but the position that it has announced. -/
theorem Serial.positioned_next (h : Serial f pos fsize mapLen s) {g : Site D} {a : FilePositions D}
    (ha : s.Positioned a)
    (hSites : s'.sites = Function.update s.sites t g) (hHolding : g.holding = (s.sites t).holding)
    (hPos : ∀ d, (s.sites t).holding ≠ some d → s'.pos d = s.pos d)
    (hTarget : ∀ d, (s.sites t).holding = some d → g.target (s'.pos d) = (s.sites t).target (s.pos d)) :
    s'.Positioned a := by
  constructor
  · intro d hNone
    have hNobody : ∀ u, (s.sites u).holding ≠ some d := by
      intro u hHolds
      have hNot := hNone u
      rw [hSites, Function.update_apply] at hNot
      split at hNot
      · rename_i hu
        rw [hu] at hHolds
        exact hNot (hHolding.trans hHolds)
      · exact hNot hHolds
    rw [hPos d (hNobody t)]
    exact ha.free d hNobody
  · intro u d hHolds
    rcases holding_update hSites hHolds with ⟨rfl, hMine⟩ | ⟨hu, hTheirs⟩
    · have hMine' := hHolding.symm.trans hMine
      rw [hSites, Function.update_self, hTarget d hMine']
      exact ha.busy u d hMine'
    · rw [hSites, Function.update_of_ne hu, hPos d fun hMine => h.alone hMine hu hTheirs]
      exact ha.busy u d hTheirs

/-- An effect moves the position of its descriptor. -/
theorem Serial.positioned_effect (h : Serial f pos fsize mapLen s) {g : Site D} {a a' : FilePositions D} {d : D}
    {p : Int}
    (ha : s.Positioned a) (hSites : s'.sites = Function.update s.sites t g)
    (hHolds : (s.sites t).holding = some d) (hHolding : g.holding = some d) (hPos : s'.pos = s.pos)
    (hMoves : a'.pos = Function.update a.pos d p) (hTarget : g.target (s.pos d) = p) : s'.Positioned a' := by
  constructor
  · intro d' hNone
    have hd : d' ≠ d := by
      rintro rfl
      apply hNone t
      rw [hSites, Function.update_self]
      exact hHolding
    rw [hMoves, Function.update_of_ne hd, hPos]
    apply ha.free d'
    intro u hTheirs
    by_cases hu : u = t
    · rw [hu, hHolds] at hTheirs
      exact hd (Option.some.inj hTheirs).symm
    · apply hNone u
      rw [hSites, Function.update_of_ne hu]
      exact hTheirs
  · intro u d' hTheirs
    rw [hMoves, hPos]
    rcases holding_update hSites hTheirs with ⟨rfl, hMine⟩ | ⟨hu, hOther⟩
    · cases hHolding.symm.trans hMine
      rw [Function.update_self, hSites, Function.update_self]
      exact hTarget.symm
    · have hd : d' ≠ d := by
        rintro rfl
        exact h.alone hHolds hu hOther
      rw [Function.update_of_ne hd, hSites, Function.update_of_ne hu]
      exact ha.busy u d' hOther

theorem Serial.pending_next (h : Serial f pos fsize mapLen s) {g : Site D}
    (hSites : s'.sites = Function.update s.sites t g)
    (hOther : ∀ u, u ≠ t → s'.history.pending u = s.history.pending u) (hHere : s'.history.pending t = g.effect) :
    ∀ u, s'.history.pending u = (s'.sites u).effect := by
  intro u
  rw [hSites]
  by_cases hu : u = t
  · rw [hu, Function.update_self]
    exact hHere
  · rw [Function.update_of_ne hu, hOther u hu]
    exact h.pending u

/-! ## The steps -/

/-- A step of the call alone, without an effect. -/
theorem Serial.local (h : Serial f pos fsize mapLen s) {g : Site D} (hSites : s'.sites = Function.update s.sites t g)
    (hShared : s'.shared = s.shared) (hOps : s'.history.ops = s.history.ops) (hHistory : s'.history.Ordered)
    (hMutex : ∀ u d, (s'.sites u).holding = some d → s'.mutex d = some u)
    (hPos : ∀ d, (s.sites t).holding ≠ some d → s'.pos d = s.pos d) (hHere : s'.AtSite t g)
    (hPending : ∀ u, s'.history.pending u = (s'.sites u).effect)
    (hPositioned : ∀ a, s.Positioned a → s'.Positioned a) : Serial f pos fsize mapLen s' := by
  refine ⟨hShared ▸ h.atomic, hHistory, hMutex, ?_, hPending, ?_, ?_, ?_, ?_⟩
  · exact h.sites_next hSites (by rw [hShared]; exact Extended.refl _) (fun u _ => by rw [hShared]; exact ⟨rfl, rfl⟩)
      hPos hHere
  · rw [hOps, hShared]
    exact h.transfers
  · rw [hOps, hShared]
    exact h.legal
  · rw [hOps, hShared]
    exact h.bytes
  · rw [hOps]
    exact hPositioned _ h.positioned

/-- A step of the request of a call, before or after its effect. -/
theorem Serial.continued (h : Serial f pos fsize mapLen s) {g : Site D} {shared : Shared T E} {act : SharedAct E}
    (hAtomic : shared.Atomic f fsize mapLen) (hStep : s.shared.Step t act shared)
    (hLog : shared.copies.log = s.shared.copies.log)
    (hHolding : g.holding = (s.sites t).holding) (hTarget : ∀ p, g.target p = (s.sites t).target p)
    (hEffect : g.effect = (s.sites t).effect)
    (hHere : AtSite { s.goto t g with shared := shared } t g) :
    Serial f pos fsize mapLen { s.goto t g with shared := shared } := by
  have hOps : shared.copies.ops = s.shared.copies.ops := by
    rw [AtomicCopies.State.ops, AtomicCopies.State.ops, hLog]
  have hExt := hStep.extended h.atomic
  refine ⟨hAtomic, h.history, h.mutex_next rfl hHolding rfl, ?_, ?_, h.transfers.trans hOps.symm,
    h.legal.extended h.atomic.kept.ordered.wellFormed hExt, ?_, ?_⟩
  · exact h.sites_next rfl hExt (fun u hu => hStep.other hu) (fun d _ => rfl) hHere
  · exact h.pending_next rfl (fun u _ => rfl) ((h.pending t).trans hEffect.symm)
  · exact h.bytes.trans (congrArg _ hOps.symm)
  · exact h.positioned_next h.positioned rfl hHolding (fun d _ => rfl) fun d _ => hTarget _

/-- A call takes effect at the position of its descriptor. -/
theorem Serial.effected (h : Serial f pos fsize mapLen s) {g : Site D} {shared : Shared T E} {o : CallEffect D}
    (hAtomic : shared.Atomic f fsize mapLen)
    (hExt : Extended s.shared.control.radixlog shared.control.radixlog)
    (hOther : ∀ u, u ≠ t → shared.phase u = s.shared.phase u ∧ shared.request u = s.shared.request u)
    (hMine : (s.sites t).holding = some o.desc) (hHolding : g.holding = some o.desc)
    (hFresh : (s.sites t).effect = none ∧ ∀ p, (s.sites t).target p = p) (hEffect : g.effect = some o)
    (hOps : shared.copies.ops = s.shared.copies.ops ++ o.op.toList)
    (hAnswered : o.call.AnsweredAt s.shared.control.radixlog (s.pos o.desc) o.effect)
    (hAnswers : ∀ op, o.op = some op → op.Answers (replay f s.shared.copies.ops))
    (hMoves : ∀ a : FilePositions D, a.pos o.desc = s.pos o.desc →
      (a.apply o).pos = Function.update a.pos o.desc (g.target (s.pos o.desc)))
    (hHere : AtSite { s.goto t g with shared := shared } t g) :
    Serial f pos fsize mapLen { s.goto t g with shared := shared, history := s.history.effect t o } := by
  have hAt : ((FilePositions.mk f pos).replay s.history.ops).pos o.desc = s.pos o.desc := by
    rw [h.positioned.busy t o.desc hMine, hFresh.2]
  have hNone : s.history.pending t = none := (h.pending t).trans hFresh.1
  have hLog := s.history.ops_effect t o
  refine ⟨hAtomic, h.history.effect hNone o, h.mutex_next rfl (hHolding.trans hMine.symm) rfl, ?_, ?_, ?_, ?_, ?_, ?_⟩
  · exact h.sites_next rfl hExt hOther (fun d _ => rfl)
      (hHere.later hAtomic.kept.ordered.wellFormed (Extended.refl _) rfl rfl fun d _ => rfl)
  · refine h.pending_next rfl (fun u hu => Function.update_of_ne hu ..) ?_
    exact (Function.update_self ..).trans hEffect.symm
  · dsimp only
    rw [hLog, List.filterMap_append, h.transfers, hOps]
    cases hOp : o.op <;> simp [hOp]
  · dsimp only
    rw [hLog]
    have hWell := h.atomic.kept.ordered.wellFormed
    apply FilePositions.legal_snoc (h.legal.extended hWell hExt)
    refine ⟨by rw [hAt]; exact hAnswered.extended hWell hExt, fun op hOp => ?_⟩
    rw [h.bytes]
    exact hAnswers op hOp
  · dsimp only
    rw [hLog, FilePositions.replay_snoc, FilePositions.apply_bytes, h.bytes, hOps]
    exact List.foldl_append.symm
  · dsimp only
    rw [hLog, FilePositions.replay_snoc]
    exact h.positioned_effect h.positioned rfl hMine hHolding rfl (hMoves _ hAt) rfl

theorem Serial.atSite (h : Serial f pos fsize mapLen s) {g : Site D} (hSite : s.sites t = g) : s.AtSite t g := by
  rw [← hSite]
  exact h.sites t

theorem Serial.call (h : Serial f pos fsize mapLen s) {d : D} {c : DescriptorCall} (hSite : s.sites t = .out) :
    Serial f pos fsize mapLen { s.goto t (.called d c) with history := s.history.call t } := by
  have hNone : s.history.pending t = none := by
    rw [h.pending, hSite]
    rfl
  have hHolding : (Site.called d c).holding = (s.sites t).holding := by rw [hSite, Site.holding, Site.holding]
  refine h.local (g := .called d c) rfl rfl rfl (h.history.call hNone) (h.mutex_next rfl hHolding rfl) (fun d _ => rfl)
    (h.atSite hSite) (h.pending_next rfl (fun u _ => rfl) hNone) fun a ha => ?_
  refine h.positioned_next ha rfl hHolding (fun d _ => rfl) fun d hHolds => ?_
  rw [hSite] at hHolds
  cases hHolds

theorem Serial.lock (h : Serial f pos fsize mapLen s) {d : D} {c : DescriptorCall} (hSite : s.sites t = .called d c)
    (hFree : s.mutex d = none) :
    Serial f pos fsize mapLen { s.goto t (.locked d c) with mutex := Function.update s.mutex d (some t) } := by
  have hNobody : ∀ u, (s.sites u).holding ≠ some d := by
    intro u hHolds
    rw [h.mutex u d hHolds] at hFree
    cases hFree
  refine h.local (g := .locked d c) rfl rfl rfl h.history ?_ (fun d _ => rfl) (h.atSite hSite)
    (h.pending_next rfl (fun u _ => rfl) ((h.pending t).trans (by rw [hSite]; rfl))) fun a ha => ⟨?_, ?_⟩
  · intro u d' hHolds
    rcases holding_update (g := .locked d c) rfl hHolds with ⟨rfl, hMine⟩ | ⟨_, hTheirs⟩
    · cases hMine
      exact Function.update_self ..
    · have hd : d' ≠ d := by
        rintro rfl
        exact hNobody u hTheirs
      exact (Function.update_of_ne hd ..).trans (h.mutex u d' hTheirs)
  · intro d' hNone
    refine ha.free d' fun u hTheirs => hNone u ?_
    have hu : u ≠ t := by
      rintro rfl
      rw [hSite] at hTheirs
      cases hTheirs
    exact (congrArg Site.holding (Function.update_of_ne hu ..)).trans hTheirs
  · intro u d' hHolds
    rcases holding_update (g := .locked d c) rfl hHolds with ⟨rfl, hMine⟩ | ⟨hu, hTheirs⟩
    · cases hMine
      rw [show (Descriptors.mk _ _ _ _ _).sites u = Site.locked d c from Function.update_self ..]
      exact ha.free d hNobody
    · rw [show (Descriptors.mk _ _ _ _ _).sites u = s.sites u from Function.update_of_ne hu ..]
      exact ha.busy u d' hTheirs

theorem Serial.unlock (h : Serial f pos fsize mapLen s) {d : D} {c : DescriptorCall} {e : Option Effected}
    (hSite : s.sites t = .unlocking d c e) : Serial f pos fsize mapLen { s.goto t .out with
      mutex := Function.update s.mutex d none, history := s.history.ret t } := by
  have hMine : (s.sites t).holding = some d := by rw [hSite, Site.holding]
  have hOther : ∀ u d', ((s.goto t .out).sites u).holding = some d' → u ≠ t ∧ d' ≠ d ∧
    (s.sites u).holding = some d' := by
    intro u d' hHolds
    rcases holding_update (g := .out) rfl hHolds with ⟨_, hNone⟩ | ⟨hu, hTheirs⟩
    · cases hNone
    · refine ⟨hu, ?_, hTheirs⟩
      rintro rfl
      exact h.alone hMine hu hTheirs
  refine h.local (g := .out) rfl rfl (s.history.ops_ret t) (h.history.ret t) ?_ (fun d _ => rfl) (h.atSite hSite)
    (h.pending_next rfl (fun u hu => Function.update_of_ne hu ..) (Function.update_self ..)) fun a ha => ⟨?_, ?_⟩
  · intro u d' hHolds
    obtain ⟨_, hd, hTheirs⟩ := hOther u d' hHolds
    exact (Function.update_of_ne hd ..).trans (h.mutex u d' hTheirs)
  · intro d' hNone
    by_cases hd : d' = d
    · rw [hd, ha.busy t d hMine, hSite]
      rfl
    · refine ha.free d' fun u hTheirs => hNone u ?_
      have hu : u ≠ t := by
        rintro rfl
        rw [hMine] at hTheirs
        exact hd (Option.some.inj hTheirs).symm
      exact (congrArg Site.holding (Function.update_of_ne hu ..)).trans hTheirs
  · intro u d' hHolds
    obtain ⟨hu, _, hTheirs⟩ := hOther u d' hHolds
    rw [show (Descriptors.mk _ _ _ _ _).sites u = s.sites u from Function.update_of_ne hu ..]
    exact ha.busy u d' hTheirs

theorem Serial.enter (h : Serial f pos fsize mapLen s) {d : D} {c : DescriptorCall} {q : Request} {shared : Shared T E}
    (hSite : s.sites t = .locked d c) (hRequest : c.request (s.pos d) = some q)
    (hInside : q.Inside fsize mapLen) (hShared : s.shared.Step t (.request q) shared) :
    Serial f pos fsize mapLen { s.goto t (.inside d c none) with shared := shared } := by
  have hAtomic := h.atomic.step (a := (t, .request q)) hInside hShared
  refine h.continued (g := .inside d c none) hAtomic hShared ?_ ?_ (fun p => ?_) ?_ ?_
  · cases hShared
    rfl
  · rw [hSite]
    rfl
  · rw [hSite]
    rfl
  · rw [hSite]
    rfl
  · cases hShared with
    | request q control hControl =>
      have hWaiting : Function.update s.shared.phase t .waiting t = .waiting := Function.update_self ..
      refine ⟨congrArg Phase.outcome hWaiting, fun _ => ?_⟩
      dsimp only
      rw [Function.update_self]
      exact hRequest

theorem Serial.commit (h : Serial f pos fsize mapLen s) {d : D} {shared : Shared T E}
    (hSite : s.sites t = .locked d .fsync)
    (hShared : s.shared.Step t (.control .commit) shared) :
    Serial f pos fsize mapLen { s.goto t (.inside d .fsync none) with shared := shared } := by
  have hAtomic := h.atomic.step (a := (t, .control .commit)) trivial hShared
  have hOn := hShared.continues (by rintro q ⟨⟩) (by rintro ⟨⟩)
  have hIdle : s.shared.phase t = .idle := h.atSite hSite
  have hStays : shared.phase t = .idle := hOn.idle hIdle
  refine h.continued (g := .inside d .fsync none) hAtomic hShared hOn.log ?_ (fun p => ?_) ?_
    ⟨congrArg Phase.outcome hStays, fun hBusy => absurd hStays hBusy⟩
  · rw [hSite]
    rfl
  · rw [hSite]
    rfl
  · rw [hSite]
    rfl

/-- A step inside the request keeps what the site of the call says. -/
theorem Serial.inside (h : Serial f pos fsize mapLen s) {shared : Shared T E} {act : SharedAct E}
    (hProper : s.shared.Proper fsize mapLen (t, act)) (hShared : s.shared.Step t act shared)
    (hRequest : ∀ q, act ≠ .request q) (hFinish : act ≠ .finish) :
    Serial f pos fsize mapLen { s with shared := shared } := by
  have hAtomic := h.atomic.step (a := (t, act)) hProper hShared
  have hOn := hShared.continues hRequest hFinish
  have hStays : s.goto t (s.sites t) = s := by rw [goto, Function.update_eq_self]
  suffices hHere : AtSite { s with shared := shared } t (s.sites t) by
    have hNext := h.continued (g := s.sites t) hAtomic hShared hOn.log rfl (fun p => rfl) rfl
      (by rw [hStays]; exact hHere)
    rw [hStays] at hNext
    exact hNext
  have hWas := h.sites t
  generalize s.sites t = g at hWas
  cases g with
  | inside d c done =>
    cases done with
    | none =>
      obtain ⟨hNone, hMade⟩ := hWas
      dsimp only [AtSite]
      rw [hOn.request]
      rcases hOn.phase with ⟨hSame, hIdle⟩ | ⟨hSome, _⟩
      · exact ⟨hSame.trans hNone, fun hBusy => hMade fun hWas => hBusy (hIdle hWas)⟩
      · rw [hNone] at hSome
        cases hSome
    | some outcome =>
      obtain ⟨hAnswered, hPhase⟩ := hWas
      refine ⟨hAnswered.extended h.atomic.kept.ordered.wellFormed (hShared.extended h.atomic), ?_⟩
      rcases hOn.phase with ⟨hSame, hIdle⟩ | ⟨_, hIdle⟩
      · exact hPhase.imp hIdle fun hIs => hSame.trans hIs
      · exact .inl hIdle
  | _ => exact hOn.idle hWas

theorem Serial.finish (h : Serial f pos fsize mapLen s) {d : D} {c : DescriptorCall} {done : Option (Op UInt8 × Nat)}
    {x : AtomicCopies.Transfer UInt8} {shared : Shared T E} (hSite : s.sites t = .inside d c done)
    (hActive : s.shared.copies.active t = some x) (hShared : s.shared.Step t .finish shared) :
    Serial f pos fsize mapLen { s.goto t (.inside d c (some (x.op, s.shared.count t x))) with
      shared := shared, history := s.history.effect t ⟨d, c, .transfer x.op (s.shared.count t x)⟩ } := by
  have hAtomic := h.atomic.step (a := (t, .finish)) trivial hShared
  have hExt := hShared.extended h.atomic
  obtain ⟨hCopying, hOwns, _, hCovered⟩ := h.atomic.active hActive
  have hOther := fun u hu => hShared.other (u := u) hu
  have hHere := h.atSite hSite
  have hOps : shared.copies.ops = s.shared.copies.ops ++ [x.op] ∧
      (shared.phase t).outcome = some (x.op, s.shared.count t x) := by
    cases hShared with
    | finish y hMine _ =>
      cases hActive.symm.trans hMine
      refine ⟨AtomicCopies.State.ops_finish .., (congrArg Phase.outcome (Function.update_self ..)).trans ?_⟩
      unfold Shared.copied
      split <;> rfl
  cases done with
  | some outcome =>
    rcases hHere.2 with hIs | hIs <;> rw [hCopying] at hIs <;> cases hIs
  | none =>
    have hMade := hHere.2 (by rw [hCopying]; rintro ⟨⟩)
    have hAnswered : c.AnsweredAt s.shared.control.radixlog (s.pos d) (.transfer x.op (s.shared.count t x)) := by
      cases c <;> exact ⟨_, hMade, hCovered.answeredBy hOwns⟩
    refine h.effected (g := .inside d c (some (x.op, s.shared.count t x)))
      (o := ⟨d, c, .transfer x.op (s.shared.count t x)⟩) hAtomic hExt hOther ?_ rfl ?_ rfl hOps.1 hAnswered ?_ ?_ ?_
    · rw [hSite]
      rfl
    · rw [hSite]
      exact ⟨rfl, fun p => rfl⟩
    · rintro op ⟨⟩
      have hLegal := hAtomic.consistent.legal
      rw [hOps.1] at hLegal
      exact AtomicCopies.answers_of_legal_snoc hLegal
    · intro a ha
      dsimp only [FilePositions.apply, Site.target]
      rw [ha]
    · exact ⟨hAnswered.extended h.atomic.kept.ordered.wellFormed hExt, .inr hOps.2⟩

/-- `file->pos += ret`, as far as the store -/
theorem Serial.leave (h : Serial f pos fsize mapLen s) {d : D} {c : DescriptorCall} {op : Op UInt8} {ret : Nat}
    (hSite : s.sites t = .inside d c (some (op, ret))) (hStage : s.shared.control.stages t = .out) :
    Serial f pos fsize mapLen
      (s.goto t (.storing d c (Inode.addOff (s.pos d) (toInt ret)) (.transfer op ret))) := by
  have hIdle : s.shared.phase t = .idle := h.atomic.idle_of_out hStage
  have hHolding : (Site.storing d c (Inode.addOff (s.pos d) (toInt ret)) (.transfer op ret)).holding =
      (s.sites t).holding := by
    rw [hSite]
    rfl
  refine h.local rfl rfl rfl h.history (h.mutex_next rfl hHolding rfl) (fun d _ => rfl) hIdle
    (h.pending_next rfl (fun u _ => rfl) ((h.pending t).trans (by rw [hSite]; rfl))) fun a ha => ?_
  refine h.positioned_next ha rfl hHolding (fun d _ => rfl) fun d' hMine => ?_
  rw [hSite] at hMine
  cases hMine
  rw [hSite]
  rfl

theorem Serial.synced (h : Serial f pos fsize mapLen s) {d : D} (hSite : s.sites t = .inside d .fsync none)
    (hStage : s.shared.control.stages t = .out) : Serial f pos fsize mapLen (s.goto t (.unlocking d .fsync none)) := by
  have hIdle : s.shared.phase t = .idle := h.atomic.idle_of_out hStage
  have hHolding : (Site.unlocking d .fsync none).holding = (s.sites t).holding := by
    rw [hSite]
    rfl
  refine h.local rfl rfl rfl h.history (h.mutex_next rfl hHolding rfl) (fun d _ => rfl) hIdle
    (h.pending_next rfl (fun u _ => rfl) ((h.pending t).trans (by rw [hSite]; rfl))) fun a ha => ?_
  refine h.positioned_next ha rfl hHolding (fun d _ => rfl) fun d' _ => ?_
  rw [hSite]
  rfl

theorem Serial.seek (h : Serial f pos fsize mapLen s) {d : D} {offset p : Int} {whence : Whence}
    (hSite : s.sites t = .locked d (.lseek offset whence))
    (hSeek : Inode.seek s.shared.fsize (s.pos d) offset whence = .ok p) :
    Serial f pos fsize mapLen { s.goto t (.storing d (.lseek offset whence) p (.seek s.shared.fsize p)) with
      history := s.history.effect t ⟨d, .lseek offset whence, .seek s.shared.fsize p⟩ } := by
  refine h.effected (g := .storing d (.lseek offset whence) p (.seek s.shared.fsize p))
    (o := ⟨d, .lseek offset whence, .seek s.shared.fsize p⟩) h.atomic (Extended.refl _)
      (fun u _ => ⟨rfl, rfl⟩) ?_ rfl ?_ rfl
    (List.append_nil _).symm hSeek ?_ (fun a _ => rfl) (h.atSite hSite)
  · rw [hSite]
    rfl
  · rw [hSite]
    exact ⟨rfl, fun p => rfl⟩
  · rintro op ⟨⟩

theorem Serial.store (h : Serial f pos fsize mapLen s) {d : D} {c : DescriptorCall} {p : Int} {e : Effected}
    (hSite : s.sites t = .storing d c p e) : Serial f pos fsize mapLen
      { s.goto t (.unlocking d c (some e)) with pos := Function.update s.pos d p } := by
  have hMine : (s.sites t).holding = some d := by
    rw [hSite]
    rfl
  have hPos : ∀ d', (s.sites t).holding ≠ some d' → Function.update s.pos d p d' = s.pos d' := by
    intro d' hNot
    apply Function.update_of_ne
    rintro rfl
    exact hNot hMine
  refine h.local (g := .unlocking d c (some e)) rfl rfl rfl h.history (h.mutex_next rfl hMine.symm rfl) hPos
    (h.atSite hSite) (h.pending_next rfl (fun u _ => rfl) ((h.pending t).trans (by rw [hSite]; rfl))) fun a ha => ?_
  refine h.positioned_next ha rfl hMine.symm hPos fun d' hHolds => ?_
  cases hMine.symm.trans hHolds
  rw [hSite]
  exact Function.update_self ..

theorem Serial.step (h : Serial f pos fsize mapLen s) {a : T × DescriptorAct D E}
    (hProper : s.Proper fsize mapLen a) (hStep : s.Step a.1 a.2 s') : Serial f pos fsize mapLen s' := by
  obtain ⟨t, act⟩ := a
  dsimp only at hStep
  cases hStep with
  | call d c hSite hStage => exact h.call hSite
  | lock d c hSite hFree => exact h.lock hSite hFree
  | enter d c q shared hSite hRequest hShared => exact h.enter hSite hRequest (hProper d c q hSite hRequest) hShared
  | commit d shared hSite hShared => exact h.commit hSite hShared
  | inside d c done act shared hSite hStage hAct hShared =>
    refine h.inside hProper hShared ?_ hAct
    -- a request begins outside
    rintro q rfl
    cases hShared with
    | request _ control hControl =>
      obtain ⟨hOut, _⟩ := Option.ite_none_right_eq_some.mp hControl
      exact hStage hOut
  | background act shared hSite hAct hShared =>
    have hControl : s.shared.Proper fsize mapLen (t, .control act) := hProper
    exact h.inside hControl hShared (by rintro q ⟨⟩) (by rintro ⟨⟩)
  | finish d c done x shared hSite hActive hShared => exact h.finish hSite hActive hShared
  | leave d c op ret hSite hStage => exact h.leave hSite hStage
  | synced d hSite hStage => exact h.synced hSite hStage
  | seek d offset whence p hSite hSeek => exact h.seek hSite hSeek
  | store d c p e hSite => exact h.store hSite
  | unlock d c e hSite => exact h.unlock hSite

/-! ## Runs -/

theorem serial_init (locks : E → RwLock T) (epoch : Nat) (hSmall : mapLen ≤ 2 ^ 48) :
    Serial f pos fsize mapLen (init locks mapLen epoch fsize f pos : Descriptors T D E) := by
  refine ⟨Shared.atomic_init locks epoch hSmall, History.ordered_empty, fun t d hHolds => ?_, fun t => rfl,
    fun t => rfl,
    rfl, trivial, rfl, fun d _ => rfl, fun t d hHolds => ?_⟩ <;> cases hHolds

/-- One order of all calls explains what they have returned, the bytes of the file and the
positions; it keeps the order of calls that did not overlap. -/
structure Serialized (f : Nat → UInt8) (pos : D → Int) (s : Descriptors T D E) : Prop where
  ordered : s.history.Ordered
  legal : (FilePositions.mk f pos).Legal s.shared.control.radixlog s.history.ops
  quiet : (∀ t, s.sites t = .out) →
    (FilePositions.mk f pos).replay s.history.ops = ⟨s.shared.copies.array, s.pos⟩

theorem serialized_of_run {locks : E → RwLock T} {epoch : Nat} {as : List (T × DescriptorAct D E)}
    (hSmall : mapLen ≤ 2 ^ 48) (hRun : Runs fsize mapLen (init locks mapLen epoch fsize f pos) as s) :
    Serialized f pos s := by
  have hSerial : Serial f pos fsize mapLen s := by
    refine Run.invariant (Serial f pos fsize mapLen) ?_ hRun (serial_init locks epoch hSmall)
    rintro s a s' h ⟨hProper, hStep⟩
    exact h.step hProper hStep
  refine ⟨hSerial.history, hSerial.legal, fun hOut => ?_⟩
  have hBytes : replay f s.shared.copies.ops = s.shared.copies.array := by
    funext a
    refine (hSerial.atomic.consistent.settled a fun t x hActive => ?_).symm
    have hIdle : s.shared.phase t = .idle := hSerial.atSite (hOut t)
    obtain ⟨hCopying, _⟩ := hSerial.atomic.active hActive
    rw [hIdle] at hCopying
    cases hCopying
  have hPos : ((FilePositions.mk f pos).replay s.history.ops).pos = s.pos := by
    funext d
    apply hSerial.positioned.free d
    intro t hHolds
    rw [hOut t] at hHolds
    cases hHolds
  rw [← hBytes, ← hSerial.bytes, ← hPos]

/-! ## Over the shared lists -/

section Lists

open SharedLists (Controlled)

def control? : DescriptorAct D E → Option (Act Unit E)
  | .shared act => act.control?
  | _ => none

def Within (fsize mapLen : Nat) (s : Descriptors T D E) (a : T × DescriptorAct D E) : Prop :=
  match a.2 with
  | .enter => ∀ d c q, s.sites a.1 = .locked d c → c.request (s.pos d) = some q → q.Inside fsize mapLen
  | .shared act => ∀ q, act = .request q → q.Inside fsize mapLen
  | _ => True

/-- A thread walks over its list when it is in its request. -/
def descriptorCalls (fsize mapLen : Nat) : Controlled T E (Descriptors T D E) (DescriptorAct D E) where
  Step s a s' := Step s a.1 a.2 s'
  Guard := Proper fsize mapLen
  Proper := Within fsize mapLen
  control s := s.shared.control
  setControl s c := { s with shared := { s.shared with control := c } }
  act := control?
  Ready s t := ∃ d c done, s.sites t = .inside d c done

theorem Step.sites_of_ne {act : DescriptorAct D E} (h : s.Step t act s') (hu : u ≠ t) : s'.sites u = s.sites u := by
  cases h with
  | inside | background => rfl
  | _ => exact Function.update_of_ne hu ..

theorem Step.control_other {act : DescriptorAct D E} (hAct : control? act = none) (h : s.Step t act s') :
    s'.shared.control.base = s.shared.control.base ∧
      ∀ u, u ≠ t → s'.shared.control.stages u = s.shared.control.stages u := by
  cases h with
  | enter d c q shared _ _ hShared => exact Shared.Step.control_other rfl hShared
  | commit d shared _ hShared =>
    cases hShared with
    | control act control _ hControl =>
      obtain ⟨_, hDone⟩ := Option.ite_none_right_eq_some.mp hControl
      cases hDone
      exact ⟨rfl, fun _ hu => Function.update_of_ne hu ..⟩
  | inside d c done act shared _ _ _ hShared => exact Shared.Step.control_other hAct hShared
  | background => cases hAct
  | finish d c done x shared _ _ hShared => exact Shared.Step.control_other rfl hShared
  | _ => exact ⟨rfl, fun _ _ => rfl⟩

theorem descriptorCalls_lawful (fsize mapLen : Nat) :
    (descriptorCalls fsize mapLen : Controlled T E (Descriptors T D E) _).Lawful where
  step_act s t a s' c hAct hStep := by
    have hControl : ∀ {act : SharedAct E} {shared : Shared T E}, act.control? = some c → s.shared.Step t act shared →
        s.shared.control.Step State.locateBlock (t, c) shared.control := by
      intro act shared hIs hShared
      cases SharedAct.control_eq hIs
      cases hShared with
      | control act control _ hControl => exact hControl
    cases hStep with
    | inside d c done act shared _ _ _ hShared => exact hControl hAct hShared
    | background act shared _ _ hShared =>
      exact hControl (show (SharedAct.control act).control? = some c from hAct) hShared
    | _ => cases hAct
  step_other s t a s' hAct hStep := Step.control_other hAct hStep
  step_ready s t a s' u hStep hu hReady := by
    obtain ⟨d, c, done, hSite⟩ := hReady
    exact ⟨d, c, done, (Step.sites_of_ne hStep hu).trans hSite⟩
  guard s t a hWithin hInstalled := by
    cases a with
    | shared act => exact proper_of_inside hWithin hInstalled
    | enter => exact hWithin
    | _ => trivial
  control_setControl _ _ := rfl
  setControl_control _ := rfl
  ready_setControl _ _ _ hReady := hReady
  lift s t type act c hReady hStage hAct hStep := by
    obtain ⟨d, call, done, hSite⟩ := hReady
    obtain ⟨hNext, hInstalled⟩ := Shared.Step.at_unlock hStage hAct hStep
    refine ⟨.shared (.control act), hInstalled, .inside d call done _ _ hSite ?_ (by rintro ⟨⟩) hNext⟩
    intro hOut
    cases hStage.symm.trans hOut

section Schedules

open SharedLists.Controlled (host_step)
open SharedLists.State (proper_host proper_push proper_walk proper_unlockEntries)

def oneDescriptor : SharedLists.State Bool Nat (Descriptors Bool Unit Nat) :=
  SharedLists.init (init (fun _ => .free) 12288 0 8191 (fun _ => 0) fun _ => 8191) fun _ => none

/-- A thread writes three bytes over the end of a block, while the other waits for the mutex, to seek. -/
def writeThenSeek : List (Bool × SharedLists.Act (DescriptorAct Unit Nat)) :=
  [(true, .host (.call () (.write (fun _ => 9) 3))), (false, .host (.call () (.lseek 0 .seekCur))),
    (true, .host .lock), (true, .host .enter), (true, .host (.shared (.control .step))),
    (true, .host (.shared (.control .step))), (true, .host (.shared (.control (.locate ())))),
    (true, .host (.shared (.control (.entry .access)))), (true, .host (.shared (.control (.entry (.alloc 7))))),
    (true, .host (.shared (.control (.entry .access)))), (true, .host (.shared (.control (.entry .access)))),
    (true, .list), (true, .host (.shared (.control (.locate ())))),
    (true, .host (.shared (.control (.entry .access)))), (true, .host (.shared (.control (.entry (.alloc 8))))),
    (true, .host (.shared (.control (.entry .access)))), (true, .host (.shared (.control (.entry .access)))),
    (true, .list), (true, .host (.shared (.control .step))), (true, .host (.shared (.control .step))),
    (true, .host (.shared (.control .step))), (true, .host (.shared .copy)), (true, .host (.shared (.move 0))),
    (true, .host (.shared (.move 1))), (true, .host (.shared (.move 2))), (true, .host .finish),
    (true, .host (.shared .compare)), (true, .host (.shared .store)), (true, .host (.shared (.control .step))),
    (true, .unlockEntries), (true, .list), (true, .list), (true, .list), (true, .list), (true, .list),
    (true, .host (.shared (.control .step))), (true, .host .leave), (true, .host .store), (true, .host .unlock),
    (false, .host .lock), (false, .host .seek), (false, .host .store), (false, .host .unlock)]

def copying (moves : Nat) : AtomicCopies.Transfer UInt8 :=
  ⟨true, 8191, 3, fun _ => 9, ([0, 1, 2].take moves).foldl (fun moved i => Function.update moved i true) fun _ => false⟩

end Schedules

end Lists

end Descriptors

end Libnvmmio.Concurrent

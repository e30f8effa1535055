import Libnvmmio.Concurrent.Deadlock
import Libnvmmio.Foundation.AtomicCopies
import Libnvmmio.Mmio.ReportedCount

/-! # What a request has locked

A request that has gone through `LOCK_ENTRIES` holds an entry for each block of
its range, and its list has the log sizes of these blocks, the last block first.
-/

namespace Libnvmmio.Concurrent

open AtomicCopies (Op Transfer)
open GuardedRun Mmio RadixLog

set_option autoImplicit false
set_option linter.unusedSectionVars false

variable {T E : Type}

structure Request where
  write : Bool
  off : Nat
  len : Nat
  buf : Nat → UInt8

def SizeAt (r : RadixLog) (a : Nat) (size : LogSize) : Prop := ∃ p, r.SlotOf p size a

/-- The loop of `LOCK_ENTRIES` comes from one range to another over blocks of some sizes, the
last one first. -/
def Range.Walked (sizeAt : Nat → LogSize → Prop) (start : Range) : List LogSize → Range → Prop
  | [], r => r = start
  | size :: sizes, r => ∃ before, Walked sizeAt start sizes before ∧ 0 < before.n ∧ sizeAt before.off size ∧
      r = before.advance size

namespace Request

def type (q : Request) : LockType := if q.write then .wr else .rd

def range (q : Request) : Range := ⟨q.type, q.off, q.len⟩

def transfer (q : Request) : Transfer UInt8 := ⟨q.write, q.off, q.len, q.buf, fun _ => false⟩

/-- The count of a write whose blocks have the sizes that the tables have. -/
def Reports (r : RadixLog) (q : Request) (ret : Nat) : Prop :=
  ∃ sizes rest, q.range.Walked (SizeAt r) sizes rest ∧ rest.n = 0 ∧ ret = carriedCount q.len q.off sizes

/-- A write has its own data and reports what its entries have received, a read delivers and
reports what it asked for. -/
def AnsweredBy (r : RadixLog) (q : Request) : Op UInt8 → Nat → Prop
  | .write off len buf, ret => q.write = true ∧ off = q.off ∧ len = q.len ∧ buf = q.buf ∧ q.Reports r ret
  | .read off len _, ret => q.write = false ∧ off = q.off ∧ len = q.len ∧ ret = q.len

/-- A request in the file as it was at open: its length is an `int`, it lies in the mapping, and a
read ends in the file. -/
structure Inside (fsize mapLen : Nat) (q : Request) : Prop where
  int : q.len < 2 ^ 31
  mapped : q.off + q.len ≤ mapLen
  sized : q.write = false → q.off + q.len ≤ fsize

end Request

/-! ## The sizes of the blocks -/

theorem Range.Walked.mono {sizeAt sizeAt' : Nat → LogSize → Prop} (hMore : ∀ a size, sizeAt a size → sizeAt' a size)
    {start : Range} {sizes : List LogSize} {r : Range} (h : start.Walked sizeAt sizes r) :
    start.Walked sizeAt' sizes r := by
  induction sizes generalizing r with
  | nil => exact h
  | cons size sizes ih =>
    obtain ⟨before, hBefore, hPos, hSize, hNext⟩ := h
    exact ⟨before, ih hBefore, hPos, hMore _ _ hSize, hNext⟩

theorem SizeAt.extended {r r' : RadixLog} {a : Nat} {size : LogSize} (h : SizeAt r a size) (hWell : r.WellFormed)
    (hExt : Extended r r') : SizeAt r' a size := by
  obtain ⟨p, hSlot⟩ := h
  exact ⟨p, hSlot.extended hWell.shape hExt⟩

/-- A block has one size. -/
theorem SizeAt.unique {r : RadixLog} {a : Nat} {size size' : LogSize} (h : SizeAt r a size) (h' : SizeAt r a size') :
    size = size' := by
  obtain ⟨p, hSlot⟩ := h
  obtain ⟨p', hSlot'⟩ := h'
  exact (hSlot.unique hSlot').2

theorem Range.Walked.unique_of_length {r : RadixLog} {start : Range} {sizes sizes' : List LogSize} {rest rest' : Range}
    (h : start.Walked (SizeAt r) sizes rest) (h' : start.Walked (SizeAt r) sizes' rest')
    (hLength : sizes.length = sizes'.length) : sizes = sizes' ∧ rest = rest' := by
  induction sizes generalizing sizes' rest rest' with
  | nil =>
    cases List.eq_nil_of_length_eq_zero hLength.symm
    exact ⟨rfl, h.trans h'.symm⟩
  | cons size sizes ih =>
    cases sizes' with
    | nil => cases hLength
    | cons size' sizes' =>
      obtain ⟨before, hBefore, _, hSize, rfl⟩ := h
      obtain ⟨before', hBefore', _, hSize', rfl⟩ := h'
      obtain ⟨rfl, rfl⟩ := ih hBefore hBefore' (Nat.succ.inj hLength)
      cases hSize.unique hSize'
      exact ⟨rfl, rfl⟩

/-- A longer way goes on from where the shorter one ends. -/
theorem Range.Walked.pos_of_length {r : RadixLog} {start : Range} {sizes sizes' : List LogSize} {rest rest' : Range}
    (h : start.Walked (SizeAt r) sizes rest) (h' : start.Walked (SizeAt r) sizes' rest')
    (hLength : sizes.length < sizes'.length) : 0 < rest.n := by
  induction sizes' generalizing rest' with
  | nil => exact absurd hLength (Nat.not_lt_zero _)
  | cons size' sizes' ih =>
    obtain ⟨before', hBefore', hPos, _, _⟩ := h'
    rcases Nat.lt_or_eq_of_le (Nat.le_of_lt_succ hLength) with hLess | hSame
    · exact ih hBefore' hLess
    · rw [(h.unique_of_length hBefore' hSame).2]
      exact hPos

/-- The tables determine the count of a write. -/
theorem Request.Reports.unique {r : RadixLog} {q : Request} {ret ret' : Nat} (h : q.Reports r ret)
    (h' : q.Reports r ret') : ret = ret' := by
  obtain ⟨sizes, rest, hWalked, hDone, rfl⟩ := h
  obtain ⟨sizes', rest', hWalked', hDone', rfl⟩ := h'
  have hLength : sizes.length = sizes'.length := by
    rcases Nat.lt_trichotomy sizes.length sizes'.length with hLess | hSame | hMore
    · have hPos := hWalked.pos_of_length hWalked' hLess
      omega
    · exact hSame
    · have hPos := hWalked'.pos_of_length hWalked hMore
      omega
  rw [(hWalked.unique_of_length hWalked' hLength).1]

theorem Request.Reports.extended {r r' : RadixLog} {q : Request} {ret : Nat} (h : q.Reports r ret)
    (hWell : r.WellFormed) (hExt : Extended r r') : q.Reports r' ret := by
  obtain ⟨sizes, rest, hWalked, hDone, hRet⟩ := h
  exact ⟨sizes, rest, hWalked.mono fun _ _ hSize => hSize.extended hWell hExt, hDone, hRet⟩

theorem Request.AnsweredBy.extended {r r' : RadixLog} {q : Request} {op : Op UInt8} {ret : Nat}
    (h : q.AnsweredBy r op ret) (hWell : r.WellFormed) (hExt : Extended r r') : q.AnsweredBy r' op ret := by
  cases op with
  | read off len buf => exact h
  | write off len buf =>
    obtain ⟨hWrite, hOff, hLen, hBuf, hReports⟩ := h
    exact ⟨hWrite, hOff, hLen, hBuf, hReports.extended hWell hExt⟩

/-! ## The locks -/

namespace State

variable [DecidableEq T] [DecidableEq E] {c c' : State T E RadixLog} {t u : T} {mapLen : Nat} {q : Request}

def Holds (c : State T E RadixLog) (t : T) (type : LockType) (a : Nat) : Prop :=
  ∃ k ∈ c.base.held t, k.type = type ∧ ∃ size, c.radixlog.SlotOf k.slot size a

def Locking (c : State T E RadixLog) (t : T) (q : Request) : Stage E → Prop
  | .enter r | .check r | .expendLock r | .expendUnlock r | .reenter r => r = q.range
  | .loop r | .inner r _ _ _ => r.type = q.type ∧ q.off + q.len ≤ r.off + r.n ∧
      ∀ a, q.off ≤ a → a < r.off → Holds c t q.type a
  | .body type todo => type = q.type ∧ (q.write = false → todo = []) ∧
      ∀ a, q.off ≤ a → a < q.off + q.len → Holds c t q.type a
  | .retire _ _ => q.write = true ∧ ∀ a, q.off ≤ a → a < q.off + q.len → Holds c t q.type a
  | _ => False

theorem Holds.later {type : LockType} {a : Nat} (h : Holds c u type a) (hWell : c.radixlog.WellFormed)
    (hExt : Extended c.radixlog c'.radixlog) (hHeld : ∀ k ∈ c.base.held u, k ∈ c'.base.held u) :
    Holds c' u type a := by
  obtain ⟨k, hk, hType, size, hSlot⟩ := h
  exact ⟨k, hHeld k hk, hType, size, hSlot.extended hWell.shape hExt⟩

theorem Locking.later {g : Stage E} (h : Locking c u q g) (hWell : c.radixlog.WellFormed)
    (hExt : Extended c.radixlog c'.radixlog) (hHeld : ∀ k ∈ c.base.held u, k ∈ c'.base.held u) :
    Locking c' u q g := by
  cases g with
  | enter _ | check _ | expendLock _ | expendUnlock _ | reenter _ => exact h
  | loop _ | inner _ _ _ _ => exact ⟨h.1, h.2.1, fun a hLow hHigh => (h.2.2 a hLow hHigh).later hWell hExt hHeld⟩
  | body _ _ => exact ⟨h.1, h.2.1, fun a hLow hHigh => (h.2.2 a hLow hHigh).later hWell hExt hHeld⟩
  | retire _ _ => exact ⟨h.1, fun a hLow hHigh => (h.2 a hLow hHigh).later hWell hExt hHeld⟩
  | _ => exact h

theorem Effect.extended (h : Kept mapLen c) {act : Act Unit E} (hEffect : Effect locateBlock c t act c') :
    Extended c.radixlog c'.radixlog := by
  cases hEffect with
  | locate r p size radixlog x base hStage hn hLocate _ =>
    have hRange := h.ordered.inside t r (by rw [hStage]; rfl) hn
    have hSpan := h.ordered.span
    exact (slotOf_locate h.ordered.wellFormed hLocate (by omega)).2.1
  | _ => exact Extended.refl _

/-- Two threads that have an offset locked, one of them for writing, are the same. -/
theorem Kept.writer_unique (h : Kept mapLen c) {type : LockType} {a : Nat} (hWriter : Holds c t .wr a)
    (hOther : Holds c u type a) : t = u := by
  obtain ⟨k, hk, hType, size, hSlot⟩ := hWriter
  obtain ⟨k', hk', _, size', hSlot'⟩ := hOther
  obtain ⟨hSlots, _⟩ := hSlot.unique hSlot'
  have hInstalled := h.settled.anchored.held t k hk
  have hInstalled' := h.settled.anchored.held u k' hk'
  have hEntry : k.entry = k'.entry := by
    rw [hSlots, hInstalled'] at hInstalled
    exact (Option.some.inj hInstalled).symm
  have hPooled := h.settled.placed.not_pooled hInstalled
  have hMine := EntrySlots.State.holds_pos hk
  have hTheirs := EntrySlots.State.holds_pos hk'
  rw [hType] at hMine
  rw [← hEntry] at hTheirs
  have hWrites : 0 < (c.base.locks k.entry).writes t := by
    rw [h.settled.accounted.writes k.entry hPooled]
    omega
  cases hType' : k'.type with
  | rd =>
    rw [hType', ← h.settled.accounted.reads k.entry hPooled,
      RwLock.reads_eq_zero_of_writes hWrites] at hTheirs
    exact absurd hTheirs (Nat.lt_irrefl 0)
  | wr =>
    rw [hType'] at hTheirs
    apply RwLock.writer_unique hWrites
    rw [h.settled.accounted.writes k.entry hPooled]
    omega

theorem Moves.locking {act : Act Unit E} {g g' : Stage E} (h : Locking c t q g) (hMoves : Moves c t act g g')
    (hMore : ∀ type, g ≠ .body type []) : Locking c t q g' := by
  cases hMoves with
  | request _ _ _ _ | commit | checkpoint _ | finish | leave _ _ => exact h.elim
  | proceed r =>
    obtain rfl : r = _ := h
    exact ⟨rfl, Nat.le_refl _, fun a hLow hHigh => absurd hHigh (Nat.not_lt.mpr hLow)⟩
  | collect r hDone =>
    obtain ⟨hType, hEnd, hHolds⟩ := h
    refine ⟨hType, fun hRead => ?_, fun a hLow hHigh => hHolds a hLow (by omega)⟩
    rw [hType, Request.type, if_neg (by rw [hRead]; decide)]
    rfl
  | fresh type k todo _ =>
    obtain ⟨hType, hRead, hHolds⟩ := h
    refine ⟨hType, fun hIs => ?_, hHolds⟩
    cases hRead hIs
  | stale type k todo =>
    obtain ⟨_, hRead, hHolds⟩ := h
    refine ⟨?_, hHolds⟩
    cases hWrite : q.write with
    | true => rfl
    | false => cases hRead hWrite
  | done type => exact absurd rfl (hMore type)

/-- One block more. -/
theorem Kept.locking_advance (h : Kept mapLen c) {r : Range} {p : Slot} {size : LogSize} {epoch : Nat} {e : E}
    (hStage : c.stages t = .inner r p size epoch) (hLocking : Locking c t q (.inner r p size epoch))
    (hRadix : c'.radixlog = c.radixlog) (hHeld : c'.base.held t = ⟨p, r.type, e⟩ :: c.base.held t) :
    Locking c' t q (.loop (r.advance size)) := by
  obtain ⟨hType, hEnd, hHolds⟩ := hLocking
  obtain ⟨_, hSlot⟩ := h.ordered.located t r p size epoch hStage
  have hOff := advance_off r size
  refine ⟨hType, ?_, fun a hLow hHigh => ?_⟩
  · unfold Range.advance
    dsimp only
    omega
  · by_cases hOld : a < r.off
    · refine (hHolds a hLow hOld).later h.ordered.wellFormed (by rw [hRadix]; exact Extended.refl _) fun k hk => ?_
      rw [hHeld]
      exact List.mem_cons_of_mem _ hk
    · refine ⟨⟨p, r.type, e⟩, by rw [hHeld]; exact List.mem_cons_self, hType, size, ?_⟩
      rw [hRadix]
      apply hSlot.congr
      rw [hOff] at hHigh
      have hStart := size.blockStart_add_mod r.off
      apply Nat.le_antisymm
      · exact Nat.lt_succ_iff.mp ((Nat.div_lt_iff_lt_mul size.size_pos).mpr (by
          rw [Nat.succ_mul]
          exact hHigh))
      · exact Nat.div_le_div_right (Nat.not_lt.mp hOld)

/-- An access of the inner loop goes on with its slot, or it has locked an entry and the loop advances. -/
theorem Kept.locking_inner (h : Kept mapLen c) {r : Range} {p : Slot} {size : LogSize} {epoch : Nat}
    {a : EntrySlots.State.Act Slot E} {base : EntrySlots.State T Slot E} (hStage : c.stages t = .inner r p size epoch)
    (hBase : EntrySlots.State.Step c.base (t, a) base) (hLocking : Locking c t q (.inner r p size epoch)) :
    Locking { c.goto t (c.afterAccess t base (.inner r p size epoch)) with
      base := base, tag := c.tagAfter t (.inner r p size epoch) a } t q
      (c.afterAccess t base (.inner r p size epoch)) := by
  have hFits := h.attached t
  rw [hStage] at hFits
  rcases (EntrySlots.State.step_effect hBase).request hFits with ⟨hTarget, hHeld⟩ | ⟨hIdle, e, hHeld⟩
  · have hSame : ∀ epoch', Locking { c.goto t (c.afterAccess t base (.inner r p size epoch)) with
        base := base, tag := c.tagAfter t (.inner r p size epoch) a } t q (.inner r p size epoch') := by
      intro epoch'
      refine Locking.later (c := c) (g := .inner r p size epoch') hLocking h.ordered.wellFormed (Extended.refl _)
        fun k hk => ?_
      change k ∈ base.held t
      rw [hHeld]
      exact hk
    have hBusy : base.calls t ≠ .idle := by
      intro hIdle
      rw [hIdle] at hTarget
      cases hTarget
    unfold afterAccess at hSame ⊢
    dsimp only at hSame ⊢
    rw [if_neg hBusy] at hSame ⊢
    split
    · exact hSame c.epoch
    · exact hSame epoch
  · have hLoop : c.afterAccess t base (.inner r p size epoch) = .loop (r.advance size) := by
      unfold afterAccess
      dsimp only
      rw [if_pos hIdle]
    rw [hLoop]
    exact h.locking_advance hStage hLocking rfl hHeld

/-- A control step of a request that has still to copy. -/
theorem Effect.locking (h : Kept mapLen c) {act : Act Unit E} (hEffect : Effect locateBlock c t act c')
    (hLocking : Locking c t q (c.stages t)) (hMore : ∀ type, c.stages t ≠ .body type []) :
    Locking c' t q (c'.stages t) := by
  have hExt := hEffect.extended h
  cases hEffect with
  | stay => exact hLocking
  | move g hMoves =>
    rw [goto_self]
    exact (hMoves.locking hLocking hMore).later h.ordered.wellFormed hExt fun k hk => hk
  | rdlock g l hOpens _ =>
    rw [show _ = g from goto_self c t g]
    generalize c.stages t = g₀ at hLocking hOpens
    cases hOpens with
    | enter r => exact hLocking
    | reenter r =>
      obtain rfl : r = _ := hLocking
      exact ⟨rfl, Nat.le_refl _, fun a hLow hHigh => absurd hHigh (Nat.not_lt.mpr hLow)⟩
    | table => exact hLocking.elim
  | wrlock g l hSeals _ =>
    rw [show _ = g from goto_self c t g]
    generalize c.stages t = g₀ at hLocking hSeals
    cases hSeals with
    | expend r => exact hLocking
    | commit => exact hLocking.elim
  | release g l hCloses _ =>
    rw [show _ = g from goto_self c t g]
    generalize c.stages t = g₀ at hLocking hCloses
    cases hCloses with
    | expend r => exact hLocking
    | reenter r => exact hLocking
    | leave | commit | table _ => exact hLocking.elim
  | bump hStage =>
    rw [hStage] at hLocking
    exact hLocking.elim
  | retire k todo hStage =>
    rw [hStage] at hLocking
    rw [show _ = Stage.body .wr todo from goto_self c t _]
    obtain ⟨hWrite, hHolds⟩ := hLocking
    refine ⟨by rw [Request.type, if_pos hWrite], fun hRead => ?_, hHolds⟩
    rw [hRead] at hWrite
    cases hWrite
  | locate r p size radixlog x base hStage hn hLocate hBase =>
    rw [hStage] at hLocking
    rw [show _ = Stage.inner r p size c.epoch from goto_self c t _]
    obtain ⟨_, hDone⟩ := Option.ite_none_right_eq_some.mp hBase
    cases hDone
    obtain ⟨hType, hEnd, hHolds⟩ := hLocking
    exact ⟨hType, hEnd, fun a hLow hHigh => (hHolds a hLow hHigh).later h.ordered.wellFormed hExt fun k hk => hk⟩
  | inner r p size epoch a base hStage hAct hBase =>
    rw [hStage] at hLocking
    rw [show _ = c.afterAccess t base (.inner r p size epoch) from goto_self c t _]
    exact h.locking_inner hStage hBase hLocking
  | unlock _ _ _ hStage _ _ =>
    rw [hStage] at hLocking
    exact hLocking.elim
  | table _ _ hStage _ _ _ =>
    rw [hStage] at hLocking
    exact hLocking.elim

/-- Only its own `step` ends the body of a request, and only that its return. -/
theorem act_eq_step {act : Act Unit E} (hStep : Step locateBlock c (t, act) c')
    (hStage : (∃ type, c.stages t = .body type []) ∨ c.stages t = .leave) : act = .step := by
  unfold Step next at hStep
  cases act with
  | step => rfl
  | request _ _ _ | commit | checkpoint | finish | expend | locate _ =>
    rcases hStage with ⟨type, hStage⟩ | hStage <;> simp only [hStage] at hStep <;> cases hStep
  | entry a =>
    dsimp only [access] at hStep
    rcases hStage with ⟨type, hStage⟩ | hStage <;> rw [hStage] at hStep <;> cases hStep


/-! ## The log sizes in the entries -/

section Sizes

variable {logSize : E → LogSize}

/-- `entry_->log_size = log_size_`, when `LOCK_ENTRIES` has locked an entry -/
def logSizeAfter (c : State T E RadixLog) (logSize : E → LogSize) (t : T) (c' : State T E RadixLog) : E → LogSize :=
  match c.stages t, c'.base.held t with
  | .inner _ _ size _, k :: held => if held = c.base.held t then Function.update logSize k.entry size else logSize
  | _, _ => logSize

def listedSizes (c : State T E RadixLog) (logSize : E → LogSize) (t : T) : List LogSize :=
  (c.base.held t).map fun k => logSize k.entry

def Sized (c : State T E RadixLog) (logSize : E → LogSize) : Prop :=
  ∀ t, ∀ k ∈ c.base.held t, ∃ a, c.radixlog.SlotOf k.slot (logSize k.entry) a

def Passing (c : State T E RadixLog) (logSize : E → LogSize) (t : T) (q : Request) : Stage E → Prop
  | .loop r | .inner r _ _ _ => q.range.Walked (SizeAt c.radixlog) (c.listedSizes logSize t) r
  | .body _ _ | .retire _ _ => ∃ r, q.range.Walked (SizeAt c.radixlog) (c.listedSizes logSize t) r ∧ r.n = 0
  | _ => True

theorem logSizeAfter_of_held (hHeld : c'.base.held t = c.base.held t) : c.logSizeAfter logSize t c' = logSize := by
  unfold logSizeAfter
  rw [hHeld]
  split
  · rename_i k held _ hCons
    rw [if_neg]
    intro hSame
    rw [hCons] at hSame
    exact List.cons_ne_self k held hSame.symm
  · rfl

theorem logSizeAfter_of_unlock {type : LockType} (hStage : c.stages t = .unlock type) :
    c.logSizeAfter logSize t c' = logSize := by
  unfold logSizeAfter
  rw [hStage]

theorem logSizeAfter_of_lock {r : Range} {p : Slot} {size : LogSize} {epoch : Nat} {e : E}
    (hStage : c.stages t = .inner r p size epoch) (hHeld : c'.base.held t = ⟨p, r.type, e⟩ :: c.base.held t) :
    c.logSizeAfter logSize t c' = Function.update logSize e size := by
  unfold logSizeAfter
  rw [hStage, hHeld]
  exact if_pos rfl

/-- What a thread holds changes in `UNLOCK_ENTRIES`, or by the lock that ends an inner loop. -/
theorem Effect.held_cases (h : Kept mapLen c) {act : Act Unit E} (hEffect : Effect locateBlock c t act c') :
    c'.base.held t = c.base.held t ∨
      (∃ type k, c.stages t = .unlock type ∧ c'.base.held t = (c.base.held t).erase k) ∨
      ∃ r p size epoch e, c.stages t = .inner r p size epoch ∧ c'.stages t = .loop (r.advance size) ∧
        c'.base.held t = ⟨p, r.type, e⟩ :: c.base.held t ∧ c'.radixlog = c.radixlog := by
  have hFits := h.attached t
  have hFits' := h.attached.step hEffect t
  cases hEffect with
  | inner r p size epoch a base hStage hAct hBase =>
    rw [hStage] at hFits
    rcases (EntrySlots.State.step_effect hBase).request hFits with ⟨_, hHeld⟩ | ⟨hIdle, e, hHeld⟩
    · exact .inl hHeld
    · refine .inr (.inr ⟨r, p, size, epoch, e, hStage, ?_, hHeld, rfl⟩)
      rw [show _ = c.afterAccess t base (.inner r p size epoch) from goto_self c t _, afterAccess, if_pos hIdle]
  | unlock type k base hStage hAct hBase =>
    refine .inr (.inl ⟨type, k, hStage, ?_⟩)
    obtain ⟨_, hDone⟩ := Option.ite_none_right_eq_some.mp hBase
    obtain ⟨l, _, hDone⟩ := Option.bind_eq_some_iff.mp hDone
    cases hDone
    exact Function.update_self ..
  | table a base hStage _ _ _ =>
    rw [hStage] at hFits
    rw [show _ = Stage.table from goto_self c t _] at hFits'
    exact .inl (hFits'.2.trans hFits.2.symm)
  | locate r p size radixlog x base _ _ _ hBase =>
    obtain ⟨_, hDone⟩ := Option.ite_none_right_eq_some.mp hBase
    cases hDone
    exact .inl rfl
  | _ => exact .inl rfl

/-- Only the size of the entry of a new lock is stored, and other holds on this entry know it. -/
theorem Sized.step (h : Sized c logSize) (hKept : Kept mapLen c) (hKept' : Kept mapLen c') {act : Act Unit E}
    (hEffect : Effect locateBlock c t act c') :
    (∀ u, ∀ k ∈ c.base.held u, c.logSizeAfter logSize t c' k.entry = logSize k.entry) ∧
      Sized c' (c.logSizeAfter logSize t c') := by
  have hExt := hEffect.extended hKept
  have hOther := fun u (hu : u ≠ t) => (hEffect.other hu).2
  have hLater : ∀ u, ∀ k ∈ c.base.held u, ∃ a, c'.radixlog.SlotOf k.slot (logSize k.entry) a := by
    intro u k hk
    obtain ⟨a, hSlot⟩ := h u k hk
    exact ⟨a, hSlot.extended hKept.ordered.wellFormed.shape hExt⟩
  rcases hEffect.held_cases hKept with hHeld | ⟨type, k₀, hStage, hHeld⟩ | ⟨r, p, size, epoch, e, hStage, _, hHeld, _⟩
  · rw [logSizeAfter_of_held hHeld]
    refine ⟨fun _ _ _ => rfl, fun u k hk => hLater u k ?_⟩
    by_cases hu : u = t
    · rw [hu] at hk ⊢
      rwa [hHeld] at hk
    · rwa [hOther u hu] at hk
  · rw [logSizeAfter_of_unlock hStage]
    refine ⟨fun _ _ _ => rfl, fun u k hk => hLater u k ?_⟩
    by_cases hu : u = t
    · rw [hu] at hk ⊢
      rw [hHeld] at hk
      exact List.mem_of_mem_erase hk
    · rwa [hOther u hu] at hk
  · have hNew : (⟨p, r.type, e⟩ : EntrySlots.Hold Slot E) ∈ c'.base.held t := by
      rw [hHeld]
      exact List.mem_cons_self
    have hInstalled := hKept'.settled.anchored.held t _ hNew
    have hSlot := (hKept.ordered.located t r p size epoch hStage).2
    have hOld : ∀ u, ∀ k ∈ c.base.held u, k ∈ c'.base.held u := by
      intro u k hk
      by_cases hu : u = t
      · rw [hu] at hk ⊢
        rw [hHeld]
        exact List.mem_cons_of_mem _ hk
      · rwa [hOther u hu]
    have hSame : ∀ u, ∀ k ∈ c.base.held u, Function.update logSize e size k.entry = logSize k.entry := by
      intro u k hk
      rw [Function.update_apply]
      split
      · -- the entry is in one slot, whose log size does not change
        rename_i hEntry
        have hThere := hKept'.settled.anchored.held u k (hOld u k hk)
        rw [hEntry] at hThere
        cases hKept'.settled.placed e (.slot k.slot) (.slot p) hThere hInstalled
        obtain ⟨a, hWas⟩ := h u k hk
        exact Option.some.inj (hSlot.size.symm.trans hWas.size)
      · rfl
    rw [logSizeAfter_of_lock hStage hHeld]
    refine ⟨hSame, fun u k hk => ?_⟩
    by_cases hMem : k ∈ c.base.held u
    · rw [hSame u k hMem]
      exact hLater u k hMem
    · have hu : u = t := by
        by_contra hu
        exact hMem (hOther u hu ▸ hk)
      rw [hu, hHeld] at hk
      rcases List.mem_cons.mp hk with rfl | hk
      · rw [Function.update_self]
        exact ⟨r.off, hSlot.extended hKept.ordered.wellFormed.shape hExt⟩
      · exact absurd (hu ▸ hk) hMem

theorem listedSizes_congr {logSize' : E → LogSize} (hHeld : c'.base.held u = c.base.held u)
    (hSame : ∀ k ∈ c.base.held u, logSize' k.entry = logSize k.entry) :
    c'.listedSizes logSize' u = c.listedSizes logSize u := by
  unfold listedSizes
  rw [hHeld]
  exact List.map_congr_left hSame

theorem Passing.later {g : Stage E} {logSize' : E → LogSize} (h : Passing c logSize u q g)
    (hWell : c.radixlog.WellFormed) (hExt : Extended c.radixlog c'.radixlog)
    (hSizes : c'.listedSizes logSize' u = c.listedSizes logSize u) : Passing c' logSize' u q g := by
  have hMore : ∀ a size, SizeAt c.radixlog a size → SizeAt c'.radixlog a size := fun _ _ hSize =>
    hSize.extended hWell hExt
  cases g with
  | loop _ | inner _ _ _ _ =>
    unfold Passing at h ⊢
    rw [hSizes]
    exact h.mono hMore
  | body _ _ | retire _ _ =>
    obtain ⟨r, hWalked, hDone⟩ := h
    refine ⟨r, ?_, hDone⟩
    rw [hSizes]
    exact hWalked.mono hMore
  | _ => trivial

theorem Passing.of_none {g : Stage E} {r : Range} (hNone : c.base.held t = []) (hStart : r = q.range)
    (hg : g = .loop r) : Passing c logSize t q g := by
  subst hg
  unfold Passing listedSizes
  rw [hNone]
  exact hStart

theorem Moves.passing (h : Kept mapLen c) {act : Act Unit E} {g g' : Stage E} (hStage : c.stages t = g)
    (hLocking : Locking c t q g) (hPassing : Passing c logSize t q g) (hMoves : Moves c t act g g') :
    Passing c logSize t q g' := by
  have hFits := h.attached t
  rw [hStage] at hFits
  cases hMoves with
  | request _ _ _ _ | commit | checkpoint _ | finish | leave _ _ => exact hLocking.elim
  | proceed r => exact .of_none hFits.2 hLocking rfl
  | collect r hDone => exact ⟨r, hPassing, hDone⟩
  | fresh type k todo _ => exact hPassing
  | stale type k todo => exact hPassing
  | done type => trivial

/-- A control step of a request that has still to copy. -/
theorem Effect.passing (h : Kept mapLen c) (hKept' : Kept mapLen c') {act : Act Unit E}
    (hEffect : Effect locateBlock c t act c') (hSized : Sized c logSize) (hLocking : Locking c t q (c.stages t))
    (hPassing : Passing c logSize t q (c.stages t)) :
    Passing c' (c.logSizeAfter logSize t c') t q (c'.stages t) := by
  have hWell := h.ordered.wellFormed
  have hExt := hEffect.extended h
  have hSame := (hSized.step h hKept' hEffect).1 t
  have hFits := h.attached t
  rcases hEffect.held_cases h with hHeld | ⟨type, k, hStage, _⟩ | ⟨r, p, size, epoch, e, hStage, hNext, hHeld, hRadix⟩
  · suffices hHere : Passing c logSize t q (c'.stages t) from hHere.later hWell hExt (listedSizes_congr hHeld hSame)
    cases hEffect with
    | stay => exact hPassing
    | move g hMoves =>
      rw [goto_self]
      exact hMoves.passing h rfl hLocking hPassing
    | rdlock g l hOpens _ =>
      rw [show _ = g from goto_self c t g]
      generalize c.stages t = g₀ at hLocking hOpens hFits
      cases hOpens with
      | enter r => trivial
      | reenter r => exact .of_none hFits.2 hLocking rfl
      | table => trivial
    | wrlock g l hSeals _ =>
      rw [show _ = g from goto_self c t g]
      generalize c.stages t = g₀ at hSeals
      cases hSeals <;> trivial
    | release g l hCloses _ =>
      rw [show _ = g from goto_self c t g]
      generalize c.stages t = g₀ at hCloses
      cases hCloses <;> trivial
    | retire k todo hStage =>
      rw [hStage] at hPassing
      rw [show _ = Stage.body .wr todo from goto_self c t _]
      exact hPassing
    | locate r p size radixlog x base hStage _ _ _ =>
      rw [hStage] at hPassing
      rw [show _ = Stage.inner r p size c.epoch from goto_self c t _]
      exact hPassing
    | inner r p size epoch a base hStage _ hBase =>
      rw [hStage] at hPassing hFits
      rw [show _ = c.afterAccess t base (.inner r p size epoch) from goto_self c t _]
      rcases (EntrySlots.State.step_effect hBase).request hFits with ⟨hTarget, _⟩ | ⟨_, e, hCons⟩
      · have hBusy : base.calls t ≠ .idle := by
          intro hIdle
          rw [hIdle] at hTarget
          cases hTarget
        unfold afterAccess
        dsimp only
        rw [if_neg hBusy]
        split <;> exact hPassing
      · exact absurd (hCons.symm.trans hHeld) (List.cons_ne_self _ _)
    | bump _ =>
      rw [show _ = Stage.commitUnlock from goto_self c t _]
      trivial
    | unlock type _ _ _ _ _ =>
      rw [show _ = Stage.unlock type from goto_self c t _]
      trivial
    | table _ _ _ _ _ _ =>
      rw [show _ = Stage.table from goto_self c t _]
      trivial
  · rw [hStage] at hLocking
    exact hLocking.elim
  · -- one block more
    obtain ⟨hPos, hSlot⟩ := h.ordered.located t r p size epoch hStage
    rw [hStage] at hPassing
    have hSizes : c'.listedSizes (c.logSizeAfter logSize t c') t = size :: c.listedSizes logSize t := by
      unfold listedSizes
      rw [hHeld, List.map_cons, List.map_congr_left hSame, logSizeAfter_of_lock hStage hHeld, Function.update_self]
    rw [hNext, Passing, hSizes, hRadix]
    exact ⟨r, hPassing, hPos, ⟨p, hSlot⟩, rfl⟩

end Sizes

end State

end Libnvmmio.Concurrent

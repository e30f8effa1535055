import Libnvmmio.Concurrent.ListedRequests
import Libnvmmio.Foundation.WaitGraph
import Libnvmmio.Radixlog.Init
import Libnvmmio.Radixlog.Through

/-! # No cycle of waiting calls

A request takes its entry locks in the order of the file, block after block.
The lock of the mmio is only waited for by threads that hold nothing. Both need
that a lock taken on an entry is a lock on the block of its slot.
-/

namespace Libnvmmio

open GuardedRun Mmio RadixLog

set_option autoImplicit false
set_option linter.unusedSectionVars false

/-! ## The order of the blocks -/

theorem LogSize.blockStart_dvd (s : LogSize) (a : Nat) : s.size ∣ s.blockStart a := Nat.dvd_mul_left ..

theorem LogSize.le_blockStart {s : LogSize} {m b : Nat} (hDvd : s.size ∣ m) (hLe : m ≤ b) :
    m ≤ s.blockStart b := by
  obtain ⟨k, rfl⟩ := hDvd
  rw [blockStart, Nat.mul_comm]
  exact Nat.mul_le_mul_right _ ((Nat.le_div_iff_mul_le s.size_pos).mpr (by rwa [Nat.mul_comm]))

/-- A block that ends below an offset ends below the block of that offset. -/
theorem RadixLog.SlotOf.end_le_blockStart {r : RadixLog} {p q : Slot} {s s' : LogSize} {a b : Nat}
    (h : r.SlotOf p s a) (h' : r.SlotOf q s' b) (hEnd : s.blockStart a + s.size ≤ b) :
    s.blockStart a + s.size ≤ s'.blockStart b := by
  have hAfter : a < s.blockStart a + s.size := by
    have hMod := Nat.mod_lt a s.size_pos
    have hSplit := s.blockStart_add_mod a
    omega
  by_cases hRegion : a / 2 ^ lmdShift = b / 2 ^ lmdShift
  · -- one table, one log size
    have hFind := (r.findLogTable_congr_region hRegion).symm.trans h.find
    rw [h'.find] at hFind
    have hSize := h'.size
    rw [Option.some.inj hFind, h.size] at hSize
    cases hSize
    exact LogSize.le_blockStart (Nat.dvd_add (s.blockStart_dvd a) (Nat.dvd_refl _)) hEnd
  · have hLess : a / 2 ^ lmdShift < b / 2 ^ lmdShift :=
      Nat.lt_of_le_of_ne (Nat.div_le_div_right (Nat.le_trans (Nat.le_of_lt hAfter) hEnd)) hRegion
    have hInside : s.blockStart a + s.size ≤ (a / 2 ^ lmdShift + 1) * 2 ^ lmdShift := by
      obtain ⟨k, hk⟩ := s.size_dvd
      have hBelow : a < (a / 2 ^ lmdShift + 1) * 2 ^ lmdShift := by
        rw [Nat.mul_comm]
        exact Nat.lt_mul_div_succ a (Nat.pow_pos (by decide))
      rw [LogSize.blockStart, ← Nat.succ_mul]
      rw [hk, Nat.mul_comm s.size k, ← Nat.mul_assoc] at hBelow ⊢
      exact Nat.mul_le_mul_right _ ((Nat.div_lt_iff_lt_mul s.size_pos).mpr hBelow)
    have hStart : b / 2 ^ lmdShift * 2 ^ lmdShift ≤ s'.blockStart b :=
      LogSize.le_blockStart (Nat.dvd_trans s'.size_dvd (Nat.dvd_mul_left ..)) (Nat.div_mul_le_self ..)
    exact Nat.le_trans hInside (Nat.le_trans (Nat.mul_le_mul_right _ hLess) hStart)

namespace Concurrent

variable {T E : Type}

def Stage.range : Stage E → Option Range
  | .enter r | .check r | .expendLock r | .expendUnlock r | .reenter r | .loop r | .inner r _ _ _ => some r
  | _ => none

def Stage.locking : Stage E → Option Range
  | .loop r | .inner r _ _ _ => some r
  | _ => none

namespace State

variable [DecidableEq T] [DecidableEq E] {s s' : State T E RadixLog} {t u : T} {mapLen : Nat}

def InsideMapped (mapLen : Nat) (_ : State T E RadixLog) : T × Act Unit E → Prop
  | (_, .request _ offset len) => offset + len ≤ mapLen
  | _ => True

def Passed (r : RadixLog) (p : Slot) (off : Nat) : Prop :=
  ∃ size a, r.SlotOf p size a ∧ size.blockStart a + size.size ≤ off

/-- Requests have locked the blocks of their range in order up to `off`. -/
structure Ordered (mapLen : Nat) (s : State T E RadixLog) : Prop where
  wellFormed : s.radixlog.WellFormed
  span : mapLen ≤ s.radixlog.skipType.span
  inside : ∀ t r, (s.stages t).range = some r → 0 < r.n → r.off + r.n ≤ mapLen
  located : ∀ t r p size epoch, s.stages t = .inner r p size epoch →
    0 < r.n ∧ s.radixlog.SlotOf p size r.off
  passed : ∀ t r, (s.stages t).locking = some r → ∀ h ∈ s.base.held t, Passed s.radixlog h.slot r.off

theorem Passed.extended {r r' : RadixLog} {p : Slot} {off : Nat} (h : Passed r p off) (hShape : r.Shape)
    (hExt : Extended r r') : Passed r' p off := by
  obtain ⟨size, a, hSlot, hEnd⟩ := h
  exact ⟨size, a, hSlot.extended hShape hExt, hEnd⟩

/-- A step that leaves the radix log alone and changes the stage of its thread to one that is
not in `LOCK_ENTRIES`. -/
theorem Ordered.goto (h : Ordered mapLen s) {g : Stage E} (hRadix : s'.radixlog = s.radixlog) (hSelf : s'.stages t = g)
    (hOther : ∀ u, u ≠ t → s'.stages u = s.stages u ∧ s'.base.held u = s.base.held u)
    (hRange : ∀ r, g.range = some r → 0 < r.n → r.off + r.n ≤ mapLen)
    (hInner : ∀ r p size epoch, g = .inner r p size epoch → 0 < r.n ∧ s.radixlog.SlotOf p size r.off)
    (hLocking : ∀ r, g.locking = some r → ∀ k ∈ s'.base.held t, Passed s.radixlog k.slot r.off) :
    Ordered mapLen s' := by
  refine ⟨hRadix ▸ h.wellFormed, hRadix ▸ h.span, fun u r hr => ?_, fun u r p size epoch hStage => ?_,
    fun u r hr k hk => ?_⟩
  · by_cases hu : u = t
    · rw [hu, hSelf] at hr
      exact hRange r hr
    · rw [(hOther u hu).1] at hr
      exact h.inside u r hr
  · rw [hRadix]
    by_cases hu : u = t
    · rw [hu, hSelf] at hStage
      exact hInner r p size epoch hStage
    · rw [(hOther u hu).1] at hStage
      exact h.located u r p size epoch hStage
  · rw [hRadix]
    by_cases hu : u = t
    · rw [hu, hSelf] at hr
      exact hLocking r hr k (hu ▸ hk)
    · rw [(hOther u hu).1] at hr
      rw [(hOther u hu).2] at hk
      exact h.passed u r hr k hk

theorem Effect.other {act : Act Unit E} (h : Effect locateBlock s t act s') (hne : u ≠ t) :
    s'.stages u = s.stages u ∧ s'.base.held u = s.base.held u := by
  refine ⟨h.stages_of_ne hne, ?_⟩
  rcases h.base_cases with hSame | ⟨a, hBase, _⟩
  · rw [hSame]
  · exact ((EntrySlots.State.step_effect hBase).other hne).2

structure Enters (s : State T E RadixLog) (t : T) (mapLen : Nat) (g : Stage E) : Prop where
  inside : ∀ r, g.range = some r → 0 < r.n → r.off + r.n ≤ mapLen
  outside : ∀ r p size epoch, g ≠ .inner r p size epoch
  locking : ∀ r, g.locking = some r → s.base.held t = []

theorem Enters.of_range_none {g : Stage E} (hRange : g.range = none) : Enters s t mapLen g := by
  refine ⟨fun r hr => ?_, ?_, fun r hr => ?_⟩
  · rw [hRange] at hr
    cases hr
  · rintro r p size epoch rfl
    cases hRange
  · cases g with
    | loop _ | inner _ _ _ _ => cases hRange
    | _ => cases hr

theorem Enters.of_range {g : Stage E} {r : Range} (h : Ordered mapLen s)
    (hWas : (s.stages t).range = some r) (hRange : g.range = some r)
    (hOutside : ∀ p size epoch, g ≠ .inner r p size epoch)
    (hLocking : g.locking.isSome → s.base.held t = []) : Enters s t mapLen g := by
  refine ⟨fun r' hr => ?_, ?_, fun r' hr => hLocking (by rw [hr]; rfl)⟩
  · rw [hRange] at hr
    cases hr
    exact h.inside t r hWas
  · rintro r' p size epoch rfl
    cases hRange
    exact hOutside p size epoch rfl

theorem Moves.enters (h : Ordered mapLen s) (hAttached : Attached s) {act : Act Unit E}
    (hInside : InsideMapped mapLen s (t, act)) {g g' : Stage E} (hStage : s.stages t = g)
    (hMoves : Moves s t act g g') : Enters s t mapLen g' := by
  have hFits := hAttached t
  rw [hStage] at hFits
  cases hMoves with
  | request type offset len hAct =>
    subst hAct
    refine ⟨fun r hr _ => ?_, fun _ _ _ _ hEq => (by cases hEq), fun _ hr => (by cases hr)⟩
    cases hr
    have hLen := toInt_le len
    have hBound : offset + len ≤ mapLen := hInside
    dsimp only
    omega
  | proceed r => exact .of_range h (by rw [hStage]; rfl) rfl (fun _ _ _ hEq => (by cases hEq)) fun _ => hFits.2
  | _ => exact .of_range_none rfl

theorem Opens.enters (h : Ordered mapLen s) (hAttached : Attached s) {g g' : Stage E}
    (hStage : s.stages t = g) (hOpens : Opens g g') : Enters s t mapLen g' := by
  have hFits := hAttached t
  rw [hStage] at hFits
  cases hOpens with
  | enter r => exact .of_range h (by rw [hStage]; rfl) rfl (fun _ _ _ hEq => (by cases hEq)) fun _ => hFits.2
  | reenter r => exact .of_range h (by rw [hStage]; rfl) rfl (fun _ _ _ hEq => (by cases hEq)) fun _ => hFits.2
  | table => exact .of_range_none rfl

theorem Seals.enters (h : Ordered mapLen s) (hAttached : Attached s) {g g' : Stage E}
    (hStage : s.stages t = g) (hSeals : Seals g g') : Enters s t mapLen g' := by
  have hFits := hAttached t
  rw [hStage] at hFits
  cases hSeals with
  | expend r => exact .of_range h (by rw [hStage]; rfl) rfl (fun _ _ _ hEq => (by cases hEq)) fun _ => hFits.2
  | commit => exact .of_range_none rfl

theorem Closes.enters (h : Ordered mapLen s) (hAttached : Attached s) {g g' : Stage E}
    (hStage : s.stages t = g) (hCloses : Closes s t g g') : Enters s t mapLen g' := by
  have hFits := hAttached t
  rw [hStage] at hFits
  cases hCloses with
  | expend r => exact .of_range h (by rw [hStage]; rfl) rfl (fun _ _ _ hEq => (by cases hEq)) fun _ => hFits.2
  | reenter r => exact .of_range h (by rw [hStage]; rfl) rfl (fun _ _ _ hEq => (by cases hEq)) fun _ => hFits.2
  | _ => exact .of_range_none rfl

theorem Ordered.enter (h : Ordered mapLen s) {g : Stage E} (hEnters : Enters s t mapLen g)
    (hRadix : s'.radixlog = s.radixlog) (hSelf : s'.stages t = g)
    (hHeld : s'.base.held t = s.base.held t ∨ g.locking = none)
    (hOther : ∀ u, u ≠ t → s'.stages u = s.stages u ∧ s'.base.held u = s.base.held u) :
    Ordered mapLen s' := by
  refine h.goto hRadix hSelf hOther hEnters.inside (fun r p size epoch hEq => (hEnters.outside r p size epoch hEq).elim)
    fun r hr k hk => ?_
  rcases hHeld with hSame | hNone
  · rw [hSame, hEnters.locking r hr] at hk
    cases hk
  · rw [hNone] at hr
    cases hr

theorem slotOf_locate {r r' : RadixLog} (hWell : r.WellFormed) {off n : Nat} {p : Slot} {size : LogSize}
    (hLocate : r.locate off n = (p, size, r')) (hSpan : off < r.skipType.span) :
    r'.WellFormed ∧ Extended r r' ∧ r'.SlotOf p size off := by
  have hLocated := locate_spec hWell off n
  rw [hLocate] at hLocated
  refine ⟨hLocated.wellFormed, hLocated.grows.toExtended, ?_, hLocated.find, hLocated.size, hLocated.index⟩
  rw [hLocated.grows.skipType hWell.shape]
  exact hSpan

theorem Ordered.extend (h : Ordered mapLen s) {r : RadixLog} (hWell : r.WellFormed)
    (hExt : Extended s.radixlog r) : Ordered mapLen { s with radixlog := r } where
  wellFormed := hWell
  span := by
    change mapLen ≤ r.skipType.span
    rw [hExt.skipType h.wellFormed.shape]
    exact h.span
  inside := h.inside
  located t r' p size epoch hStage :=
    ⟨(h.located t r' p size epoch hStage).1, (h.located t r' p size epoch hStage).2.extended h.wellFormed.shape hExt⟩
  passed t r' hr k hk := (h.passed t r' hr k hk).extended h.wellFormed.shape hExt

theorem advance_off (r : Range) (size : LogSize) :
    (r.advance size).off = size.blockStart r.off + size.size := by
  have hMod := Nat.mod_lt r.off size.size_pos
  have hSplit := size.blockStart_add_mod r.off
  unfold Range.advance
  dsimp only
  omega

theorem Passed.mono {r : RadixLog} {p : Slot} {off off' : Nat} (h : Passed r p off) (hLe : off ≤ off') :
    Passed r p off' := by
  obtain ⟨size, a, hSlot, hEnd⟩ := h
  exact ⟨size, a, hSlot, Nat.le_trans hEnd hLe⟩

theorem Ordered.step (h : Ordered mapLen s) (hAttached : Attached s) {act : Act Unit E}
    (hInside : InsideMapped mapLen s (t, act)) (hEffect : Effect locateBlock s t act s') :
    Ordered mapLen s' := by
  have hOther := fun u => hEffect.other (u := u)
  cases hEffect with
  | stay => exact h
  | move g hMoves => exact h.enter (hMoves.enters h hAttached hInside rfl) rfl (goto_self ..) (.inl rfl) hOther
  | rdlock g l hOpens _ => exact h.enter (hOpens.enters h hAttached rfl) rfl (goto_self s t g) (.inl rfl) hOther
  | wrlock g l hSeals _ => exact h.enter (hSeals.enters h hAttached rfl) rfl (goto_self s t g) (.inl rfl) hOther
  | release g l hCloses _ => exact h.enter (hCloses.enters h hAttached rfl) rfl (goto_self s t g) (.inl rfl) hOther
  | bump _ => exact h.enter (.of_range_none rfl) rfl (goto_self s t .commitUnlock) (.inl rfl) hOther
  | retire k todo _ => exact h.enter (.of_range_none rfl) rfl (goto_self s t (.body .wr todo)) (.inl rfl) hOther
  | unlock type k base _ _ _ => exact h.enter (.of_range_none rfl) rfl (goto_self s t (.unlock type)) (.inr rfl) hOther
  | table a base _ _ _ _ => exact h.enter (.of_range_none rfl) rfl (goto_self s t .table) (.inr rfl) hOther
  | locate r p size radixlog x base hStage hn hLocate hBase =>
    have hRange := h.inside t r (by rw [hStage]; rfl) hn
    have hSpan := h.span
    obtain ⟨hWell, hExt, hSlot⟩ := slotOf_locate h.wellFormed hLocate (by omega)
    obtain ⟨_, hDone⟩ := Option.ite_none_right_eq_some.mp hBase
    cases hDone
    refine (h.extend hWell hExt).goto rfl (goto_self s t _) hOther (fun r' hr' _ => ?_)
      (fun r' p' size' epoch' hEq => ?_) fun r' hr' k hk => ?_
    · cases hr'
      exact hRange
    · cases hEq
      exact ⟨hn, hSlot⟩
    · cases hr'
      exact (h.passed t r (by rw [hStage]; rfl) k hk).extended h.wellFormed.shape hExt
  | inner r p size epoch a base hStage hAct hBase =>
    obtain ⟨hn, hSlot⟩ := h.located t r p size epoch hStage
    have hRange := h.inside t r (by rw [hStage]; rfl) hn
    have hPassed := h.passed t r (by rw [hStage]; rfl)
    have hFits := hAttached t
    rw [hStage] at hFits
    rcases (EntrySlots.State.step_effect hBase).request hFits with ⟨hTarget, hHeld⟩ | ⟨hIdle, e, hHeld⟩
    · -- the request is still at its slot
      obtain ⟨epoch', hSame⟩ : ∃ epoch', s.afterAccess t base (.inner r p size epoch) = .inner r p size epoch' := by
        have hBusy : base.calls t ≠ .idle := by
          intro hIdle
          rw [hIdle] at hTarget
          cases hTarget
        unfold afterAccess
        dsimp only
        rw [if_neg hBusy]
        split <;> exact ⟨_, rfl⟩
      rw [hSame] at hOther ⊢
      refine h.goto rfl (goto_self s t _) hOther (fun r' hr' _ => ?_) (fun r' p' size' _ hEq => ?_)
        fun r' hr' k hk => ?_
      · cases hr'
        exact hRange
      · cases hEq
        exact ⟨hn, hSlot⟩
      · cases hr'
        exact hPassed k (hHeld ▸ hk)
    · have hSame : s.afterAccess t base (.inner r p size epoch) = .loop (r.advance size) := by
        unfold afterAccess
        dsimp only
        rw [if_pos hIdle]
      have hEnd := advance_off r size
      have hLater : r.off ≤ (r.advance size).off := Nat.le_add_right ..
      rw [hSame] at hOther ⊢
      refine h.goto rfl (goto_self s t _) hOther (fun r' hr' hn' => ?_) (fun _ _ _ _ hEq => (by cases hEq))
        fun r' hr' k hk => ?_
      · cases hr'
        unfold Range.advance at hn' ⊢
        dsimp only at hn' ⊢
        omega
      · cases hr'
        have hk' : k ∈ base.held t := hk
        rw [hHeld] at hk'
        rcases List.mem_cons.mp hk' with rfl | hOld
        · exact ⟨size, r.off, hSlot, Nat.le_of_eq hEnd.symm⟩
        · exact (hPassed k hOld).mono hLater

/-! ## Waiting -/

/-- A lock that cannot be taken because of a thread. -/
def Blocks (type : LockType) (l : RwLock T) (u : T) : Prop :=
  match type with
  | .rd => 0 < l.writes u
  | .wr => 0 < l.reads u ∨ 0 < l.writes u

/-- A call waits for the lock of the mmio, or in `LOCK_ENTRIES` for the lock of the entry that is
in its slot, and another call, or itself, holds that lock. -/
def Waits (s : State T E RadixLog) (t u : T) : Prop :=
  match s.stages t with
  | .enter _ | .reenter _ => Blocks .rd s.rwlock u
  | .expendLock _ | .commitLock => Blocks .wr s.rwlock u
  | .inner r p _ _ => ∃ e, s.base.slots p = some e ∧ Blocks r.type (s.base.locks e) u
  | _ => False

def waitsAt (s : State T E RadixLog) (t : T) : Nat :=
  match s.stages t with
  | .inner r _ size _ => size.blockStart r.off
  | _ => 0

theorem Blocks.holds {type : LockType} {l : RwLock T} (h : Blocks type l u) : 0 < l.reads u ∨ 0 < l.writes u := by
  cases type with
  | rd => exact .inr h
  | wr => exact h

/-- The requests lie inside the length mapped at open, and trylocks find their entries installed. -/
def Proper (mapLen : Nat) (s : State T E RadixLog) (a : T × Act Unit E) : Prop :=
  StillInstalled s a ∧ InsideMapped mapLen s a

structure Kept (mapLen : Nat) (s : State T E RadixLog) : Prop where
  settled : s.base.Settled
  locked : Locked s
  attached : Attached s
  ordered : Ordered mapLen s

theorem Kept.step (h : Kept mapLen s) {a : T × Act Unit E}
    (hStep : Guarded (Proper mapLen) (Step locateBlock) s a s') :
    Kept mapLen s' := by
  have hEffect := step_effect locateBlock hStep.2
  exact ⟨settled_step h.settled ⟨hStep.1.1, hStep.2⟩, h.locked.step hEffect, h.attached.step hEffect,
    h.ordered.step h.attached hStep.1.2 hEffect⟩

/-- The lock of an installed entry that a thread holds is held for its request. -/
theorem Kept.exists_hold (h : Kept mapLen s) {p : Slot} {e : E} (hSlot : s.base.slots p = some e)
    (hWriting : (s.base.calls u).writing = none)
    (hHolds : 0 < (s.base.locks e).reads u ∨ 0 < (s.base.locks e).writes u) :
    ∃ k ∈ s.base.held u, k.slot = p := by
  have hPooled := h.settled.placed.not_pooled hSlot
  obtain ⟨type, hPos⟩ : ∃ type, 0 < s.base.holds u type e := by
    rcases hHolds with hRead | hWrite
    · rw [h.settled.accounted.reads e hPooled] at hRead
      exact ⟨.rd, hRead⟩
    · rw [h.settled.accounted.writes e hPooled, hWriting] at hWrite
      exact ⟨.wr, hWrite⟩
  obtain ⟨k, hk, hIs⟩ := List.countP_pos_iff.mp hPos
  obtain ⟨_, rfl⟩ := of_decide_eq_true hIs
  have hAnchored := h.settled.anchored.held u k hk
  cases h.settled.placed k.entry (.slot k.slot) (.slot p) hAnchored hSlot
  exact ⟨k, hk, rfl⟩

theorem Kept.not_waited (h : Kept mapLen s) (hReads : (s.stages u).reads = false)
    (hWrites : (s.stages u).writes = false) (hFree : s.base.calls u = .idle ∧ s.base.held u = []) :
    ¬ Waits s t u := by
  intro hWaited
  have hMmio : ∀ type, ¬ Blocks type s.rwlock u := by
    intro type hBlocks
    rcases hBlocks.holds with hRead | hWrite
    · rw [h.locked.reads, hReads] at hRead
      exact Nat.lt_irrefl 0 hRead
    · rw [h.locked.writes, hWrites] at hWrite
      exact Nat.lt_irrefl 0 hWrite
  unfold Waits at hWaited
  split at hWaited
  · exact hMmio _ hWaited
  · exact hMmio _ hWaited
  · exact hMmio _ hWaited
  · exact hMmio _ hWaited
  · obtain ⟨e, hSlot, hBlocks⟩ := hWaited
    obtain ⟨k, hk, _⟩ := h.exists_hold hSlot (by rw [hFree.1]; rfl) hBlocks.holds
    rw [hFree.2] at hk
    cases hk
  · exact hWaited

theorem Kept.inner_of_waits (h : Kept mapLen s) (hWaited : Waits s t u) {v : T} (hWaits : Waits s u v) :
    ∃ r p size epoch, s.stages u = .inner r p size epoch := by
  have hFits := h.attached u
  have hNot := h.not_waited (t := t) (u := u)
  cases hStage : s.stages u with
  | inner r p size epoch => exact ⟨r, p, size, epoch, rfl⟩
  | enter _ | reenter _ | expendLock _ | commitLock =>
    rw [hStage] at hFits hNot
    exact absurd hWaited (hNot rfl rfl hFits)
  | _ =>
    unfold Waits at hWaits
    rw [hStage] at hWaits
    exact hWaits.elim

/-- The holder of the block that a request waits for waits for a later block. -/
theorem Kept.waitsAt_lt (h : Kept mapLen s) (hWaited : Waits s t u) {v w : T} (hWaits : Waits s u v)
    (hNext : Waits s v w) : waitsAt s u < waitsAt s v := by
  obtain ⟨r, p, size, epoch, hStage⟩ := h.inner_of_waits hWaited hWaits
  obtain ⟨r', p', size', epoch', hStage'⟩ := h.inner_of_waits hWaits hNext
  have hFits := h.attached v
  rw [hStage'] at hFits
  unfold Waits at hWaits
  rw [hStage] at hWaits
  obtain ⟨e, hSlot, hBlocks⟩ := hWaits
  have hWriting : (s.base.calls v).writing = none := by
    cases hCall : s.base.calls v with
    | ckptTest _ _ | ckptFree _ _ =>
      rw [Fits, hCall] at hFits
      cases hFits
    | _ => rfl
  obtain ⟨k, hk, rfl⟩ := h.exists_hold hSlot hWriting hBlocks.holds
  obtain ⟨size'', a, hPassed, hEnd⟩ := h.ordered.passed v r' (by rw [hStage']; rfl) k hk
  obtain ⟨_, hHere⟩ := h.ordered.located u r k.slot size epoch hStage
  obtain ⟨_, hThere⟩ := h.ordered.located v r' p' size' epoch' hStage'
  obtain ⟨rfl, hBlock⟩ := hPassed.block_eq hHere h.ordered.wellFormed
  have hLater := hPassed.end_le_blockStart hThere hEnd
  rw [LogSize.blockStart_congr hBlock] at hLater
  have hPos := size''.size_pos
  rw [waitsAt, waitsAt, hStage, hStage']
  dsimp only
  omega

theorem kept_init (locks : E → RwLock T) (epoch : Nat) (hSmall : mapLen ≤ 2 ^ 48) :
    Kept mapLen (init locks (initRadixlog mapLen) epoch) where
  settled := EntrySlots.State.settled_init locks
  locked := ⟨fun _ => rfl, fun _ => rfl⟩
  attached _ := ⟨rfl, rfl⟩
  ordered := by
    refine ⟨initRadixlog_wellFormed mapLen, ?_, fun _ _ hr => (by cases hr), fun _ _ _ _ _ hStage => (by cases hStage),
      fun _ _ hr => (by cases hr)⟩
    change mapLen ≤ (initRadixlog mapLen).skipType.span
    have hBelow : mapLen - 1 < 2 ^ 48 := by omega
    have hSpan := lt_span_getDeepestTableType hBelow
    rw [(initRadixlog_chain mapLen).type]
    omega

/-- No run reaches a cycle of calls that wait for each other. -/
theorem not_waitsCycle_of_run {locks : E → RwLock T} {epoch : Nat} (hSmall : mapLen ≤ 2 ^ 48)
    {as : List (T × Act Unit E)}
    (hRun : Run (Guarded (Proper mapLen) (Step locateBlock)) (init locks (initRadixlog mapLen) epoch) as s)
    (t : T) : ¬ Relation.TransGen (Waits s) t t := by
  have hKept := hRun.invariant (Kept mapLen) (fun _ _ _ hInv hStep => hInv.step hStep)
    (kept_init locks epoch hSmall)
  exact @WaitGraph.not_cycle T (Waits s) (waitsAt s) (fun _ _ _ _ hx hab hbc => hKept.waitsAt_lt hx hab hbc) t

end State

/-! ## Over the shared lists -/

section Lists

open SharedLists (Controlled)
open SharedLists.State (proper_host proper_push proper_walk proper_unlockEntries)
open State

variable [DecidableEq T] [DecidableEq E]

def mapped (mapLen : Nat) : Controlled T E (State T E RadixLog) (Act Unit E) where
  Step := State.Step locateBlock
  Guard := Proper mapLen
  Proper := InsideMapped mapLen
  control s := s
  setControl _ c := c
  act := some
  Ready _ _ := True

theorem mapped_lawful (mapLen : Nat) : (mapped mapLen : Controlled T E _ _).Lawful where
  step_act _ _ _ _ _ hAct hStep := by
    cases hAct
    exact hStep
  step_other _ _ _ _ hAct _ := by cases hAct
  step_ready _ _ _ _ _ _ _ hReady := hReady
  guard _ _ _ hProper hInstalled := ⟨hInstalled _ rfl, hProper⟩
  control_setControl _ _ := rfl
  setControl_control _ := rfl
  ready_setControl _ _ _ hReady := hReady
  lift _ _ _ c _ _ _ hAct hStep := by
    refine ⟨c, ⟨?_, ?_⟩, hStep⟩
    · rcases hAct with ⟨k, rfl⟩ | rfl <;> trivial
    · rcases hAct with ⟨k, rfl⟩ | rfl <;> trivial

section Schedules

/-- A thread has pushed its entries, and goes on to `UNLOCK_ENTRIES` and through a list of one entry. -/
def finishOne (t : Bool) : List (Bool × SharedLists.Act (Act Unit Nat)) :=
  [(t, .host .step), (t, .host .step), (t, .host .step), (t, .unlockEntries), (t, .list), (t, .list), (t, .list),
    (t, .host .step)]

def writeByte (t : Bool) (offset : Nat) : List (Bool × SharedLists.Act (Act Unit Nat)) :=
  [(t, .host (.request .wr offset 1)), (t, .host .step), (t, .host .step), (t, .host (.locate ())),
    (t, .host (.entry .access)), (t, .host (.entry (.alloc 7))), (t, .host (.entry .access)),
    (t, .host (.entry .access)), (t, .list)] ++ finishOne t

def smallFile : SharedLists.State Bool Nat (State Bool Nat RadixLog) :=
  SharedLists.init (Concurrent.init (fun _ => .free) (initRadixlog 8192) 0) fun _ => none

/-- After a write a reader has locked the entry, which the next write waits for. -/
def writeReadWrite : List (Bool × SharedLists.Act (Act Unit Nat)) :=
  writeByte false 0 ++ [(true, .host (.request .rd 0 1)), (true, .host .step), (true, .host .step),
    (true, .host (.locate ())), (true, .host (.entry .access)), (true, .host (.entry .access)), (true, .list),
    (true, .host .step), (false, .host (.request .wr 0 1)), (false, .host .step), (false, .host .step),
    (false, .host (.locate ())), (false, .host (.entry .access))]

def checkpointSlot (p : Slot) : List (Bool × SharedLists.Act (Act Unit Nat)) :=
  [(true, .host .checkpoint), (true, .host .step), (true, .host (.entry (.checkpoint p))),
    (true, .host (.entry (.test true))), (true, .host (.entry .access)), (true, .host (.entry (.test true))),
    (true, .host (.entry .access)), (true, .host .step), (true, .host .finish)]

/-- Thread `false` writes two blocks. It loads entry 7 for the first, which then becomes the
entry of the second. -/
def lockTwice : List (Bool × SharedLists.Act (Act Unit Nat)) :=
  writeByte true 0 ++ [(false, .host (.request .wr 0 8192)), (false, .host .step), (false, .host .step),
    (false, .host (.locate ())), (false, .host (.entry .access))] ++ checkpointSlot ⟨3, 0⟩ ++ writeByte true 4096 ++
    [(false, .host (.entry .access)), (false, .list), (false, .host (.locate ()))]

end Schedules

end Lists

end Concurrent

end Libnvmmio

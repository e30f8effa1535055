import Libnvmmio.Foundation.RangeCopy
import Mathlib.Logic.Function.Basic

/-! # Copies under exclusion are atomic

Threads copy ranges of a shared array into buffers of their own and back, one
element at a time and in any order. As long as no element that a thread writes
is in the range of another copy, each copy takes effect as a whole, when it ends.
-/

namespace Libnvmmio.AtomicCopies

open RangeCopy

set_option autoImplicit false

universe u v
variable {T : Type u} {β : Type v}

/-- A copy as a single operation on an array. -/
inductive Op (β : Type v) where
  | read (off len : Nat) (buf : Nat → β)
  | write (off len : Nat) (buf : Nat → β)

namespace Op

def off : Op β → Nat
  | .read off _ _ => off
  | .write off _ _ => off

def len : Op β → Nat
  | .read _ len _ => len
  | .write _ len _ => len

def apply (f : Nat → β) : Op β → Nat → β
  | .read _ _ _ => f
  | .write off len buf => blit f off buf 0 len

def Answers (f : Nat → β) : Op β → Prop
  | .read off len buf => ∀ i, i < len → buf i = f (off + i)
  | .write _ _ _ => True

end Op

def replay (f : Nat → β) (ops : List (Op β)) : Nat → β := ops.foldl Op.apply f

def Legal : (Nat → β) → List (Op β) → Prop
  | _, [] => True
  | f, op :: ops => op.Answers f ∧ Legal (op.apply f) ops

theorem replay_snoc (f : Nat → β) (ops : List (Op β)) (op : Op β) :
    replay f (ops ++ [op]) = op.apply (replay f ops) := List.foldl_append ..

theorem legal_snoc {f : Nat → β} {ops : List (Op β)} {op : Op β} (h : Legal f ops)
    (hAnswers : op.Answers (replay f ops)) : Legal f (ops ++ [op]) := by
  induction ops generalizing f with
  | nil => exact ⟨hAnswers, trivial⟩
  | cons first ops ih => exact ⟨h.1, ih h.2 hAnswers⟩

theorem answers_of_legal_snoc {f : Nat → β} {ops : List (Op β)} {op : Op β} (h : Legal f (ops ++ [op])) :
    op.Answers (replay f ops) := by
  induction ops generalizing f with
  | nil => exact h.1
  | cons first ops ih => exact ih h.2

/-- A copy in progress: `buf` is the source of a write, or what a read has collected. -/
structure Transfer (β : Type v) where
  write : Bool
  off : Nat
  len : Nat
  buf : Nat → β
  moved : Nat → Bool

namespace Transfer

def op (x : Transfer β) : Op β :=
  if x.write then .write x.off x.len x.buf else .read x.off x.len x.buf

def Spans (x : Transfer β) (a : Nat) : Prop := x.off ≤ a ∧ a < x.off + x.len

def HasWritten (x : Transfer β) (a : Nat) : Prop :=
  x.write = true ∧ x.Spans a ∧ x.moved (a - x.off) = true

def Fresh (x : Transfer β) : Prop := ∀ i, x.moved i = false

def Complete (x : Transfer β) : Prop := ∀ i, i < x.len → x.moved i = true

end Transfer

structure State (T : Type u) (β : Type v) where
  array : Nat → β
  active : T → Option (Transfer β)
  log : List (T × Op β)

namespace State

variable [DecidableEq T]

def setActive (s : State T β) (t : T) (x : Option (Transfer β)) : State T β :=
  { s with active := Function.update s.active t x }

def move (s : State T β) (t : T) (x : Transfer β) (i : Nat) : State T β :=
  let y := { x with moved := Function.update x.moved i true }
  if x.write then
    { s.setActive t (some y) with array := Function.update s.array (x.off + i) (x.buf i) }
  else s.setActive t (some { y with buf := Function.update x.buf i (s.array (x.off + i)) })

def finish (s : State T β) (t : T) (x : Transfer β) : State T β :=
  { s.setActive t none with log := s.log ++ [(t, x.op)] }

omit [DecidableEq T] in
/-- The operations in the order in which they have taken effect. -/
def ops (s : State T β) : List (Op β) := s.log.map Prod.snd

/-- What one thread writes no other is copying. -/
def Exclusive (s : State T β) : Prop := ∀ t u x y a, t ≠ u → s.active t = some x → s.active u = some y →
  x.write = true → x.Spans a → ¬ y.Spans a

/-- The array is the one that the finished operations leave, but for what is being written. -/
structure Consistent (f : Nat → β) (s : State T β) : Prop where
  legal : Legal f s.ops
  settled : ∀ a, (∀ t x, s.active t = some x → ¬ x.HasWritten a) → s.array a = replay f s.ops a
  written : ∀ t x a, s.active t = some x → x.HasWritten a → s.array a = x.buf (a - x.off)
  collected : ∀ t x i, s.active t = some x → x.write = false → i < x.len → x.moved i = true →
    x.buf i = replay f s.ops (x.off + i)

variable {f : Nat → β} {s : State T β} {t : T} {x : Transfer β}

theorem setActive_cases {y : Option (Transfer β)} {u : T} {z : Transfer β}
    (h : (s.setActive t y).active u = some z) : u = t ∧ y = some z ∨ u ≠ t ∧ s.active u = some z := by
  unfold setActive at h
  dsimp only at h
  rw [Function.update_apply] at h
  split at h
  · exact .inl ⟨‹_›, h⟩
  · exact .inr ⟨‹_›, h⟩

/-- A step of a copy changes what it has moved, and for a read what it has collected. -/
theorem move_active (s : State T β) (t : T) (x : Transfer β) (i : Nat) :
    ∃ y, (s.move t x i).active t = some y ∧ (∀ u, u ≠ t → (s.move t x i).active u = s.active u) ∧
      y.write = x.write ∧ y.off = x.off ∧ y.len = x.len ∧ (x.write = true → y.buf = x.buf) := by
  unfold move
  dsimp only
  split
  · exact ⟨_, Function.update_self .., fun u hu => Function.update_of_ne hu .., rfl, rfl, rfl, fun _ => rfl⟩
  · rename_i hRead
    exact ⟨_, Function.update_self .., fun u hu => Function.update_of_ne hu .., rfl, rfl, rfl,
      fun hWrite => absurd hWrite hRead⟩

omit [DecidableEq T] in
theorem not_written_of_read (hRead : x.write = false) (a : Nat) : ¬ x.HasWritten a := by
  intro hWritten
  have hWrites := hWritten.1
  rw [hRead] at hWrites
  cases hWrites

/-- A thread that has not written the array goes on with another copy. -/
theorem Consistent.setActive (h : Consistent f s) {y : Option (Transfer β)}
    (hWas : ∀ x, s.active t = some x → ∀ a, ¬ x.HasWritten a) (hIs : ∀ z, y = some z → ∀ a, ¬ z.HasWritten a)
    (hCollected : ∀ z i, y = some z → z.write = false → i < z.len → z.moved i = true →
      z.buf i = replay f s.ops (z.off + i)) : Consistent f (s.setActive t y) := by
  refine ⟨h.legal, fun a hNone => h.settled a fun u x hActive hWritten => ?_, fun u z a hActive hWritten => ?_,
    fun u z i hActive hRead hi hMoved => ?_⟩
  · by_cases hu : u = t
    · subst hu
      exact hWas x hActive a hWritten
    · exact hNone u x ((Function.update_of_ne hu ..).trans hActive) hWritten
  · rcases setActive_cases hActive with ⟨_, hSame⟩ | ⟨_, hOld⟩
    · exact absurd hWritten (hIs z hSame a)
    · exact h.written u z a hOld hWritten
  · rcases setActive_cases hActive with ⟨_, hSame⟩ | ⟨_, hOld⟩
    · exact hCollected z i hSame hRead hi hMoved
    · exact h.collected u z i hOld hRead hi hMoved

theorem Consistent.start (h : Consistent f s) (hIdle : s.active t = none) (hFresh : x.Fresh) :
    Consistent f (s.setActive t (some x)) := by
  apply h.setActive
  · intro y hActive
    rw [hIdle] at hActive
    cases hActive
  · intro z hSame a hWritten
    cases hSame
    have hNot := hWritten.2.2
    rw [hFresh] at hNot
    cases hNot
  · intro z i hSame _ _ hMoved
    cases hSame
    rw [hFresh] at hMoved
    cases hMoved

omit [DecidableEq T] in
theorem not_written_of_active (hActive : s.active t = some x) (hRead : x.write = false) (y : Transfer β)
    (hOther : s.active t = some y) (a : Nat) : ¬ y.HasWritten a := by
  rw [hActive] at hOther
  cases hOther
  exact not_written_of_read hRead a

/-- A read may turn out shorter than it was asked to be. -/
theorem Consistent.clip (h : Consistent f s) (hActive : s.active t = some x) (hRead : x.write = false)
    {n : Nat} (hn : n ≤ x.len) : Consistent f (s.setActive t (some { x with len := n })) := by
  apply h.setActive (not_written_of_active hActive hRead)
  · intro z hSame
    cases hSame
    exact not_written_of_read hRead
  · intro z i hSame _ hi hMoved
    cases hSame
    exact h.collected t x i hActive hRead (Nat.lt_of_lt_of_le hi hn) hMoved

omit [DecidableEq T] in
/-- What a thread reads nobody has written meanwhile. -/
theorem Consistent.unwritten (h : Consistent f s) (hExclusive : s.Exclusive) (hActive : s.active t = some x)
    (hRead : x.write = false) {a : Nat} (ha : x.Spans a) : s.array a = replay f s.ops a := by
  apply h.settled
  intro u y hOther hWritten
  have hu : u ≠ t := by
    rintro rfl
    exact not_written_of_active hActive hRead y hOther a hWritten
  exact hExclusive u t y x a hu hOther hActive hWritten.1 hWritten.2.1 ha

theorem Consistent.move_read (h : Consistent f s) (hExclusive : s.Exclusive) (hActive : s.active t = some x)
    (hRead : x.write = false) {i : Nat} (hi : i < x.len) : Consistent f (s.move t x i) := by
  have hByte := h.unwritten hExclusive hActive hRead (a := x.off + i) ⟨Nat.le_add_right .., by omega⟩
  unfold move
  dsimp only
  rw [if_neg (by rw [hRead]; decide)]
  apply h.setActive (not_written_of_active hActive hRead)
  · intro z hSame
    cases hSame
    exact not_written_of_read hRead
  · intro z j hSame _ hj hMoved
    cases hSame
    dsimp only at hMoved hj ⊢
    by_cases hji : j = i
    · rw [hji, Function.update_self]
      exact hByte
    · rw [Function.update_of_ne hji] at hMoved ⊢
      exact h.collected t x j hActive hRead hj hMoved

theorem Consistent.move_write (h : Consistent f s) (hExclusive : s.Exclusive) (hActive : s.active t = some x)
    (hWrite : x.write = true) {i : Nat} (hi : i < x.len) : Consistent f (s.move t x i) := by
  have hHere : x.Spans (x.off + i) := ⟨Nat.le_add_right .., by omega⟩
  unfold move
  dsimp only
  rw [if_pos hWrite]
  refine ⟨h.legal, fun a hNone => ?_, fun u y a hNew hWritten => ?_, fun u y j hNew hy hj hMoved => ?_⟩
  · have hSelf := hNone t _ (Function.update_self ..)
    have hElse : a ≠ x.off + i := by
      rintro rfl
      refine hSelf ⟨hWrite, hHere, ?_⟩
      dsimp only
      rw [Nat.add_sub_cancel_left, Function.update_self]
    refine (Function.update_of_ne hElse ..).trans (h.settled a fun u y hOld hWritten => ?_)
    by_cases hu : u = t
    · subst hu
      rw [hActive] at hOld
      cases hOld
      refine hSelf ⟨hWrite, hWritten.2.1, ?_⟩
      have hOff := hWritten.2.1.1
      dsimp only
      rw [Function.update_of_ne (by omega)]
      exact hWritten.2.2
    · exact hNone u y ((Function.update_of_ne hu ..).trans hOld) hWritten
  · rcases setActive_cases hNew with ⟨_, hSame⟩ | ⟨hu, hOld⟩
    · cases hSame
      have hOff := hWritten.2.1.1
      dsimp only at hOff ⊢
      by_cases hElse : a = x.off + i
      · rw [hElse, Function.update_self, Nat.add_sub_cancel_left]
      · rw [Function.update_of_ne hElse]
        refine h.written t x a hActive ⟨hWrite, hWritten.2.1, ?_⟩
        have hMoved := hWritten.2.2
        dsimp only at hMoved
        rw [Function.update_of_ne (by omega)] at hMoved
        exact hMoved
    · have hElse : a ≠ x.off + i := by
        rintro rfl
        exact hExclusive t u x y _ (Ne.symm hu) hActive hOld hWrite hHere hWritten.2.1
      exact (Function.update_of_ne hElse ..).trans (h.written u y a hOld hWritten)
  · rcases setActive_cases hNew with ⟨_, hSame⟩ | ⟨_, hOld⟩
    · cases hSame
      rw [hy] at hWrite
      cases hWrite
    · exact h.collected u y j hOld hy hj hMoved

theorem Consistent.move (h : Consistent f s) (hExclusive : s.Exclusive) (hActive : s.active t = some x)
    {i : Nat} (hi : i < x.len) : Consistent f (s.move t x i) := by
  cases hWrite : x.write with
  | false => exact h.move_read hExclusive hActive hWrite hi
  | true => exact h.move_write hExclusive hActive hWrite hi

theorem ops_finish (s : State T β) (t : T) (x : Transfer β) : (s.finish t x).ops = s.ops ++ [x.op] := by
  unfold ops finish
  exact List.map_append

theorem Consistent.finish_read (h : Consistent f s) (hActive : s.active t = some x) (hRead : x.write = false)
    (hComplete : x.Complete) : Consistent f (s.finish t x) := by
  have hOp : x.op = .read x.off x.len x.buf := if_neg (by rw [hRead]; decide)
  have hReplay : replay f (s.finish t x).ops = replay f s.ops := by
    rw [ops_finish, replay_snoc, hOp]
    rfl
  have hGone : Consistent f (s.setActive t none) := by
    apply h.setActive (not_written_of_active hActive hRead)
    · intro z hSame
      cases hSame
    · intro z i hSame
      cases hSame
  refine ⟨?_, ?_, hGone.written, ?_⟩
  · rw [ops_finish]
    apply legal_snoc h.legal
    rw [hOp]
    intro i hi
    exact h.collected t x i hActive hRead hi (hComplete i hi)
  · rw [hReplay]
    exact hGone.settled
  · rw [hReplay]
    exact hGone.collected

theorem Consistent.finish_write (h : Consistent f s) (hExclusive : s.Exclusive) (hActive : s.active t = some x)
    (hWrite : x.write = true) (hComplete : x.Complete) : Consistent f (s.finish t x) := by
  have hOp : x.op = .write x.off x.len x.buf := if_pos hWrite
  have hReplay : replay f (s.finish t x).ops = blit (replay f s.ops) x.off x.buf 0 x.len := by
    rw [ops_finish, replay_snoc, hOp]
    rfl
  refine ⟨?_, fun a hNone => ?_, fun u y a hNew hWritten => ?_, fun u y j hNew hy hj hMoved => ?_⟩
  · rw [ops_finish]
    apply legal_snoc h.legal
    rw [hOp]
    trivial
  · rw [hReplay]
    by_cases ha : x.Spans a
    · rw [blit_inside ha.1 ha.2, Nat.zero_add]
      have hLow := ha.1
      have hHigh := ha.2
      exact h.written t x a hActive ⟨hWrite, ha, hComplete _ (by omega)⟩
    · rw [blit_outside (by unfold Transfer.Spans at ha; omega)]
      apply h.settled
      intro u y hOld hWritten
      by_cases hu : u = t
      · subst hu
        rw [hActive] at hOld
        cases hOld
        exact ha hWritten.2.1
      · exact hNone u y ((Function.update_of_ne hu ..).trans hOld) hWritten
  · rcases setActive_cases hNew with ⟨_, hSame⟩ | ⟨_, hOld⟩
    · cases hSame
    · exact h.written u y a hOld hWritten
  · rw [hReplay]
    rcases setActive_cases hNew with ⟨_, hSame⟩ | ⟨hu, hOld⟩
    · cases hSame
    · have hApart : ¬ x.Spans (y.off + j) := by
        intro ha
        exact hExclusive t u x y _ (Ne.symm hu) hActive hOld hWrite ha ⟨Nat.le_add_right .., by omega⟩
      rw [blit_outside (by unfold Transfer.Spans at hApart; omega)]
      exact h.collected u y j hOld hy hj hMoved

theorem Consistent.finish (h : Consistent f s) (hExclusive : s.Exclusive) (hActive : s.active t = some x)
    (hComplete : x.Complete) : Consistent f (s.finish t x) := by
  cases hWrite : x.write with
  | false => exact h.finish_read hActive hWrite hComplete
  | true => exact h.finish_write hExclusive hActive hWrite hComplete

end State

end Libnvmmio.AtomicCopies

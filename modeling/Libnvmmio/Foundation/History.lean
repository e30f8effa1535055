import Mathlib.Data.List.Basic
import Mathlib.Logic.Function.Basic

/-! # Histories of calls with an effect

A thread makes a call, the call takes effect once, and it returns. The log has the
effects in their order, and a call keeps the lengths of the log at its call and at
its return, so that calls which do not overlap are ordered as they were made.
-/

namespace Libnvmmio

set_option autoImplicit false

universe u v
variable {T : Type u} {O : Type v}

structure ReturnedCall (T : Type u) (O : Type v) where
  thread : T
  op : O
  called : Nat
  returned : Nat

structure History (T : Type u) (O : Type v) where
  log : List (T × O)
  called : T → Nat
  /-- the effect of a call that has not returned -/
  pending : T → Option O
  returned : List (ReturnedCall T O)

namespace History

def empty : History T O := ⟨[], fun _ => 0, fun _ => none, []⟩

def ops (h : History T O) : List O := h.log.map Prod.snd

variable [DecidableEq T]

def call (h : History T O) (t : T) : History T O :=
  { h with called := Function.update h.called t h.log.length }

def effect (h : History T O) (t : T) (o : O) : History T O :=
  { h with log := h.log ++ [(t, o)], pending := Function.update h.pending t (some o) }

/-- A call without an effect leaves no record. -/
def ret (h : History T O) (t : T) : History T O :=
  { h with
    pending := Function.update h.pending t none
    returned := h.returned ++ (h.pending t).toList.map fun o => ⟨t, o, h.called t, h.log.length⟩ }

def effects (h : History T O) (t : T) : List O := (h.log.filter fun o => o.1 = t).map Prod.snd

def results (h : History T O) (t : T) : List O :=
  (h.returned.filter fun c => c.thread = t).map ReturnedCall.op

/-- Each call has taken effect once, between its call and its return. -/
structure Ordered (h : History T O) : Prop where
  called : ∀ t, h.called t ≤ h.log.length
  pending : ∀ t o, h.pending t = some o → ∃ i, h.called t ≤ i ∧ h.log[i]? = some (t, o)
  point : ∀ c ∈ h.returned, ∃ i, c.called ≤ i ∧ i < c.returned ∧ h.log[i]? = some (c.thread, c.op)
  program : ∀ t, h.effects t = h.results t ++ (h.pending t).toList

variable {h : History T O} {t : T}

theorem ops_effect (h : History T O) (t : T) (o : O) : (h.effect t o).ops = h.ops ++ [o] := by
  rw [ops, ops, effect, List.map_append, List.map_singleton]

@[simp] theorem ops_call (h : History T O) (t : T) : (h.call t).ops = h.ops := rfl
@[simp] theorem ops_ret (h : History T O) (t : T) : (h.ret t).ops = h.ops := rfl

theorem ordered_empty : (empty : History T O).Ordered := by
  refine ⟨fun t => Nat.le_refl 0, fun t o hPending => ?_, fun c hc => ?_, fun t => rfl⟩
  · cases hPending
  · cases hc

theorem Ordered.call (hOrdered : h.Ordered) (hNone : h.pending t = none) : (h.call t).Ordered := by
  refine ⟨fun u => ?_, fun u o hPending => ?_, hOrdered.point, hOrdered.program⟩
  · unfold History.call
    dsimp only
    rw [Function.update_apply]
    split
    · exact Nat.le_refl _
    · exact hOrdered.called u
  · have hu : u ≠ t := by
      rintro rfl
      rw [show h.pending u = some o from hPending] at hNone
      cases hNone
    obtain ⟨i, hLow, hAt⟩ := hOrdered.pending u o hPending
    exact ⟨i, by rw [show (h.call t).called u = h.called u from Function.update_of_ne hu ..]; exact hLow, hAt⟩

/-- An index of the log keeps its effect. -/
theorem log_effect {o o' : O} {u : T} {i : Nat} (hAt : h.log[i]? = some (u, o')) :
    (h.effect t o).log[i]? = some (u, o') := by
  obtain ⟨hi, _⟩ := List.getElem?_eq_some_iff.mp hAt
  exact (List.getElem?_append_left hi).trans hAt

theorem Ordered.effect (hOrdered : h.Ordered) (hNone : h.pending t = none) (o : O) : (h.effect t o).Ordered := by
  refine ⟨fun u => ?_, fun u o' hPending => ?_, fun c hc => ?_, fun u => ?_⟩
  · have hCalled := hOrdered.called u
    simp only [History.effect, List.length_append]
    omega
  · by_cases hu : u = t
    · subst hu
      rw [show (h.effect u o).pending u = some o from Function.update_self ..] at hPending
      cases hPending
      exact ⟨h.log.length, hOrdered.called u, List.getElem?_concat_length⟩
    · rw [show (h.effect t o).pending u = h.pending u from Function.update_of_ne hu ..] at hPending
      obtain ⟨i, hLow, hAt⟩ := hOrdered.pending u o' hPending
      exact ⟨i, hLow, log_effect hAt⟩
  · obtain ⟨i, hLow, hHigh, hAt⟩ := hOrdered.point c hc
    exact ⟨i, hLow, hHigh, log_effect hAt⟩
  · have hProgram := hOrdered.program u
    unfold effects at hProgram ⊢
    unfold History.effect
    dsimp only
    rw [List.filter_append, List.map_append, hProgram]
    by_cases hu : u = t
    · subst hu
      simp [results, hNone]
    · simp [results, hu, Ne.symm hu]

theorem Ordered.ret (hOrdered : h.Ordered) (t : T) : (h.ret t).Ordered := by
  refine ⟨hOrdered.called, fun u o hPending => ?_, fun c hc => ?_, fun u => ?_⟩
  · unfold History.ret at hPending
    dsimp only at hPending
    rw [Function.update_apply] at hPending
    split at hPending
    · cases hPending
    · exact hOrdered.pending u o hPending
  · rcases List.mem_append.mp hc with hOld | hNew
    · exact hOrdered.point c hOld
    · obtain ⟨o, ho, rfl⟩ := List.mem_map.mp hNew
      obtain ⟨i, hLow, hAt⟩ := hOrdered.pending t o (Option.mem_toList.mp ho)
      obtain ⟨hi, _⟩ := List.getElem?_eq_some_iff.mp hAt
      exact ⟨i, hLow, hi, hAt⟩
  · have hProgram := hOrdered.program u
    unfold results at hProgram ⊢
    unfold History.ret
    dsimp only
    rw [List.filter_append, List.map_append]
    by_cases hu : u = t
    · subst hu
      cases hPending : h.pending u <;> simpa [effects, hPending] using hProgram
    · rw [Function.update_of_ne hu]
      cases hPending : h.pending t <;> simpa [effects, Ne.symm hu] using hProgram

end History

end Libnvmmio

import Mathlib.Tactic.Common

/-! # The values that a word of persistent memory may keep

A store is durable for certain after a flush of its word and a fence. Before
that a crash may keep it or not, whatever becomes of the other words.
-/

namespace Libnvmmio

set_option autoImplicit false

universe u

/-- A word, with the stores to it that are not yet durable for certain. -/
structure PersistentWord (V : Type u) where
  base : V
  flushed : List V
  dirty : List V

namespace PersistentWord

variable {V : Type u}

def durable (v : V) : PersistentWord V := ⟨v, [], []⟩

def store (w : PersistentWord V) (v : V) : PersistentWord V := { w with dirty := w.dirty ++ [v] }

def flush (w : PersistentWord V) : PersistentWord V := ⟨w.base, w.flushed ++ w.dirty, []⟩

def fence (w : PersistentWord V) : PersistentWord V := ⟨w.flushed.getLastD w.base, [], w.dirty⟩

def current (w : PersistentWord V) : V := (w.flushed ++ w.dirty).getLastD w.base

def values (w : PersistentWord V) : List V := w.base :: (w.flushed ++ w.dirty)

@[simp] theorem values_store (w : PersistentWord V) (v : V) : (w.store v).values = w.values ++ [v] := by
  simp [values, store]

@[simp] theorem values_flush (w : PersistentWord V) : w.flush.values = w.values := by
  simp [values, flush]

theorem current_mem (w : PersistentWord V) : w.current ∈ w.values := by
  rw [current, values, List.getLastD_eq_getLast?]
  cases hLast : (w.flushed ++ w.dirty).getLast? with
  | none => exact List.mem_cons_self
  | some v => exact List.mem_cons_of_mem _ (List.mem_of_getLast? hLast)

theorem mem_values_of_fence {w : PersistentWord V} {v : V} (h : v ∈ w.fence.values) : v ∈ w.values := by
  simp only [values, fence, List.nil_append, List.mem_cons, List.mem_append] at h ⊢
  rcases h with rfl | hDirty
  · rw [List.getLastD_eq_getLast?]
    cases hLast : w.flushed.getLast? with
    | none => exact .inl rfl
    | some x => exact .inr (.inl (List.mem_of_getLast? hLast))
  · exact .inr (.inr hDirty)

/-! ## How far the latest stores have got -/

/-- How durable the stores since some moment are. -/
inductive Settling where
  | pending
  | flushed
  | fenced
  deriving DecidableEq, Repr

namespace Settling

def afterFlush : Settling → Settling
  | .pending => .flushed
  | t => t

def afterFence : Settling → Settling
  | .flushed => .fenced
  | t => t

end Settling

def EndsIn (P : V → Prop) (stores : List V) : Prop :=
  ∃ older newer, stores = older ++ newer ∧ newer ≠ [] ∧ ∀ v ∈ newer, P v

/-- The stores since some moment have the property, and have got that far. -/
def Since (P : V → Prop) (w : PersistentWord V) : Settling → Prop
  | .pending => EndsIn P w.dirty
  | .flushed => EndsIn P w.flushed ∧ ∀ v ∈ w.dirty, P v
  | .fenced => ∀ v ∈ w.values, P v

variable {P Q : V → Prop} {w : PersistentWord V} {t : Settling}

theorem EndsIn.mono {stores : List V} (h : EndsIn P stores) (hImp : ∀ v ∈ stores, P v → Q v) :
    EndsIn Q stores := by
  obtain ⟨older, newer, rfl, hSome, hNewer⟩ := h
  exact ⟨older, newer, rfl, hSome, fun v hv => hImp v (List.mem_append_right older hv) (hNewer v hv)⟩

theorem EndsIn.append {stores more : List V} (h : EndsIn P stores) (hMore : ∀ v ∈ more, P v) :
    EndsIn P (stores ++ more) := by
  obtain ⟨older, newer, rfl, hSome, hNewer⟩ := h
  refine ⟨older, newer ++ more, List.append_assoc .., fun hNil => hSome (List.append_eq_nil_iff.mp hNil).1, ?_⟩
  intro v hv
  exact (List.mem_append.mp hv).elim (hNewer v) (hMore v)

theorem endsIn_snoc (stores : List V) {v : V} (h : P v) : EndsIn P (stores ++ [v]) :=
  ⟨stores, [v], rfl, List.cons_ne_nil v [], fun _ hx => List.mem_singleton.mp hx ▸ h⟩

theorem EndsIn.getLastD {stores : List V} (h : EndsIn P stores) (v : V) : P (stores.getLastD v) := by
  obtain ⟨older, newer, rfl, hSome, hNewer⟩ := h
  rw [List.getLastD_eq_getLast?, List.getLast?_append, List.getLast?_eq_some_getLast hSome]
  exact hNewer _ (List.getLast_mem hSome)

theorem Since.mono (h : w.Since P t) (hImp : ∀ v ∈ w.values, P v → Q v) : w.Since Q t := by
  have hFlushed (v : V) (hv : v ∈ w.flushed) := hImp v (List.mem_cons_of_mem _ (List.mem_append_left _ hv))
  have hDirty (v : V) (hv : v ∈ w.dirty) := hImp v (List.mem_cons_of_mem _ (List.mem_append_right _ hv))
  cases t with
  | pending => exact EndsIn.mono h hDirty
  | flushed => exact ⟨h.1.mono hFlushed, fun v hv => hDirty v hv (h.2 v hv)⟩
  | fenced => exact fun v hv => hImp v hv (h v hv)

theorem since_store (w : PersistentWord V) {v : V} (h : P v) : (w.store v).Since P .pending :=
  endsIn_snoc w.dirty h

theorem Since.store (h : w.Since P t) {v : V} (hv : P v) : (w.store v).Since P t := by
  cases t with
  | pending => exact EndsIn.append h fun x hx => List.mem_singleton.mp hx ▸ hv
  | flushed =>
    refine ⟨h.1, fun x hx => ?_⟩
    exact (List.mem_append.mp hx).elim (h.2 x) fun hNew => List.mem_singleton.mp hNew ▸ hv
  | fenced =>
    intro x hx
    rw [values_store] at hx
    exact (List.mem_append.mp hx).elim (h x) fun hNew => List.mem_singleton.mp hNew ▸ hv

theorem Since.flush (h : w.Since P t) : w.flush.Since P t.afterFlush := by
  cases t with
  | pending =>
    obtain ⟨older, newer, hSplit, hSome, hNewer⟩ := h
    refine ⟨⟨w.flushed ++ older, newer, ?_, hSome, hNewer⟩, fun v hv => absurd hv List.not_mem_nil⟩
    rw [List.append_assoc, ← hSplit]
    rfl
  | flushed => exact ⟨h.1.append h.2, fun v hv => absurd hv List.not_mem_nil⟩
  | fenced =>
    intro v hv
    rw [values_flush] at hv
    exact h v hv

theorem Since.fence (h : w.Since P t) : w.fence.Since P t.afterFence := by
  cases t with
  | pending => exact h
  | flushed =>
    intro v hv
    rcases List.mem_cons.mp hv with rfl | hLater
    · exact h.1.getLastD w.base
    · exact h.2 v hLater
  | fenced => exact fun v hv => h v (mem_values_of_fence hv)

end PersistentWord

end Libnvmmio

import Mathlib.Tactic.Common

/-! # Computations that may fail

A result of a sequence of steps is peeled apart with one lemma. A loop over a
list has two rules: what every successful step keeps, a successful loop keeps;
if from every state of the invariant the next step succeeds and restores it,
the loop succeeds.
-/

namespace Libnvmmio.Outcome

set_option autoImplicit false

universe u v w
variable {ε : Type u} {α β : Type v} {ι : Type w}

@[simp] theorem ok_bind (a : α) (f : α → Except ε β) : (Except.ok a >>= f) = f a := rfl

theorem bind_eq_ok {x : Except ε α} {f : α → Except ε β} {b : β} (h : x >>= f = .ok b) :
    ∃ a, x = .ok a ∧ f a = .ok b := by
  cases x with
  | error e => cases h
  | ok a => exact ⟨a, rfl, h⟩

theorem foldlM_keeps {f : α → ι → Except ε α} (Inv : α → Prop) {l : List ι}
    (hStep : ∀ a i b, i ∈ l → Inv a → f a i = .ok b → Inv b) :
    ∀ {a b : α}, Inv a → l.foldlM f a = .ok b → Inv b := by
  induction l with
  | nil =>
    intro a b hInv h
    cases h
    exact hInv
  | cons i l ih =>
    intro a b hInv h
    rw [List.foldlM_cons] at h
    obtain ⟨c, hc, hRest⟩ := bind_eq_ok h
    exact ih (fun a j b hj => hStep a j b (List.mem_cons_of_mem i hj))
      (hStep a i c List.mem_cons_self hInv hc) hRest

theorem foldlM_succeeds {f : α → ι → Except ε α} (Inv : α → Prop) {l : List ι}
    (hStep : ∀ a i, i ∈ l → Inv a → ∃ b, f a i = .ok b ∧ Inv b) :
    ∀ {a : α}, Inv a → ∃ b, l.foldlM f a = .ok b ∧ Inv b := by
  induction l with
  | nil => exact fun {a} hInv => ⟨a, rfl, hInv⟩
  | cons i l ih =>
    intro a hInv
    obtain ⟨c, hc, hInvC⟩ := hStep a i List.mem_cons_self hInv
    obtain ⟨b, hb, hInvB⟩ := ih (fun a j hj => hStep a j (List.mem_cons_of_mem i hj)) hInvC
    refine ⟨b, ?_, hInvB⟩
    rw [List.foldlM_cons, hc]
    exact hb

/-- A fact that each step establishes for its own index and no step destroys
holds for every index after the loop. -/
theorem foldlM_establishes {f : α → ι → Except ε α} (Done : ι → α → Prop)
    (hOwn : ∀ a i b, f a i = .ok b → Done i b)
    (hKeep : ∀ a i j b, Done j a → f a i = .ok b → Done j b) :
    ∀ {l : List ι} {a b : α}, l.foldlM f a = .ok b → ∀ i, i ∈ l → Done i b := by
  intro l
  induction l with
  | nil =>
    intro a b _ i hi
    cases hi
  | cons j l ih =>
    intro a b h i hi
    rw [List.foldlM_cons] at h
    obtain ⟨c, hc, hRest⟩ := bind_eq_ok h
    rcases List.mem_cons.mp hi with rfl | hi
    · exact foldlM_keeps _ (fun a k b _ hDone hb => hKeep a k i b hDone hb) (hOwn a i c hc) hRest
    · exact ih hRest i hi

end Libnvmmio.Outcome

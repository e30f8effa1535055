import Mathlib.Logic.Relation

/-! # Cycles of waiting -/

namespace Libnvmmio.WaitGraph

set_option autoImplicit false

universe u
variable {α : Type u} {waits : α → α → Prop} {rank : α → Nat}

/-- If whoever is waited for and waits himself waits for someone of higher rank that waits too, then
the rank rises along every chain of such waits. -/
theorem rank_lt_of_chain
    (hRise : ∀ x a b c, waits x a → waits a b → waits b c → rank a < rank b) {a b : α}
    (hChain : Relation.TransGen waits a b) {x c : α} (hx : waits x a) (hc : waits b c) :
    rank a < rank b := by
  induction hChain generalizing c with
  | single hab => exact hRise _ _ _ _ hx hab hc
  | tail hChain hLast ih =>
    obtain ⟨y, hy⟩ : ∃ y, waits y _ := by
      cases hChain with
      | single h => exact ⟨_, h⟩
      | tail _ h => exact ⟨_, h⟩
    exact Nat.lt_trans (ih hLast) (hRise _ _ _ _ hy hLast hc)

theorem not_cycle (hRise : ∀ x a b c, waits x a → waits a b → waits b c → rank a < rank b) (a : α) :
    ¬ Relation.TransGen waits a a := by
  intro hCycle
  obtain ⟨x, hx⟩ : ∃ x, waits x a := by
    cases hCycle with
    | single h => exact ⟨_, h⟩
    | tail _ h => exact ⟨_, h⟩
  obtain ⟨c, hc, _⟩ := Relation.TransGen.head'_iff.mp hCycle
  exact Nat.lt_irrefl _ (rank_lt_of_chain hRise hCycle hx hc)

end Libnvmmio.WaitGraph

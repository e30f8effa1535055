import Mathlib.Data.Finset.Card
import Mathlib.Data.Fintype.Basic
import Mathlib.Logic.Function.Basic

/-! # Counting references

Each of finitely many holders refers to at most one object. A holder that lets
go of an object, or takes one, changes the count of that object only.
-/

namespace Libnvmmio

set_option autoImplicit false

universe u v
variable {ι : Type u} {α : Type v} [Fintype ι] [DecidableEq α]

def holders (f : ι → Option α) (a : α) : Finset ι := Finset.univ.filter fun i => f i = some a

variable {f : ι → Option α} {i : ι} {a b : α}

theorem mem_holders : i ∈ holders f a ↔ f i = some a := by
  rw [holders, Finset.mem_filter]
  exact and_iff_right (Finset.mem_univ i)

theorem holders_eq_empty_iff : holders f a = ∅ ↔ ∀ i, f i ≠ some a := by
  simp only [Finset.eq_empty_iff_forall_notMem, mem_holders, ne_eq]

theorem card_holders_pos_iff : 0 < (holders f a).card ↔ ∃ i, f i = some a := by
  simp only [Finset.card_pos, Finset.Nonempty, mem_holders]

variable [DecidableEq ι]

theorem holders_update_of_ne {v : Option α} (hOld : f i ≠ some b) (hNew : v ≠ some b) :
    holders (Function.update f i v) b = holders f b := by
  ext j
  rw [mem_holders, mem_holders]
  by_cases hj : j = i
  · rw [hj, Function.update_self]
    exact ⟨fun h => absurd h hNew, fun h => absurd h hOld⟩
  · rw [Function.update_of_ne hj]

theorem card_holders_take (hOld : f i = none) (b : α) :
    (holders (Function.update f i (some a)) b).card = (holders f b).card + if b = a then 1 else 0 := by
  by_cases hb : b = a
  · subst hb
    have hInsert : holders (Function.update f i (some b)) b = insert i (holders f b) := by
      ext j
      rw [mem_holders, Finset.mem_insert, mem_holders]
      by_cases hj : j = i
      · rw [hj, Function.update_self]
        exact ⟨fun _ => .inl rfl, fun _ => rfl⟩
      · rw [Function.update_of_ne hj]
        exact ⟨.inr, fun h => h.resolve_left hj⟩
    have hNot : i ∉ holders f b := by
      rw [mem_holders, hOld]
      nofun
    rw [hInsert, Finset.card_insert_of_notMem hNot, if_pos rfl]
  · have hNew : some a ≠ some b := fun hEq => hb (Option.some.inj hEq).symm
    rw [holders_update_of_ne (by rw [hOld]; nofun) hNew, if_neg hb, Nat.add_zero]

theorem card_holders_drop (hOld : f i = some a) (b : α) :
    (holders (Function.update f i none) b).card = (holders f b).card - if b = a then 1 else 0 := by
  by_cases hb : b = a
  · subst hb
    have hErase : holders (Function.update f i none) b = (holders f b).erase i := by
      ext j
      rw [mem_holders, Finset.mem_erase, mem_holders]
      by_cases hj : j = i
      · rw [hj, Function.update_self]
        exact ⟨nofun, fun h => absurd rfl h.1⟩
      · rw [Function.update_of_ne hj]
        exact ⟨fun h => ⟨hj, h⟩, fun h => h.2⟩
    rw [hErase, Finset.card_erase_of_mem (mem_holders.mpr hOld), if_pos rfl]
  · have hOther : f i ≠ some b := fun hEq => hb (Option.some.inj (hOld.symm.trans hEq)).symm
    have hNone : (none : Option α) ≠ some b := nofun
    rw [holders_update_of_ne hOther hNone, if_neg hb, Nat.sub_zero]

end Libnvmmio

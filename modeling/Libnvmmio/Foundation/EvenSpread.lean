import Mathlib.Data.BitVec
import Mathlib.Data.FinEnum
import Mathlib.SetTheory.Cardinal.Finite
import Mathlib.Algebra.BigOperators.Group.Finset.Basic

/-! # Functions that spread their arguments evenly

Hash functions on machine words are composed of permutations and projections. Each
of them takes every value at equally many arguments, and so does the composition.
-/

namespace Libnvmmio.EvenSpread

set_option autoImplicit false

variable {α β γ : Type}

/-- Each value is taken at exactly `n` arguments. -/
def SpreadsEvenly (f : α → β) (n : Nat) : Prop :=
  ∀ b, Nat.card {a // f a = b} = n

namespace SpreadsEvenly

variable {f : α → β} {g : β → γ} {m n : Nat}

/-- A function loses no more than a rest that goes with each of its values. -/
theorem of_rest (rest : α → γ) (h : Function.Bijective fun a => (f a, rest a)) : SpreadsEvenly f (Nat.card γ) := by
  intro b
  apply Nat.card_eq_of_bijective fun a : {a // f a = b} => rest a.1
  constructor
  · intro x y hRest
    exact Subtype.ext (h.injective (Prod.ext (x.2.trans y.2.symm) hRest))
  · intro c
    obtain ⟨a, hPair⟩ := h.surjective (b, c)
    obtain ⟨hValue, hRest⟩ := Prod.mk.inj hPair
    exact ⟨⟨a, hValue⟩, hRest⟩

theorem of_bijective (h : Function.Bijective f) : SpreadsEvenly f 1 := by
  have hRest : Function.Bijective fun a => (f a, ()) :=
    (Equiv.prodPUnit β).symm.bijective.comp h
  simpa using of_rest _ hRest

theorem comp [Finite α] [Finite β] (hg : SpreadsEvenly g m) (hf : SpreadsEvenly f n) :
    SpreadsEvenly (g ∘ f) (m * n) := by
  intro c
  -- the arguments with this value, sorted by what `f` makes of them
  let fibres : {a // g (f a) = c} ≃ Σ b : {b // g b = c}, {a // f a = b.1} :=
    { toFun := fun a => ⟨⟨f a.1, a.2⟩, ⟨a.1, rfl⟩⟩
      invFun := fun p => ⟨p.2.1, by rw [p.2.2]; exact p.1.2⟩
      left_inv := fun a => rfl
      right_inv := by
        rintro ⟨⟨b, hb⟩, ⟨a, ha⟩⟩
        cases ha
        rfl }
  have : Fintype {b // g b = c} := Fintype.ofFinite _
  calc
    Nat.card {a // g (f a) = c} = Nat.card (Σ b : {b // g b = c}, {a // f a = b.1}) := Nat.card_congr fibres
    _ = ∑ b : {b // g b = c}, Nat.card {a // f a = b.1} := Nat.card_sigma
    _ = ∑ _ : {b // g b = c}, n := Finset.sum_congr rfl fun b _ => hf b.1
    _ = m * n := by rw [Finset.sum_const, Finset.card_univ, ← Nat.card_eq_fintype_card, hg c, Nat.nsmul_eq_mul]

end SpreadsEvenly

/-! ## Permutations of the words -/

section Words

variable {k m n w : Nat}

/-- Shifting a word by at least half its width and adding it bit by bit, twice, changes nothing. -/
theorem xorShift_involutive {s : Nat} (h : w ≤ 2 * s) :
    Function.Involutive fun z : BitVec w => z ^^^ (z >>> s) := by
  intro z
  ext i hi
  have hFar : z.getLsbD (s + (s + i)) = false := BitVec.getLsbD_of_ge z _ (by omega)
  simp [hFar]

theorem mul_bijective {c d : BitVec w} (h : c * d = 1) : Function.Bijective fun z : BitVec w => z * c := by
  constructor
  · intro x y hEq
    have hBack : ∀ z : BitVec w, z * c * d = z := by
      intro z
      rw [mul_assoc, h, mul_one]
    rw [← hBack x, ← hBack y]
    exact congrArg (· * d) hEq
  · intro y
    refine ⟨y * d, ?_⟩
    change y * d * c = y
    rw [mul_assoc, mul_comm d, h, mul_one]

/-! ## Projections -/

theorem card_words : Nat.card (BitVec w) = 2 ^ w := by
  rw [Nat.card_congr BitVec.equivFin.toEquiv, Nat.card_fin]

theorem split_bijective : Function.Bijective fun z : BitVec (m + n) => ((z >>> n).setWidth m, z.setWidth n) := by
  constructor
  · intro x y hEq
    obtain ⟨hTop, hLow⟩ := Prod.mk.inj hEq
    apply BitVec.eq_of_getLsbD_eq
    intro i hi
    by_cases hi' : i < n
    · simpa [hi'] using congrArg (fun z => z.getLsbD i) hLow
    · have hBit := congrArg (fun z => z.getLsbD (i - n)) hTop
      have hIndex : n + (i - n) = i := by omega
      have hWidth : i - n < m := by omega
      simpa [hIndex, hWidth] using hBit
  · rintro ⟨a, b⟩
    refine ⟨a ++ b, Prod.ext ?_ BitVec.setWidth_append_eq_right⟩
    change BitVec.setWidth m ((a ++ b) >>> n) = a
    rw [BitVec.setWidth_ushiftRight_eq_extractLsb, BitVec.extractLsb'_append_eq_left]

theorem top_spreads : SpreadsEvenly (fun z : BitVec (m + n) => (z >>> n).setWidth m) (2 ^ n) := by
  rw [← card_words]
  exact .of_rest _ split_bijective

theorem setWidth_abs {z : BitVec (m + n)} (h : 0 < m) :
    z.abs.setWidth n = if ((z >>> n).setWidth m).msb then -z.setWidth n else z.setWidth n := by
  have hSign : ((z >>> n).setWidth m).msb = z.msb := by
    have hTop : n + (m - 1) = m + n - 1 := by omega
    simp [BitVec.msb_eq_getLsbD_last, hTop, h]
  rw [hSign, BitVec.abs_eq]
  split
  · exact BitVec.setWidth_neg_of_le (Nat.le_add_left n m)
  · rfl

theorem signed_bijective :
    Function.Bijective fun p : BitVec m × BitVec n => (if p.1.msb then -p.2 else p.2, p.1) := by
  constructor
  · rintro ⟨a, b⟩ ⟨c, d⟩ hEq
    obtain ⟨hLow, hTop⟩ := Prod.mk.inj hEq
    obtain rfl : a = c := hTop
    dsimp only at hLow
    split at hLow
    · rw [neg_inj.mp hLow]
    · rw [hLow]
  · rintro ⟨b, a⟩
    refine ⟨(a, if a.msb then -b else b), Prod.ext ?_ rfl⟩
    dsimp only
    split
    · exact neg_neg b
    · rfl

/-- The low bits of the amount: the sign stands in the bits above them. -/
theorem lowAbs_spreads (h : 0 < m) : SpreadsEvenly (fun z : BitVec (m + n) => z.abs.setWidth n) (2 ^ m) := by
  rw [← card_words]
  have hPair : (fun z : BitVec (m + n) => (z.abs.setWidth n, (z >>> n).setWidth m)) =
      (fun p : BitVec m × BitVec n => (if p.1.msb then -p.2 else p.2, p.1)) ∘
        fun z : BitVec (m + n) => ((z >>> n).setWidth m, z.setWidth n) := by
    funext z
    exact Prod.ext (setWidth_abs h) rfl
  apply SpreadsEvenly.of_rest fun z : BitVec (m + n) => (z >>> n).setWidth m
  rw [hPair]
  exact signed_bijective.comp split_bijective

end Words

end Libnvmmio.EvenSpread

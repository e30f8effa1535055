import Libnvmmio.Foundation.Holders
import Mathlib.Data.Fintype.Card

/-! # Counters that are incremented by retrying

To increment a counter, a thread loads it twice, for the old value and for the
new one, and swaps the new one in if the counter still has the old one. If not,
it starts over. While the counters only grow no increment is lost, and every
retry is due to an increment of another thread.
-/

namespace Libnvmmio.RetryCounter

set_option autoImplicit false
set_option linter.unusedSectionVars false

universe u v
variable {T : Type u} {K : Type v}

inductive Attempt where
  | load
  | reload (old : Nat)
  | swap (old new : Nat)
  | counted

inductive Access where
  | load
  | reload
  | swap (done : Bool)

/-- The counters, with the increments in progress and the number of those that are over. -/
structure Counters (T : Type u) (K : Type v) where
  value : K → Nat
  attempts : T → Option (K × Attempt)
  total : K → Nat

def Access.failed : Access → Bool
  | .swap done => !done
  | _ => false

def Access.succeeded : Access → Bool
  | .swap done => done
  | _ => false

namespace Counters

section Operations

variable [DecidableEq T] [DecidableEq K] (c : Counters T K)

def goto (t : T) (x : Option (K × Attempt)) : Counters T K :=
  { c with attempts := Function.update c.attempts t x }

def start (t : T) (k : K) : Counters T K := c.goto t (some (k, .load))

def store (k : K) (n : Nat) : Counters T K := { c with value := Function.update c.value k n }

def count (k : K) : Counters T K := { c with total := Function.update c.total k (c.total k + 1) }

/-- The counters wrap around at `modulus`. -/
def access (modulus : Nat) (t : T) : Access → Option (Counters T K)
  | .load =>
    match c.attempts t with
    | some (k, .load) => some (c.goto t (some (k, .reload (c.value k))))
    | _ => none
  | .reload =>
    match c.attempts t with
    | some (k, .reload old) => some (c.goto t (some (k, .swap old ((c.value k + 1) % modulus))))
    | _ => none
  | .swap done =>
    match c.attempts t with
    | some (k, .swap old new) =>
      if c.value k = old then
        if done then some ((c.goto t (some (k, .counted))).store k new) else none
      else
        if done then none else some (c.goto t (some (k, .load)))
    | _ => none

def finish (t : T) : Counters T K :=
  match c.attempts t with
  | some (k, .counted) => (c.goto t none).count k
  | _ => c

end Operations

structure Loaded (modulus : Nat) (c : Counters T K) : Prop where
  old : ∀ t k old, c.attempts t = some (k, .reload old) → old ≤ c.value k
  new : ∀ t k old new, c.attempts t = some (k, .swap old new) →
    ∃ n, old ≤ n ∧ n ≤ c.value k ∧ new = (n + 1) % modulus

def incremented : Option (K × Attempt) → Option K
  | some (k, .counted) => some k
  | _ => none

def pending (c : Counters T K) (t : T) : Option K := incremented (c.attempts t)

/-- A counter is the number of the increments, those in progress included. -/
def Exact [Fintype T] [DecidableEq K] (c : Counters T K) (k : K) : Prop :=
  c.value k = c.total k + (holders c.pending k).card

def stale [DecidableEq K] (c : Counters T K) (t : T) : Bool :=
  match c.attempts t with
  | some (k, .reload old) | some (k, .swap old _) => !decide (c.value k = old)
  | _ => false

section Lemmas

variable [DecidableEq T] [DecidableEq K] {modulus : Nat} {c c' : Counters T K} {t : T} {k : K}

inductive Effect (modulus : Nat) (c : Counters T K) (t : T) : Access → Counters T K → Prop where
  | load (k : K) (hAt : c.attempts t = some (k, .load)) :
      Effect modulus c t .load (c.goto t (some (k, .reload (c.value k))))
  | reload (k : K) (old : Nat) (hAt : c.attempts t = some (k, .reload old)) :
      Effect modulus c t .reload (c.goto t (some (k, .swap old ((c.value k + 1) % modulus))))
  | count (k : K) (new : Nat) (hAt : c.attempts t = some (k, .swap (c.value k) new)) :
      Effect modulus c t (.swap true) ((c.goto t (some (k, .counted))).store k new)
  | retry (k : K) (old new : Nat) (hAt : c.attempts t = some (k, .swap old new)) (hStale : c.value k ≠ old) :
      Effect modulus c t (.swap false) (c.goto t (some (k, .load)))

theorem access_effect {a : Access} (h : c.access modulus t a = some c') : Effect modulus c t a c' := by
  unfold access at h
  cases a with
  | load =>
    dsimp only at h
    split at h
    · cases h
      exact .load _ ‹_›
    · cases h
  | reload =>
    dsimp only at h
    split at h
    · cases h
      exact .reload _ _ ‹_›
    · cases h
  | swap done =>
    dsimp only at h
    split at h
    · rename_i k old new hAt
      split at h
      · rename_i hSame
        subst hSame
        cases done with
        | true =>
          cases h
          exact .count k new hAt
        | false => cases h
      · rename_i hStale
        cases done with
        | true => cases h
        | false =>
          cases h
          exact .retry k old new hAt hStale
    · cases h

theorem pending_goto (c : Counters T K) (t : T) (x : Option (K × Attempt)) :
    (c.goto t x).pending = Function.update c.pending t (incremented x) :=
  funext fun u => Function.apply_update (fun _ => incremented) c.attempts t x u

@[simp] theorem store_self (k : K) (n : Nat) : (c.store k n).value k = n := Function.update_self ..

theorem store_of_ne {k' : K} (hne : k' ≠ k) (n : Nat) : (c.store k n).value k' = c.value k' :=
  Function.update_of_ne hne ..

theorem goto_attempts (x : Option (K × Attempt)) (u : T) :
    (c.goto t x).attempts u = if u = t then x else c.attempts u := Function.update_apply ..

/-! ## What has been loaded -/

theorem Loaded.goto (h : Loaded modulus c) {x : Option (K × Attempt)}
    (hOld : ∀ k old, x = some (k, .reload old) → old ≤ c.value k)
    (hNew : ∀ k old new, x = some (k, .swap old new) → ∃ n, old ≤ n ∧ n ≤ c.value k ∧ new = (n + 1) % modulus) :
    Loaded modulus (c.goto t x) := by
  constructor
  · intro u k old hAt
    rw [goto_attempts] at hAt
    split at hAt
    · exact hOld k old hAt
    · exact h.old u k old hAt
  · intro u k old new hAt
    rw [goto_attempts] at hAt
    split at hAt
    · exact hNew k old new hAt
    · exact h.new u k old new hAt

/-- Nothing is loaded before the first load, nor after the swap. -/
theorem Loaded.bare (h : Loaded modulus c) {x : Option (K × Attempt)}
    (hBare : ∀ k a, x = some (k, a) → a = .load ∨ a = .counted) : Loaded modulus (c.goto t x) := by
  apply h.goto
  · intro k old hAt
    rcases hBare k _ hAt with hEq | hEq <;> cases hEq
  · intro k old new hAt
    rcases hBare k _ hAt with hEq | hEq <;> cases hEq

/-- The counters may grow behind the attempts. -/
theorem Loaded.grown (h : Loaded modulus c) (hAttempts : c'.attempts = c.attempts)
    (hGrown : ∀ k, c.value k ≤ c'.value k) : Loaded modulus c' := by
  constructor
  · intro t k old hAt
    rw [hAttempts] at hAt
    exact Nat.le_trans (h.old t k old hAt) (hGrown k)
  · intro t k old new hAt
    rw [hAttempts] at hAt
    obtain ⟨n, hOld, hValue, hNew⟩ := h.new t k old new hAt
    exact ⟨n, hOld, Nat.le_trans hValue (hGrown k), hNew⟩

/-- The counter has not moved between the two loads, since it has the first value again. -/
theorem Loaded.new_eq (h : Loaded modulus c) {new : Nat} (hFits : c.value k + 1 < modulus)
    (hAt : c.attempts t = some (k, .swap (c.value k) new)) : new = c.value k + 1 := by
  obtain ⟨n, hOld, hValue, hNew⟩ := h.new t k _ new hAt
  have hSame : n = c.value k := Nat.le_antisymm hValue hOld
  rw [hNew, hSame, Nat.mod_eq_of_lt hFits]

theorem Loaded.access (h : Loaded modulus c) (hFits : ∀ k, c.value k + 1 < modulus) {a : Access}
    (hAccess : Effect modulus c t a c') : Loaded modulus c' := by
  cases hAccess with
  | load k hAt =>
    apply h.goto
    · intro k' old hEq
      cases hEq
      exact Nat.le_refl _
    · intro k' old new hEq
      cases hEq
  | reload k old hAt =>
    apply h.goto
    · intro k' old' hEq
      cases hEq
    · intro k' old' new hEq
      cases hEq
      exact ⟨c.value k, h.old t k old hAt, Nat.le_refl _, rfl⟩
  | count k new hAt =>
    have hIdle : Loaded modulus (c.goto t (some (k, .counted))) := by
      apply h.bare
      intro k' a hEq
      cases hEq
      exact .inr rfl
    refine Loaded.grown hIdle rfl fun k' => ?_
    change c.value k' ≤ Function.update c.value k new k'
    rw [h.new_eq (hFits k) hAt, Function.update_apply]
    split
    · rename_i hk
      rw [hk]
      exact Nat.le_succ _
    · exact Nat.le_refl _
  | retry k old new hAt hStale =>
    apply h.bare
    intro k' a hEq
    cases hEq
    exact .inl rfl

theorem Loaded.start (h : Loaded modulus c) : Loaded modulus (c.start t k) := by
  apply h.bare
  intro k' a hEq
  cases hEq
  exact .inl rfl

theorem finish_of_counted (hAt : c.attempts t = some (k, .counted)) :
    c.finish t = (c.goto t none).count k := by
  rw [finish, hAt]

theorem Loaded.finish (h : Loaded modulus c) (hAt : c.attempts t = some (k, .counted)) :
    Loaded modulus (c.finish t) := by
  rw [finish_of_counted hAt]
  have hGone : Loaded modulus (c.goto t none) := by
    apply h.bare
    intro k' a hEq
    cases hEq
  exact hGone.grown rfl fun _ => Nat.le_refl _

/-! ## Exact counters -/

variable [Fintype T]

/-- An attempt that counts neither before nor after changes nothing. -/
theorem Exact.goto (h : Exact c k) {x : Option (K × Attempt)} (hWas : c.pending t = none)
    (hIs : incremented x = none) : Exact (c.goto t x) k := by
  have hNone : (none : Option K) ≠ some k := by simp
  rw [Exact, pending_goto, hIs]
  rw [holders_update_of_ne (by rw [hWas]; exact hNone) hNone]
  exact h

theorem Exact.access (h : ∀ k, Exact c k) (hLoaded : Loaded modulus c) (hFits : ∀ k, c.value k + 1 < modulus)
    {a : Access} (hAccess : Effect modulus c t a c') : ∀ k, Exact c' k := by
  intro k'
  cases hAccess with
  | load k hAt => exact (h k').goto (by rw [pending, hAt]; rfl) rfl
  | reload k old hAt => exact (h k').goto (by rw [pending, hAt]; rfl) rfl
  | retry k old new hAt _ => exact (h k').goto (by rw [pending, hAt]; rfl) rfl
  | count k new hAt =>
    have hWas : c.pending t = none := by
      rw [pending, hAt]
      rfl
    have hCount := card_holders_take hWas (a := k) k'
    change Function.update c.value k new k' = c.total k' + (holders (c.goto t (some (k, .counted))).pending k').card
    rw [pending_goto, incremented, hCount, hLoaded.new_eq (hFits k) hAt, Function.update_apply]
    have hHere := h k'
    rw [Exact] at hHere
    split
    · rename_i hk
      subst hk
      omega
    · omega

theorem Exact.start (h : Exact c k) (hIdle : c.attempts t = none) {k' : K} : Exact (c.start t k') k :=
  h.goto (by rw [pending, hIdle]; rfl) rfl

theorem Exact.finish (h : Exact c k) {k' : K} (hAt : c.attempts t = some (k', .counted)) :
    Exact (c.finish t) k := by
  have hWas : c.pending t = some k' := by
    rw [pending, hAt]
    rfl
  have hCount := card_holders_drop hWas k
  rw [finish_of_counted hAt]
  change c.value k = Function.update c.total k' (c.total k' + 1) k + (holders (c.goto t none).pending k).card
  rw [pending_goto, incremented, hCount, Function.update_apply, h]
  · split
    · rename_i hk
      subst hk
      have hSome : 0 < (holders c.pending k).card := card_holders_pos_iff.mpr ⟨t, hWas⟩
      omega
    · omega
  · simp

/-- With no increment in progress, a counter is the number of those that are over. -/
theorem Exact.value_eq (h : Exact c k) (hNone : ∀ t, c.attempts t = none) : c.value k = c.total k := by
  have hEmpty : holders c.pending k = ∅ := by
    rw [holders_eq_empty_iff]
    intro u hSome
    rw [pending, hNone u] at hSome
    cases hSome
  rw [h, hEmpty, Finset.card_empty, Nat.add_zero]

/-! ## Retries -/

def staleCount (c : Counters T K) : Nat := (Finset.univ.filter fun t => c.stale t = true).card

theorem stale_goto_of_ne (x : Option (K × Attempt)) {u : T} (hne : u ≠ t) :
    (c.goto t x).stale u = c.stale u := by
  rw [stale, stale, goto_attempts, if_neg hne]
  rfl

/-- An attempt that is not stale after a step raises nothing. -/
theorem staleCount_goto_le {x : Option (K × Attempt)} (hFresh : (c.goto t x).stale t = true → c.stale t = true) :
    (c.goto t x).staleCount ≤ c.staleCount := by
  apply Finset.card_le_card
  intro u hu
  rw [Finset.mem_filter] at hu ⊢
  refine ⟨Finset.mem_univ u, ?_⟩
  by_cases hut : u = t
  · subst hut
    exact hFresh hu.2
  · rw [← stale_goto_of_ne x hut]
    exact hu.2

theorem staleCount_start_le (k : K) : (c.start t k).staleCount ≤ c.staleCount := by
  apply staleCount_goto_le
  intro hStale
  rw [stale, goto_attempts, if_pos rfl] at hStale
  cases hStale

theorem staleCount_finish_le : (c.finish t).staleCount ≤ c.staleCount := by
  unfold finish
  split
  · have hLe : (c.goto t none).staleCount ≤ c.staleCount := by
      apply staleCount_goto_le
      intro hStale
      rw [stale, goto_attempts, if_pos rfl] at hStale
      cases hStale
    exact hLe
  · exact Nat.le_refl _

theorem staleCount_eq_zero (hNone : ∀ t, c.attempts t = none) : c.staleCount = 0 := by
  rw [staleCount, Finset.card_eq_zero, Finset.filter_eq_empty_iff]
  intro u _
  rw [stale, hNone u]
  simp

theorem staleCount_lt_card (hFresh : c.stale t = false) : c.staleCount ≤ Fintype.card T - 1 := by
  have hSub : (Finset.univ.filter fun u => c.stale u = true) ⊆ Finset.univ.erase t := by
    intro u hu
    rw [Finset.mem_erase]
    refine ⟨?_, Finset.mem_univ u⟩
    rintro rfl
    rw [Finset.mem_filter, hFresh] at hu
    cases hu.2
  have hCard := Finset.card_le_card hSub
  rwa [Finset.card_erase_of_mem (Finset.mem_univ t), Finset.card_univ] at hCard

/-- A swap that fails was stale, and one that succeeds makes at most the others stale. -/
theorem staleCount_access {a : Access} (hAccess : Effect modulus c t a c') :
    a.failed.toNat + c'.staleCount ≤ c.staleCount + (Fintype.card T - 1) * a.succeeded.toNat := by
  cases hAccess with
  | load k hAt =>
    have hLe : (c.goto t (some (k, .reload (c.value k)))).staleCount ≤ c.staleCount := by
      apply staleCount_goto_le
      intro hStale
      rw [stale, goto_attempts, if_pos rfl] at hStale
      simp [goto] at hStale
    simpa [Access.failed, Access.succeeded] using hLe
  | reload k old hAt =>
    have hLe : (c.goto t (some (k, .swap old ((c.value k + 1) % modulus)))).staleCount ≤ c.staleCount := by
      apply staleCount_goto_le
      intro hStale
      rw [stale, goto_attempts, if_pos rfl] at hStale
      rw [stale, hAt]
      exact hStale
    simpa [Access.failed, Access.succeeded] using hLe
  | count k new hAt =>
    have hFresh : ((c.goto t (some (k, .counted))).store k new).stale t = false := by
      rw [stale, store]
      dsimp only
      rw [goto_attempts, if_pos rfl]
    have hLe := staleCount_lt_card hFresh
    simp only [Access.failed, Access.succeeded, Bool.not_true, Bool.toNat_false, Bool.toNat_true, Nat.mul_one,
      Nat.zero_add]
    omega
  | retry k old new hAt hStale =>
    have hWas : c.stale t = true := by
      rw [stale, hAt]
      simpa using hStale
    have hSub : (Finset.univ.filter fun u => (c.goto t (some (k, .load))).stale u = true) ⊆
        (Finset.univ.filter fun u => c.stale u = true).erase t := by
      intro u hu
      rw [Finset.mem_filter] at hu
      have hne : u ≠ t := by
        rintro rfl
        have hIs := hu.2
        rw [stale, goto_attempts, if_pos rfl] at hIs
        cases hIs
      rw [Finset.mem_erase, Finset.mem_filter, ← stale_goto_of_ne (some (k, .load)) hne]
      exact ⟨hne, hu⟩
    have hCard := Finset.card_le_card hSub
    have hMem : t ∈ Finset.univ.filter fun u => c.stale u = true :=
      Finset.mem_filter.mpr ⟨Finset.mem_univ t, hWas⟩
    have hPos := Finset.card_pos.mpr ⟨t, hMem⟩
    rw [Finset.card_erase_of_mem hMem] at hCard
    simp only [Access.failed, Access.succeeded, Bool.not_false, Bool.toNat_false, Bool.toNat_true, Nat.mul_zero,
      Nat.add_zero, staleCount]
    omega

end Lemmas

end Counters

end Libnvmmio.RetryCounter

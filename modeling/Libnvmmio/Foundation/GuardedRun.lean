import Mathlib.Tactic.Common

/-! # Runs of labelled systems

Three rules carry every statement over runs: an invariant kept by each guarded
step holds after each guarded run, a run splits at any of its states, and a
functional system whose guarded steps follow an abstract one produces the
abstract outputs.
-/

namespace Libnvmmio.GuardedRun

set_option autoImplicit false

universe u v w x y
variable {σ : Type u} {ι : Type v}

/-- Finite runs of a labelled step relation. -/
inductive Run (step : σ → ι → σ → Prop) : σ → List ι → σ → Prop where
  | nil (s : σ) : Run step s [] s
  | cons {s t r : σ} {a : ι} {as : List ι} :
      step s a t → Run step t as r → Run step s (a :: as) r

def Guarded (guard : σ → ι → Prop) (step : σ → ι → σ → Prop) : σ → ι → σ → Prop :=
  fun s a t => guard s a ∧ step s a t

variable {step : σ → ι → σ → Prop}

theorem Run.invariant (Inv : σ → Prop) (hStep : ∀ s a t, Inv s → step s a t → Inv t)
    {s t : σ} {as : List ι} (h : Run step s as t) (hs : Inv s) : Inv t := by
  induction h with
  | nil s => exact hs
  | cons hHead _ ih => exact ih (hStep _ _ _ hs hHead)

theorem Run.append {s t r : σ} {as bs : List ι} (h : Run step s as t) (h' : Run step t bs r) :
    Run step s (as ++ bs) r := by
  induction h with
  | nil s => exact h'
  | cons hHead _ ih => exact .cons hHead (ih h')

theorem Run.snoc {s t r : σ} {as : List ι} {a : ι} (h : Run step s as t) (h' : step t a r) :
    Run step s (as ++ [a]) r := h.append (.cons h' (.nil r))

theorem Run.of_append {s r : σ} {as bs : List ι} (h : Run step s (as ++ bs) r) :
    ∃ t, Run step s as t ∧ Run step t bs r := by
  induction as generalizing s with
  | nil => exact ⟨s, .nil s, h⟩
  | cons a as ih =>
    cases h with
    | cons hHead hTail =>
      obtain ⟨t, hFirst, hRest⟩ := ih hTail
      exact ⟨t, .cons hHead hFirst, hRest⟩

theorem Run.of_snoc {s r : σ} {as : List ι} {a : ι} (h : Run step s (as ++ [a]) r) :
    ∃ t, Run step s as t ∧ step t a r := by
  obtain ⟨t, hFirst, hRest⟩ := h.of_append
  cases hRest with
  | cons hStep hNil =>
    cases hNil
    exact ⟨t, hFirst, hStep⟩

theorem Run.guard {guard : σ → ι → Prop} {s t : σ} {as : List ι} (h : Run step s as t)
    (hGuard : ∀ s, ∀ a ∈ as, guard s a) : Run (Guarded guard step) s as t := by
  induction h with
  | nil s => exact .nil s
  | cons hHead _ ih =>
    exact .cons ⟨hGuard _ _ List.mem_cons_self, hHead⟩ (ih fun s a ha => hGuard s a (List.mem_cons_of_mem _ ha))

/-- A run whose steps keep an invariant is one whose steps start where it holds. -/
theorem Run.keeping (Inv : σ → Prop) (hStep : ∀ s a t, Inv s → step s a t → Inv t)
    {s t : σ} {as : List ι} (h : Run step s as t) (hs : Inv s) :
    Run (Guarded (fun s _ => Inv s) step) s as t := by
  induction h with
  | nil s => exact .nil s
  | cons hHead _ ih => exact .cons ⟨hs, hHead⟩ (ih (hStep _ _ _ hs hHead))

/-- Amortized accounting: a step that costs lowers the potential, and only a step that pays raises it. -/
theorem Run.amortized (potential : σ → Nat) (costs pays : ι → Bool) (most : Nat)
    (hStep : ∀ s a t, step s a t →
      (costs a).toNat + potential t ≤ potential s + most * (pays a).toNat)
    {s t : σ} {as : List ι} (h : Run step s as t) :
    as.countP costs + potential t ≤ potential s + most * as.countP pays := by
  induction h with
  | nil s => exact Nat.le_of_eq (Nat.zero_add _)
  | @cons s t r a as hHead _ ih =>
    have hFirst := hStep s a t hHead
    have hCost : (a :: as).countP costs = as.countP costs + (costs a).toNat := by
      cases h : costs a <;> simp [h]
    have hPay : (a :: as).countP pays = as.countP pays + (pays a).toNat := by
      cases h : pays a <;> simp [h]
    rw [hCost, hPay, Nat.mul_add]
    omega

theorem Run.mono {step' : σ → ι → σ → Prop} (hStep : ∀ s a t, step s a t → step' s a t) {s t : σ}
    {as : List ι} (h : Run step s as t) : Run step' s as t := by
  induction h with
  | nil s => exact .nil s
  | cons hHead _ ih => exact .cons (hStep _ _ _ hHead) ih

/-- Forward simulation: each step is followed by some steps of another system, or by none. -/
theorem Run.forward {τ : Type w} {κ : Type x} {step' : τ → κ → τ → Prop} (R : σ → τ → Prop)
    (hStep : ∀ s a s' t, R s t → step s a s' → ∃ bs t', Run step' t bs t' ∧ R s' t')
    {s s' : σ} {as : List ι} {t : τ} (h : Run step s as s') (hs : R s t) :
    ∃ bs t', Run step' t bs t' ∧ R s' t' := by
  induction h generalizing t with
  | nil s => exact ⟨[], t, .nil t, hs⟩
  | cons hHead _ ih =>
    obtain ⟨bs, t₁, hFirst, hNext⟩ := hStep _ _ _ _ hs hHead
    obtain ⟨bs', t', hRest, hLast⟩ := ih hNext
    exact ⟨bs ++ bs', t', hFirst.append hRest, hLast⟩

def Reachable (init : σ → Prop) (step : σ → ι → σ → Prop) (s : σ) : Prop :=
  ∃ s₀ as, init s₀ ∧ Run step s₀ as s

theorem Reachable.invariant {init Inv : σ → Prop} (hInit : ∀ s, init s → Inv s)
    (hStep : ∀ s a t, Inv s → step s a t → Inv t) {s : σ} (h : Reachable init step s) : Inv s := by
  obtain ⟨s₀, as, hs₀, hRun⟩ := h
  exact hRun.invariant Inv hStep (hInit s₀ hs₀)

section Functional

variable {ε : Type w} {ο : Type x} {τ : Type y}

/-- A functional system run over a list of requests, with its outputs. -/
def exec (next : σ → ι → Except ε (σ × ο)) : σ → List ι → Except ε (σ × List ο)
  | s, [] => .ok (s, [])
  | s, a :: as => do
    let (t, o) ← next s a
    let (r, os) ← exec next t as
    .ok (r, o :: os)

/-- The same for a system that never fails. -/
def trace (next : τ → ι → τ × ο) : τ → List ι → τ × List ο
  | t, [] => (t, [])
  | t, a :: as =>
    let (t', o) := next t a
    let (r, os) := trace next t' as
    (r, o :: os)

/-- Every request of the list meets the guard in the state it is issued in. -/
def Admissible (next : σ → ι → Except ε (σ × ο)) (guard : σ → ι → Prop) : σ → List ι → Prop
  | _, [] => True
  | s, a :: as => guard s a ∧ ∀ t o, next s a = .ok (t, o) → Admissible next guard t as

/-- If each guarded step succeeds with the output of the abstract step and
keeps the relation, then so does every admissible run. -/
theorem exec_simulates {next : σ → ι → Except ε (σ × ο)} {guard : σ → ι → Prop}
    {abstract : τ → ι → τ × ο} {R : σ → τ → Prop}
    (hStep : ∀ s t a, R s t → guard s a →
      ∃ s', next s a = .ok (s', (abstract t a).2) ∧ R s' (abstract t a).1) :
    ∀ (as : List ι) (s : σ) (t : τ), R s t → Admissible next guard s as →
      ∃ s', exec next s as = .ok (s', (trace abstract t as).2) ∧ R s' (trace abstract t as).1 := by
  intro as
  induction as with
  | nil =>
    intro s t hR _
    exact ⟨s, rfl, hR⟩
  | cons a as ih =>
    intro s t hR hAdm
    obtain ⟨hGuard, hRest⟩ := hAdm
    obtain ⟨s', hNext, hR'⟩ := hStep s t a hR hGuard
    obtain ⟨r, hExec, hRr⟩ := ih s' (abstract t a).1 hR' (hRest s' _ hNext)
    refine ⟨r, ?_, hRr⟩
    simp only [exec, hNext, trace]
    change (do let (r, os) ← exec next s' as; .ok (r, (abstract t a).2 :: os)) = _
    rw [hExec]
    rfl

/-- A functional system read as a labelled step relation. -/
def Steps (next : σ → ι → Except ε (σ × ο)) : σ → ι → σ → Prop :=
  fun s a t => ∃ o, next s a = .ok (t, o)

end Functional

end Libnvmmio.GuardedRun

import Libnvmmio.Allocator.Conservation
import Mathlib.Data.Fintype.Card

/-! # Allocations while enough objects are free

Free objects in the provider or the collector of one thread are out of reach of
every other thread. A provider holds one run at most and a collector two, so
that the global list has a run left unless almost all objects are handed out.
-/

namespace Libnvmmio.Allocator

open LinkedLists GuardedRun

set_option autoImplicit false
set_option linter.unusedSectionVars false

namespace Pool

variable {T N Obj : Type} [DecidableEq T] [DecidableEq N] [DecidableEq Obj] {skipUnit : Nat}
  {objs : List Obj} {s s' : Pool T N Obj} {nodes nodes' : Place T → List N} {t : T} {a : Act T N Obj}

def Act.thread : Act T N Obj → T
  | .fill t => t
  | .alloc t => t
  | .giveBack t => t
  | .free t _ _ => t

/-- `POP_PROVIDER` of one thread; `none` if `fill_local_provider` exits. -/
def allocate (s : Pool T N Obj) (t : T) : Option (Pool T N Obj) := do
  let s ← if s.list (.inl (.provider t)) = none then s.fillLocalProvider t else some s
  s.popProvider t

/-- A provider holds one run at most, since it is refilled when it is empty. -/
def Stocked (skipUnit : Nat) (nodes : Place T → List N) : Prop :=
  ∀ t, (nodes (.provider t)).length ≤ skipUnit

theorem Stocked.moved (hStock : Stocked skipUnit nodes) (hMoved : Moved skipUnit s nodes a nodes') :
    Stocked skipUnit nodes' := by
  intro u
  have hLe := hStock u
  cases hMoved with
  | @fill t run rest hRefill =>
    by_cases hu : u = t
    · subst hu
      rw [moved_self, hRefill.empty, List.append_nil, hRefill.length]
    · rw [moved_other (by intro hEq; cases hEq) (fun hEq => hu (Place.provider.inj hEq))]
      exact hLe
  | @alloc t node ns hList =>
    by_cases hu : u = t
    · subst hu
      rw [hList, List.length_cons] at hLe
      rw [Function.update_self]
      omega
    · rw [Function.update_of_ne fun hEq => hu (Place.provider.inj hEq)]
      exact hLe
  | giveBack =>
    rw [moved_other (by intro hEq; cases hEq) (by intro hEq; cases hEq)]
    exact hLe
  | free =>
    rw [Function.update_of_ne (by intro hEq; cases hEq)]
    exact hLe

theorem Moved.provider_of_other (hMoved : Moved skipUnit s nodes a nodes') (hOther : a.thread ≠ t) :
    nodes' (.provider t) = nodes (.provider t) := by
  cases hMoved with
  | fill =>
    exact moved_other (by intro hEq; cases hEq) (fun hEq => hOther (Place.provider.inj hEq).symm) _ _
  | alloc => exact Function.update_of_ne (fun hEq => hOther (Place.provider.inj hEq).symm) _ _
  | giveBack => exact moved_other (by intro hEq; cases hEq) (by intro hEq; cases hEq) _ _
  | free => exact Function.update_of_ne (by intro hEq; cases hEq) _ _

/-! ## What each part of an allocation needs -/

theorem Inventory.exists_alloc (h : Inventory skipUnit objs s nodes) (hne : nodes (.provider t) ≠ []) :
    ∃ s', s.popProvider t = some s' := by
  obtain ⟨node, ns, hList⟩ := List.exists_cons_of_ne_nil hne
  have hHead := (h.chained.linked (.provider t)).head
  rw [hList] at hHead
  rw [popProvider, pop_eq hHead]
  exact ⟨_, rfl⟩

theorem Inventory.exists_fill (h : Inventory skipUnit objs s nodes) (hUnit : 0 < skipUnit)
    (hne : nodes .global ≠ []) (t : T) : ∃ s', s.fillLocalProvider t = some s' := by
  obtain ⟨_, node, _, _, _, _, hEnds⟩ := exists_run hUnit hne h.whole
  have hHead := (h.chained.skips .global global_hasSkip).head
  rw [hEnds] at hHead
  rw [fillLocalProvider, pop_eq hHead]
  exact ⟨_, rfl⟩

theorem Inventory.provider_eq_nil (h : Inventory skipUnit objs s nodes)
    (hEmpty : s.list (.inl (.provider t)) = none) : nodes (.provider t) = [] := by
  have hHead := (h.chained.linked (.provider t)).head.symm.trans hEmpty
  exact List.head?_eq_none_iff.mp hHead

theorem Refilled.provider_ne_nil {run rest : List N} (hRefill : Refilled skipUnit nodes t run rest)
    (hUnit : 0 < skipUnit) : moved nodes .global (.provider t) run rest (.provider t) ≠ [] := by
  rw [moved_self, hRefill.empty, List.append_nil, ← List.length_pos_iff, hRefill.length]
  exact hUnit

/-- An allocation succeeds unless it has to refill from an empty global list. -/
theorem Inventory.allocate_isSome (h : Inventory skipUnit objs s nodes) (hUnit : 0 < skipUnit)
    (hne : nodes (.provider t) = [] → nodes .global ≠ []) : (s.allocate t).isSome := by
  rw [allocate]
  split
  · rename_i hEmpty
    obtain ⟨s₁, hFill⟩ := h.exists_fill hUnit (hne (h.provider_eq_nil hEmpty)) t
    obtain ⟨run, rest, hRefill, hKept⟩ := h.fill hUnit hEmpty hFill
    obtain ⟨s₂, hPop⟩ := hKept.exists_alloc (hRefill.provider_ne_nil hUnit)
    simp [hFill, hPop]
  · rename_i hFilled
    have hProvider : nodes (.provider t) ≠ [] := by
      intro hNil
      apply hFilled
      rw [(h.chained.linked (.provider t)).head, hNil]
      rfl
    obtain ⟨s₁, hPop⟩ := h.exists_alloc hProvider
    simp [hPop]

/-! ## Counting the objects -/

section Counting

noncomputable def localNodes (threads : Finset T) (nodes : Place T → List N) (kind : T → Place T) : List N :=
  threads.toList.flatMap fun t => nodes (kind t)

theorem mem_localNodes {threads : Finset T} {kind : T → Place T} {n : N} :
    n ∈ localNodes threads nodes kind ↔ ∃ t ∈ threads, n ∈ nodes (kind t) := by
  rw [localNodes, List.mem_flatMap]
  simp only [Finset.mem_toList]

theorem length_flatMap_le {ι : Type} {f : ι → List N} {bound : Nat} (hBound : ∀ i, (f i).length ≤ bound)
    (is : List ι) : (is.flatMap f).length ≤ is.length * bound := by
  induction is with
  | nil => exact Nat.zero_le _
  | cons i is ih =>
    have hHead := hBound i
    rw [List.flatMap_cons, List.length_append, List.length_cons, Nat.succ_mul]
    omega

theorem length_localNodes_le (threads : Finset T) {kind : T → Place T} {bound : Nat}
    (hBound : ∀ t, (nodes (kind t)).length ≤ bound) :
    (localNodes threads nodes kind).length ≤ threads.card * bound := by
  rw [← Finset.length_toList]
  exact length_flatMap_le hBound _

variable [Fintype T]

/-- Every object is handed out or hangs from a node of one of the lists, of which one is empty. -/
theorem Placed.length_le (h : Placed objs s nodes) (hObjs : objs.Nodup) (hEmpty : nodes (.provider t) = []) :
    objs.length ≤ s.outstanding.length + (nodes .global).length +
      (localNodes (Finset.univ.erase t) nodes .provider).length +
      (localNodes Finset.univ nodes .collector).length := by
  let stock := nodes .global ++ localNodes (Finset.univ.erase t) nodes .provider ++
    localNodes Finset.univ nodes .collector
  have hStock : ∀ p n, n ∈ nodes p → n ∈ stock := by
    intro p n hn
    simp only [stock, List.mem_append, mem_localNodes]
    cases p with
    | global => exact .inl (.inl hn)
    | provider u =>
      have hOther : u ≠ t := by
        rintro rfl
        rw [hEmpty] at hn
        cases hn
      exact .inl (.inr ⟨u, Finset.mem_erase.mpr ⟨hOther, Finset.mem_univ u⟩, hn⟩)
    | collector u => exact .inr ⟨u, Finset.mem_univ u, hn⟩
  have hSubset : objs ⊆ s.outstanding ++ stock.map s.ptr := by
    intro o ho
    rw [List.mem_append]
    cases (h.complete o).mp ho with
    | inl hOut => exact .inl hOut
    | inr hIn =>
      obtain ⟨n, ⟨p, hn⟩, rfl⟩ := hIn
      exact .inr (List.mem_map_of_mem (hStock p n hn))
  have hLe := hObjs.length_le_of_subset hSubset
  simp only [stock, List.length_append, List.length_map] at hLe
  omega

/-- A thread with an empty provider finds a run, unless almost all objects are handed out. -/
theorem Inventory.global_ne_nil (h : Inventory skipUnit objs s nodes) (hObjs : objs.Nodup)
    (hStock : Stocked skipUnit nodes) (hBound : Bounded skipUnit nodes)
    (hFew : s.outstanding.length + (3 * Fintype.card T - 1) * skipUnit < objs.length)
    (hEmpty : nodes (.provider t) = []) : nodes .global ≠ [] := by
  intro hGlobal
  have hThreads : 0 < Fintype.card T := Fintype.card_pos_iff.mpr ⟨t⟩
  have hTotal := h.placed.length_le hObjs hEmpty
  have hProviders := length_localNodes_le (Finset.univ.erase t) hStock
  have hCollectors := length_localNodes_le Finset.univ hBound
  rw [Finset.card_erase_of_mem (Finset.mem_univ t), Finset.card_univ] at hProviders
  rw [Finset.card_univ] at hCollectors
  have hStranded : (Fintype.card T - 1) * skipUnit + Fintype.card T * (maxSkipNodes * skipUnit) =
      (3 * Fintype.card T - 1) * skipUnit := by
    rw [← Nat.mul_assoc, ← Nat.add_mul, maxSkipNodes]
    congr 1
    omega
  rw [hGlobal, List.length_nil] at hTotal
  omega

end Counting

/-! ## Every interleaving -/

/-- What the steps keep: the inventory and the bounds of the local lists. -/
def Kept (skipUnit : Nat) (objs : List Obj) (s : Pool T N Obj) (nodes : Place T → List N) : Prop :=
  Inventory skipUnit objs s nodes ∧ Stocked skipUnit nodes ∧ Bounded skipUnit nodes

theorem Kept.step (h : Kept skipUnit objs s nodes) (hUnit : 0 < skipUnit) (hStep : Step skipUnit s a s') :
    ∃ nodes', Moved skipUnit s nodes a nodes' ∧ Kept skipUnit objs s' nodes' := by
  obtain ⟨hInv, hStock, hBound⟩ := h
  obtain ⟨nodes', hMoved, hInv'⟩ := hInv.moved hUnit hStep
  exact ⟨nodes', hMoved, hInv', hStock.moved hMoved, hBound.moved hInv hUnit hMoved⟩

/-- While other threads run, a thread can take from the provider it has found filled. -/
theorem Kept.exists_alloc_of_others (h : Kept skipUnit objs s nodes) (hUnit : 0 < skipUnit)
    (hne : nodes (.provider t) ≠ []) {as : List (Act T N Obj)} (hRun : Run (Step skipUnit) s as s')
    (hOthers : ∀ a ∈ as, a.thread ≠ t) : ∃ s₂, Step skipUnit s' (.alloc t) s₂ := by
  induction hRun generalizing nodes with
  | nil s => exact h.1.exists_alloc hne
  | cons hStep _ ih =>
    obtain ⟨nodes', hMoved, hKept⟩ := h.step hUnit hStep
    apply ih hKept
    · rw [hMoved.provider_of_other (hOthers _ List.mem_cons_self)]
      exact hne
    · intro b hb
      exact hOthers b (List.mem_cons_of_mem _ hb)

theorem kept_of_run (ptr : N → Obj) {filled : List (N × Obj)} (hUnit : 0 < skipUnit)
    (hWhole : filled.length % skipUnit = 0) (hNodes : (filled.map Prod.fst).Nodup)
    (hObjs : (filled.map Prod.snd).Nodup) {as : List (Act T N Obj)}
    (hRun : Run (Step skipUnit) ((Pool.empty ptr).createGlobalList skipUnit filled) as s) :
    ∃ nodes, Kept skipUnit (filled.map Prod.snd) s nodes := by
  obtain ⟨nodes₀, hCreated, hEmpty⟩ := inventory_createGlobalList (T := T) ptr hWhole hNodes hObjs
  have hLocal : ∀ p : Place T, p ≠ .global → (nodes₀ p).length = 0 := by
    intro p hp
    rw [hEmpty p hp, List.length_nil]
  apply hRun.invariant fun s => ∃ nodes, Kept skipUnit (filled.map Prod.snd) s nodes
  · rintro s a s' ⟨nodes, hKept⟩ hStep
    obtain ⟨nodes', _, hKept'⟩ := hKept.step hUnit hStep
    exact ⟨nodes', hKept'⟩
  · refine ⟨nodes₀, hCreated, fun t => ?_, fun t => ?_⟩
    · rw [hLocal _ (by intro hEq; cases hEq)]
      exact Nat.zero_le _
    · rw [hLocal _ (by intro hEq; cases hEq)]
      exact Nat.zero_le _

/-- Whatever the interleaving, the local lists stay within their bounds, an allocation succeeds
while enough objects are free, and a refilled provider serves its thread whatever the others do. -/
theorem available_of_run [Fintype T] (ptr : N → Obj) {filled : List (N × Obj)} (hUnit : 0 < skipUnit)
    (hWhole : filled.length % skipUnit = 0) (hNodes : (filled.map Prod.fst).Nodup)
    (hObjs : (filled.map Prod.snd).Nodup) {as : List (Act T N Obj)}
    (hRun : Run (Step skipUnit) ((Pool.empty ptr).createGlobalList skipUnit filled) as s) :
    ∃ nodes, Inventory skipUnit (filled.map Prod.snd) s nodes ∧
      (∀ t, (nodes (.provider t)).length ≤ skipUnit ∧ (nodes (.collector t)).length ≤ 2 * skipUnit) ∧
      (s.outstanding.length + (3 * Fintype.card T - 1) * skipUnit < filled.length →
        ∀ t, (s.allocate t).isSome ∧
          (s.list (.inl (.provider t)) = none → ∃ s₁, Step skipUnit s (.fill t) s₁)) ∧
      ∀ t s₁, Step skipUnit s (.fill t) s₁ → ∀ bs s₂, Run (Step skipUnit) s₁ bs s₂ →
        (∀ b ∈ bs, b.thread ≠ t) → ∃ s₃, Step skipUnit s₂ (.alloc t) s₃ := by
  obtain ⟨nodes, hKept⟩ := kept_of_run ptr hUnit hWhole hNodes hObjs hRun
  obtain ⟨hInv, hStock, hBound⟩ := hKept
  refine ⟨nodes, hInv, fun t => ⟨hStock t, hBound t⟩, ?_, ?_⟩
  · intro hFew t
    rw [← List.length_map (f := Prod.snd)] at hFew
    have hGlobal := hInv.global_ne_nil (t := t) hObjs hStock hBound hFew
    refine ⟨hInv.allocate_isSome hUnit hGlobal, fun hEmpty => ?_⟩
    obtain ⟨s₁, hFill⟩ := hInv.exists_fill hUnit (hGlobal (hInv.provider_eq_nil hEmpty)) t
    exact ⟨s₁, Option.ite_none_right_eq_some.mpr ⟨hEmpty, hFill⟩⟩
  · intro t s₁ hStep bs s₂ hOther hBs
    obtain ⟨nodes', hMoved, hKept'⟩ := Kept.step ⟨hInv, hStock, hBound⟩ hUnit hStep
    cases hMoved with
    | fill hRefill => exact hKept'.exists_alloc_of_others hUnit (hRefill.provider_ne_nil hUnit) hOther hBs

def eightObjects : List (Nat × Nat) := (List.range 8).map fun n => (n, n + 10)

theorem oneEach_run : ∃ s : Pool Bool Nat Nat,
    Run (Step 1) ((Pool.empty fun _ => 0).createGlobalList 1 eightObjects)
      [.fill true, .fill false, .alloc true, .alloc false] s ∧ s.outstanding.length = 2 :=
  ⟨_, .cons rfl (.cons rfl (.cons rfl (.cons rfl (.nil _)))), rfl⟩

theorem available_oneEach : ∃ s : Pool Bool Nat Nat,
    Run (Step 1) ((Pool.empty fun _ => 0).createGlobalList 1 eightObjects)
      [.fill true, .fill false, .alloc true, .alloc false] s ∧ ∀ t, (s.allocate t).isSome := by
  obtain ⟨s, hRun, hOut⟩ := oneEach_run
  obtain ⟨_, _, _, hAvailable, _⟩ := available_of_run (fun _ => 0) (by decide) (by decide) (by decide)
    (by decide) hRun
  refine ⟨s, hRun, fun t => (hAvailable ?_ t).1⟩
  rw [hOut]
  decide

end Pool

end Libnvmmio.Allocator

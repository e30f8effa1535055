import Libnvmmio.Allocator.Availability
import Libnvmmio.Radixlog.LogSize

/-! # When an allocation exits

A thread takes a whole run of `skip_unit` objects to serve its first allocation, so
that a pool runs dry while most of its objects are free. What a run of the pool has
allocated, freed, refilled and given back determines the length of every list, and
with it which allocations exit.
-/

namespace Libnvmmio.Allocator.Pool

open LinkedLists GuardedRun

set_option autoImplicit false
set_option linter.unusedSectionVars false

variable {T N Obj : Type} [DecidableEq T] [DecidableEq N] [DecidableEq Obj] {skipUnit : Nat}
  {objs : List Obj} {s s' : Pool T N Obj} {nodes nodes' nodes'' : Place T → List N} {t : T}
  {as bs : List (Act T N Obj)}

namespace Act

def isFill : Act T N Obj → Bool
  | .fill _ => true
  | _ => false

def isGiveBack : Act T N Obj → Bool
  | .giveBack _ => true
  | _ => false

def fillOf (t : T) : Act T N Obj → Bool
  | .fill u => u = t
  | _ => false

def allocOf (t : T) : Act T N Obj → Bool
  | .alloc u => u = t
  | _ => false

def giveBackOf (t : T) : Act T N Obj → Bool
  | .giveBack u => u = t
  | _ => false

def freeOf (t : T) : Act T N Obj → Bool
  | .free u _ _ => u = t
  | _ => false

end Act

structure Ledger (skipUnit : Nat) (nodes : Place T → List N) (as : List (Act T N Obj))
    (nodes' : Place T → List N) : Prop where
  global : (nodes' .global).length + skipUnit * as.countP Act.isFill =
    (nodes .global).length + skipUnit * as.countP Act.isGiveBack
  provider : ∀ t, (nodes' (.provider t)).length + as.countP (Act.allocOf t) =
    (nodes (.provider t)).length + skipUnit * as.countP (Act.fillOf t)
  collector : ∀ t, (nodes' (.collector t)).length + skipUnit * as.countP (Act.giveBackOf t) =
    (nodes (.collector t)).length + as.countP (Act.freeOf t)

theorem Ledger.nil (nodes : Place T → List N) : Ledger skipUnit nodes ([] : List (Act T N Obj)) nodes :=
  ⟨rfl, fun _ => rfl, fun _ => rfl⟩

theorem Ledger.append (h : Ledger skipUnit nodes as nodes') (h' : Ledger skipUnit nodes' bs nodes'') :
    Ledger skipUnit nodes (as ++ bs) nodes'' := by
  constructor
  · have hFirst := h.global
    have hSecond := h'.global
    simp only [List.countP_append, Nat.mul_add]
    omega
  · intro t
    have hFirst := h.provider t
    have hSecond := h'.provider t
    simp only [List.countP_append, Nat.mul_add]
    omega
  · intro t
    have hFirst := h.collector t
    have hSecond := h'.collector t
    simp only [List.countP_append, Nat.mul_add]
    omega

theorem length_moved (nodes : Place T → List N) {p q : Place T} (hne : p ≠ q) {run rest : List N}
    (hSplit : nodes p = run ++ rest) (r : Place T) :
    (moved nodes p q run rest r).length + (if r = p then run.length else 0) =
      (nodes r).length + if r = q then run.length else 0 := by
  by_cases hq : r = q
  · subst hq
    rw [moved_self, if_neg hne.symm, if_pos rfl, List.length_append]
    omega
  · by_cases hp : r = p
    · subst hp
      rw [moved_from hne, if_pos rfl, if_neg hq, hSplit, List.length_append]
      omega
    · rw [moved_other hp hq, if_neg hp, if_neg hq]

theorem Moved.ledger {a : Act T N Obj} (h : Moved skipUnit s nodes a nodes') :
    Ledger skipUnit nodes [a] nodes' := by
  cases h with
  | @fill t run rest hRefill =>
    have hLength := length_moved nodes (by intro hEq; cases hEq) hRefill.before (q := .provider t)
    rw [hRefill.length] at hLength
    refine ⟨?_, fun u => ?_, fun u => ?_⟩
    · simpa [Act.isFill, Act.isGiveBack] using hLength .global
    · have hHere := hLength (.provider u)
      by_cases hu : t = u
      · subst hu
        simpa [Act.allocOf, Act.fillOf] using hHere
      · simpa [Act.allocOf, Act.fillOf, hu, Ne.symm hu] using hHere
    · simpa [Act.giveBackOf, Act.freeOf] using hLength (.collector u)
  | @alloc t node ns hList =>
    refine ⟨?_, fun u => ?_, fun u => ?_⟩
    · simp [Act.isFill, Act.isGiveBack]
    · by_cases hu : t = u
      · subst hu
        simp [Act.allocOf, Act.fillOf, hList]
      · simp [Act.allocOf, Act.fillOf, hu, Ne.symm hu]
    · simp [Act.giveBackOf, Act.freeOf]
  | @giveBack t run rest hSplit hRun =>
    have hLength := length_moved nodes (by intro hEq; cases hEq) hSplit (q := .global)
    rw [hRun] at hLength
    refine ⟨?_, fun u => ?_, fun u => ?_⟩
    · simpa [Act.isFill, Act.isGiveBack] using hLength .global
    · simpa [Act.allocOf, Act.fillOf] using hLength (.provider u)
    · have hHere := hLength (.collector u)
      by_cases hu : t = u
      · subst hu
        simpa [Act.giveBackOf, Act.freeOf] using hHere
      · simpa [Act.giveBackOf, Act.freeOf, hu, Ne.symm hu] using hHere
  | @free t node obj hRoom =>
    refine ⟨?_, fun u => ?_, fun u => ?_⟩
    · simp [Act.isFill, Act.isGiveBack]
    · simp [Act.allocOf, Act.fillOf]
    · by_cases hu : t = u
      · subst hu
        simp [Act.giveBackOf, Act.freeOf]
      · simp [Act.giveBackOf, Act.freeOf, hu, Ne.symm hu]

theorem Kept.ledger (h : Kept skipUnit objs s nodes) (hUnit : 0 < skipUnit) (hRun : Run (Step skipUnit) s as s') :
    ∃ nodes', Kept skipUnit objs s' nodes' ∧ Ledger skipUnit nodes as nodes' := by
  induction hRun generalizing nodes with
  | nil s => exact ⟨nodes, h, .nil nodes⟩
  | cons hStep _ ih =>
    obtain ⟨nodes₁, hMoved, hKept⟩ := h.step hUnit hStep
    obtain ⟨nodes', hKept', hLedger⟩ := ih hKept
    exact ⟨nodes', hKept', hMoved.ledger.append hLedger⟩

theorem kept_createGlobalList (ptr : N → Obj) {filled : List (N × Obj)} (hWhole : filled.length % skipUnit = 0)
    (hNodes : (filled.map Prod.fst).Nodup) (hObjs : (filled.map Prod.snd).Nodup) :
    ∃ nodes : Place T → List N,
      Kept skipUnit (filled.map Prod.snd) ((Pool.empty ptr).createGlobalList skipUnit filled) nodes ∧
      (∀ p, p ≠ .global → nodes p = []) ∧ (nodes .global).length = filled.length := by
  obtain ⟨nodes, hCreated, hEmpty⟩ := inventory_createGlobalList (T := T) ptr hWhole hNodes hObjs
  have hLocal : ∀ p : Place T, p ≠ .global → (nodes p).length ≤ 0 := by
    intro p hp
    rw [hEmpty p hp, List.length_nil]
  refine ⟨nodes, ⟨hCreated, fun t => ?_, fun t => ?_⟩, hEmpty, ?_⟩
  · exact Nat.le_trans (hLocal _ (by intro hEq; cases hEq)) (Nat.zero_le _)
  · exact Nat.le_trans (hLocal _ (by intro hEq; cases hEq)) (Nat.zero_le _)
  · obtain ⟨_, nodes', hFilled, _, hLength, _⟩ :=
      (Created.empty (T := T) ptr).fillUp filled hNodes (fun _ _ => rfl) hObjs fun _ _ hIn => by cases hIn
    have hSame : nodes .global = nodes' .global :=
      (hCreated.chained.linked .global).unique (hFilled.chained.linked .global)
    rw [hSame, hLength, List.length_nil, Nat.zero_add]

/-! ## The allocations that exit -/

theorem Inventory.allocate_eq_none (h : Inventory skipUnit objs s nodes) (hProvider : nodes (.provider t) = [])
    (hGlobal : nodes .global = []) : s.allocate t = none := by
  have hEmpty : s.list (.inl (.provider t)) = none := by
    rw [(h.chained.linked (.provider t)).head, hProvider]
    rfl
  have hSkip : s.skip (.inl .global) = none := by
    rw [(h.chained.skips .global global_hasSkip).head, hGlobal]
    rfl
  have hFill : s.fillLocalProvider t = none := by
    rw [fillLocalProvider, pop, hSkip]
    rfl
  rw [allocate, if_pos hEmpty, hFill]
  rfl

theorem Inventory.allocate_eq_none_iff (h : Inventory skipUnit objs s nodes) (hUnit : 0 < skipUnit) :
    s.allocate t = none ↔ nodes (.provider t) = [] ∧ nodes .global = [] := by
  constructor
  · intro hFails
    by_contra hNot
    have hSome := h.allocate_isSome (t := t) hUnit fun hProvider hGlobal => hNot ⟨hProvider, hGlobal⟩
    rw [hFails] at hSome
    cases hSome
  · rintro ⟨hProvider, hGlobal⟩
    exact h.allocate_eq_none hProvider hGlobal

/-- Each of some threads refills at least once. -/
theorem card_le_countP_isFill (as : List (Act T N Obj)) (threads : Finset T)
    (hFills : ∀ t ∈ threads, 0 < as.countP (Act.fillOf t)) : threads.card ≤ as.countP Act.isFill := by
  have hSubset : threads ⊆ ((as.filter Act.isFill).map Act.thread).toFinset := by
    intro t ht
    obtain ⟨a, hMem, hFill⟩ := List.countP_pos_iff.mp (hFills t ht)
    rw [List.mem_toFinset, List.mem_map]
    cases a with
    | fill u => exact ⟨.fill u, List.mem_filter.mpr ⟨hMem, rfl⟩, of_decide_eq_true hFill⟩
    | _ => cases hFill
  calc threads.card ≤ ((as.filter Act.isFill).map Act.thread).toFinset.card := Finset.card_le_card hSubset
    _ ≤ ((as.filter Act.isFill).map Act.thread).length := List.toFinset_card_le _
    _ = as.countP Act.isFill := by rw [List.length_map, List.countP_eq_length_filter]

/-- What the acts of a run say about its allocations: which of them exit, how many objects each
thread keeps from the others, and how many threads the pool can serve. -/
structure Exhausts (skipUnit total : Nat) (as : List (Act T N Obj)) (s : Pool T N Obj) : Prop where
  exits_iff : ∀ t, s.allocate t = none ↔
    as.countP (Act.allocOf t) = skipUnit * as.countP (Act.fillOf t) ∧
      skipUnit * as.countP Act.isFill = total + skipUnit * as.countP Act.isGiveBack
  allocated : ∀ t, as.countP (Act.allocOf t) ≤ skipUnit * as.countP (Act.fillOf t) ∧
    skipUnit * as.countP (Act.fillOf t) ≤ as.countP (Act.allocOf t) + skipUnit
  freed : ∀ t, skipUnit * as.countP (Act.giveBackOf t) ≤ as.countP (Act.freeOf t) ∧
    as.countP (Act.freeOf t) ≤ skipUnit * as.countP (Act.giveBackOf t) + 2 * skipUnit
  served : ∀ threads : Finset T, (∀ t ∈ threads, 0 < as.countP (Act.allocOf t)) →
    skipUnit * threads.card ≤ total + skipUnit * as.countP Act.isGiveBack

theorem exhausts_of_run (ptr : N → Obj) {filled : List (N × Obj)} (hUnit : 0 < skipUnit)
    (hWhole : filled.length % skipUnit = 0) (hNodes : (filled.map Prod.fst).Nodup)
    (hObjs : (filled.map Prod.snd).Nodup)
    (hRun : Run (Step skipUnit) ((Pool.empty ptr).createGlobalList skipUnit filled) as s) :
    Exhausts skipUnit filled.length as s := by
  obtain ⟨nodes₀, hKept₀, hEmpty, hGlobal⟩ := kept_createGlobalList (T := T) ptr hWhole hNodes hObjs
  obtain ⟨nodes, ⟨hInv, hStock, hBound⟩, hLedger⟩ := hKept₀.ledger hUnit hRun
  have hAll := hLedger.global
  rw [hGlobal] at hAll
  have hProvider : ∀ t, (nodes (.provider t)).length + as.countP (Act.allocOf t) =
      skipUnit * as.countP (Act.fillOf t) := by
    intro t
    have hHere := hLedger.provider t
    rw [hEmpty (.provider t) (by intro hEq; cases hEq), List.length_nil, Nat.zero_add] at hHere
    exact hHere
  have hCollector : ∀ t, (nodes (.collector t)).length + skipUnit * as.countP (Act.giveBackOf t) =
      as.countP (Act.freeOf t) := by
    intro t
    have hHere := hLedger.collector t
    rw [hEmpty (.collector t) (by intro hEq; cases hEq), List.length_nil, Nat.zero_add] at hHere
    exact hHere
  refine ⟨fun t => ?_, fun t => ?_, fun t => ?_, fun threads hThreads => ?_⟩
  · have hHere := hProvider t
    rw [hInv.allocate_eq_none_iff hUnit, ← List.length_eq_zero_iff, ← List.length_eq_zero_iff]
    omega
  · have hHere := hProvider t
    have hLe := hStock t
    omega
  · have hHere := hCollector t
    have hLe : (nodes (.collector t)).length ≤ 2 * skipUnit := hBound t
    omega
  · have hCard := card_le_countP_isFill as threads fun t ht => by
      have hHere := hProvider t
      have hSome := hThreads t ht
      by_contra hNone
      rw [Nat.eq_zero_of_not_pos hNone, Nat.mul_zero] at hHere
      omega
    have hFills := Nat.mul_le_mul_left skipUnit hCard
    omega

/-- Two threads have an object each, and the third one exits. -/
theorem exhausts_twoRuns : ∃ s : Pool (Fin 3) Nat Nat,
    Run (Step 2) ((Pool.empty fun _ => 0).createGlobalList 2 fourObjects)
      [.fill 0, .alloc 0, .fill 1, .alloc 1] s ∧ s.outstanding.length = 2 ∧ s.allocate 2 = none := by
  have hRun : ∃ s : Pool (Fin 3) Nat Nat,
      Run (Step 2) ((Pool.empty fun _ => 0).createGlobalList 2 fourObjects)
        [.fill 0, .alloc 0, .fill 1, .alloc 1] s ∧ s.outstanding.length = 2 :=
    ⟨_, .cons rfl (.cons rfl (.cons rfl (.cons rfl (.nil _)))), rfl⟩
  obtain ⟨s, hRun, hOut⟩ := hRun
  have hExhausts := exhausts_of_run (fun _ => 0) (by decide) (by decide) (by decide) (by decide) hRun
  exact ⟨s, hRun, hOut, (hExhausts.exits_iff 2).mpr (by decide)⟩

/-! ## The pools of the log buffers -/

def logFileSize : Nat := 2 ^ 32
def nrNodeFill : Nat := 1024

/-- The number of buffers that `create_global_log_list` puts in the pool of a size. -/
def logCount (size : LogSize) : Nat :=
  let count := logFileSize >>> size.shift
  count - count % nrNodeFill

theorem logCount_eq (size : LogSize) : logCount size = nrNodeFill * 2 ^ (10 - size.val) := by
  revert size
  decide

/-- Until a run is given back, two threads get logs of the largest size, four get logs of the next one. -/
theorem Exhausts.logThreads_le {size : LogSize} (h : Exhausts nrNodeFill (logCount size) as s)
    (threads : Finset T) (hThreads : ∀ t ∈ threads, 0 < as.countP (Act.allocOf t)) :
    threads.card ≤ 2 ^ (10 - size.val) + as.countP Act.isGiveBack := by
  have hServed := h.served threads hThreads
  rw [logCount_eq, ← Nat.mul_add] at hServed
  exact Nat.le_of_mul_le_mul_left hServed (by decide)

end Libnvmmio.Allocator.Pool

import Libnvmmio.Allocator.Inventory

/-! # The pool conserves its objects

Each atomic part of an allocation or a free keeps the inventory, so it holds
along every interleaving.
-/

namespace Libnvmmio.Allocator.Pool

open LinkedLists GuardedRun

set_option autoImplicit false
set_option linter.unusedSectionVars false

variable {T N Obj : Type} [DecidableEq T] [DecidableEq N] [DecidableEq Obj] {skipUnit : Nat}
  {objs : List Obj} {s s' : Pool T N Obj} {nodes : Place T → List N} {t : T}

theorem collector_hasSkip (t : T) : (Place.collector t).HasSkip := by
  intro u hEq
  cases hEq

theorem global_hasSkip : (Place.global : Place T).HasSkip := by
  intro u hEq
  cases hEq

theorem global_hasSkip' (t : T) : (Place.global : Place T) ≠ .collector t := by
  intro hEq
  cases hEq

/-- The node that a skip list names first ends a full run at the front of its list. -/
theorem Chained.first_run (h : Chained skipUnit s nodes) (hUnit : 0 < skipUnit) {p : Place T}
    (hSkip : p.HasSkip) (hWhole : (nodes p).length % skipUnit = 0) {node : N}
    {skip : Links (Place T) N} (hPop : pop s.skip p = some (node, skip)) :
    ∃ front rest, nodes p = front ++ node :: rest ∧ front.length + 1 = skipUnit ∧
      rest.length % skipUnit = 0 ∧ skipEnds skipUnit (nodes p) = node :: skipEnds skipUnit rest := by
  have hHead := (pop_head hPop).symm.trans (h.skips p hSkip).head
  have hne : nodes p ≠ [] := by
    intro hNil
    rw [hNil] at hHead
    cases hHead
  obtain ⟨front, n, rest, hSplit, hFront, hRest, hEnds⟩ := exists_run hUnit hne hWhole
  rw [hEnds] at hHead
  cases hHead
  exact ⟨front, rest, hSplit, hFront, hRest, hEnds⟩

structure Refilled (skipUnit : Nat) (nodes : Place T → List N) (t : T) (run rest : List N) : Prop where
  before : nodes .global = run ++ rest
  length : run.length = skipUnit
  empty : nodes (.provider t) = []

theorem Inventory.fill (h : Inventory skipUnit objs s nodes) (hUnit : 0 < skipUnit)
    (hEmpty : s.list (.inl (.provider t)) = none) (hFill : s.fillLocalProvider t = some s') :
    ∃ run rest, Refilled skipUnit nodes t run rest ∧
      Inventory skipUnit objs s' (moved nodes .global (.provider t) run rest) := by
  obtain ⟨⟨node, skip⟩, hPop, hDone⟩ := Option.bind_eq_some_iff.mp hFill
  cases hDone
  obtain ⟨front, rest, hSplit, hFront, hRest, hEnds⟩ :=
    h.chained.first_run hUnit global_hasSkip h.whole hPop
  have hne : (Place.global : Place T) ≠ .provider t := by intro hEq; cases hEq
  have hProvider : nodes (.provider t) = [] := by
    have hHead := (h.chained.linked (.provider t)).head.symm.trans hEmpty
    exact List.head?_eq_none_iff.mp hHead
  have hRun : nodes .global = (front ++ [node]) ++ rest := by
    rw [hSplit, List.append_assoc, List.singleton_append]
  have hLinked := h.chained.linked_splice h.placed hne hSplit
  obtain ⟨_, _, hElse⟩ := h.placed.end_once hSplit
  refine ⟨front ++ [node], rest, ⟨hRun, by rw [List.length_append]; exact hFront, hProvider⟩, ?_, ⟨hLinked, ?_⟩,
    ?_, ?_⟩
  · exact h.placed.move hne hRun rfl rfl rfl
  · intro k hSkip
    have hk : k ≠ .provider t := hSkip t
    by_cases hGlobal : k = .global
    · subst hGlobal
      rw [moved_from hne]
      obtain ⟨ends, hEq, hRestEnds⟩ := linked_pop hPop (h.chained.skips .global hSkip)
        ((h.placed.nodup .global).sublist (skipEnds_sublist skipUnit _))
      rw [hEnds] at hEq
      cases hEq
      exact hRestEnds
    · rw [moved_other hGlobal hk]
      exact (h.chained.skips k hSkip).pop_other hPop hGlobal fun hIn =>
        hElse k hGlobal ((skipEnds_sublist skipUnit _).subset hIn)
  · have hKept : ∀ u, moved nodes .global (.provider t) (front ++ [node]) rest (.collector u) =
        nodes (.collector u) := fun u => moved_other (by intro hEq; cases hEq) (by intro hEq; cases hEq) _ _
    refine ⟨fun u => ?_, fun u => ?_⟩
    · rw [hKept]
      exact h.tallied.list u
    · rw [hKept]
      exact h.tallied.skip u
  · rw [moved_from hne]
    exact hRest

theorem Inventory.alloc (h : Inventory skipUnit objs s nodes) (hAlloc : s.popProvider t = some s') :
    ∃ node ns, nodes (.provider t) = node :: ns ∧ s'.outstanding = s.ptr node :: s.outstanding ∧
      Inventory skipUnit objs s' (Function.update nodes (.provider t) ns) := by
  obtain ⟨⟨node, list⟩, hPop, hDone⟩ := Option.bind_eq_some_iff.mp hAlloc
  cases hDone
  obtain ⟨ns, hList, hRest⟩ := linked_pop hPop (h.chained.linked (.provider t)) (h.placed.nodup _)
  refine ⟨node, ns, hList, rfl, h.placed.take hList rfl rfl rfl, ⟨fun k => ?_, fun k hSkip => ?_⟩,
    ⟨fun u => ?_, fun u => ?_⟩, ?_⟩
  · by_cases hk : k = .provider t
    · subst hk
      rw [Function.update_self]
      exact hRest
    · rw [Function.update_of_ne hk]
      refine (h.chained.linked k).pop_other hPop hk fun hIn => hk ?_
      exact h.placed.apart k _ node hIn (by rw [hList]; exact List.mem_cons_self)
  · rw [Function.update_of_ne (hSkip t)]
    exact h.chained.skips k hSkip
  · rw [Function.update_of_ne (collector_hasSkip u t)]
    exact h.tallied.list u
  · rw [Function.update_of_ne (collector_hasSkip u t)]
    exact h.tallied.skip u
  · rw [Function.update_of_ne (global_hasSkip t)]
    exact h.whole

/-- A full collector gives its newest run to the global list. -/
theorem Inventory.giveBack (h : Inventory skipUnit objs s nodes) (hUnit : 0 < skipUnit)
    (hFull : s.Full skipUnit t) (hGive : s.giveBack skipUnit t = some s') :
    ∃ run rest, nodes (.collector t) = run ++ rest ∧ run.length = skipUnit ∧
      Inventory skipUnit objs s' (moved nodes (.collector t) .global run rest) := by
  obtain ⟨⟨node, skip⟩, hPop, hDone⟩ := Option.bind_eq_some_iff.mp hGive
  cases hDone
  have hCnt := h.tallied.list t
  have hWhole : (nodes (.collector t)).length % skipUnit = 0 := hCnt ▸ hFull.1
  obtain ⟨front, rest, hSplit, hFront, hRest, hEnds⟩ :=
    h.chained.first_run hUnit (collector_hasSkip t) hWhole hPop
  have hne : Place.collector t ≠ .global := by intro hEq; cases hEq
  have hRun : nodes (.collector t) = (front ++ [node]) ++ rest := by
    rw [hSplit, List.append_assoc, List.singleton_append]
  have hLength : (front ++ [node]).length = skipUnit := by
    rw [List.length_append]
    exact hFront
  have hLinked := h.chained.linked_splice h.placed hne hSplit
  obtain ⟨_, hNotRest, hElse⟩ := h.placed.end_once hSplit
  have hOut : ∀ k, k ≠ .collector t → node ∉ skipEnds skipUnit (nodes k) :=
    fun k hk hIn => hElse k hk ((skipEnds_sublist skipUnit _).subset hIn)
  refine ⟨front ++ [node], rest, hRun, hLength, h.placed.move hne hRun rfl rfl rfl, ⟨hLinked, ?_⟩,
    ⟨fun u => ?_, fun u => ?_⟩, ?_⟩
  · intro k hSkip
    by_cases hGlobal : k = .global
    · subst hGlobal
      rw [moved_self, List.append_assoc, List.singleton_append, skipEnds_run (by omega) h.whole]
      exact linked_push ((h.chained.skips _ hSkip).pop_other hPop (Ne.symm hne) (hOut _ (Ne.symm hne)))
        (hOut _ (Ne.symm hne))
    · by_cases hk : k = .collector t
      · subst hk
        rw [moved_from hne]
        obtain ⟨ends, hEq, hRestEnds⟩ := linked_pop hPop (h.chained.skips _ hSkip)
          ((h.placed.nodup _).sublist (skipEnds_sublist skipUnit _))
        rw [hEnds] at hEq
        cases hEq
        exact hRestEnds.push_other hGlobal fun hIn =>
          hNotRest ((skipEnds_sublist skipUnit _).subset hIn)
      · rw [moved_other hk hGlobal]
        exact ((h.chained.skips k hSkip).pop_other hPop hk (hOut k hk)).push_other hGlobal (hOut k hk)
  · dsimp only
    rw [Function.update_of_ne (by intro hEq; cases hEq)]
    by_cases hu : u = t
    · subst hu
      rw [Function.update_self, moved_from hne, hCnt, hRun, List.length_append, hLength,
        Nat.add_sub_cancel_left]
    · have hu' : Place.collector u ≠ .collector t := fun hEq => hu (Place.collector.inj hEq)
      rw [Function.update_of_ne hu', moved_other hu' (by intro hEq; cases hEq)]
      exact h.tallied.list u
  · dsimp only
    rw [Function.update_of_ne (by intro hEq; cases hEq)]
    by_cases hu : u = t
    · subst hu
      rw [Function.update_self, moved_from hne, h.tallied.skip u, hEnds, List.length_cons,
        Nat.add_sub_cancel]
    · have hu' : Place.collector u ≠ .collector t := fun hEq => hu (Place.collector.inj hEq)
      rw [Function.update_of_ne hu', moved_other hu' (by intro hEq; cases hEq)]
      exact h.tallied.skip u
  · rw [moved_self, List.length_append, hLength, Nat.add_mod_left]
    exact h.whole

theorem Inventory.free (h : Inventory skipUnit objs s nodes) {node : N} {obj : Obj}
    (hOut : obj ∈ s.outstanding) (hFresh : s.live node = false) :
    Inventory skipUnit objs
      { (s.getFnode node obj).put skipUnit node (.collector t) with
        outstanding := s.outstanding.erase obj }
      (Function.update nodes (.collector t) (node :: nodes (.collector t))) := by
  have hNew : ¬ InStock nodes node := by
    intro hIn
    have hLive := h.placed.live node hIn
    rw [hFresh] at hLive
    cases hLive
  have hCnt : (s.getFnode node obj).listCnt (.collector t) = (nodes (.collector t)).length :=
    h.tallied.list t
  have hPtr : ((s.getFnode node obj).put skipUnit node (.collector t)).ptr = Function.update s.ptr node obj := by
    rw [put]
    split <;> rfl
  have hLive : ((s.getFnode node obj).put skipUnit node (.collector t)).live =
      Function.update s.live node true := by
    rw [put]
    split <;> rfl
  have hChained := Chained.put (s := s.getFnode node obj) ⟨h.chained.linked, h.chained.skips⟩ hNew
    (collector_hasSkip t) hCnt
  have hTallied : Tallied skipUnit ((s.getFnode node obj).put skipUnit node (.collector t))
      (Function.update nodes (.collector t) (node :: nodes (.collector t))) := Tallied.put (s := s.getFnode node obj)
    ⟨h.tallied.list, h.tallied.skip⟩ (fun _ _ => hCnt)
  refine ⟨?_, ⟨hChained.linked, hChained.skips⟩, ⟨hTallied.list, hTallied.skip⟩, ?_⟩
  · refine h.placed.add hFresh hPtr hLive (fun n hn hEq => ?_) (h.placed.out_nodup.erase obj) (fun o => ?_)
      fun o => ⟨.inl, fun hIn => hIn.elim id fun hEq => (h.placed.complete o).mpr (.inl (hEq ▸ hOut))⟩
    · exact h.placed.out_apart n hn (hEq ▸ hOut)
    · rw [h.placed.out_nodup.mem_erase_iff, and_comm]
  · rw [Function.update_of_ne (by intro hEq; cases hEq)]
    exact h.whole

/-! ## The filled pool -/

theorem Placed.pushGlobal (h : Placed objs s nodes) {node : N} {obj : Obj} (hFresh : s.live node = false)
    (hNew : obj ∉ objs) :
    Placed (obj :: objs) (s.pushGlobal skipUnit node obj)
      (Function.update nodes .global (node :: nodes .global)) := by
  have hOut : (s.pushGlobal skipUnit node obj).outstanding = s.outstanding := by
    rw [Pool.pushGlobal, Pool.put]
    split <;> rfl
  have hPtr : (s.pushGlobal skipUnit node obj).ptr = Function.update s.ptr node obj := by
    rw [Pool.pushGlobal, Pool.put]
    split <;> rfl
  have hLive : (s.pushGlobal skipUnit node obj).live = Function.update s.live node true := by
    rw [Pool.pushGlobal, Pool.put]
    split <;> rfl
  refine h.add hFresh hPtr hLive (fun n hn hEq => hNew ?_) (hOut ▸ h.out_nodup) (fun o => ?_) fun o => ?_
  · exact (h.complete obj).mpr (.inr ⟨n, hn, hEq⟩)
  · rw [hOut]
    refine ⟨fun hIn => ⟨hIn, fun hEq => hNew ?_⟩, fun hIn => hIn.1⟩
    exact (h.complete obj).mpr (.inl (hEq ▸ hIn))
  · rw [List.mem_cons, or_comm]

structure Created (skipUnit : Nat) (objs : List Obj) (s : Pool T N Obj) (nodes : Place T → List N) :
    Prop where
  placed : Placed objs s nodes
  chained : Chained skipUnit s nodes
  tallied : Tallied skipUnit s nodes
  count : s.listCnt .global = (nodes .global).length

theorem Created.pushGlobal (h : Created skipUnit objs s nodes) {node : N} {obj : Obj}
    (hFresh : s.live node = false) (hNew : obj ∉ objs) :
    Created skipUnit (obj :: objs) (s.pushGlobal skipUnit node obj)
      (Function.update nodes .global (node :: nodes .global)) := by
  have hUnknown : ¬ InStock nodes node := by
    intro hIn
    have hLive := h.placed.live node hIn
    rw [hFresh] at hLive
    cases hLive
  refine ⟨h.placed.pushGlobal hFresh hNew, ?_, ?_, ?_⟩
  · exact Chained.put (s := s.getFnode node obj) ⟨h.chained.linked, h.chained.skips⟩ hUnknown
      global_hasSkip h.count
  · exact Tallied.put (s := s.getFnode node obj) ⟨h.tallied.list, h.tallied.skip⟩
      (fun t hEq => absurd hEq (global_hasSkip' t))
  · have hCnt : (s.pushGlobal skipUnit node obj).listCnt .global = s.listCnt .global + 1 := by
      rw [Pool.pushGlobal, Pool.put]
      split <;> simp [pushSkip, pushList, getFnode]
    rw [hCnt, h.count, Function.update_self, List.length_cons]

theorem Created.fillUp (filled : List (N × Obj)) (h : Created skipUnit objs s nodes)
    (hNodes : (filled.map Prod.fst).Nodup) (hFresh : ∀ x ∈ filled, s.live x.1 = false)
    (hObjs : (filled.map Prod.snd).Nodup) (hNew : ∀ x ∈ filled, x.2 ∉ objs) :
    ∃ objs' nodes', Created skipUnit objs' (s.createGlobalList skipUnit filled) nodes' ∧
      (∀ o, o ∈ objs' ↔ o ∈ objs ∨ o ∈ filled.map Prod.snd) ∧
      (nodes' .global).length = (nodes .global).length + filled.length ∧
      ∀ p, p ≠ .global → nodes' p = nodes p := by
  induction filled generalizing s objs nodes with
  | nil => exact ⟨objs, nodes, h, fun o => by simp, rfl, fun _ _ => rfl⟩
  | cons x filled ih =>
    rw [List.map_cons, List.nodup_cons] at hNodes hObjs
    have hLive : (s.pushGlobal skipUnit x.1 x.2).live = Function.update s.live x.1 true := by
      rw [Pool.pushGlobal, Pool.put]
      split <;> rfl
    have hPushed := h.pushGlobal (hFresh x List.mem_cons_self) (hNew x List.mem_cons_self)
    obtain ⟨objs', nodes', hCreated, hMem, hLength, hElse⟩ := ih hPushed hNodes.2
      (fun y hy => by
        have hne : y.1 ≠ x.1 := fun hEq => hNodes.1 (hEq ▸ List.mem_map_of_mem hy)
        rw [hLive, Function.update_of_ne hne]
        exact hFresh y (List.mem_cons_of_mem x hy))
      hObjs.2
      (fun y hy hIn => by
        rcases List.mem_cons.mp hIn with hEq | hOld
        · exact hObjs.1 (hEq ▸ List.mem_map_of_mem hy)
        · exact hNew y (List.mem_cons_of_mem x hy) hOld)
    refine ⟨objs', nodes', hCreated, fun o => ?_, ?_, fun p hp => ?_⟩
    · rw [hMem, List.mem_cons, List.map_cons, List.mem_cons, or_comm (a := o = x.2), or_assoc]
    · rw [hLength, Function.update_self, List.length_cons, List.length_cons]
      omega
    · rw [hElse p hp, Function.update_of_ne hp]

theorem Created.empty (ptr : N → Obj) :
    Created skipUnit [] (Pool.empty ptr : Pool T N Obj) fun _ => [] where
  placed := by
    refine ⟨fun _ => .nil, fun _ _ _ hIn => ?_, fun _ hIn => ?_, fun _ _ hIn => ?_, .nil,
      fun _ hIn => ?_, fun o => ?_⟩
    · cases hIn
    · obtain ⟨_, hIn⟩ := hIn
      cases hIn
    · obtain ⟨_, hIn⟩ := hIn
      cases hIn
    · obtain ⟨_, hIn⟩ := hIn
      cases hIn
    · simp [InStock, Pool.empty]
  chained := ⟨fun _ => rfl, fun _ _ => rfl⟩
  tallied := ⟨fun _ => rfl, fun _ => rfl⟩
  count := rfl

theorem inventory_createGlobalList (ptr : N → Obj) {filled : List (N × Obj)}
    (hWhole : filled.length % skipUnit = 0) (hNodes : (filled.map Prod.fst).Nodup)
    (hObjs : (filled.map Prod.snd).Nodup) :
    ∃ nodes : Place T → List N, Inventory skipUnit (filled.map Prod.snd)
      ((Pool.empty ptr : Pool T N Obj).createGlobalList skipUnit filled) nodes ∧
      ∀ p, p ≠ .global → nodes p = [] := by
  obtain ⟨objs', nodes, hCreated, hMem, hLength, hElse⟩ :=
    (Created.empty (T := T) ptr).fillUp filled hNodes
    (fun _ _ => rfl) hObjs fun _ _ hIn => by cases hIn
  refine ⟨nodes, ⟨?_, hCreated.chained, hCreated.tallied, ?_⟩, hElse⟩
  · have hPlaced := hCreated.placed
    refine ⟨hPlaced.nodup, hPlaced.apart, hPlaced.live, hPlaced.ptr_inj, hPlaced.out_nodup,
      hPlaced.out_apart, fun o => ?_⟩
    rw [← hPlaced.complete, hMem]
    exact ⟨.inr, fun hIn => hIn.resolve_left List.not_mem_nil⟩
  · rw [hLength, List.length_nil, Nat.zero_add]
    exact hWhole

/-! ## Every interleaving -/

/-- A collector holds at most `MAX_SKIP_NODES` runs, since it gives one back before it grows further. -/
def Bounded (skipUnit : Nat) (nodes : Place T → List N) : Prop :=
  ∀ t, (nodes (.collector t)).length ≤ maxSkipNodes * skipUnit

theorem Inventory.full_iff (h : Inventory skipUnit objs s nodes) (hUnit : 0 < skipUnit)
    (hBound : Bounded skipUnit nodes) (t : T) :
    s.Full skipUnit t ↔ (nodes (.collector t)).length = maxSkipNodes * skipUnit := by
  have hLe := hBound t
  rw [Full, h.tallied.list, h.tallied.skip]
  constructor
  · rintro ⟨hMod, hSkips⟩
    have hFew := skipEnds_length_lt hUnit (nodes (.collector t))
    have hRuns := Nat.mul_le_mul_right skipUnit hSkips
    obtain ⟨k, hk⟩ := Nat.dvd_of_mod_eq_zero hMod
    rw [Nat.mul_comm] at hk
    rw [hk] at hFew hLe ⊢
    have hGe : maxSkipNodes * skipUnit < (k + 1) * skipUnit := by
      rw [Nat.add_mul, Nat.one_mul]
      exact Nat.lt_of_le_of_lt hRuns hFew
    have hk' := Nat.lt_of_mul_lt_mul_right hGe
    have hk'' := Nat.le_of_mul_le_mul_right hLe hUnit
    rw [show k = maxSkipNodes by omega]
  · intro hEq
    have hMany := length_le_skipEnds hUnit (nodes (.collector t))
    rw [hEq] at hMany ⊢
    exact ⟨Nat.mul_mod_left .., Nat.le_of_mul_le_mul_right hMany hUnit⟩

inductive Moved (skipUnit : Nat) (s : Pool T N Obj) (nodes : Place T → List N) :
    Act T N Obj → (Place T → List N) → Prop where
  | fill {t : T} {run rest : List N} : Refilled skipUnit nodes t run rest →
      Moved skipUnit s nodes (.fill t) (moved nodes .global (.provider t) run rest)
  | alloc {t : T} {node : N} {ns : List N} : nodes (.provider t) = node :: ns →
      Moved skipUnit s nodes (.alloc t) (Function.update nodes (.provider t) ns)
  | giveBack {t : T} {run rest : List N} : nodes (.collector t) = run ++ rest → run.length = skipUnit →
      Moved skipUnit s nodes (.giveBack t) (moved nodes (.collector t) .global run rest)
  | free {t : T} {node : N} {obj : Obj} : ¬ s.Full skipUnit t →
      Moved skipUnit s nodes (.free t node obj)
        (Function.update nodes (.collector t) (node :: nodes (.collector t)))

theorem Inventory.moved (h : Inventory skipUnit objs s nodes) (hUnit : 0 < skipUnit) {a : Act T N Obj}
    (hStep : Step skipUnit s a s') :
    ∃ nodes', Moved skipUnit s nodes a nodes' ∧ Inventory skipUnit objs s' nodes' := by
  cases a with
  | fill t =>
    obtain ⟨hEmpty, hFill⟩ := Option.ite_none_right_eq_some.mp hStep
    obtain ⟨run, rest, hRefill, hKept⟩ := h.fill hUnit hEmpty hFill
    exact ⟨_, .fill hRefill, hKept⟩
  | alloc t =>
    obtain ⟨_, ns, hList, _, hKept⟩ := h.alloc hStep
    exact ⟨_, .alloc hList, hKept⟩
  | giveBack t =>
    obtain ⟨hFull, hGive⟩ := Option.ite_none_right_eq_some.mp hStep
    obtain ⟨run, rest, hSplit, hLength, hKept⟩ := h.giveBack hUnit hFull hGive
    exact ⟨_, .giveBack hSplit hLength, hKept⟩
  | free t node obj =>
    obtain ⟨⟨hRoom, hOut, hFresh⟩, hDone⟩ := Option.ite_none_right_eq_some.mp hStep
    have hSame : ((s.getFnode node obj).put skipUnit node (.collector t)).outstanding = s.outstanding := by
      rw [Pool.put]
      split <;> rfl
    cases hDone
    rw [hSame]
    exact ⟨_, .free hRoom, h.free hOut hFresh⟩

theorem Bounded.moved (hBound : Bounded skipUnit nodes) (h : Inventory skipUnit objs s nodes)
    (hUnit : 0 < skipUnit) {a : Act T N Obj} {nodes' : Place T → List N}
    (hMoved : Moved skipUnit s nodes a nodes') : Bounded skipUnit nodes' := by
  intro u
  have hLe := hBound u
  cases hMoved with
  | fill =>
    rw [moved_other (by intro hEq; cases hEq) (by intro hEq; cases hEq)]
    exact hLe
  | alloc =>
    rw [Function.update_of_ne (by intro hEq; cases hEq)]
    exact hLe
  | @giveBack t _ _ hSplit _ =>
    by_cases hu : u = t
    · subst hu
      rw [hSplit, List.length_append] at hLe
      rw [moved_from (by intro hEq; cases hEq)]
      omega
    · rw [moved_other (fun hEq => hu (Place.collector.inj hEq)) (by intro hEq; cases hEq)]
      exact hLe
  | @free t _ _ hRoom =>
    by_cases hu : u = t
    · subst hu
      have hne : (nodes (.collector u)).length ≠ maxSkipNodes * skipUnit :=
        fun hEq => hRoom ((h.full_iff hUnit hBound u).mpr hEq)
      rw [Function.update_self, List.length_cons]
      omega
    · rw [Function.update_of_ne fun hEq => hu (Place.collector.inj hEq)]
      exact hLe

theorem Inventory.step (h : Inventory skipUnit objs s nodes) (hUnit : 0 < skipUnit)
    (hBound : Bounded skipUnit nodes) {a : Act T N Obj} (hStep : Step skipUnit s a s') :
    ∃ nodes', Inventory skipUnit objs s' nodes' ∧ Bounded skipUnit nodes' := by
  obtain ⟨nodes', hMoved, hKept⟩ := h.moved hUnit hStep
  exact ⟨nodes', hKept, hBound.moved h hUnit hMoved⟩

/-- Having given a run back, a collector has room, so the free that follows is not held up. -/
theorem Inventory.not_full_of_giveBack (h : Inventory skipUnit objs s nodes) (hUnit : 0 < skipUnit)
    (hBound : Bounded skipUnit nodes) (hStep : Step skipUnit s (.giveBack t) s') :
    ¬ s'.Full skipUnit t := by
  obtain ⟨nodes', hKept', hBound'⟩ := h.step hUnit hBound hStep
  obtain ⟨hFull, hGive⟩ := Option.ite_none_right_eq_some.mp hStep
  obtain ⟨run, rest, hSplit, hLength, hKept⟩ := h.giveBack hUnit hFull hGive
  have hSame : nodes' (.collector t) = rest := by
    have hLinked := hKept.chained.linked (.collector t)
    rw [moved_from (by intro hEq; cases hEq)] at hLinked
    exact (hKept'.chained.linked (.collector t)).unique hLinked
  have hLe := hBound t
  rw [hSplit, List.length_append] at hLe
  rw [hKept'.full_iff hUnit hBound' t, hSame]
  omega

/-- Whatever the interleaving, the pool keeps its objects, its skip lists name live nodes, and a
refill moves one run. -/
theorem conserved_of_run (ptr : N → Obj) {filled : List (N × Obj)} (hUnit : 0 < skipUnit)
    (hWhole : filled.length % skipUnit = 0) (hNodes : (filled.map Prod.fst).Nodup)
    (hObjs : (filled.map Prod.snd).Nodup) {as : List (Act T N Obj)}
    (hRun : Run (Step skipUnit) ((Pool.empty ptr).createGlobalList skipUnit filled) as s) :
    ∃ nodes, Inventory skipUnit (filled.map Prod.snd) s nodes ∧
      (∀ p : Place T, p.HasSkip → ∀ n ∈ skipEnds skipUnit (nodes p), s.live n = true) ∧
      ∀ t s', Step skipUnit s (.fill t) s' → ∃ run rest, Refilled skipUnit nodes t run rest ∧
        Linked s'.list (.inl .global) rest ∧ Linked s'.list (.inl (.provider t)) run := by
  obtain ⟨nodes₀, hCreated, hEmpty⟩ := inventory_createGlobalList (T := T) ptr hWhole hNodes hObjs
  have hBound : Bounded skipUnit nodes₀ := fun t => by
    rw [hEmpty _ (Ne.symm (global_hasSkip' t)), List.length_nil]
    exact Nat.zero_le _
  obtain ⟨nodes, hKept, _⟩ := hRun.invariant
    (fun s => ∃ nodes, Inventory skipUnit (filled.map Prod.snd) s nodes ∧ Bounded skipUnit nodes)
    (fun _ _ _ ⟨_, hInv, hBound⟩ hStep => hInv.step hUnit hBound hStep) ⟨nodes₀, hCreated, hBound⟩
  refine ⟨nodes, hKept, fun p _ n hn => ?_, fun t s' hStep => ?_⟩
  · exact hKept.placed.live n ⟨p, (skipEnds_sublist skipUnit (nodes p)).subset hn⟩
  · obtain ⟨hNone, hFill⟩ := Option.ite_none_right_eq_some.mp hStep
    obtain ⟨run, rest, hRefill, hKept'⟩ := hKept.fill hUnit hNone hFill
    have hne : (Place.global : Place T) ≠ .provider t := by intro hEq; cases hEq
    have hGlobal := hKept'.chained.linked .global
    have hProvider := hKept'.chained.linked (.provider t)
    rw [moved_from hne] at hGlobal
    rw [moved_self, hRefill.empty, List.append_nil] at hProvider
    exact ⟨run, rest, hRefill, hGlobal, hProvider⟩

def fourObjects : List (Nat × Nat) := [(0, 10), (1, 11), (2, 12), (3, 13)]

def refillAndFree : List (Act Bool Nat Nat) := [.fill true, .alloc true, .alloc true, .free false 3 13]

theorem refillAndFree_run : ∃ s, Run (Step 2) ((Pool.empty fun _ => 0).createGlobalList 2 fourObjects)
    refillAndFree s :=
  ⟨_, .cons rfl (.cons rfl (.cons rfl (.cons rfl (.nil _))))⟩

theorem conserved_refillAndFree : ∃ s, Run (Step 2) ((Pool.empty fun _ => 0).createGlobalList 2 fourObjects)
      refillAndFree s ∧
    ∃ nodes, Inventory 2 (fourObjects.map Prod.snd) s nodes ∧
      (∀ p : Place Bool, p.HasSkip → ∀ n ∈ skipEnds 2 (nodes p), s.live n = true) ∧
      ∀ t s', Step 2 s (.fill t) s' → ∃ run rest, Refilled 2 nodes t run rest ∧
        Linked s'.list (.inl .global) rest ∧ Linked s'.list (.inl (.provider t)) run := by
  obtain ⟨s, hRun⟩ := refillAndFree_run
  exact ⟨s, hRun, conserved_of_run (fun _ => 0) (by decide) (by decide) (by decide) (by decide) hRun⟩

end Libnvmmio.Allocator.Pool

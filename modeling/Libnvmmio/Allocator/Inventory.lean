import Libnvmmio.Allocator.Pool

/-! # Where the objects are

The nodes of each list, read off the memory, account for every object of the
pool. The skip list of a list names the nodes whose number of successors is a
multiple of `skip_unit`: the last node of each run counted from the tail.
-/

namespace Libnvmmio.Allocator

open LinkedLists GuardedRun

set_option autoImplicit false
set_option linter.unusedSectionVars false

section SkipEnds

variable {N : Type} {u : Nat}

/-- The last nodes of the runs of `u` nodes, counted from the tail. -/
def skipEnds (u : Nat) : List N → List N
  | [] => []
  | x :: xs => if xs.length % u = 0 then x :: skipEnds u xs else skipEnds u xs

theorem skipEnds_sublist (u : Nat) (xs : List N) : (skipEnds u xs).Sublist xs := by
  induction xs with
  | nil => exact .slnil
  | cons x xs ih =>
    rw [skipEnds]
    split
    · exact ih.cons_cons x
    · exact ih.cons x

/-- A full run in front of full runs is named by its last node. -/
theorem skipEnds_run {front rest : List N} {n : N} (hFront : front.length < u)
    (hRest : rest.length % u = 0) : skipEnds u (front ++ n :: rest) = n :: skipEnds u rest := by
  induction front with
  | nil => rw [List.nil_append, skipEnds, if_pos hRest]
  | cons x front ih =>
    rw [List.length_cons] at hFront
    have hInside : ¬ (front ++ n :: rest).length % u = 0 := by
      rw [List.length_append, List.length_cons, ← Nat.add_assoc, Nat.add_right_comm,
        Nat.add_mod, hRest, Nat.add_zero, Nat.mod_mod, Nat.mod_eq_of_lt hFront]
      exact Nat.succ_ne_zero _
    rw [List.cons_append, skipEnds, if_neg hInside]
    exact ih (by omega)

/-- Every run has its end, also the newest one, which may be partial. -/
theorem length_le_skipEnds (hu : 0 < u) (xs : List N) : xs.length ≤ (skipEnds u xs).length * u := by
  induction xs with
  | nil => exact Nat.zero_le _
  | cons x xs ih =>
    rw [skipEnds]
    split
    · rw [List.length_cons, List.length_cons, Nat.add_mul]
      omega
    · rename_i hInside
      have hne : xs.length ≠ (skipEnds u xs).length * u := fun hEq => hInside (by rw [hEq]; exact Nat.mul_mod_left ..)
      rw [List.length_cons]
      omega

theorem skipEnds_length_lt (hu : 0 < u) (xs : List N) : (skipEnds u xs).length * u < xs.length + u := by
  induction xs with
  | nil => simpa [skipEnds] using hu
  | cons x xs ih =>
    rw [skipEnds]
    split
    · rename_i hEnd
      obtain ⟨k, hk⟩ := Nat.dvd_of_mod_eq_zero hEnd
      rw [hk, Nat.mul_comm u k, ← Nat.succ_mul] at ih
      have hLe := Nat.mul_le_mul_right u (Nat.lt_succ_iff.mp (Nat.lt_of_mul_lt_mul_right ih))
      rw [List.length_cons, List.length_cons, hk, Nat.mul_comm u k, Nat.add_mul]
      omega
    · rw [List.length_cons]
      omega

theorem exists_run {xs : List N} (hu : 0 < u) (hne : xs ≠ []) (hFull : xs.length % u = 0) :
    ∃ front n rest, xs = front ++ n :: rest ∧ front.length + 1 = u ∧ rest.length % u = 0 ∧
      skipEnds u xs = n :: skipEnds u rest := by
  have hPos : 0 < xs.length := List.length_pos_iff.mpr hne
  have hLe : u ≤ xs.length := Nat.le_of_dvd hPos (Nat.dvd_of_mod_eq_zero hFull)
  have hLast : u - 1 < xs.length := by omega
  have hSplit : xs = xs.take (u - 1) ++ xs[u - 1] :: xs.drop u := by
    have hDrop : xs.drop (u - 1) = xs[u - 1] :: xs.drop (u - 1 + 1) := List.drop_eq_getElem_cons hLast
    rw [Nat.sub_add_cancel hu] at hDrop
    rw [← hDrop, List.take_append_drop]
  have hFront : (xs.take (u - 1)).length + 1 = u := by
    rw [List.length_take]
    omega
  have hRest : (xs.drop u).length % u = 0 := by
    rw [List.length_drop, ← Nat.mod_eq_sub_mod hLe]
    exact hFull
  refine ⟨_, _, _, hSplit, hFront, hRest, ?_⟩
  conv_lhs => rw [hSplit]
  exact skipEnds_run (by omega) hRest

end SkipEnds

namespace Place

/-- Providers have no skip list. -/
def HasSkip {T : Type} (p : Place T) : Prop := ∀ t, p ≠ .provider t

end Place

namespace Pool

variable {T N Obj : Type} [DecidableEq T] [DecidableEq N] [DecidableEq Obj]

def InStock (nodes : Place T → List N) (n : N) : Prop := ∃ p, n ∈ nodes p

/-- Every object is once in one list or handed out, and nothing else is. -/
structure Placed (objs : List Obj) (s : Pool T N Obj) (nodes : Place T → List N) : Prop where
  nodup : ∀ p, (nodes p).Nodup
  apart : ∀ p q n, n ∈ nodes p → n ∈ nodes q → p = q
  live : ∀ n, InStock nodes n → s.live n = true
  ptr_inj : ∀ n m, InStock nodes n → InStock nodes m → s.ptr n = s.ptr m → n = m
  out_nodup : s.outstanding.Nodup
  out_apart : ∀ n, InStock nodes n → s.ptr n ∉ s.outstanding
  complete : ∀ o, o ∈ objs ↔ o ∈ s.outstanding ∨ ∃ n, InStock nodes n ∧ s.ptr n = o

/-- The lists hang together, and the skip lists name the ends of the runs. -/
structure Chained (skipUnit : Nat) (s : Pool T N Obj) (nodes : Place T → List N) : Prop where
  linked : ∀ p, Linked s.list (.inl p) (nodes p)
  skips : ∀ p : Place T, p.HasSkip → Linked s.skip (.inl p) (skipEnds skipUnit (nodes p))

/-- The counters of the collectors are right; those of the global list are not kept up. -/
structure Tallied (skipUnit : Nat) (s : Pool T N Obj) (nodes : Place T → List N) : Prop where
  list : ∀ t, s.listCnt (.collector t) = (nodes (.collector t)).length
  skip : ∀ t, s.skipCnt (.collector t) = (skipEnds skipUnit (nodes (.collector t))).length

/-- The inventory of a pool. The global list consists of full runs. -/
structure Inventory (skipUnit : Nat) (objs : List Obj) (s : Pool T N Obj) (nodes : Place T → List N) :
    Prop where
  placed : Placed objs s nodes
  chained : Chained skipUnit s nodes
  tallied : Tallied skipUnit s nodes
  whole : (nodes .global).length % skipUnit = 0

section Placed

variable {objs : List Obj} {s s' : Pool T N Obj} {nodes : Place T → List N} {p q : Place T}

def moved (nodes : Place T → List N) (p q : Place T) (xs ys : List N) : Place T → List N :=
  Function.update (Function.update nodes p ys) q (xs ++ nodes q)

theorem moved_self (nodes : Place T → List N) (p q : Place T) (xs ys : List N) :
    moved nodes p q xs ys q = xs ++ nodes q := Function.update_self ..

theorem moved_from (hne : p ≠ q) (xs ys : List N) : moved nodes p q xs ys p = ys := by
  rw [moved, Function.update_of_ne hne, Function.update_self]

theorem moved_other {k : Place T} (hp : k ≠ p) (hq : k ≠ q) (xs ys : List N) :
    moved nodes p q xs ys k = nodes k := by
  rw [moved, Function.update_of_ne hq, Function.update_of_ne hp]

section Move

variable (h : Placed objs s nodes) (hne : p ≠ q) {xs ys : List N} (hSplit : nodes p = xs ++ ys)

include h hne hSplit

theorem Placed.mem_moved (k : Place T) (m : N) :
    m ∈ moved nodes p q xs ys k ↔ m ∈ xs ∧ k = q ∨ m ∉ xs ∧ m ∈ nodes k := by
  have hNodup := h.nodup p
  rw [hSplit, List.nodup_append] at hNodup
  have hMem : m ∈ xs → m ∈ nodes p := fun hm => by rw [hSplit]; exact List.mem_append_left _ hm
  by_cases hq : k = q
  · subst hq
    rw [moved_self, List.mem_append]
    by_cases hm : m ∈ xs <;> simp [hm]
  · by_cases hp : k = p
    · subst hp
      rw [moved_from hne, hSplit, List.mem_append]
      constructor
      · intro hm
        exact .inr ⟨fun hx => hNodup.2.2 m hx m hm rfl, .inr hm⟩
      · rintro (⟨_, rfl⟩ | ⟨hx, hm⟩)
        · exact absurd rfl hq
        · exact hm.resolve_left hx
    · rw [moved_other hp hq]
      constructor
      · intro hm
        exact .inr ⟨fun hx => hp (h.apart k p m hm (hMem hx)), hm⟩
      · rintro (⟨_, rfl⟩ | ⟨_, hm⟩)
        · exact absurd rfl hq
        · exact hm

theorem Placed.inStock_moved (m : N) : InStock (moved nodes p q xs ys) m ↔ InStock nodes m := by
  constructor
  · rintro ⟨k, hk⟩
    rcases (h.mem_moved hne hSplit k m).mp hk with ⟨hx, _⟩ | ⟨_, hm⟩
    · exact ⟨p, by rw [hSplit]; exact List.mem_append_left _ hx⟩
    · exact ⟨k, hm⟩
  · rintro ⟨k, hk⟩
    by_cases hx : m ∈ xs
    · exact ⟨q, (h.mem_moved hne hSplit q m).mpr (.inl ⟨hx, rfl⟩)⟩
    · exact ⟨k, (h.mem_moved hne hSplit k m).mpr (.inr ⟨hx, hk⟩)⟩

theorem Placed.move (hPtr : s'.ptr = s.ptr) (hLive : s'.live = s.live)
    (hOut : s'.outstanding = s.outstanding) : Placed objs s' (moved nodes p q xs ys) where
  nodup k := by
    have hNodup := h.nodup p
    rw [hSplit, List.nodup_append] at hNodup
    by_cases hq : k = q
    · subst hq
      rw [moved_self, List.nodup_append]
      refine ⟨hNodup.1, h.nodup k, fun a ha b hb hEq => hne ?_⟩
      subst hEq
      exact h.apart p k a (by rw [hSplit]; exact List.mem_append_left _ ha) hb
    · by_cases hp : k = p
      · subst hp
        rw [moved_from hne]
        exact hNodup.2.1
      · rw [moved_other hp hq]
        exact h.nodup k
  apart k k' m hk hk' := by
    rcases (h.mem_moved hne hSplit k m).mp hk with ⟨hx, rfl⟩ | ⟨hx, hm⟩
    · rcases (h.mem_moved hne hSplit k' m).mp hk' with ⟨_, rfl⟩ | ⟨hx', _⟩
      · rfl
      · exact absurd hx hx'
    · rcases (h.mem_moved hne hSplit k' m).mp hk' with ⟨hx', _⟩ | ⟨_, hm'⟩
      · exact absurd hx' hx
      · exact h.apart k k' m hm hm'
  live m hm := by
    rw [hLive]
    exact h.live m ((h.inStock_moved hne hSplit m).mp hm)
  ptr_inj n m hn hm := by
    rw [hPtr]
    exact h.ptr_inj n m ((h.inStock_moved hne hSplit n).mp hn) ((h.inStock_moved hne hSplit m).mp hm)
  out_nodup := by
    rw [hOut]
    exact h.out_nodup
  out_apart n hn := by
    rw [hPtr, hOut]
    exact h.out_apart n ((h.inStock_moved hne hSplit n).mp hn)
  complete o := by
    simp only [hPtr, hOut, h.inStock_moved hne hSplit]
    exact h.complete o

end Move

theorem Placed.take (h : Placed objs s nodes) {n : N} {ns : List N} (hList : nodes p = n :: ns)
    (hPtr : s'.ptr = s.ptr) (hLive : s'.live = Function.update s.live n false)
    (hOut : s'.outstanding = s.ptr n :: s.outstanding) :
    Placed objs s' (Function.update nodes p ns) := by
  have hNodup := h.nodup p
  rw [hList, List.nodup_cons] at hNodup
  have hHere : InStock nodes n := ⟨p, by rw [hList]; exact List.mem_cons_self⟩
  -- what is left in stock is what was there, without the node
  have hMem : ∀ k m, m ∈ Function.update nodes p ns k ↔ m ≠ n ∧ m ∈ nodes k := by
    intro k m
    by_cases hk : k = p
    · subst hk
      rw [Function.update_self, hList, List.mem_cons]
      constructor
      · intro hm
        exact ⟨fun hEq => hNodup.1 (hEq ▸ hm), .inr hm⟩
      · rintro ⟨hmn, hm⟩
        exact hm.resolve_left hmn
    · rw [Function.update_of_ne hk]
      refine ⟨fun hm => ⟨fun hEq => hk ?_, hm⟩, fun hm => hm.2⟩
      subst hEq
      exact h.apart k p m hm (by rw [hList]; exact List.mem_cons_self)
  have hStock : ∀ m, InStock (Function.update nodes p ns) m ↔ m ≠ n ∧ InStock nodes m := by
    intro m
    simp only [InStock, hMem]
    exact ⟨fun ⟨k, hne, hm⟩ => ⟨hne, k, hm⟩, fun ⟨hne, k, hm⟩ => ⟨k, hne, hm⟩⟩
  refine ⟨fun k => ?_, fun k k' m hm hm' => ?_, fun m hm => ?_, fun m m' hm hm' => ?_, ?_,
    fun m hm => ?_, fun o => ?_⟩
  · by_cases hk : k = p
    · subst hk
      rw [Function.update_self]
      exact hNodup.2
    · rw [Function.update_of_ne hk]
      exact h.nodup k
  · exact h.apart k k' m ((hMem k m).mp hm).2 ((hMem k' m).mp hm').2
  · obtain ⟨hmn, hm⟩ := (hStock m).mp hm
    rw [hLive, Function.update_of_ne hmn]
    exact h.live m hm
  · rw [hPtr]
    exact h.ptr_inj m m' ((hStock m).mp hm).2 ((hStock m').mp hm').2
  · rw [hOut, List.nodup_cons]
    exact ⟨h.out_apart n hHere, h.out_nodup⟩
  · obtain ⟨hmn, hm⟩ := (hStock m).mp hm
    rw [hPtr, hOut, List.mem_cons]
    rintro (hEq | hOld)
    · exact hmn (h.ptr_inj m n hm hHere hEq)
    · exact h.out_apart m hm hOld
  · rw [hPtr, hOut, h.complete o, List.mem_cons]
    constructor
    · rintro (hOld | ⟨m, hm, rfl⟩)
      · exact .inl (.inr hOld)
      · by_cases hmn : m = n
        · exact .inl (.inl (congrArg s.ptr hmn))
        · exact .inr ⟨m, (hStock m).mpr ⟨hmn, hm⟩, rfl⟩
    · rintro ((rfl | hOld) | ⟨m, hm, rfl⟩)
      · exact .inr ⟨n, hHere, rfl⟩
      · exact .inl hOld
      · exact .inr ⟨m, ((hStock m).mp hm).2, rfl⟩

theorem Placed.add {objs' : List Obj} (h : Placed objs s nodes) {node : N} {obj : Obj}
    (hFresh : s.live node = false) (hPtr : s'.ptr = Function.update s.ptr node obj)
    (hLive : s'.live = Function.update s.live node true)
    (hAway : ∀ n, InStock nodes n → s.ptr n ≠ obj)
    (hOut : s'.outstanding.Nodup) (hOut' : ∀ o, o ∈ s'.outstanding ↔ o ∈ s.outstanding ∧ o ≠ obj)
    (hObjs : ∀ o, o ∈ objs' ↔ o ∈ objs ∨ o = obj) :
    Placed objs' s' (Function.update nodes p (node :: nodes p)) := by
  have hNew : ¬ InStock nodes node := by
    intro hIn
    have hLive := h.live node hIn
    rw [hFresh] at hLive
    cases hLive
  have hMem : ∀ k m, m ∈ Function.update nodes p (node :: nodes p) k ↔
      m = node ∧ k = p ∨ m ∈ nodes k := by
    intro k m
    by_cases hk : k = p
    · subst hk
      rw [Function.update_self, List.mem_cons]
      simp
    · rw [Function.update_of_ne hk]
      simp [hk]
  have hStock : ∀ m, InStock (Function.update nodes p (node :: nodes p)) m ↔
      m = node ∨ InStock nodes m := by
    intro m
    simp only [InStock, hMem]
    constructor
    · rintro ⟨k, ⟨hEq, _⟩ | hm⟩
      · exact .inl hEq
      · exact .inr ⟨k, hm⟩
    · rintro (hEq | ⟨k, hm⟩)
      · exact ⟨p, .inl ⟨hEq, rfl⟩⟩
      · exact ⟨k, .inr hm⟩
  have hNe : ∀ m, InStock nodes m → m ≠ node := by
    intro m hIn hEq
    exact hNew (hEq ▸ hIn)
  have hOld : ∀ m, InStock nodes m → s'.ptr m = s.ptr m := by
    intro m hIn
    rw [hPtr, Function.update_of_ne (hNe m hIn)]
  have hOwn : s'.ptr node = obj := by rw [hPtr, Function.update_self]
  refine ⟨fun k => ?_, fun k k' m hm hm' => ?_, fun m hm => ?_, fun m m' hm hm' hEq => ?_, hOut,
    fun m hm => ?_, fun o => ?_⟩
  · by_cases hk : k = p
    · subst hk
      rw [Function.update_self, List.nodup_cons]
      exact ⟨fun hIn => hNew ⟨k, hIn⟩, h.nodup k⟩
    · rw [Function.update_of_ne hk]
      exact h.nodup k
  · rcases (hMem k m).mp hm with ⟨hEq, hk⟩ | hIn
    · rcases (hMem k' m).mp hm' with ⟨_, hk'⟩ | hIn'
      · exact hk.trans hk'.symm
      · exact absurd hEq (hNe m ⟨k', hIn'⟩)
    · rcases (hMem k' m).mp hm' with ⟨hEq, _⟩ | hIn'
      · exact absurd hEq (hNe m ⟨k, hIn⟩)
      · exact h.apart k k' m hIn hIn'
  · rw [hLive]
    rcases (hStock m).mp hm with hEq | hIn
    · rw [hEq, Function.update_self]
    · rw [Function.update_of_ne (hNe m hIn)]
      exact h.live m hIn
  · rcases (hStock m).mp hm with hNode | hIn
    · rcases (hStock m').mp hm' with hNode' | hIn'
      · exact hNode.trans hNode'.symm
      · rw [hNode, hOwn, hOld m' hIn'] at hEq
        exact absurd hEq.symm (hAway m' hIn')
    · rcases (hStock m').mp hm' with hNode' | hIn'
      · rw [hNode', hOwn, hOld m hIn] at hEq
        exact absurd hEq (hAway m hIn)
      · rw [hOld m hIn, hOld m' hIn'] at hEq
        exact h.ptr_inj m m' hIn hIn' hEq
  · rw [hOut']
    rcases (hStock m).mp hm with hEq | hIn
    · exact fun hMember => hMember.2 (hEq ▸ hOwn)
    · rw [hOld m hIn]
      exact fun hMember => h.out_apart m hIn hMember.1
  · rw [hObjs, h.complete o, hOut']
    by_cases ho : o = obj
    · subst ho
      simp only [or_true, true_iff]
      exact .inr ⟨node, (hStock node).mpr (.inl rfl), hOwn⟩
    · simp only [ho, or_false, ne_eq, not_false_eq_true, and_true]
      refine or_congr_right ⟨?_, ?_⟩
      · rintro ⟨m, hIn, hEq⟩
        exact ⟨m, (hStock m).mpr (.inr hIn), (hOld m hIn).trans hEq⟩
      · rintro ⟨m, hm, hEq⟩
        rcases (hStock m).mp hm with hNode | hIn
        · exact absurd (hEq.symm.trans (hNode ▸ hOwn)) ho
        · exact ⟨m, hIn, (hOld m hIn).symm.trans hEq⟩

end Placed

section Chained

variable {skipUnit : Nat} {objs : List Obj} {s : Pool T N Obj} {nodes : Place T → List N}
  {p q : Place T} {node : N}

theorem put_list (s : Pool T N Obj) (node : N) (p : Place T) :
    (s.put skipUnit node p).list = push s.list node p := by
  rw [put]
  split <;> rfl

theorem put_skip (s : Pool T N Obj) (node : N) (p : Place T) :
    (s.put skipUnit node p).skip = if s.listCnt p % skipUnit = 0 then push s.skip node p else s.skip := by
  rw [put]
  split <;> rfl

theorem Chained.put (h : Chained skipUnit s nodes) (hNew : ¬ InStock nodes node) (hSkip : p.HasSkip)
    (hCnt : s.listCnt p = (nodes p).length) :
    Chained skipUnit (s.put skipUnit node p) (Function.update nodes p (node :: nodes p)) where
  linked k := by
    rw [put_list]
    by_cases hk : k = p
    · subst hk
      rw [Function.update_self]
      exact linked_push (h.linked k) fun hIn => hNew ⟨k, hIn⟩
    · rw [Function.update_of_ne hk]
      exact (h.linked k).push_other hk fun hIn => hNew ⟨k, hIn⟩
  skips k hk' := by
    have hOut : ∀ k, node ∉ skipEnds skipUnit (nodes k) :=
      fun k hIn => hNew ⟨k, (skipEnds_sublist skipUnit (nodes k)).subset hIn⟩
    rw [put_skip, hCnt]
    by_cases hk : k = p
    · subst hk
      rw [Function.update_self, skipEnds]
      split
      · exact linked_push (h.skips k hk') (hOut k)
      · exact h.skips k hk'
    · rw [Function.update_of_ne hk]
      split
      · exact (h.skips k hk').push_other hk (hOut k)
      · exact h.skips k hk'

theorem Tallied.put (h : Tallied skipUnit s nodes) (hp : ∀ t, p = .collector t →
      s.listCnt p = (nodes p).length) :
    Tallied skipUnit (s.put skipUnit node p) (Function.update nodes p (node :: nodes p)) := by
  have hList : ∀ k, (s.put skipUnit node p).listCnt k = if k = p then s.listCnt p + 1 else s.listCnt k := by
    intro k
    rw [Pool.put]
    split <;> exact Function.update_apply ..
  have hSkip : ∀ k, (s.put skipUnit node p).skipCnt k =
      if k = p ∧ s.listCnt p % skipUnit = 0 then s.skipCnt p + 1 else s.skipCnt k := by
    intro k
    rw [Pool.put]
    split
    · rename_i hEnd
      simp only [hEnd, and_true]
      exact Function.update_apply ..
    · rename_i hInside
      simp only [hInside, and_false]
      rfl
  constructor
  · intro t
    rw [hList, Function.update_apply]
    split
    · rename_i hEq
      rw [List.length_cons, hp t hEq.symm]
    · exact h.list t
  · intro t
    rw [hSkip, Function.update_apply]
    by_cases hEq : Place.collector t = p
    · subst hEq
      rw [if_pos rfl, skipEnds, ← h.list t, h.skip t]
      split
      · rename_i hEnd
        rw [if_pos hEnd.2, List.length_cons]
      · rename_i hInside
        rw [if_neg fun hEnd => hInside ⟨rfl, hEnd⟩]
    · rw [if_neg fun hBoth => hEq hBoth.1, if_neg hEq]
      exact h.skip t

section Splice

variable {front rest : List N} (hPlaced : Placed objs s nodes) (h : Chained skipUnit s nodes) (hne : p ≠ q)
  (hSplit : nodes p = front ++ node :: rest)

include hPlaced hSplit

theorem Placed.end_once : node ∉ front ∧ node ∉ rest ∧ ∀ k, k ≠ p → node ∉ nodes k := by
  have hNodup := hPlaced.nodup p
  rw [hSplit, List.nodup_append, List.nodup_cons] at hNodup
  refine ⟨fun hIn => hNodup.2.2 node hIn node List.mem_cons_self rfl, hNodup.2.1.1, fun k hk hIn => hk ?_⟩
  exact hPlaced.apart k p node hIn (by rw [hSplit]; simp)

include h hne

theorem Chained.linked_splice (k : Place T) :
    Linked (cutSplice s.list p node q) (.inl k) (moved nodes p q (front ++ [node]) rest k) := by
  obtain ⟨hFront, hRest, hElse⟩ := hPlaced.end_once hSplit
  have hList := h.linked p
  rw [hSplit] at hList
  by_cases hq : k = q
  · subst hq
    rw [moved_self, List.append_assoc, List.singleton_append]
    exact linked_cutSplice_moved hne hList hFront (h.linked k) (hElse k (Ne.symm hne))
  · by_cases hp : k = p
    · subst hp
      rw [moved_from hne]
      exact linked_cutSplice_rest hne hList hRest
    · rw [moved_other hp hq]
      exact (h.linked k).cutSplice_other hp hq (hElse k hp)

end Splice

end Chained

end Pool

end Libnvmmio.Allocator

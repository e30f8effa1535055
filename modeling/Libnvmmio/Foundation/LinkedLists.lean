import Mathlib.Data.List.Basic
import Mathlib.Logic.Function.Basic

/-! # Intrusive singly linked lists

A memory of link fields, one in every head and one embedded in every node. The
operations are pointer assignments. What they do to the lists that hang from
the heads is stated list by list: the lists that are operated on, and by
`Linked.congr` every list whose fields are not assigned.
-/

namespace Libnvmmio.LinkedLists

set_option autoImplicit false

universe u v
variable {H : Type u} {N : Type v}

/-- `next` of a head or of a node. -/
abbrev Links (H : Type u) (N : Type v) := H ⊕ N → Option N

/-- Following `next` from a field yields these nodes and then ends. -/
def Linked (next : Links H N) : H ⊕ N → List N → Prop
  | c, [] => next c = none
  | c, n :: ns => next c = some n ∧ Linked next (.inr n) ns

theorem Linked.head {next : Links H N} {c : H ⊕ N} {ns : List N} (h : Linked next c ns) :
    next c = ns.head? := by
  cases ns with
  | nil => exact h
  | cons n ns => exact h.1

/-- The list that hangs from a field is determined by the memory. -/
theorem Linked.unique {next : Links H N} {c : H ⊕ N} {ns ms : List N} (h : Linked next c ns)
    (h' : Linked next c ms) : ns = ms := by
  induction ns generalizing c ms with
  | nil =>
    have hHead := h.symm.trans h'.head
    cases ms with
    | nil => rfl
    | cons m ms => cases hHead
  | cons n ns ih =>
    have hHead := h.1.symm.trans h'.head
    cases ms with
    | nil => cases hHead
    | cons m ms =>
      cases hHead
      rw [ih h.2 h'.2]

/-- A list depends on its own fields only, and may hang from another field with the same content. -/
theorem Linked.congr {next next' : Links H N} {c c' : H ⊕ N} {ns : List N} (h : Linked next c ns)
    (hHead : next' c' = next c) (hNodes : ∀ n ∈ ns, next' (.inr n) = next (.inr n)) :
    Linked next' c' ns := by
  induction ns generalizing c c' with
  | nil => exact hHead.trans h
  | cons n ns ih =>
    have hNext := hNodes n List.mem_cons_self
    exact ⟨hHead.trans h.1, ih h.2 hNext fun m hm => hNodes m (List.mem_cons_of_mem n hm)⟩

theorem Linked.rest {next : Links H N} {c : H ⊕ N} {xs : List N} {n : N} {ys : List N}
    (h : Linked next c (xs ++ n :: ys)) : Linked next (.inr n) ys := by
  induction xs generalizing c with
  | nil => exact h.2
  | cons x xs ih => exact ih h.2

/-- A list does not go round: where the field of a node is the one that the list hangs from, the
node is not on the list. -/
theorem Linked.not_mem_of_eq {next : Links H N} {c : H ⊕ N} {ns : List N} {n : N} (h : Linked next c ns)
    (hSame : next (.inr n) = next c) : n ∉ ns := by
  intro hMem
  obtain ⟨xs, ys, rfl⟩ := List.append_of_mem hMem
  have hRest : Linked next (.inr n) (xs ++ n :: ys) := h.congr hSame fun _ _ => rfl
  have hLength := congrArg List.length (hRest.unique h.rest)
  rw [List.length_append, List.length_cons] at hLength
  omega

/-- A list whose rest after one node is replaced. -/
theorem Linked.replace_rest {next next' : Links H N} {c c' : H ⊕ N} {xs : List N} {n : N}
    {ys zs : List N} (h : Linked next c (xs ++ n :: ys)) (hHead : next' c' = next c)
    (hNodes : ∀ x ∈ xs, next' (.inr x) = next (.inr x)) (hRest : Linked next' (.inr n) zs) :
    Linked next' c' (xs ++ n :: zs) := by
  induction xs generalizing c c' with
  | nil => exact ⟨hHead.trans h.1, hRest⟩
  | cons x xs ih =>
    have hNext := hNodes x List.mem_cons_self
    exact ⟨hHead.trans h.1, ih h.2 hNext fun y hy => hNodes y (List.mem_cons_of_mem x hy)⟩

variable [DecidableEq H] [DecidableEq N]

def assign (next : Links H N) (h : H) (o : Option N) : Links H N := Function.update next (.inl h) o

def push (next : Links H N) (n : N) (h : H) : Links H N :=
  Function.update (Function.update next (.inr n) (next (.inl h))) (.inl h) (some n)

/-- `slist_pop`: the node and the memory; `none` where it would follow a null pointer. -/
def pop (next : Links H N) (h : H) : Option (N × Links H N) :=
  (next (.inl h)).map fun entry =>
    (entry, Function.update (Function.update next (.inl h) (next (.inr entry))) (.inr entry) none)

/-- `slist_cut_splice`: the part of one list up to a node goes to the front of another. -/
def cutSplice (next : Links H N) (h : H) (n : N) (h' : H) : Links H N :=
  let tmp := next (.inl h)
  let next := Function.update next (.inl h) (next (.inr n))
  let next := Function.update next (.inr n) (next (.inl h'))
  Function.update next (.inl h') tmp

variable {next : Links H N} {h h' : H} {n : N} {ns : List N}

@[simp] theorem assign_self (next : Links H N) (h : H) (o : Option N) : assign next h o (.inl h) = o :=
  Function.update_self ..

theorem assign_inl_of_ne {k : H} (hk : k ≠ h) (o : Option N) : assign next h o (.inl k) = next (.inl k) :=
  Function.update_of_ne (fun hEq => hk (Sum.inl.inj hEq)) ..

@[simp] theorem assign_inr (next : Links H N) (h : H) (o : Option N) (m : N) :
    assign next h o (.inr m) = next (.inr m) :=
  Function.update_of_ne (fun hEq => by cases hEq) ..

theorem push_inr_self : push next n h (.inr n) = next (.inl h) := by
  rw [push, Function.update_of_ne (by simp), Function.update_self]

theorem push_inl_of_ne {k : H} (hk : k ≠ h) : push next n h (.inl k) = next (.inl k) := by
  rw [push, Function.update_of_ne (by simpa using hk), Function.update_of_ne (by simp)]

theorem push_inr_of_ne {m : N} (hm : m ≠ n) : push next n h (.inr m) = next (.inr m) := by
  rw [push, Function.update_of_ne (by simp), Function.update_of_ne (by simpa using hm)]

theorem linked_push (hList : Linked next (.inl h) ns) (hn : n ∉ ns) :
    Linked (push next n h) (.inl h) (n :: ns) := by
  refine ⟨Function.update_self .., hList.congr ?_ fun m hm => push_inr_of_ne ?_⟩
  · exact push_inr_self
  · exact fun hEq => hn (hEq ▸ hm)

theorem Linked.push_other {k : H} (hList : Linked next (.inl k) ns) (hk : k ≠ h) (hn : n ∉ ns) :
    Linked (push next n h) (.inl k) ns :=
  hList.congr (push_inl_of_ne hk) fun _ hm => push_inr_of_ne fun hEq => hn (hEq ▸ hm)

/-- What popping a list that starts with `n` does to the memory. -/
theorem pop_eq (hHead : next (.inl h) = some n) : pop next h =
    some (n, Function.update (Function.update next (.inl h) (next (.inr n))) (.inr n) none) := by
  rw [pop, hHead]
  rfl

section Pop

variable {next' : Links H N} (hPop : pop next h = some (n, next'))

include hPop

theorem pop_head : next (.inl h) = some n := by
  obtain ⟨entry, hHead, hEq⟩ := Option.map_eq_some_iff.mp hPop
  rw [hHead, (Prod.mk.inj hEq).1]

theorem pop_memory :
    next' = Function.update (Function.update next (.inl h) (next (.inr n))) (.inr n) none := by
  have hEq := hPop.symm.trans (pop_eq (pop_head hPop))
  exact (Prod.mk.inj (Option.some.inj hEq)).2

theorem pop_inl_of_ne {k : H} (hk : k ≠ h) : next' (.inl k) = next (.inl k) := by
  rw [pop_memory hPop, Function.update_of_ne (by simp), Function.update_of_ne (by simpa using hk)]

theorem pop_inr_of_ne {m : N} (hm : m ≠ n) : next' (.inr m) = next (.inr m) := by
  rw [pop_memory hPop, Function.update_of_ne (by simpa using hm), Function.update_of_ne (by simp)]

theorem linked_pop (hList : Linked next (.inl h) ns) (hNodup : ns.Nodup) :
    ∃ rest, ns = n :: rest ∧ Linked next' (.inl h) rest := by
  have hHead := (pop_head hPop).symm.trans hList.head
  cases ns with
  | nil => cases hHead
  | cons m rest =>
    cases hHead
    refine ⟨rest, rfl, hList.2.congr ?_ fun k hk => pop_inr_of_ne hPop ?_⟩
    · rw [pop_memory hPop, Function.update_of_ne (by simp), Function.update_self]
    · exact fun hEq => (List.nodup_cons.mp hNodup).1 (hEq ▸ hk)

theorem Linked.pop_other {k : H} (hList : Linked next (.inl k) ns) (hk : k ≠ h) (hn : n ∉ ns) :
    Linked next' (.inl k) ns :=
  hList.congr (pop_inl_of_ne hPop hk) fun _ hm => pop_inr_of_ne hPop fun hEq => hn (hEq ▸ hm)

end Pop

section CutSplice

variable {xs ys zs : List N}

theorem cutSplice_inl_of_ne {k : H} (hk : k ≠ h) (hk' : k ≠ h') :
    cutSplice next h n h' (.inl k) = next (.inl k) := by
  rw [cutSplice, Function.update_of_ne (by simpa using hk'), Function.update_of_ne (by simp),
    Function.update_of_ne (by simpa using hk)]

theorem cutSplice_inr_of_ne {m : N} (hm : m ≠ n) : cutSplice next h n h' (.inr m) = next (.inr m) := by
  rw [cutSplice, Function.update_of_ne (by simp), Function.update_of_ne (by simpa using hm),
    Function.update_of_ne (by simp)]

theorem linked_cutSplice_rest (hne : h ≠ h') (hList : Linked next (.inl h) (xs ++ n :: ys))
    (hn : n ∉ ys) : Linked (cutSplice next h n h') (.inl h) ys := by
  refine hList.rest.congr ?_ fun m hm => cutSplice_inr_of_ne fun hEq => hn (hEq ▸ hm)
  rw [cutSplice, Function.update_of_ne (by simpa using hne), Function.update_of_ne (by simp), Function.update_self]

/-- The part up to the node comes before the list of the second head. -/
theorem linked_cutSplice_moved (hne : h ≠ h') (hList : Linked next (.inl h) (xs ++ n :: ys))
    (hn : n ∉ xs) (hList' : Linked next (.inl h') zs) (hn' : n ∉ zs) :
    Linked (cutSplice next h n h') (.inl h') (xs ++ n :: zs) := by
  refine hList.replace_rest (Function.update_self ..)
    (fun x hx => cutSplice_inr_of_ne fun hEq => hn (hEq ▸ hx))
    (hList'.congr ?_ fun z hz => cutSplice_inr_of_ne fun hEq => hn' (hEq ▸ hz))
  rw [cutSplice, Function.update_of_ne (by simp), Function.update_self, Function.update_of_ne (by simpa using hne.symm)]

theorem Linked.cutSplice_other {k : H} (hList : Linked next (.inl k) ns) (hk : k ≠ h) (hk' : k ≠ h')
    (hn : n ∉ ns) : Linked (cutSplice next h n h') (.inl k) ns :=
  hList.congr (cutSplice_inl_of_ne hk hk') fun _ hm => cutSplice_inr_of_ne fun hEq => hn (hEq ▸ hm)

end CutSplice

end Libnvmmio.LinkedLists

import Mathlib.Data.List.Induction
import Mathlib.Algebra.Group.Nat.Defs
import Mathlib.Tactic.Common

/-! # Index tries in a heap of nodes

A trie is given by its links: the child of a node at an index. If no node is
the child of two slots, equally long paths from one node end in one node only
when they are equal; linking a fresh node keeps this and every path there was.
The digits of a number select the path of its leaf.
-/

namespace Libnvmmio.IndexTrie

set_option autoImplicit false

abbrev Links := Nat → Nat → Option Nat

/-- The node a path of indices leads to. -/
def follow (links : Links) : Nat → List Nat → Option Nat
  | n, [] => some n
  | n, i :: path => (links n i).bind fun c => follow links c path

theorem follow_append (links : Links) (n : Nat) (p q : List Nat) :
    follow links n (p ++ q) = (follow links n p).bind fun c => follow links c q := by
  induction p generalizing n with
  | nil => rfl
  | cons i p ih =>
    rw [List.cons_append, follow, follow]
    cases links n i with
    | none => rfl
    | some c => exact ih c

theorem follow_snoc_eq_some (links : Links) (n t : Nat) (p : List Nat) (i : Nat) :
    follow links n (p ++ [i]) = some t ↔ ∃ c, follow links n p = some c ∧ links c i = some t := by
  rw [follow_append]
  cases follow links n p with
  | none => simp
  | some c => cases hLink : links c i <;> simp [follow, hLink]

theorem follow_of_kept {links later : Links} (hKept : ∀ n i c, links n i = some c → later n i = some c)
    {n t : Nat} {p : List Nat} (hp : follow links n p = some t) : follow later n p = some t := by
  induction p generalizing n with
  | nil => exact hp
  | cons i p ih =>
    rw [follow] at hp ⊢
    obtain ⟨c, hc, hRest⟩ := Option.bind_eq_some_iff.mp hp
    rw [hKept n i c hc]
    exact ih hRest

/-- A path of at least one index ends in a child. -/
theorem eq_or_linked_of_follow {links : Links} {n t : Nat} {p : List Nat} (hp : follow links n p = some t) :
    t = n ∨ ∃ m i, links m i = some t := by
  induction p using List.reverseRecOn with
  | nil =>
    cases hp
    exact .inl rfl
  | append_singleton p i _ =>
    obtain ⟨c, _, hLink⟩ := (follow_snoc_eq_some links n t p i).mp hp
    exact .inr ⟨c, i, hLink⟩

theorem follow_injective_of_unique {links : Links}
    (hUnique : ∀ n i m j c, links n i = some c → links m j = some c → n = m ∧ i = j) (n : Nat) :
    ∀ (p q : List Nat) (t : Nat), p.length = q.length →
      follow links n p = some t → follow links n q = some t → p = q := by
  intro p
  induction p using List.reverseRecOn with
  | nil =>
    intro q t hLen _ _
    exact (List.length_eq_zero_iff.mp hLen.symm).symm
  | append_singleton p i ih =>
    intro q t hLen hp hq
    obtain ⟨q, j, rfl⟩ : ∃ q' j, q = q' ++ [j] := by
      rcases List.eq_nil_or_concat q with rfl | ⟨q', j, rfl⟩
      · simp at hLen
      · exact ⟨q', j, by simp⟩
    obtain ⟨c, hc, hci⟩ := (follow_snoc_eq_some links n t p i).mp hp
    obtain ⟨d, hd, hdj⟩ := (follow_snoc_eq_some links n t q j).mp hq
    obtain ⟨rfl, rfl⟩ := hUnique c i d j t hci hdj
    rw [ih q c (by simpa using hLen) hc hd]

/-- Nodes below `bound` are allocated; every child is, and hangs at one slot. -/
structure Forest (links : Links) (bound : Nat) : Prop where
  parent_lt : ∀ n i c, links n i = some c → n < bound
  child_lt : ∀ n i c, links n i = some c → c < bound
  unique : ∀ n i m j c, links n i = some c → links m j = some c → n = m ∧ i = j

theorem Forest.follow_lt {links : Links} {bound : Nat} (h : Forest links bound) {n t : Nat}
    (hn : n < bound) {p : List Nat} (hp : follow links n p = some t) : t < bound := by
  induction p using List.reverseRecOn generalizing t with
  | nil => cases hp; exact hn
  | append_singleton p i _ =>
    obtain ⟨c, _, hLink⟩ := (follow_snoc_eq_some links n t p i).mp hp
    exact h.child_lt c i t hLink

theorem Forest.follow_injective {links : Links} {bound : Nat} (h : Forest links bound) (n : Nat) :
    ∀ (p q : List Nat) (t : Nat), p.length = q.length →
      follow links n p = some t → follow links n q = some t → p = q :=
  follow_injective_of_unique h.unique n

def link (links : Links) (n i c : Nat) : Links :=
  fun m j => if m = n ∧ j = i then some c else links m j

@[simp] theorem link_self (links : Links) (n i c : Nat) : link links n i c n i = some c :=
  if_pos ⟨rfl, rfl⟩

theorem link_of_some {links : Links} {n i : Nat} (hFree : links n i = none) {m j d : Nat} (c : Nat)
    (h : links m j = some d) : link links n i c m j = some d := by
  have hne : ¬ (m = n ∧ j = i) := by
    rintro ⟨rfl, rfl⟩
    rw [hFree] at h
    cases h
  rw [link, if_neg hne, h]

theorem of_link_eq_some {links : Links} {n i c m j d : Nat} (h : link links n i c m j = some d) :
    (m = n ∧ j = i ∧ d = c) ∨ links m j = some d := by
  unfold link at h
  split at h
  · rename_i hSlot
    exact .inl ⟨hSlot.1, hSlot.2, (Option.some.inj h).symm⟩
  · exact .inr h

theorem Forest.link {links : Links} {bound : Nat} (h : Forest links bound) {n i : Nat}
    (hn : n < bound) : Forest (link links n i bound) (bound + 1) where
  parent_lt m j c hm := by
    unfold IndexTrie.link at hm
    split at hm
    · omega
    · exact Nat.lt_succ_of_lt (h.parent_lt m j c hm)
  child_lt m j c hm := by
    unfold IndexTrie.link at hm
    split at hm
    · cases hm
      exact Nat.lt_succ_self bound
    · exact Nat.lt_succ_of_lt (h.child_lt m j c hm)
  unique m j m' j' c hm hm' := by
    unfold IndexTrie.link at hm hm'
    split at hm <;> split at hm'
    · omega
    · cases hm
      exact absurd (h.child_lt m' j' bound hm') (Nat.lt_irrefl bound)
    · cases hm'
      exact absurd (h.child_lt m j bound hm) (Nat.lt_irrefl bound)
    · exact h.unique m j m' j' c hm hm'

/-- The links of `later` are those of `links` and links to nodes that `links`
had not allocated. -/
structure Extends (links later : Links) (bound : Nat) : Prop where
  kept : ∀ n i c, links n i = some c → later n i = some c
  fresh : ∀ n i c, later n i = some c → links n i = some c ∨ bound ≤ c

theorem Extends.refl (links : Links) (bound : Nat) : Extends links links bound where
  kept _ _ _ h := h
  fresh _ _ _ h := .inl h

theorem Extends.trans {links mid later : Links} {bound bound' : Nat}
    (h : Extends links mid bound) (h' : Extends mid later bound') (hLe : bound ≤ bound') :
    Extends links later bound where
  kept n i c hc := h'.kept n i c (h.kept n i c hc)
  fresh n i c hc := by
    rcases h'.fresh n i c hc with hMid | hNew
    · exact h.fresh n i c hMid
    · exact .inr (Nat.le_trans hLe hNew)

theorem extends_link {links : Links} {n i : Nat} (hFree : links n i = none) (bound : Nat) :
    Extends links (link links n i bound) bound where
  kept m j c h := link_of_some hFree bound h
  fresh m j c h := by
    unfold link at h
    split at h
    · cases h
      exact .inr (Nat.le_refl _)
    · exact .inl h

theorem Extends.follow {links later : Links} {bound : Nat} (h : Extends links later bound)
    {n t : Nat} {p : List Nat} (hp : follow links n p = some t) : follow later n p = some t :=
  follow_of_kept h.kept hp

/-- A path of the later trie was there before or ends in a fresh node. -/
theorem Extends.follow_fresh {links later : Links} {bound : Nat} (h : Extends links later bound)
    (hForest : Forest links bound) {n : Nat} :
    ∀ (p : List Nat) (t : Nat), IndexTrie.follow later n p = some t →
      IndexTrie.follow links n p = some t ∨ bound ≤ t := by
  intro p
  induction p using List.reverseRecOn with
  | nil => exact fun t hp => .inl hp
  | append_singleton p i ih =>
    intro t hp
    obtain ⟨c, hc, hci⟩ := (follow_snoc_eq_some later n t p i).mp hp
    rcases h.fresh c i t hci with hOld | hNew
    · rcases ih c hc with hPath | hcNew
      · exact .inl ((follow_snoc_eq_some links n t p i).mpr ⟨c, hPath, hOld⟩)
      · exact absurd (hForest.parent_lt c i t hOld) (by omega)
    · exact .inr hNew

section Digits

/-- The `k` low digits of `x` in base `b`, the most significant first. -/
def digits (b : Nat) : Nat → Nat → List Nat
  | 0, _ => []
  | k + 1, x => x / b ^ k % b :: digits b k x

@[simp] theorem length_digits (b k x : Nat) : (digits b k x).length = k := by
  induction k with
  | zero => rfl
  | succ k ih => rw [digits, List.length_cons, ih]

theorem digits_eq_iff {b : Nat} (hb : 0 < b) (k x y : Nat) :
    digits b k x = digits b k y ↔ x % b ^ k = y % b ^ k := by
  induction k with
  | zero => simp [digits, Nat.mod_one]
  | succ k ih =>
    have hSplit (z : Nat) : z % b ^ (k + 1) = z % b ^ k + b ^ k * (z / b ^ k % b) := by
      rw [Nat.pow_succ, Nat.mod_mul]
    rw [digits, digits, List.cons.injEq, ih, hSplit x, hSplit y]
    constructor
    · rintro ⟨hHead, hTail⟩
      rw [hHead, hTail]
    · intro h
      have hTail : x % b ^ k = y % b ^ k := by
        have := congrArg (· % b ^ k) h
        simpa using this
      refine ⟨?_, hTail⟩
      rw [hTail] at h
      exact Nat.eq_of_mul_eq_mul_left (Nat.pow_pos hb) (Nat.add_left_cancel h)

end Digits

end Libnvmmio.IndexTrie

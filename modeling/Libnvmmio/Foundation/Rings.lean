import Mathlib.Data.List.Nodup
import Mathlib.Data.Fintype.Card
import Mathlib.Logic.Function.Basic

/-! # Intrusive doubly linked rings

A memory of links, in which an address may be free. The operations are loads
and stores of pointers and fail at a free address. A ring leads from its head
through its nodes and back, in both directions; what an operation does is stated
for the ring it works on and for every ring that has no address in common with it.
-/

namespace Libnvmmio.Rings

set_option autoImplicit false

universe u
variable {A : Type u}

structure Link (A : Type u) where
  next : A
  prev : A

/-- The links at the addresses that are allocated. -/
abbrev Memory (A : Type u) := A → Option (Link A)

def nextOf (mem : Memory A) (a : A) : Option A := (mem a).map Link.next

def prevOf (mem : Memory A) (a : A) : Option A := (mem a).map Link.prev

def Joined (mem : Memory A) (a b : A) : Prop := nextOf mem a = some b ∧ prevOf mem b = some a

/-- From one link through the nodes to another. -/
def Path (mem : Memory A) : A → List A → A → Prop
  | a, [], b => Joined mem a b
  | a, x :: xs, b => Joined mem a x ∧ Path mem x xs b

structure Ring (mem : Memory A) (head : A) (nodes : List A) : Prop where
  path : Path mem head nodes head
  nodup : (head :: nodes).Nodup

section Paths

variable {mem mem' : Memory A} {a b c : A} {xs ys : List A}

theorem Path.congr (h : Path mem a xs b) (hNext : ∀ x ∈ a :: xs, nextOf mem' x = nextOf mem x)
    (hPrev : ∀ x ∈ xs ++ [b], prevOf mem' x = prevOf mem x) : Path mem' a xs b := by
  induction xs generalizing a with
  | nil =>
    exact ⟨(hNext a List.mem_cons_self).trans h.1, (hPrev b List.mem_cons_self).trans h.2⟩
  | cons x xs ih =>
    refine ⟨⟨(hNext a List.mem_cons_self).trans h.1.1, (hPrev x List.mem_cons_self).trans h.1.2⟩, ih h.2 ?_ ?_⟩
    · exact fun y hy => hNext y (List.mem_cons_of_mem a hy)
    · exact fun y hy => hPrev y (List.mem_cons_of_mem x hy)

theorem path_append : Path mem a (xs ++ b :: ys) c ↔ Path mem a xs b ∧ Path mem b ys c := by
  induction xs generalizing a with
  | nil => exact Iff.rfl
  | cons x xs ih =>
    rw [List.cons_append, Path, Path, ih, and_assoc]

theorem Path.next (h : Path mem a xs b) : nextOf mem a = some (xs.headD b) := by
  cases xs with
  | nil => exact h.1
  | cons x xs => exact h.1.1

theorem Path.prev (h : Path mem a xs b) : prevOf mem b = some ((a :: xs).getLast (List.cons_ne_nil a xs)) := by
  induction xs generalizing a with
  | nil => exact h.2
  | cons x xs ih =>
    rw [List.getLast_cons (List.cons_ne_nil x xs)]
    exact ih h.2

/-- The same path from another link. -/
theorem Path.rehead (h : Path mem a xs b) (hNodup : (xs ++ [b]).Nodup)
    (hNext : nextOf mem' c = nextOf mem a) (hPrev : prevOf mem' (xs.headD b) = some c)
    (hOther : ∀ x ∈ xs, nextOf mem' x = nextOf mem x)
    (hOther' : ∀ x ∈ xs ++ [b], x ≠ xs.headD b → prevOf mem' x = prevOf mem x) : Path mem' c xs b := by
  cases xs with
  | nil => exact ⟨hNext.trans h.1, hPrev⟩
  | cons x xs =>
    refine ⟨⟨hNext.trans h.1.1, hPrev⟩, h.2.congr hOther fun y hy => ?_⟩
    apply hOther' y (List.mem_cons_of_mem x hy)
    rintro rfl
    exact (List.nodup_cons.mp hNodup).1 hy

/-- The same path to another link. -/
theorem Path.retarget (h : Path mem a xs b) (hNodup : (a :: xs).Nodup)
    (hNext : nextOf mem' ((a :: xs).getLast (List.cons_ne_nil a xs)) = some c)
    (hPrev : prevOf mem' c = prevOf mem b)
    (hOther : ∀ x ∈ a :: xs, x ≠ (a :: xs).getLast (List.cons_ne_nil a xs) → nextOf mem' x = nextOf mem x)
    (hOther' : ∀ x ∈ xs, prevOf mem' x = prevOf mem x) : Path mem' a xs c := by
  induction xs generalizing a with
  | nil => exact ⟨hNext, hPrev.trans h.2⟩
  | cons x xs ih =>
    obtain ⟨ha, hNodup'⟩ := List.nodup_cons.mp hNodup
    rw [List.getLast_cons (List.cons_ne_nil x xs)] at hNext hOther
    have hne : a ≠ (x :: xs).getLast (List.cons_ne_nil x xs) := by
      intro hEq
      exact ha (hEq ▸ List.getLast_mem _)
    refine ⟨⟨(hOther a List.mem_cons_self hne).trans h.1.1, (hOther' x List.mem_cons_self).trans h.1.2⟩,
      ih h.2 hNodup' hNext (fun y hy => hOther y (List.mem_cons_of_mem a hy)) fun y hy => ?_⟩
    exact hOther' y (List.mem_cons_of_mem x hy)

theorem isSome_of_nextOf (h : nextOf mem a = some b) : (mem a).isSome = true := by
  obtain ⟨l, hLink, _⟩ := Option.map_eq_some_iff.mp h
  rw [hLink]
  rfl

theorem Path.allocated (h : Path mem a xs b) : ∀ x ∈ a :: xs, (mem x).isSome = true := by
  induction xs generalizing a with
  | nil =>
    intro x hx
    rw [List.mem_singleton.mp hx]
    exact isSome_of_nextOf h.1
  | cons y ys ih =>
    intro x hx
    rcases List.mem_cons.mp hx with rfl | hRest
    · exact isSome_of_nextOf h.1.1
    · exact ih h.2 x hRest

theorem Ring.frame {head : A} {nodes : List A} (h : Ring mem head nodes)
    (hSame : ∀ x ∈ head :: nodes, mem' x = mem x) : Ring mem' head nodes := by
  refine ⟨h.path.congr (fun x hx => ?_) fun x hx => ?_, h.nodup⟩
  · rw [nextOf, nextOf, hSame x hx]
  · have hMem : x ∈ head :: nodes := by
      rcases List.mem_append.mp hx with hNode | hHead
      · exact List.mem_cons_of_mem head hNode
      · rw [List.mem_singleton.mp hHead]
        exact List.mem_cons_self
    rw [prevOf, prevOf, hSame x hMem]

/-- A node has one place in its ring, -/
theorem Ring.entry_out {head entry : A} (h : Ring mem head (xs ++ entry :: ys)) : entry ∉ head :: (xs ++ ys) := by
  have hNodup := h.nodup
  rw [← List.cons_append] at hNodup ⊢
  exact (List.nodup_middle.mp hNodup).notMem

/-- and without it the others are still there. -/
theorem mem_around {head entry x : A} (h : x ∈ head :: (xs ++ ys)) : x ∈ head :: (xs ++ entry :: ys) :=
  (((List.sublist_cons_self entry ys).append_left xs).cons_cons head).subset h

end Paths

section Stores

variable [DecidableEq A]

def setNext (mem : Memory A) (a b : A) : Option (Memory A) :=
  (mem a).map fun l => Function.update mem a (some { l with next := b })

def setPrev (mem : Memory A) (a b : A) : Option (Memory A) :=
  (mem a).map fun l => Function.update mem a (some { l with prev := b })

/-- `INIT_LIST_HEAD`, on memory that is there. -/
def initListHead (mem : Memory A) (a : A) : Memory A := Function.update mem a (some ⟨a, a⟩)

def listAddBetween (mem : Memory A) (entry prev next : A) : Option (Memory A) := do
  let mem ← setPrev mem next entry
  let mem ← setNext mem entry next
  let mem ← setPrev mem entry prev
  setNext mem prev entry

def listAdd (mem : Memory A) (entry head : A) : Option (Memory A) := do
  let l ← mem head
  listAddBetween mem entry head l.next

def listDelBetween (mem : Memory A) (prev next : A) : Option (Memory A) := do
  let mem ← setPrev mem next prev
  setNext mem prev next

def listDel (mem : Memory A) (entry : A) : Option (Memory A) := do
  let l ← mem entry
  listDelBetween mem l.prev l.next

def listEmpty (mem : Memory A) (head : A) : Option Bool := (mem head).map fun l => decide (l.next = head)

def free (mem : Memory A) (a : A) : Memory A := Function.update mem a none

variable {mem : Memory A} {a b head entry : A} {nodes xs ys : List A}

theorem nextOf_update (mem : Memory A) (a : A) (l : Link A) (x : A) :
    nextOf (Function.update mem a (some l)) x = if x = a then some l.next else nextOf mem x := by
  rw [nextOf, Function.update_apply]
  split <;> rfl

theorem prevOf_update (mem : Memory A) (a : A) (l : Link A) (x : A) :
    prevOf (Function.update mem a (some l)) x = if x = a then some l.prev else prevOf mem x := by
  rw [prevOf, Function.update_apply]
  split <;> rfl

theorem isSome_update (h : (mem a).isSome = true) (l : Link A) (x : A) :
    (Function.update mem a (some l) x).isSome = (mem x).isSome := by
  rw [Function.update_apply]
  split
  · rename_i hx
    rw [hx, h]
    rfl
  · rfl

/-- What a store of `next` does, at an address that is allocated. -/
theorem setNext_spec (h : (mem a).isSome = true) (b : A) : ∃ mem', setNext mem a b = some mem' ∧
    (∀ x, nextOf mem' x = if x = a then some b else nextOf mem x) ∧
    (∀ x, prevOf mem' x = prevOf mem x) ∧ ∀ x, (mem' x).isSome = (mem x).isSome := by
  obtain ⟨l, hLink⟩ := Option.isSome_iff_exists.mp h
  refine ⟨Function.update mem a (some { l with next := b }), by rw [setNext, hLink]; rfl,
    nextOf_update mem a _, fun x => ?_, isSome_update h _⟩
  rw [prevOf_update]
  split
  · rename_i hx
    rw [hx, prevOf, hLink]
    rfl
  · rfl

theorem setPrev_spec (h : (mem a).isSome = true) (b : A) : ∃ mem', setPrev mem a b = some mem' ∧
    (∀ x, nextOf mem' x = nextOf mem x) ∧
    (∀ x, prevOf mem' x = if x = a then some b else prevOf mem x) ∧ ∀ x, (mem' x).isSome = (mem x).isSome := by
  obtain ⟨l, hLink⟩ := Option.isSome_iff_exists.mp h
  refine ⟨Function.update mem a (some { l with prev := b }), by rw [setPrev, hLink]; rfl,
    fun x => ?_, prevOf_update mem a _, isSome_update h _⟩
  rw [nextOf_update]
  split
  · rename_i hx
    rw [hx, nextOf, hLink]
    rfl
  · rfl

omit [DecidableEq A] in
theorem eq_of_ends {mem' : Memory A} {x : A} (hNext : nextOf mem' x = nextOf mem x)
    (hPrev : prevOf mem' x = prevOf mem x) : mem' x = mem x := by
  rw [nextOf, nextOf] at hNext
  rw [prevOf, prevOf] at hPrev
  cases hNew : mem' x with
  | none =>
    rw [hNew] at hNext
    exact (Option.map_eq_none_iff.mp hNext.symm).symm
  | some l =>
    rw [hNew] at hNext hPrev
    obtain ⟨l', hOld, hNextEq⟩ := Option.map_eq_some_iff.mp hNext.symm
    rw [hOld] at hPrev ⊢
    cases l
    cases l'
    cases Option.some.inj hPrev
    cases hNextEq
    rfl

/-- A loop over heads makes each a ring of its own. -/
theorem foldl_initListHead (mem : Memory A) (heads : List A) (a : A) :
    heads.foldl initListHead mem a = if a ∈ heads then some ⟨a, a⟩ else mem a := by
  induction heads generalizing mem with
  | nil => simp
  | cons head heads ih =>
    rw [List.foldl_cons, ih, initListHead]
    by_cases hIn : a ∈ heads
    · simp [hIn]
    · by_cases hHead : a = head
      · simp [hHead]
      · simp [hIn, hHead]

theorem Ring.listEmpty (h : Ring mem head nodes) : listEmpty mem head = some (decide (nodes = [])) := by
  obtain ⟨l, hLink, hNext⟩ := Option.map_eq_some_iff.mp h.path.next
  rw [Rings.listEmpty, hLink, Option.map_some, hNext]
  cases nodes with
  | nil => simp
  | cons x xs =>
    have hne : x ≠ head := fun hEq => (List.nodup_cons.mp h.nodup).1 (hEq ▸ List.mem_cons_self)
    simp [hne]

/-- What an operation on a ring leaves of the memory. -/
structure Frame (mem mem' : Memory A) (touched : List A) : Prop where
  same : ∀ x, x ∉ touched → mem' x = mem x
  allocated : ∀ x, (mem' x).isSome = (mem x).isSome

theorem Ring.listAdd (h : Ring mem head nodes) (hEntry : (mem entry).isSome = true)
    (hNew : entry ∉ head :: nodes) : ∃ mem', listAdd mem entry head = some mem' ∧
      Ring mem' head (entry :: nodes) ∧ Frame mem mem' (head :: entry :: nodes) := by
  obtain ⟨l, hLink, hNext⟩ := Option.map_eq_some_iff.mp h.path.next
  have hAll := h.path.allocated
  obtain ⟨hHead, hNodup⟩ := List.nodup_cons.mp h.nodup
  have hFirstMem : nodes.headD head ∈ head :: nodes := by
    cases nodes with
    | nil => exact List.mem_cons_self
    | cons x xs => exact List.mem_cons_of_mem head List.mem_cons_self
  have hFirst : nodes.headD head ≠ entry := fun hEq => hNew (hEq ▸ hFirstMem)
  obtain ⟨m₁, h₁, hNext₁, hPrev₁, hSome₁⟩ := setPrev_spec (hAll _ hFirstMem) entry
  have hEntry₁ : (m₁ entry).isSome = true := (hSome₁ entry).trans hEntry
  obtain ⟨m₂, h₂, hNext₂, hPrev₂, hSome₂⟩ := setNext_spec hEntry₁ (nodes.headD head)
  have hEntry₂ : (m₂ entry).isSome = true := (hSome₂ entry).trans hEntry₁
  obtain ⟨m₃, h₃, hNext₃, hPrev₃, hSome₃⟩ := setPrev_spec hEntry₂ head
  have hHead₃ : (m₃ head).isSome = true := by
    rw [hSome₃, hSome₂, hSome₁]
    exact hAll head List.mem_cons_self
  obtain ⟨m₄, h₄, hNext₄, hPrev₄, hSome₄⟩ := setNext_spec hHead₃ entry
  have hNext' : ∀ x, nextOf m₄ x =
      if x = head then some entry else if x = entry then some (nodes.headD head) else nextOf mem x := by
    intro x
    rw [hNext₄, hNext₃, hNext₂, hNext₁]
  have hPrev' : ∀ x, prevOf m₄ x =
      if x = entry then some head else if x = nodes.headD head then some entry else prevOf mem x := by
    intro x
    rw [hPrev₄, hPrev₃, hPrev₂, hPrev₁]
  have hHeadEntry : head ≠ entry := fun hEq => hNew (hEq ▸ List.mem_cons_self)
  have hNode : ∀ x ∈ nodes, x ≠ head ∧ x ≠ entry := by
    intro x hx
    exact ⟨fun hEq => hHead (hEq ▸ hx), fun hEq => hNew (hEq ▸ List.mem_cons_of_mem head hx)⟩
  refine ⟨m₄, ?_, ⟨⟨⟨?_, ?_⟩, ?_⟩, ?_⟩, fun x hx => ?_, fun x => ?_⟩
  · simp only [Rings.listAdd, hLink, listAddBetween, Option.bind_eq_bind, Option.bind_some, hNext, h₁, h₂, h₃, h₄]
  · rw [hNext', if_pos rfl]
  · rw [hPrev', if_pos rfl]
  · apply h.path.rehead
    · rw [List.nodup_append]
      refine ⟨hNodup, List.nodup_singleton head, fun x hx y hy hEq => ?_⟩
      rw [List.mem_singleton.mp hy] at hEq
      exact (hNode x hx).1 hEq
    · rw [hNext', if_neg (Ne.symm hHeadEntry), if_pos rfl, h.path.next]
    · rw [hPrev', if_neg hFirst, if_pos rfl]
    · intro x hx
      rw [hNext', if_neg (hNode x hx).1, if_neg (hNode x hx).2]
    · intro x hx hne
      have hEq : x ≠ entry := by
        rcases List.mem_append.mp hx with hIn | hIn
        · exact (hNode x hIn).2
        · rw [List.mem_singleton.mp hIn]
          exact hHeadEntry
      rw [hPrev', if_neg hEq, if_neg hne]
  · rw [List.nodup_cons, List.nodup_cons]
    refine ⟨?_, fun hIn => hNew (List.mem_cons_of_mem head hIn), hNodup⟩
    rw [List.mem_cons]
    rintro (hEq | hIn)
    · exact hHeadEntry hEq
    · exact hHead hIn
  · simp only [List.mem_cons, not_or] at hx
    obtain ⟨hx₁, hx₂, hx₃⟩ := hx
    apply eq_of_ends
    · rw [hNext', if_neg hx₁, if_neg hx₂]
    · have hne : x ≠ nodes.headD head := by
        intro hEq
        rcases List.mem_cons.mp (hEq ▸ hFirstMem) with hIn | hIn
        · exact hx₁ hIn
        · exact hx₃ hIn
      rw [hPrev', if_neg hx₂, if_neg hne]
  · rw [hSome₄, hSome₃, hSome₂, hSome₁]

theorem Ring.listDel (h : Ring mem head (xs ++ entry :: ys)) : ∃ mem', listDel mem entry = some mem' ∧
    Ring mem' head (xs ++ ys) ∧ Frame mem mem' (head :: (xs ++ ys)) := by
  obtain ⟨hBefore, hBehind⟩ := path_append.mp h.path
  have hAll := h.path.allocated
  have hNodup := h.nodup
  rw [← List.cons_append, List.nodup_append] at hNodup
  obtain ⟨hNodupXs, hNodupYs, hApart⟩ := hNodup
  obtain ⟨hEntryYs, hNodupYs'⟩ := List.nodup_cons.mp hNodupYs
  obtain ⟨l, hLink, hNext⟩ := Option.map_eq_some_iff.mp hBehind.next
  have hPrevEq : l.prev = (head :: xs).getLast (List.cons_ne_nil head xs) := by
    have hPrev := hBefore.prev
    rw [prevOf, hLink] at hPrev
    exact Option.some.inj hPrev
  have hLastMem := List.getLast_mem (List.cons_ne_nil head xs)
  have hNextMem : ys.headD head ∈ ys ++ [head] := by
    cases ys with
    | nil => exact List.mem_cons_self
    | cons y ys => exact List.mem_cons_self
  have hNextAlloc : (mem (ys.headD head)).isSome = true := by
    apply hAll
    rcases List.mem_append.mp hNextMem with hIn | hIn
    · exact List.mem_cons_of_mem head (List.mem_append_right _ (List.mem_cons_of_mem entry hIn))
    · rw [List.mem_singleton.mp hIn]
      exact List.mem_cons_self
  have hLastAlloc : (mem ((head :: xs).getLast (List.cons_ne_nil head xs))).isSome = true :=
    hBefore.allocated _ hLastMem
  obtain ⟨m₁, h₁, hNext₁, hPrev₁, hSome₁⟩ :=
    setPrev_spec hNextAlloc ((head :: xs).getLast (List.cons_ne_nil head xs))
  obtain ⟨m₂, h₂, hNext₂, hPrev₂, hSome₂⟩ := setNext_spec ((hSome₁ _).trans hLastAlloc) (ys.headD head)
  have hNext' : ∀ x, nextOf m₂ x =
      if x = (head :: xs).getLast (List.cons_ne_nil head xs) then some (ys.headD head) else nextOf mem x := by
    intro x
    rw [hNext₂, hNext₁]
  have hPrev' : ∀ x, prevOf m₂ x = if x = ys.headD head then
      some ((head :: xs).getLast (List.cons_ne_nil head xs)) else prevOf mem x := by
    intro x
    rw [hPrev₂, hPrev₁]
  have hHeadYs : head ∉ ys := fun hIn =>
    hApart head List.mem_cons_self head (List.mem_cons_of_mem entry hIn) rfl
  have hXsNext : ∀ x ∈ xs, x ≠ ys.headD head := by
    intro x hx hEq
    rcases List.mem_append.mp (hEq ▸ hNextMem) with hIn | hIn
    · exact hApart x (List.mem_cons_of_mem head hx) x (List.mem_cons_of_mem entry hIn) rfl
    · exact (List.nodup_cons.mp hNodupXs).1 (List.mem_singleton.mp hIn ▸ hx)
  have hPath : Path m₂ head xs (ys.headD head) := by
    apply hBefore.retarget hNodupXs
    · rw [hNext', if_pos rfl]
    · rw [hPrev', if_pos rfl, hBefore.prev]
    · intro x _ hne
      rw [hNext', if_neg hne]
    · intro x hx
      rw [hPrev', if_neg (hXsNext x hx)]
  have hLastIn : (head :: xs).getLast (List.cons_ne_nil head xs) ∈ head :: (xs ++ ys) := by
    rw [← List.cons_append]
    exact List.mem_append_left ys hLastMem
  have hNextIn : ys.headD head ∈ head :: (xs ++ ys) := by
    rcases List.mem_append.mp hNextMem with hIn | hIn
    · exact List.mem_cons_of_mem head (List.mem_append_right xs hIn)
    · rw [List.mem_singleton.mp hIn]
      exact List.mem_cons_self
  have hFrame : ∀ x, x ∉ head :: (xs ++ ys) → m₂ x = mem x := by
    intro x hx
    apply eq_of_ends
    · rw [hNext', if_neg]
      rintro rfl
      exact hx hLastIn
    · rw [hPrev', if_neg]
      rintro rfl
      exact hx hNextIn
  refine ⟨m₂, ?_, ⟨?_, ?_⟩, hFrame, fun x => by rw [hSome₂, hSome₁]⟩
  · simp only [Rings.listDel, hLink, listDelBetween, Option.bind_eq_bind, Option.bind_some, hNext, hPrevEq, h₁, h₂]
  · cases ys with
    | nil =>
      rw [List.append_nil]
      exact hPath
    | cons y ys =>
      refine path_append.mpr ⟨hPath, hBehind.2.congr (fun x hx => ?_) fun x hx => ?_⟩
      · rw [hNext', if_neg]
        rintro rfl
        exact hApart _ hLastMem _ (List.mem_cons_of_mem entry hx) rfl
      · rw [hPrev', if_neg]
        rintro rfl
        rcases List.mem_append.mp hx with hIn | hIn
        · exact (List.nodup_cons.mp hNodupYs').1 hIn
        · exact hHeadYs (List.mem_singleton.mp hIn ▸ List.mem_cons_self)
  · have hSub : (head :: (xs ++ ys)).Sublist (head :: (xs ++ entry :: ys)) :=
      ((List.sublist_cons_self entry ys).append_left xs).cons_cons head
    exact hSub.nodup h.nodup

end Stores

end Libnvmmio.Rings

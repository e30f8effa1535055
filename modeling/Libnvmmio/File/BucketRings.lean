import Libnvmmio.File.FileHash
import Libnvmmio.Foundation.Rings

/-! # The buckets as rings of nodes

`file_hash.c` keeps each bucket in a ring of `list.h`, with nodes from `malloc`.
The loops follow pointers, and the one that deletes frees the node it stands on.
Over the bucket lists the rings behave the same in every interleaving of the
calls, and no access goes to memory that has been freed.
-/

namespace Libnvmmio.FileHash

open GuardedRun Rings

set_option autoImplicit false
set_option linter.unusedSectionVars false

/-- The links of heads and nodes that are allocated, and `ptr` of the nodes. -/
structure Heap (A M : Type) where
  links : Memory A
  ptr : A → M

structure RingState (T M A : Type) where
  heap : Heap A M
  objects : Objects M
  fdTable : Fd → Option (FileT M)
  isOpen : Fd → Bool
  calls : T → Point M
  counted : Fd → Option M

variable {T M A : Type} [DecidableEq M] [DecidableEq A]

namespace Heap

variable (heap : Heap A M) (o : Objects M) (ino : Nat) (head : A)

/-- The loop of `get_mmio_hash` and `put_mmio_hash` from a node on. -/
def findFrom : Nat → A → Option (Option M)
  | 0, _ => none
  | n + 1, pos =>
    if pos = head then some none
    else do
      let node ← heap.links pos
      if ino = o.ino (heap.ptr pos) then some (some (heap.ptr pos)) else findFrom n node.next

def deleteAt (links : Memory A) (pos : A) : Option (Memory A × Objects M) := do
  let _ ← links pos
  let m := heap.ptr pos
  if ino = o.ino m then
    let o := o.setRef m (o.ref m - 1)
    if o.ref m ≤ 0 then do
      let links ← listDel links pos
      some (Rings.free links pos, o.release m)
    else some (links, o)
  else some (links, o)

/-- `LIST_FOR_EACH_ENTRY_SAFE`, which has loaded the node after `pos` beforehand. -/
def deleteFrom : Nat → Memory A → Objects M → A → A → Option (Memory A × Objects M)
  | 0, _, _, _, _ => none
  | n + 1, links, o, pos, tmp =>
    if pos = head then some (links, o)
    else do
      let (links, o) ← heap.deleteAt o ino links pos
      let node ← links tmp
      deleteFrom n links o tmp node.next

variable [Fintype A]

/-- A loop that makes more rounds than there are addresses does not end. -/
def find : Option (Option M) := do
  if ← listEmpty heap.links head then some none
  else do
    let first ← heap.links head
    heap.findFrom o ino head (Fintype.card A + 1) first.next

def add (m : M) (addr : A) : Option (Heap A M) := do
  -- `malloc`; `list_add` stores both links of the node
  let links ← listAdd (Function.update heap.links addr (some ⟨addr, addr⟩)) addr head
  some ⟨links, Function.update heap.ptr addr m⟩

def delete : Option (Heap A M × Objects M) := do
  if ← listEmpty heap.links head then some (heap, o)
  else do
    let first ← heap.links head
    let second ← heap.links first.next
    let (links, o) ← heap.deleteFrom ino head (Fintype.card A + 1) heap.links o first.next second.next
    some (⟨links, heap.ptr⟩, o)

end Heap

namespace RingState

variable [DecidableEq T] [Fintype A]

def withHash (s : RingState T M A) (hash : Bucket → List M) : State T M :=
  ⟨hash, s.objects, s.fdTable, s.isOpen, s.calls, s.counted⟩

def rest (s : RingState T M A) : State T M := s.withHash fun _ => []

def ofRest (heap : Heap A M) (s : State T M) : RingState T M A :=
  ⟨heap, s.objects, s.fdTable, s.isOpen, s.calls, s.counted⟩

variable (heads : Bucket → A) (s : RingState T M A) (t : T) (fd : Fd) (ino : Nat)

def getMmioHash : Option (RingState T M A) := do
  match ← s.heap.find s.objects ino (heads (hashIndex ino)) with
  | some m => some (ofRest s.heap ((s.rest.count fd m).goto t (.file fd ino m)))
  | none => some (ofRest s.heap (s.rest.goto t (.new fd ino)))

/-- `malloc` returns `addr`. -/
def putMmioHash (m : M) (addr : A) : Option (RingState T M A) := do
  match ← s.heap.find s.objects ino (heads (hashIndex ino)) with
  | some m' => some (ofRest s.heap (s.rest.goto t (.file fd ino m')))
  | none => do
    let heap ← s.heap.add (heads (hashIndex ino)) m addr
    some (ofRest heap ((s.rest.count fd m).goto t (.file fd ino m)))

def deleteMmioHash (file : FileT M) : Option (RingState T M A) := do
  let (heap, objects) ← s.heap.delete s.objects file.ino (heads (hashIndex file.ino))
  some (ofRest heap { s.rest.goto t (.clear fd) with
    objects := objects
    counted := Function.update s.counted fd none })

/-- The steps that take the mutex of a bucket work on its ring; the others are as they are. -/
def next : T × Act M × A → Option (RingState T M A)
  | (t, .step, addr) =>
    match s.calls t with
    | .get fd ino => s.getMmioHash heads t fd ino
    | .put fd ino m => s.putMmioHash heads t fd ino m addr
    | .delete fd file => s.deleteMmioHash heads t fd file
    | _ => (s.rest.next (t, .step)).map (ofRest s.heap)
  | (t, a, _) => (s.rest.next (t, a)).map (ofRest s.heap)

def Step (s : RingState T M A) (a : T × Act M × A) (s' : RingState T M A) : Prop := s.next heads a = some s'

def init (ptr : A → M) : RingState T M A :=
  ofRest ⟨((List.finRange fileHashSize).map heads).foldl initListHead fun _ => none, ptr⟩ FileHash.init

def Fresh (s : RingState T M A) (a : T × Act M × A) : Prop := s.heap.links a.2.2 = none

end RingState

/-! ## The rings against the lists -/

/-- Each bucket list is in the ring of its head, and nothing else is allocated. -/
structure Represents (heads : Bucket → A) (heap : Heap A M) (hash : Bucket → List M) (nodes : Bucket → List A) :
    Prop where
  rings : ∀ i, Ring heap.links (heads i) (nodes i)
  content : ∀ i, (nodes i).map heap.ptr = hash i
  apart : ∀ i j x, x ∈ heads i :: nodes i → x ∈ heads j :: nodes j → i = j
  allocated : ∀ x, (heap.links x).isSome = true ↔ ∃ i, x ∈ heads i :: nodes i

namespace Heap

section Loops

variable {heap : Heap A M} {o : Objects M} {ino : Nat} {head : A} {links : Memory A}

/-- The loop over the rest of a ring finds what the search of the list finds. -/
theorem findFrom_spec {a : A} {ys : List A} {n : Nat} (hPath : Path heap.links a ys head)
    (hHead : head ∉ ys) (hFuel : ys.length < n) :
    heap.findFrom o ino head n (ys.headD head) = some ((ys.map heap.ptr).find? fun m => ino = o.ino m) := by
  induction ys generalizing a n with
  | nil =>
    obtain ⟨n, rfl⟩ := Nat.exists_eq_succ_of_ne_zero (Nat.ne_of_gt hFuel)
    simp [findFrom]
  | cons y ys ih =>
    obtain ⟨n, rfl⟩ := Nat.exists_eq_succ_of_ne_zero (Nat.ne_of_gt (Nat.zero_lt_of_lt hFuel))
    have hne : y ≠ head := fun hEq => hHead (hEq ▸ List.mem_cons_self)
    obtain ⟨l, hLink, hNext⟩ := Option.map_eq_some_iff.mp hPath.2.next
    have hRest := ih (n := n) hPath.2 (fun hIn => hHead (List.mem_cons_of_mem y hIn)) (Nat.lt_of_succ_lt_succ hFuel)
    rw [findFrom, List.headD_cons, if_neg hne, hLink, List.map_cons, List.find?_cons]
    change (if ino = o.ino (heap.ptr y) then _ else _) = _
    rw [hNext]
    split
    · rename_i hIno
      rw [decide_eq_true hIno]
    · rename_i hIno
      rw [decide_eq_false hIno]
      exact hRest

/-- What a deletion makes of the rest `ys` of a ring: `ys'`, with the nodes that are gone freed. -/
structure Deleted (links links' : Memory A) (head : A) (xs ys ys' : List A) : Prop where
  ring : Ring links' head (xs ++ ys')
  sub : ys'.Sublist ys
  same : ∀ x, x ∉ head :: (xs ++ ys) → links' x = links x
  allocated : ∀ x, (links' x).isSome = true ↔ (links x).isSome = true ∧ (x ∈ ys → x ∈ ys')

theorem headD_mem (ys : List A) (head : A) (xs : List A) : ys.headD head ∈ head :: (xs ++ ys) := by
  cases ys with
  | nil => exact List.mem_cons_self
  | cons y ys => simp

/-- The node after the one that the loop stands on. -/
theorem Ring.link_headD {xs ys : List A} (h : Ring links head (xs ++ ys)) :
    ∃ l, links (ys.headD head) = some l ∧ ∀ y ys', ys = y :: ys' → l.next = ys'.headD head := by
  obtain ⟨l, hLink⟩ := Option.isSome_iff_exists.mp (h.path.allocated _ (headD_mem ys head xs))
  refine ⟨l, hLink, ?_⟩
  rintro y ys' rfl
  have hNext : nextOf links y = some (ys'.headD head) := (path_append.mp h.path).2.next
  rw [List.headD_cons] at hLink
  rw [nextOf, hLink] at hNext
  exact Option.some.inj hNext

/-- The loop keeps a node, or it takes the node out of the ring and frees it. -/
theorem deleteAt_spec (heap : Heap A M) (o : Objects M) (ino : Nat) {xs ys : List A} {y : A}
    (hRing : Ring links head (xs ++ y :: ys)) :
    (∃ o₁, heap.deleteAt o ino links y = some (links, o₁) ∧
      ∀ ms, deleteNodes ino (heap.ptr y :: ms) o =
        (heap.ptr y :: (deleteNodes ino ms o₁).1, (deleteNodes ino ms o₁).2)) ∨
    ∃ o₁ links₁, heap.deleteAt o ino links y = some (links₁, o₁) ∧
      (∀ ms, deleteNodes ino (heap.ptr y :: ms) o = deleteNodes ino ms o₁) ∧
      Ring links₁ head (xs ++ ys) ∧ (∀ x, x ∉ head :: (xs ++ y :: ys) → links₁ x = links x) ∧
      ∀ x, (links₁ x).isSome = true ↔ (links x).isSome = true ∧ x ≠ y := by
  have hMem : y ∈ head :: (xs ++ y :: ys) := List.mem_cons_of_mem head (List.mem_append_right xs List.mem_cons_self)
  obtain ⟨l, hLink⟩ := Option.isSome_iff_exists.mp (hRing.path.allocated y hMem)
  have hStart : heap.deleteAt o ino links y =
      if ino = o.ino (heap.ptr y) then
        if (o.setRef (heap.ptr y) (o.ref (heap.ptr y) - 1)).ref (heap.ptr y) ≤ 0 then
          (listDel links y).bind fun links =>
            some (Rings.free links y, (o.setRef (heap.ptr y) (o.ref (heap.ptr y) - 1)).release (heap.ptr y))
        else some (links, o.setRef (heap.ptr y) (o.ref (heap.ptr y) - 1))
      else some (links, o) := by
    rw [deleteAt, hLink]
    rfl
  rw [hStart]
  by_cases hIno : ino = o.ino (heap.ptr y)
  · rw [if_pos hIno]
    by_cases hLast : (o.setRef (heap.ptr y) (o.ref (heap.ptr y) - 1)).ref (heap.ptr y) ≤ 0
    · right
      obtain ⟨links₁, hDel, hRing₁, hFrame⟩ := hRing.listDel
      have hOut := hRing.entry_out
      have hOther : ∀ x, x ≠ y → Rings.free links₁ y x = links₁ x := fun x hx => Function.update_of_ne hx ..
      refine ⟨_, Rings.free links₁ y, by rw [if_pos hLast, hDel]; rfl, fun ms => ?_, ?_, fun x hx => ?_, fun x => ?_⟩
      · rw [deleteNodes, if_pos hIno]
        dsimp only
        rw [if_pos hLast]
      · exact hRing₁.frame fun x hx => hOther x fun hEq => hOut (hEq ▸ hx)
      · rw [hOther x fun hEq => hx (hEq ▸ hMem)]
        exact hFrame.same x fun hIn => hx (mem_around hIn)
      · by_cases hx : x = y
        · have hNone : Rings.free links₁ y y = none := Function.update_self ..
          rw [hx, hNone]
          simp
        · rw [hOther x hx, hFrame.allocated]
          simp [hx]
    · left
      refine ⟨_, by rw [if_neg hLast], fun ms => ?_⟩
      rw [deleteNodes, if_pos hIno]
      dsimp only
      rw [if_neg hLast]
  · left
    refine ⟨o, by rw [if_neg hIno], fun ms => ?_⟩
    rw [deleteNodes, if_neg hIno]

/-- The loop over the rest of a ring does to it what `deleteNodes` does to the list. -/
theorem deleteFrom_spec (heap : Heap A M) (o : Objects M) (ino : Nat) (xs : List A) {ys : List A} {n : Nat}
    (tmp : A) (hRing : Ring links head (xs ++ ys))
    (hTmp : ∀ y ys', ys = y :: ys' → tmp = ys'.headD head) (hFuel : ys.length < n) :
    ∃ links' ys', heap.deleteFrom ino head n links o (ys.headD head) tmp =
        some (links', (deleteNodes ino (ys.map heap.ptr) o).2) ∧
      ys'.map heap.ptr = (deleteNodes ino (ys.map heap.ptr) o).1 ∧ Deleted links links' head xs ys ys' := by
  induction ys generalizing xs links o n tmp with
  | nil =>
    obtain ⟨n, rfl⟩ := Nat.exists_eq_succ_of_ne_zero (Nat.ne_of_gt hFuel)
    refine ⟨links, [], ?_, rfl, hRing, List.Sublist.refl [], fun _ _ => rfl, fun x => ?_⟩
    · simp [deleteFrom, deleteNodes]
    · simp
  | cons y ys ih =>
    obtain ⟨n, rfl⟩ := Nat.exists_eq_succ_of_ne_zero (Nat.ne_of_gt (Nat.zero_lt_of_lt hFuel))
    have hFuel' : ys.length < n := Nat.lt_of_succ_lt_succ hFuel
    have hOut := hRing.entry_out
    have hne : y ≠ head := fun hEq => hOut (hEq ▸ List.mem_cons_self)
    have hys : y ∉ ys := fun hIn => hOut (List.mem_cons_of_mem head (List.mem_append_right xs hIn))
    have hNext := hTmp y ys rfl
    subst hNext
    have hStart : ∀ links₁ o₁ l, heap.deleteAt o ino links y = some (links₁, o₁) →
        links₁ (ys.headD head) = some l →
        heap.deleteFrom ino head (n + 1) links o ((y :: ys).headD head) (ys.headD head) =
          heap.deleteFrom ino head n links₁ o₁ (ys.headD head) l.next := by
      intro links₁ o₁ l hAt hLink
      rw [deleteFrom, List.headD_cons, if_neg hne, hAt]
      change (links₁ (ys.headD head)).bind _ = _
      rw [hLink]
      rfl
    rw [List.map_cons]
    rcases deleteAt_spec heap o ino hRing with
      ⟨o₁, hAt, hNodes⟩ | ⟨o₁, links₁, hAt, hNodes, hRing₁, hSame, hAlloc⟩
    · have hRing' : Ring links head ((xs ++ [y]) ++ ys) := by
        rw [List.append_assoc]
        exact hRing
      obtain ⟨l, hLink, hAfter⟩ := Ring.link_headD hRing'
      obtain ⟨links', ys', hOk, hContent, hDeleted⟩ := ih o₁ (xs ++ [y]) l.next hRing' hAfter hFuel'
      refine ⟨links', y :: ys', ?_, ?_, ?_, hDeleted.sub.cons_cons y, fun x hx => ?_, fun x => ?_⟩
      · rw [hStart links o₁ l hAt hLink, hOk, hNodes]
      · rw [List.map_cons, hContent, hNodes]
      · have hThere := hDeleted.ring
        rw [List.append_assoc] at hThere
        exact hThere
      · apply hDeleted.same
        rw [List.append_assoc]
        exact hx
      · rw [hDeleted.allocated x]
        apply and_congr_right
        intro _
        by_cases hx : x = y
        · simp [hx, hys]
        · simp [hx]
    · obtain ⟨l, hLink, hAfter⟩ := Ring.link_headD hRing₁
      obtain ⟨links', ys', hOk, hContent, hDeleted⟩ := ih o₁ xs l.next hRing₁ hAfter hFuel'
      refine ⟨links', ys', ?_, ?_, hDeleted.ring, hDeleted.sub.cons y, fun x hx => ?_, fun x => ?_⟩
      · rw [hStart links₁ o₁ l hAt hLink, hOk, hNodes]
      · rw [hContent, hNodes]
      · rw [hDeleted.same x fun hIn => hx (mem_around hIn), hSame x hx]
      · rw [hDeleted.allocated x, hAlloc x]
        have hGone : x = y → x ∉ ys' := fun hEq hIn => hys (hEq ▸ hDeleted.sub.subset hIn)
        rw [List.mem_cons]
        tauto

end Loops

end Heap

section Operations

variable [Fintype A] {heads : Bucket → A} {heap : Heap A M} {hash : Bucket → List M} {nodes : Bucket → List A}

/-- The loops make a round for each node at most. -/
theorem Represents.fuel (h : Represents heads heap hash nodes) (i : Bucket) :
    (nodes i).length < Fintype.card A + 1 := by
  have hCard := (List.nodup_cons.mp (h.rings i).nodup).2.length_le_card
  omega

theorem Represents.find (h : Represents heads heap hash nodes) (o : Objects M) (ino : Nat) (i : Bucket) :
    heap.find o ino (heads i) = some ((hash i).find? fun m => ino = o.ino m) := by
  have hRing := h.rings i
  obtain ⟨l, hLink, hNext⟩ := Option.map_eq_some_iff.mp hRing.path.next
  rw [Heap.find, hRing.listEmpty, ← h.content i]
  change (if decide (nodes i = []) = true then _ else _) = _
  split
  · rename_i hEmpty
    rw [of_decide_eq_true hEmpty]
    rfl
  · rw [hLink]
    change heap.findFrom o ino (heads i) (Fintype.card A + 1) l.next = _
    rw [hNext]
    exact Heap.findFrom_spec hRing.path (List.nodup_cons.mp hRing.nodup).1 (h.fuel i)

theorem Represents.not_mem_of_free (h : Represents heads heap hash nodes) {addr : A}
    (hFree : heap.links addr = none) (i : Bucket) : addr ∉ heads i :: nodes i := by
  intro hIn
  have hSome := (h.allocated addr).mpr ⟨i, hIn⟩
  rw [hFree] at hSome
  cases hSome

theorem Represents.other (h : Represents heads heap hash nodes) {i j : Bucket} (hne : j ≠ i) {x : A}
    (hx : x ∈ heads j :: nodes j) : x ∉ heads i :: nodes i := fun hIn => hne (h.apart j i x hx hIn)

/-- The ring of one bucket is replaced, by old nodes and by nodes that are in no ring. -/
theorem Represents.update (h : Represents heads heap hash nodes) {i : Bucket} {links : Memory A} {ptr : A → M}
    {ys : List A} (hRing : Ring links (heads i) ys)
    (hFrame : ∀ j, j ≠ i → ∀ x ∈ heads j :: nodes j, links x = heap.links x)
    (hPtr : ∀ j, j ≠ i → ∀ x ∈ nodes j, ptr x = heap.ptr x)
    (hOwn : ∀ x ∈ ys, x ∈ nodes i ∨ ∀ j, x ∉ heads j :: nodes j)
    (hAllocated : ∀ x, (links x).isSome = true ↔
      x ∈ heads i :: ys ∨ (heap.links x).isSome = true ∧ x ∉ heads i :: nodes i) :
    Represents heads ⟨links, ptr⟩ (Function.update hash i (ys.map ptr)) (Function.update nodes i ys) := by
  have hElse : ∀ j, j ≠ i → ∀ x ∈ heads i :: ys, x ∉ heads j :: nodes j := by
    intro j hj x hx hIn
    rcases List.mem_cons.mp hx with rfl | hNode
    · exact hj (h.apart j i _ hIn List.mem_cons_self)
    · rcases hOwn x hNode with hOld | hNew
      · exact hj (h.apart j i x hIn (List.mem_cons_of_mem _ hOld))
      · exact hNew j hIn
  refine ⟨fun j => ?_, fun j => ?_, fun j k x hj hk => ?_, fun x => (hAllocated x).trans ⟨?_, ?_⟩⟩
  · by_cases hj : j = i
    · rw [hj, Function.update_self]
      exact hRing
    · rw [Function.update_of_ne hj]
      exact (h.rings j).frame (hFrame j hj)
  · by_cases hj : j = i
    · rw [hj, Function.update_self, Function.update_self]
    · rw [Function.update_of_ne hj, Function.update_of_ne hj, ← h.content j]
      exact List.map_congr_left (hPtr j hj)
  · by_cases hji : j = i <;> by_cases hki : k = i
    · rw [hji, hki]
    · rw [Function.update_of_ne hki] at hk
      rw [hji, Function.update_self] at hj
      exact absurd hk (hElse k hki x hj)
    · rw [Function.update_of_ne hji] at hj
      rw [hki, Function.update_self] at hk
      exact absurd hj (hElse j hji x hk)
    · rw [Function.update_of_ne hji] at hj
      rw [Function.update_of_ne hki] at hk
      exact h.apart j k x hj hk
  · rintro (hHere | ⟨hSome, hNot⟩)
    · refine ⟨i, ?_⟩
      rwa [Function.update_self]
    · obtain ⟨j, hIn⟩ := (h.allocated x).mp hSome
      refine ⟨j, ?_⟩
      rwa [Function.update_of_ne]
      rintro rfl
      exact hNot hIn
  · rintro ⟨j, hIn⟩
    by_cases hj : j = i
    · rw [hj, Function.update_self] at hIn
      exact .inl hIn
    · rw [Function.update_of_ne hj] at hIn
      exact .inr ⟨(h.allocated x).mpr ⟨j, hIn⟩, h.other hj hIn⟩

theorem Represents.add (h : Represents heads heap hash nodes) (i : Bucket) (m : M) {addr : A}
    (hFree : heap.links addr = none) : ∃ heap', heap.add (heads i) m addr = some heap' ∧
      Represents heads heap' (Function.update hash i (m :: hash i))
        (Function.update nodes i (addr :: nodes i)) := by
  have hNew := h.not_mem_of_free hFree
  have hOld : ∀ x, x ≠ addr → Function.update heap.links addr (some ⟨addr, addr⟩) x = heap.links x :=
    fun x hx => Function.update_of_ne hx ..
  have hRing₀ : Ring (Function.update heap.links addr (some ⟨addr, addr⟩)) (heads i) (nodes i) :=
    (h.rings i).frame fun x hx => hOld x fun hEq => hNew i (hEq ▸ hx)
  have hEntry : (Function.update heap.links addr (some ⟨addr, addr⟩) addr).isSome = true := by
    rw [Function.update_self]
    rfl
  obtain ⟨links', hAdd, hRing, hFrame⟩ := hRing₀.listAdd hEntry (hNew i)
  have hPtr : ∀ j, ∀ x ∈ nodes j, Function.update heap.ptr addr m x = heap.ptr x := by
    intro j x hx
    have hne : x ≠ addr := by
      rintro rfl
      exact hNew j (List.mem_cons_of_mem _ hx)
    exact Function.update_of_ne hne ..
  have hContent : (addr :: nodes i).map (Function.update heap.ptr addr m) = m :: hash i := by
    rw [List.map_cons, Function.update_self, List.map_congr_left (hPtr i), h.content i]
  refine ⟨⟨links', Function.update heap.ptr addr m⟩, by rw [Heap.add, hAdd]; rfl, ?_⟩
  rw [← hContent]
  refine h.update hRing (fun j hj x hx => ?_) (fun j _ => hPtr j) (fun x hx => ?_) fun x => ?_
  · have hne : x ≠ addr := fun hEq => hNew j (hEq ▸ hx)
    rw [← hOld x hne]
    apply hFrame.same
    have hNot := h.other hj hx
    rw [List.mem_cons] at hNot
    rw [List.mem_cons, List.mem_cons]
    rintro (hHead | hAddr | hNode)
    · exact hNot (.inl hHead)
    · exact hne hAddr
    · exact hNot (.inr hNode)
  · rcases List.mem_cons.mp hx with rfl | hNode
    · exact .inr hNew
    · exact .inl hNode
  · rw [hFrame.allocated]
    by_cases hx : x = addr
    · rw [hx, Function.update_self]
      exact ⟨fun _ => .inl (List.mem_cons_of_mem _ List.mem_cons_self), fun _ => rfl⟩
    · rw [hOld x hx]
      have hHere : x ∈ heads i :: nodes i → (heap.links x).isSome = true := fun hIn => (h.allocated x).mpr ⟨i, hIn⟩
      simp only [List.mem_cons] at hHere ⊢
      tauto

theorem Represents.delete (h : Represents heads heap hash nodes) (o : Objects M) (ino : Nat) (i : Bucket) :
    ∃ heap' nodes', heap.delete o ino (heads i) = some (heap', (deleteNodes ino (hash i) o).2) ∧
      Represents heads heap' (Function.update hash i (deleteNodes ino (hash i) o).1) nodes' := by
  have hRing := h.rings i
  rw [← h.content i]
  obtain ⟨l, hLink, hNext⟩ := Option.map_eq_some_iff.mp hRing.path.next
  cases hNodes : nodes i with
  | nil =>
    refine ⟨heap, nodes, ?_, ?_⟩
    · rw [Heap.delete, hRing.listEmpty, hNodes]
      rfl
    · have hSame : Function.update hash i [] = hash := by
        rw [← List.map_nil (f := heap.ptr), ← hNodes, h.content i, Function.update_eq_self]
      rw [List.map_nil, deleteNodes, hSame]
      exact h
  | cons y ys =>
    rw [hNodes] at hNext hRing
    obtain ⟨l', hLink', hNext'⟩ := Option.map_eq_some_iff.mp hRing.path.2.next
    have hFuel := h.fuel i
    rw [hNodes] at hFuel
    obtain ⟨links', ys', hOk, hContent, hDeleted⟩ := Heap.deleteFrom_spec heap o ino []
      l'.next hRing (fun z zs hEq => by cases hEq; exact hNext') hFuel
    refine ⟨⟨links', heap.ptr⟩, Function.update nodes i ys', ?_, ?_⟩
    · rw [Heap.delete, (h.rings i).listEmpty, hNodes]
      change ((heap.links (heads i)).bind _) = _
      rw [hLink, Option.bind_some, hNext]
      change ((heap.links y).bind _) = _
      rw [hLink', Option.bind_some, hOk]
      rfl
    · rw [← hContent]
      have hHead : heads i ∉ y :: ys := (List.nodup_cons.mp hRing.nodup).1
      refine h.update hDeleted.ring (fun j hj x hx => hDeleted.same x ?_) (fun _ _ _ _ => rfl)
        (fun x hx => .inl ?_) fun x => ?_
      · have hNot := h.other hj hx
        rwa [hNodes] at hNot
      · rw [hNodes]
        exact hDeleted.sub.subset hx
      · rw [hDeleted.allocated x, hNodes]
        constructor
        · rintro ⟨hSome, hStays⟩
          by_cases hIn : x ∈ y :: ys
          · exact .inl (List.mem_cons_of_mem _ (hStays hIn))
          · by_cases hEq : x = heads i
            · exact .inl (hEq ▸ List.mem_cons_self)
            · exact .inr ⟨hSome, fun hBoth => (List.mem_cons.mp hBoth).elim hEq hIn⟩
        · rintro (hHere | ⟨hSome, hNot⟩)
          · rcases List.mem_cons.mp hHere with rfl | hIn
            · exact ⟨(h.allocated _).mpr ⟨i, List.mem_cons_self⟩, fun hIn => absurd hIn hHead⟩
            · have hOld : x ∈ nodes i := hNodes ▸ hDeleted.sub.subset hIn
              exact ⟨(h.allocated x).mpr ⟨i, List.mem_cons_of_mem _ hOld⟩, fun _ => hIn⟩
          · exact ⟨hSome, fun hIn => absurd (List.mem_cons_of_mem _ hIn) hNot⟩

end Operations

def Point.takesMutex : Point M → Bool
  | .get _ _ | .put _ _ _ | .delete _ _ => true
  | _ => false

namespace RingState

variable [DecidableEq T] [Fintype A]

def Reps (heads : Bucket → A) (s : RingState T M A) (b : State T M) : Prop :=
  (∃ nodes, Represents heads s.heap b.hash nodes) ∧ b = s.withHash b.hash

section Steps

variable {heads : Bucket → A} {s r : RingState T M A} {b b' : State T M} {t : T} {fd : Fd} {ino : Nat} {addr : A}

theorem Reps.find (h : Reps heads s b) (ino : Nat) :
    s.heap.find s.objects ino (heads (hashIndex ino)) = some (b.find ino) := by
  obtain ⟨⟨nodes, hRep⟩, hRest⟩ := h
  have hObjects : b.objects = s.objects := congrArg State.objects hRest
  rw [hRep.find, State.find, hObjects]

theorem Reps.getMmioHash (h : Reps heads s b) (t : T) (fd : Fd) (ino : Nat) :
    ∃ r, s.getMmioHash heads t fd ino = some r ∧ Reps heads r (b.getMmioHash t fd ino) := by
  rw [RingState.getMmioHash, h.find, State.getMmioHash]
  obtain ⟨⟨nodes, hRep⟩, hRest⟩ := h
  change ∃ r, (match b.find ino with | some m => _ | none => _) = some r ∧ _
  cases b.find ino with
  | some m =>
    refine ⟨_, rfl, ⟨nodes, hRep⟩, ?_⟩
    dsimp only
    rw [hRest]
    rfl
  | none =>
    refine ⟨_, rfl, ⟨nodes, hRep⟩, ?_⟩
    dsimp only
    rw [hRest]
    rfl

theorem Reps.putMmioHash (h : Reps heads s b) (t : T) (fd : Fd) (ino : Nat) (m : M)
    (hFree : s.heap.links addr = none) :
    ∃ r, s.putMmioHash heads t fd ino m addr = some r ∧ Reps heads r (b.putMmioHash t fd ino m) := by
  rw [RingState.putMmioHash, h.find, State.putMmioHash]
  obtain ⟨⟨nodes, hRep⟩, hRest⟩ := h
  obtain ⟨heap, hAdd, hRep'⟩ := hRep.add (hashIndex ino) m hFree
  change ∃ r, (match b.find ino with | some m' => _ | none => _) = some r ∧ _
  cases b.find ino with
  | some m' =>
    refine ⟨_, rfl, ⟨nodes, hRep⟩, ?_⟩
    dsimp only
    rw [hRest]
    rfl
  | none =>
    dsimp only
    rw [hAdd]
    refine ⟨_, rfl, ⟨_, hRep'⟩, ?_⟩
    rw [hRest]
    rfl

theorem Reps.deleteMmioHash (h : Reps heads s b) (t : T) (fd : Fd) (file : FileT M) :
    ∃ r, s.deleteMmioHash heads t fd file = some r ∧ Reps heads r (b.deleteMmioHash t fd file) := by
  obtain ⟨⟨nodes, hRep⟩, hRest⟩ := h
  have hObjects : b.objects = s.objects := congrArg State.objects hRest
  obtain ⟨heap, nodes', hDelete, hRep'⟩ := hRep.delete s.objects file.ino (hashIndex file.ino)
  rw [RingState.deleteMmioHash, hDelete, State.deleteMmioHash, hObjects]
  refine ⟨_, rfl, ⟨nodes', hRep'⟩, ?_⟩
  rw [hRest]
  rfl

/-- A step that takes no mutex does not look at the buckets. -/
theorem rest_next {hash : Bucket → List M} (a : Act M)
    (hStep : a = .step → (s.calls t).takesMutex = false) :
    (s.withHash hash).next (t, a) = (s.rest.next (t, a)).map fun r => { r with hash := hash } := by
  rw [State.next.eq_def, State.next.eq_def]
  cases a with
  | «open» fd ino =>
    dsimp only [rest, withHash]
    cases s.calls t with
    | idle =>
      change (if s.isOpen fd = true then _ else _) = Option.map _ (if s.isOpen fd = true then _ else _)
      split <;> rfl
    | get | new | put | file | delete | clear => rfl
  | close fd =>
    dsimp only [rest, withHash]
    cases s.calls t with
    | idle => cases s.fdTable fd <;> rfl
    | get | new | put | file | delete | clear => rfl
  | provide m =>
    dsimp only [rest, withHash]
    cases s.calls t with
    | new fd ino =>
      change (if s.objects.pooled m = true then _ else _) = Option.map _ (if s.objects.pooled m = true then _ else _)
      split <;> rfl
    | idle | get | put | file | delete | clear => rfl
  | step =>
    have hPoint := hStep rfl
    change (s.withHash hash).step t (s.calls t) = Option.map _ (s.rest.step t (s.calls t))
    cases hCall : s.calls t with
    | get | put | delete =>
      rw [hCall] at hPoint
      cases hPoint
    | idle | new | file | clear => rfl

theorem Reps.of_rest (h : Reps heads s b) {a : Act M} (hSame : b.next (t, a) =
    (s.rest.next (t, a)).map fun r => { r with hash := b.hash })
    (hNext : s.next heads (t, a, addr) = (s.rest.next (t, a)).map (ofRest s.heap)) :
    (∃ r b', s.next heads (t, a, addr) = some r ∧ b.next (t, a) = some b' ∧ Reps heads r b') ∨
      s.next heads (t, a, addr) = none ∧ b.next (t, a) = none := by
  obtain ⟨⟨nodes, hRep⟩, _⟩ := h
  rw [hSame, hNext]
  cases s.rest.next (t, a) with
  | none => exact .inr ⟨rfl, rfl⟩
  | some r => exact .inl ⟨_, _, rfl, rfl, ⟨nodes, hRep⟩, rfl⟩

/-- The step over rings and the step over lists: both are taken, or neither can be. -/
theorem Reps.next (h : Reps heads s b) (a : Act M) (hFree : s.heap.links addr = none) :
    (∃ r b', s.next heads (t, a, addr) = some r ∧ b.next (t, a) = some b' ∧ Reps heads r b') ∨
      s.next heads (t, a, addr) = none ∧ b.next (t, a) = none := by
  have hCalls : b.calls t = s.calls t := by rw [h.2]; rfl
  have hRest : (a = .step → (s.calls t).takesMutex = false) → b.next (t, a) =
      (s.rest.next (t, a)).map fun r => { r with hash := b.hash } := by
    intro hStep
    rw [h.2]
    exact rest_next a hStep
  cases a with
  | «open» | close | provide => exact h.of_rest (hRest fun hEq => by cases hEq) rfl
  | step =>
    have hStep : b.next (t, .step) = b.step t (s.calls t) := by rw [State.next.eq_def, ← hCalls]
    cases hCall : s.calls t with
    | get fd ino =>
      obtain ⟨r, hOk, hReps⟩ := h.getMmioHash t fd ino
      exact .inl ⟨r, _, by rw [RingState.next, hCall]; exact hOk, by rw [hStep, hCall]; rfl, hReps⟩
    | put fd ino m =>
      obtain ⟨r, hOk, hReps⟩ := h.putMmioHash t fd ino m hFree
      exact .inl ⟨r, _, by rw [RingState.next, hCall]; exact hOk, by rw [hStep, hCall]; rfl, hReps⟩
    | delete fd file =>
      obtain ⟨r, hOk, hReps⟩ := h.deleteMmioHash t fd file
      exact .inl ⟨r, _, by rw [RingState.next, hCall]; exact hOk, by rw [hStep, hCall]; rfl, hReps⟩
    | idle | new | file | clear =>
      exact h.of_rest (hRest fun _ => by rw [hCall]; rfl) (by rw [RingState.next, hCall])

end Steps

section Runs

variable {heads : Bucket → A} {s : RingState T M A} {b b' : State T M}

/-- A run over rings is a run over lists, with the lists in the rings; and where the calls can go on
over lists they can over rings, so that no load or store has gone to memory that is not allocated. -/
structure OnRings (heads : Bucket → A) (acts : List (T × Act M × A)) (s : RingState T M A) : Prop where
  run : ∃ b, Run State.Step FileHash.init (acts.map fun a => (a.1, a.2.1)) b ∧ Reps heads s b ∧
    ∀ t a addr, s.heap.links addr = none → ∀ b', State.Step b (t, a) b' →
      ∃ s', Step heads s (t, a, addr) s' ∧ Reps heads s' b'

theorem Reps.advance (h : Reps heads s b) {t : T} {a : Act M} {addr : A} (hFree : s.heap.links addr = none)
    (hStep : State.Step b (t, a) b') : ∃ s', Step heads s (t, a, addr) s' ∧ Reps heads s' b' := by
  rcases h.next a hFree with ⟨r, c, hNext, hSame, hReps⟩ | ⟨_, hNone⟩
  · rw [State.Step, hSame] at hStep
    cases hStep
    exact ⟨r, hNext, hReps⟩
  · rw [State.Step, hNone] at hStep
    cases hStep

theorem init_links (ptr : A → M) (a : A) : (init heads ptr : RingState T M A).heap.links a =
    if a ∈ (List.finRange fileHashSize).map heads then some ⟨a, a⟩ else none := by
  rw [init, ofRest]
  dsimp only
  rw [foldl_initListHead]

theorem mem_heads {a : A} : a ∈ (List.finRange fileHashSize).map heads ↔ ∃ i, heads i = a := by
  rw [List.mem_map]
  constructor
  · rintro ⟨i, _, hHead⟩
    exact ⟨i, hHead⟩
  · rintro ⟨i, hHead⟩
    exact ⟨i, List.mem_finRange i, hHead⟩

theorem reps_init (hHeads : Function.Injective heads) (ptr : A → M) :
    Reps heads (init heads ptr : RingState T M A) FileHash.init := by
  refine ⟨⟨fun _ => [], fun i => ?_, fun _ => rfl, fun i j x hi hj => ?_, fun x => ?_⟩, rfl⟩
  · have hLink : (init heads ptr : RingState T M A).heap.links (heads i) = some ⟨heads i, heads i⟩ := by
      rw [init_links, if_pos (mem_heads.mpr ⟨i, rfl⟩)]
    refine ⟨⟨?_, ?_⟩, List.nodup_singleton _⟩
    · rw [nextOf, hLink]
      rfl
    · rw [prevOf, hLink]
      rfl
  · exact hHeads ((List.mem_singleton.mp hi).symm.trans (List.mem_singleton.mp hj))
  · rw [init_links]
    constructor
    · intro hSome
      split at hSome
      · rename_i hIn
        obtain ⟨i, hi⟩ := mem_heads.mp hIn
        exact ⟨i, List.mem_singleton.mpr hi.symm⟩
      · cases hSome
    · rintro ⟨i, hIn⟩
      rw [if_pos (mem_heads.mpr ⟨i, (List.mem_singleton.mp hIn).symm⟩)]
      rfl

theorem Reps.run (h : Reps heads s b) {acts : List (T × Act M × A)} {s' : RingState T M A}
    (hRun : Run (Guarded Fresh (Step heads)) s acts s') :
    ∃ b', Run State.Step b (acts.map fun a => (a.1, a.2.1)) b' ∧ Reps heads s' b' := by
  induction hRun generalizing b with
  | nil s => exact ⟨b, .nil b, h⟩
  | @cons s s₁ r a as hHead _ ih =>
    obtain ⟨t, a, addr⟩ := a
    rcases h.next a hHead.1 with ⟨c, b₁, hNext, hSame, hReps⟩ | ⟨hNone, _⟩
    · have hHere : s₁ = c := Option.some.inj (hHead.2.symm.trans hNext)
      rw [← hHere] at hReps
      obtain ⟨b', hRest, hEnd⟩ := ih hReps
      exact ⟨b', .cons hSame hRest, hEnd⟩
    · have hStep := hHead.2
      rw [Step, hNone] at hStep
      cases hStep

theorem onRings_of_run (hHeads : Function.Injective heads) {ptr : A → M} {acts : List (T × Act M × A)}
    (hRun : Run (Guarded Fresh (Step heads)) (init heads ptr) acts s) : OnRings heads acts s := by
  obtain ⟨b, hList, hReps⟩ := (reps_init hHeads ptr).run hRun
  exact ⟨b, hList, hReps, fun t a addr hFree b' hStep => hReps.advance hFree hStep⟩

end Runs

section Insertion

/-- As long as the buckets are empty, the heads are all that is allocated. -/
theorem Reps.free {heads : Bucket → A} {s : RingState T M A} {b : State T M} (h : Reps heads s b)
    (hEmpty : ∀ i, b.hash i = []) {addr : A} (hHeads : ∀ i, heads i ≠ addr) : s.heap.links addr = none := by
  obtain ⟨⟨nodes, hRep⟩, _⟩ := h
  rw [← Option.not_isSome_iff_eq_none, hRep.allocated]
  rintro ⟨i, hIn⟩
  have hNodes : nodes i = [] := List.map_eq_nil_iff.mp ((hRep.content i).trans (hEmpty i))
  rw [hNodes] at hIn
  exact hHeads i (List.mem_singleton.mp hIn).symm

def firstInsertion : List (Unit × Act Unit × Fin (fileHashSize + 1)) :=
  [((), .open 3 5, Fin.last _), ((), .step, Fin.last _), ((), .provide (), Fin.last _), ((), .step, Fin.last _)]

theorem onRings_firstInsertion :
    ∃ s : RingState Unit Unit (Fin (fileHashSize + 1)), OnRings Fin.castSucc firstInsertion s := by
  have hHeads : ∀ i : Bucket, i.castSucc ≠ Fin.last fileHashSize := fun i => Fin.ne_of_lt (Fin.castSucc_lt_last i)
  have hStart := reps_init (T := Unit) (Fin.castSucc_injective fileHashSize) fun _ => ()
  have hFree₀ := hStart.free (fun _ => rfl) hHeads
  obtain ⟨s₁, hStep₁, hReps₁⟩ := hStart.advance (t := ()) (a := .open 3 5) hFree₀ rfl
  have hFree₁ := hReps₁.free (fun _ => rfl) hHeads
  obtain ⟨s₂, hStep₂, hReps₂⟩ := hReps₁.advance (t := ()) (a := .step) hFree₁ rfl
  have hFree₂ := hReps₂.free (fun _ => rfl) hHeads
  obtain ⟨s₃, hStep₃, hReps₃⟩ := hReps₂.advance (t := ()) (a := .provide ()) hFree₂ rfl
  have hFree₃ := hReps₃.free (fun _ => rfl) hHeads
  obtain ⟨s₄, hStep₄, _⟩ := hReps₃.advance (t := ()) (a := .step) hFree₃ rfl
  exact ⟨s₄, onRings_of_run (Fin.castSucc_injective fileHashSize) (.cons ⟨hFree₀, hStep₁⟩
    (.cons ⟨hFree₁, hStep₂⟩ (.cons ⟨hFree₂, hStep₃⟩ (.cons ⟨hFree₃, hStep₄⟩ (.nil s₄)))))⟩

end Insertion

end RingState

end Libnvmmio.FileHash

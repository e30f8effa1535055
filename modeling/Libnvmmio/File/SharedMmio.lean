import Libnvmmio.File.FileHash

/-! # The references of a shared mmio

While no inode is put into the hash that is there already, an mmio is counted in
each descriptor that has been given to it, from the lookup or the insertion of
its open to the deletion of its close.
-/

namespace Libnvmmio.FileHash

open GuardedRun

set_option autoImplicit false

variable {T M : Type} [DecidableEq M]

/-! ## The hash -/

/-- The hash against the references that are counted. -/
structure Stored (hash : Bucket → List M) (o : Objects M) (counted : Fd → Option M) : Prop where
  bucket : ∀ i, ∀ m ∈ hash i, i = hashIndex (o.ino m)
  nodup : ∀ i, (hash i).Nodup
  unique : ∀ i, ∀ m ∈ hash i, ∀ m' ∈ hash i, o.ino m = o.ino m' → m = m'
  taken : ∀ i, ∀ m ∈ hash i, o.pooled m = false
  refs : ∀ m, o.ref m = (holders counted m).card
  referenced : ∀ i, ∀ m ∈ hash i, ∃ fd, counted fd = some m
  hashed : ∀ fd m, counted fd = some m → ∃ i, m ∈ hash i

section Hash

variable {hash : Bucket → List M} {o : Objects M} {counted : Fd → Option M} {fd : Fd} {m : M} {ino : Nat}

theorem Stored.count (h : Stored hash o counted) (hFree : counted fd = none) (hMem : ∃ i, m ∈ hash i) :
    Stored hash (o.setRef m (o.ref m + 1)) (Function.update counted fd (some m)) where
  bucket := h.bucket
  nodup := h.nodup
  unique := h.unique
  taken := h.taken
  refs m' := by
    dsimp only [Objects.setRef]
    rw [card_holders_take hFree]
    by_cases hm : m' = m
    · rw [hm, Function.update_self, if_pos rfl, h.refs]
      rfl
    · rw [Function.update_of_ne hm, if_neg hm, Nat.add_zero, h.refs]
  referenced i m' hMem' := by
    obtain ⟨x, hx⟩ := h.referenced i m' hMem'
    have hne : x ≠ fd := by
      rintro rfl
      rw [hFree] at hx
      cases hx
    exact ⟨x, by rw [Function.update_of_ne hne, hx]⟩
  hashed x m' hx := by
    by_cases hEq : x = fd
    · rw [hEq, Function.update_self] at hx
      cases hx
      exact hMem
    · rw [Function.update_of_ne hEq] at hx
      exact h.hashed x m' hx

theorem Stored.add (h : Stored hash o counted) (hFree : counted fd = none) (hTaken : o.pooled m = false)
    (hNew : ∀ i, m ∉ hash i) (hNone : ∀ m' ∈ hash (hashIndex (o.ino m)), o.ino m' ≠ o.ino m) :
    Stored (Function.update hash (hashIndex (o.ino m)) (m :: hash (hashIndex (o.ino m))))
      (o.setRef m (o.ref m + 1)) (Function.update counted fd (some m)) := by
  have hNodes : ∀ i m', m' ∈ Function.update hash (hashIndex (o.ino m)) (m :: hash (hashIndex (o.ino m))) i ↔
      m' ∈ hash i ∨ i = hashIndex (o.ino m) ∧ m' = m := by
    intro i m'
    by_cases hi : i = hashIndex (o.ino m)
    · rw [hi, Function.update_self, List.mem_cons, or_comm, eq_self, true_and]
    · rw [Function.update_of_ne hi, eq_false hi, false_and, or_false]
  refine ⟨fun i m' hMem => ?_, fun i => ?_, fun i m' hMem m'' hMem' hIno => ?_, fun i m' hMem => ?_, fun m' => ?_,
    fun i m' hMem => ?_, fun x m' hx => ?_⟩
  · rcases (hNodes i m').mp hMem with hOld | ⟨hi, rfl⟩
    · exact h.bucket i m' hOld
    · exact hi
  · by_cases hi : i = hashIndex (o.ino m)
    · rw [hi, Function.update_self]
      exact List.nodup_cons.mpr ⟨hNew _, h.nodup _⟩
    · rw [Function.update_of_ne hi]
      exact h.nodup i
  · change o.ino m' = o.ino m'' at hIno
    rcases (hNodes i m').mp hMem with hOld | ⟨hi, rfl⟩
    · rcases (hNodes i m'').mp hMem' with hOld' | ⟨hi, rfl⟩
      · exact h.unique i m' hOld m'' hOld' hIno
      · exact absurd hIno (hNone m' (hi ▸ hOld))
    · rcases (hNodes i m'').mp hMem' with hOld' | ⟨_, rfl⟩
      · exact absurd hIno.symm (hNone m'' (hi ▸ hOld'))
      · rfl
  · rcases (hNodes i m').mp hMem with hOld | ⟨_, rfl⟩
    · exact h.taken i m' hOld
    · exact hTaken
  · dsimp only [Objects.setRef]
    rw [card_holders_take hFree]
    by_cases hm : m' = m
    · rw [hm, Function.update_self, if_pos rfl, h.refs]
      rfl
    · rw [Function.update_of_ne hm, if_neg hm, Nat.add_zero, h.refs]
  · rcases (hNodes i m').mp hMem with hOld | ⟨_, rfl⟩
    · obtain ⟨x, hx⟩ := h.referenced i m' hOld
      have hne : x ≠ fd := by
        rintro rfl
        rw [hFree] at hx
        cases hx
      exact ⟨x, by rw [Function.update_of_ne hne, hx]⟩
    · exact ⟨fd, Function.update_self ..⟩
  · by_cases hEq : x = fd
    · rw [hEq, Function.update_self] at hx
      cases hx
      exact ⟨_, (hNodes _ _).mpr (.inr ⟨rfl, rfl⟩)⟩
    · rw [Function.update_of_ne hEq] at hx
      obtain ⟨i, hMem⟩ := h.hashed x m' hx
      exact ⟨i, (hNodes i m').mpr (.inl hMem)⟩

theorem Stored.take (h : Stored hash o counted) (hPooled : o.pooled m = true) (ino : Nat) :
    Stored hash (o.take m ino) counted := by
  have hne : ∀ i, ∀ m' ∈ hash i, m' ≠ m := by
    rintro i m' hMem rfl
    rw [h.taken i m' hMem] at hPooled
    cases hPooled
  have hIno : ∀ i, ∀ m' ∈ hash i, (o.take m ino).ino m' = o.ino m' :=
    fun i m' hMem => Function.update_of_ne (hne i m' hMem) ..
  refine ⟨fun i m' hMem => ?_, h.nodup, fun i m' hMem m'' hMem' hEq => ?_, fun i m' hMem => ?_, h.refs, h.referenced,
    h.hashed⟩
  · rw [hIno i m' hMem]
    exact h.bucket i m' hMem
  · rw [hIno i m' hMem, hIno i m'' hMem'] at hEq
    exact h.unique i m' hMem m'' hMem' hEq
  · exact (Function.update_of_ne (hne i m' hMem) ..).trans (h.taken i m' hMem)

/-! ## The deletion -/

theorem deleteNodes_of_none {ms : List M} (h : ∀ m ∈ ms, ino ≠ o.ino m) : deleteNodes ino ms o = (ms, o) := by
  induction ms with
  | nil => rfl
  | cons x xs ih =>
    rw [deleteNodes, if_neg (h x List.mem_cons_self), ih fun m hm => h m (List.mem_cons_of_mem x hm)]

/-- Where the inode has one node, the mmio of the node loses a reference, and with the last
one it is released. -/
theorem deleteNodes_of_one {ms : List M} (hNodup : ms.Nodup) (hMem : m ∈ ms) (hIno : ino = o.ino m)
    (hOnly : ∀ x ∈ ms, ino = o.ino x → x = m) :
    deleteNodes ino ms o = if o.ref m - 1 ≤ 0 then (ms.erase m, (o.setRef m (o.ref m - 1)).release m)
      else (ms, o.setRef m (o.ref m - 1)) := by
  induction ms with
  | nil => cases hMem
  | cons x xs ih =>
    obtain ⟨hx, hNodup'⟩ := List.nodup_cons.mp hNodup
    by_cases hEq : x = m
    · subst hEq
      have hRest : ∀ y ∈ xs, y ≠ x ∧ ino ≠ o.ino y := by
        intro y hy
        have hne : y ≠ x := fun hEq => hx (hEq ▸ hy)
        exact ⟨hne, fun hSame => hne (hOnly y (List.mem_cons_of_mem x hy) hSame)⟩
      have hReleased : ∀ y ∈ xs, ino ≠ ((o.setRef x (o.ref x - 1)).release x).ino y := by
        intro y hy
        exact fun hSame => (hRest y hy).2 (hSame.trans (Function.update_of_ne (hRest y hy).1 ..))
      have hKept : ∀ y ∈ xs, ino ≠ (o.setRef x (o.ref x - 1)).ino y := fun y hy => (hRest y hy).2
      rw [deleteNodes, if_pos hIno, List.erase_cons_head]
      dsimp only
      rw [deleteNodes_of_none hReleased, deleteNodes_of_none hKept]
      have hRef : (o.setRef x (o.ref x - 1)).ref x = o.ref x - 1 := Function.update_self ..
      rw [hRef]
    · have hOther : ino ≠ o.ino x := fun hSame => hEq (hOnly x List.mem_cons_self hSame)
      have hMem' : m ∈ xs := (List.mem_cons.mp hMem).resolve_left (Ne.symm hEq)
      rw [deleteNodes, if_neg hOther,
        ih hNodup' hMem' fun y hy => hOnly y (List.mem_cons_of_mem x hy)]
      have hErase : (x :: xs).erase m = x :: xs.erase m := by
        rw [List.erase_cons_tail]
        exact fun hSame => hEq (eq_of_beq hSame)
      rw [hErase]
      by_cases hLast : o.ref m - 1 ≤ 0
      · rw [if_pos hLast, if_pos hLast]
      · rw [if_neg hLast, if_neg hLast]

structure Deleted (hash hash' : Bucket → List M) (o o' : Objects M) (counted : Fd → Option M) (fd : Fd) (m : M) :
    Prop where
  ino : ∀ x, x ≠ m → o'.ino x = o.ino x
  pooled : ∀ x, x ≠ m → o'.pooled x = o.pooled x
  sub : ∀ i x, x ∈ hash' i → x ∈ hash i
  kept : ∀ i x, x ≠ m → x ∈ hash i → x ∈ hash' i
  /-- another descriptor keeps the mmio -/
  still : ∀ x, x ≠ fd → counted x = some m → o'.ino m = o.ino m
  gone : o'.pooled m = false → ∃ i, m ∈ hash' i

theorem Stored.release (h : Stored hash o counted) (hCounted : counted fd = some m) (hLast : o.ref m - 1 ≤ 0) :
    Stored (Function.update hash (hashIndex (o.ino m)) ((hash (hashIndex (o.ino m))).erase m))
        ((o.setRef m (o.ref m - 1)).release m) (Function.update counted fd none) ∧
      Deleted hash (Function.update hash (hashIndex (o.ino m)) ((hash (hashIndex (o.ino m))).erase m)) o
        ((o.setRef m (o.ref m - 1)).release m) counted fd m := by
  have hPos : 0 < (holders counted m).card := card_holders_pos_iff.mpr ⟨fd, hCounted⟩
  have hOne : (holders counted m).card = 1 := by
    have hRef := h.refs m
    omega
  have hEmpty : ∀ x, x ≠ fd → counted x ≠ some m := by
    obtain ⟨y, hy⟩ := Finset.card_eq_one.mp hOne
    intro x hx hSome
    have hx' := mem_holders.mpr hSome
    have hfd := mem_holders.mpr hCounted
    rw [hy, Finset.mem_singleton] at hx' hfd
    exact hx (hx'.trans hfd.symm)
  have hNodes : ∀ i x, x ∈ Function.update hash (hashIndex (o.ino m)) ((hash (hashIndex (o.ino m))).erase m) i ↔
      x ≠ m ∧ x ∈ hash i := by
    intro i x
    by_cases hi : i = hashIndex (o.ino m)
    · rw [hi, Function.update_self]
      exact (h.nodup _).mem_erase_iff
    · rw [Function.update_of_ne hi]
      refine ⟨fun hx => ⟨?_, hx⟩, fun hx => hx.2⟩
      rintro rfl
      exact hi (h.bucket i x hx)
  have hIno : ∀ x, x ≠ m → ((o.setRef m (o.ref m - 1)).release m).ino x = o.ino x :=
    fun x hx => Function.update_of_ne hx ..
  have hPooled : ∀ x, x ≠ m → ((o.setRef m (o.ref m - 1)).release m).pooled x = o.pooled x :=
    fun x hx => Function.update_of_ne hx ..
  refine ⟨⟨fun i x hx => ?_, fun i => ?_, fun i x hx y hy hEq => ?_, fun i x hx => ?_, fun x => ?_,
    fun i x hx => ?_, fun y x hy => ?_⟩, hIno, hPooled, fun i x hx => ((hNodes i x).mp hx).2,
    fun i x hne hx => (hNodes i x).mpr ⟨hne, hx⟩, fun x hx hSome => absurd hSome (hEmpty x hx), fun hTaken => ?_⟩
  · obtain ⟨hne, hOld⟩ := (hNodes i x).mp hx
    rw [hIno x hne]
    exact h.bucket i x hOld
  · by_cases hi : i = hashIndex (o.ino m)
    · rw [hi, Function.update_self]
      exact (h.nodup _).erase m
    · rw [Function.update_of_ne hi]
      exact h.nodup i
  · obtain ⟨hne, hOld⟩ := (hNodes i x).mp hx
    obtain ⟨hne', hOld'⟩ := (hNodes i y).mp hy
    rw [hIno x hne, hIno y hne'] at hEq
    exact h.unique i x hOld y hOld' hEq
  · obtain ⟨hne, hOld⟩ := (hNodes i x).mp hx
    rw [hPooled x hne]
    exact h.taken i x hOld
  · dsimp only [Objects.release, Objects.setRef]
    rw [card_holders_drop hCounted]
    by_cases hx : x = m
    · rw [hx, Function.update_self, if_pos rfl, h.refs, hOne]
      rfl
    · rw [Function.update_of_ne hx, if_neg hx, Nat.sub_zero, h.refs]
  · obtain ⟨hne, hOld⟩ := (hNodes i x).mp hx
    obtain ⟨y, hy⟩ := h.referenced i x hOld
    have hne' : y ≠ fd := by
      rintro rfl
      exact hne (Option.some.inj (hy.symm.trans hCounted))
    exact ⟨y, by rw [Function.update_of_ne hne', hy]⟩
  · by_cases hEq : y = fd
    · rw [hEq, Function.update_self] at hy
      cases hy
    · rw [Function.update_of_ne hEq] at hy
      obtain ⟨i, hMem⟩ := h.hashed y x hy
      refine ⟨i, (hNodes i x).mpr ⟨?_, hMem⟩⟩
      rintro rfl
      exact hEmpty y hEq hy
  · have hBack : ((o.setRef m (o.ref m - 1)).release m).pooled m = true := Function.update_self ..
    rw [hBack] at hTaken
    cases hTaken

theorem Stored.drop (h : Stored hash o counted) (hCounted : counted fd = some m) (hMore : ¬ o.ref m - 1 ≤ 0) :
    Stored hash (o.setRef m (o.ref m - 1)) (Function.update counted fd none) ∧
      Deleted hash hash o (o.setRef m (o.ref m - 1)) counted fd m := by
  have hLeft : ∃ x, x ≠ fd ∧ counted x = some m := by
    have hRef := h.refs m
    have hCard := card_holders_drop hCounted m
    rw [if_pos rfl] at hCard
    obtain ⟨x, hx⟩ := card_holders_pos_iff.mp (show 0 < (holders (Function.update counted fd none) m).card by omega)
    have hne : x ≠ fd := by
      rintro rfl
      rw [Function.update_self] at hx
      cases hx
    rw [Function.update_of_ne hne] at hx
    exact ⟨x, hne, hx⟩
  refine ⟨⟨h.bucket, h.nodup, h.unique, h.taken, fun x => ?_, fun i x hx => ?_, fun y x hy => ?_⟩,
    fun _ _ => rfl, fun _ _ => rfl, fun _ _ hx => hx, fun _ _ _ hx => hx, fun _ _ _ => rfl,
    fun _ => h.hashed fd m hCounted⟩
  · dsimp only [Objects.setRef]
    rw [card_holders_drop hCounted]
    by_cases hx : x = m
    · rw [hx, Function.update_self, if_pos rfl]
      have hRef := h.refs m
      omega
    · rw [Function.update_of_ne hx, if_neg hx, Nat.sub_zero, h.refs]
  · obtain ⟨y, hy⟩ := h.referenced i x hx
    by_cases hEq : y = fd
    · subst hEq
      obtain rfl := Option.some.inj (hy.symm.trans hCounted)
      obtain ⟨z, hne, hz⟩ := hLeft
      exact ⟨z, by rw [Function.update_of_ne hne, hz]⟩
    · exact ⟨y, by rw [Function.update_of_ne hEq, hy]⟩
  · by_cases hEq : y = fd
    · rw [hEq, Function.update_self] at hy
      cases hy
    · rw [Function.update_of_ne hEq] at hy
      exact h.hashed y x hy

theorem Stored.delete (h : Stored hash o counted) (hCounted : counted fd = some m) {nodes : List M} {o' : Objects M}
    (hDelete : deleteNodes (o.ino m) (hash (hashIndex (o.ino m))) o = (nodes, o')) :
    Stored (Function.update hash (hashIndex (o.ino m)) nodes) o' (Function.update counted fd none) ∧
      Deleted hash (Function.update hash (hashIndex (o.ino m)) nodes) o o' counted fd m := by
  obtain ⟨i, hMem⟩ := h.hashed fd m hCounted
  obtain rfl := h.bucket i m hMem
  have hOnly : ∀ x ∈ hash (hashIndex (o.ino m)), o.ino m = o.ino x → x = m :=
    fun x hx hEq => h.unique _ x hx m hMem hEq.symm
  rw [deleteNodes_of_one (h.nodup _) hMem rfl hOnly] at hDelete
  split at hDelete
  · rename_i hLast
    cases hDelete
    exact h.release hCounted hLast
  · rename_i hMore
    cases hDelete
    rw [Function.update_eq_self]
    exact h.drop hCounted hMore

end Hash

/-! ## The calls -/

namespace Point

def fd? : Point M → Option Fd
  | .idle => none
  | .get fd _ | .new fd _ | .put fd _ _ | .file fd _ _ | .delete fd _ | .clear fd => some fd

def own? : Point M → Option M
  | .put _ _ m => some m
  | _ => none

end Point

namespace State

structure Reserved (s : State T M) (fd : Fd) : Prop where
  isOpen : s.isOpen fd = true
  table : s.fdTable fd = none
  counted : s.counted fd = none

structure Fresh (s : State T M) (m : M) (ino : Nat) : Prop where
  ino : s.objects.ino m = ino
  taken : s.objects.pooled m = false
  unhashed : ∀ i, m ∉ s.hash i

def Owns (s : State T M) : Point M → Prop
  | .idle => True
  | .get fd _ | .new fd _ => s.Reserved fd
  | .put fd ino m => s.Reserved fd ∧ s.Fresh m ino
  | .file fd ino m =>
    s.isOpen fd = true ∧ s.fdTable fd = none ∧ s.counted fd = some m ∧ s.objects.ino m = ino
  | .delete fd file => s.isOpen fd = true ∧ s.fdTable fd = some file ∧ s.counted fd = some file.mmio
  | .clear fd => s.isOpen fd = true ∧ s.counted fd = none

structure Inv (s : State T M) : Prop where
  stored : Stored s.hash s.objects s.counted
  owns : ∀ t, s.Owns (s.calls t)
  distinct : ∀ t u fd, (s.calls t).fd? = some fd → (s.calls u).fd? = some fd → t = u
  apart : ∀ t u m, (s.calls t).own? = some m → (s.calls u).own? = some m → t = u
  /-- a descriptor that no call is about -/
  rest : ∀ fd, (∀ t, (s.calls t).fd? ≠ some fd) →
    s.counted fd = (s.fdTable fd).map FileT.mmio ∧ (s.fdTable fd ≠ none → s.isOpen fd = true)
  files : ∀ fd file, s.fdTable fd = some file → s.counted fd = some file.mmio → s.objects.ino file.mmio = file.ino
  taken : ∀ m, s.objects.pooled m = false → (∃ i, m ∈ s.hash i) ∨ ∃ t, (s.calls t).own? = some m

section Frame

variable {s s' : State T M} {t u : T} {fd : Fd} {p : Point M}

/-- What a step leaves to a call on another descriptor. -/
structure Apartness (s s' : State T M) (fd : Fd) : Prop where
  isOpen : ∀ x, x ≠ fd → s'.isOpen x = s.isOpen x
  table : ∀ x, x ≠ fd → s'.fdTable x = s.fdTable x
  counted : ∀ x, x ≠ fd → s'.counted x = s.counted x
  ino : ∀ x m, x ≠ fd → s.counted x = some m → s'.objects.ino m = s.objects.ino m

omit [DecidableEq M] in
theorem Reserved.table_ne_some (h : s.Reserved fd) (file : FileT M) : s.fdTable fd ≠ some file := by
  rw [h.table]
  rintro ⟨⟩

omit [DecidableEq M] in
theorem Reserved.other {x : Fd} (h : s.Reserved x) (hSame : Apartness s s' fd) (hne : x ≠ fd) : s'.Reserved x where
  isOpen := (hSame.isOpen _ hne).trans h.isOpen
  table := (hSame.table _ hne).trans h.table
  counted := (hSame.counted _ hne).trans h.counted

omit [DecidableEq M] in
theorem Owns.other (h : s.Owns p) (hSame : Apartness s s' fd) (hFd : p.fd? ≠ some fd)
    (hFresh : ∀ m ino, p.own? = some m → s.Fresh m ino → s'.Fresh m ino) : s'.Owns p := by
  have hne : ∀ x, p.fd? = some x → x ≠ fd := fun x hx hEq => hFd (hEq ▸ hx)
  cases p with
  | idle => trivial
  | get x ino => exact Reserved.other h hSame (hne x rfl)
  | new x ino => exact Reserved.other h hSame (hne x rfl)
  | put x ino m => exact ⟨h.1.other hSame (hne x rfl), hFresh m ino rfl h.2⟩
  | file x ino m =>
    obtain ⟨hOpen, hTable, hCounted, hIno⟩ := h
    have hx := hne x rfl
    exact ⟨(hSame.isOpen x hx).trans hOpen, (hSame.table x hx).trans hTable, (hSame.counted x hx).trans hCounted,
      (hSame.ino x m hx hCounted).trans hIno⟩
  | delete x file =>
    obtain ⟨hOpen, hTable, hCounted⟩ := h
    have hx := hne x rfl
    exact ⟨(hSame.isOpen x hx).trans hOpen, (hSame.table x hx).trans hTable, (hSame.counted x hx).trans hCounted⟩
  | clear x =>
    obtain ⟨hOpen, hCounted⟩ := h
    have hx := hne x rfl
    exact ⟨(hSame.isOpen x hx).trans hOpen, (hSame.counted x hx).trans hCounted⟩

variable [DecidableEq T]

/-- A step of call `t`, which is about descriptor `fd` before it or after it, or both. -/
structure StepOn (s s' : State T M) (t : T) (fd : Fd) (p : Point M) : Prop where
  calls : s'.calls = Function.update s.calls t p
  before : ∀ x, (s.calls t).fd? = some x → x = fd
  after : ∀ x, p.fd? = some x → x = fd
  free : ∀ u, u ≠ t → (s.calls u).fd? ≠ some fd
  same : Apartness s s' fd
  fresh : ∀ u m ino, u ≠ t → (s.calls u).own? = some m → s.Fresh m ino → s'.Fresh m ino

/-- The invariant after such a step, from what holds of the call and its descriptor. -/
theorem Inv.stepOn (h : s.Inv) (hStep : StepOn s s' t fd p) (hStored : Stored s'.hash s'.objects s'.counted)
    (hOwns : s'.Owns p) (hOwn : ∀ u m, u ≠ t → p.own? = some m → (s.calls u).own? ≠ some m)
    (hRest : p.fd? = none → s'.counted fd = (s'.fdTable fd).map FileT.mmio ∧
      (s'.fdTable fd ≠ none → s'.isOpen fd = true))
    (hFiles : ∀ file, s'.fdTable fd = some file → s'.counted fd = some file.mmio →
      s'.objects.ino file.mmio = file.ino)
    (hTaken : ∀ m, s'.objects.pooled m = false → (∃ i, m ∈ s'.hash i) ∨ p.own? = some m ∨
      ∃ u, u ≠ t ∧ (s.calls u).own? = some m) : s'.Inv := by
  have hSelf : s'.calls t = p := by rw [hStep.calls, Function.update_self]
  have hOther : ∀ u, u ≠ t → s'.calls u = s.calls u := fun u hu => by rw [hStep.calls, Function.update_of_ne hu]
  refine ⟨hStored, fun u => ?_, fun u v x hu hv => ?_, fun u v m hu hv => ?_, fun x hx => ?_, fun x file hFile hCount => ?_,
    fun m hm => ?_⟩
  · by_cases hu : u = t
    · rw [hu, hSelf]
      exact hOwns
    · rw [hOther u hu]
      exact (h.owns u).other hStep.same (hStep.free u hu) fun m ino hMine => hStep.fresh u m ino hu hMine
  · by_cases hut : u = t
    · by_cases hvt : v = t
      · exact hut.trans hvt.symm
      · rw [hut, hSelf] at hu
        rw [hOther v hvt, hStep.after x hu] at hv
        exact absurd hv (hStep.free v hvt)
    · by_cases hvt : v = t
      · rw [hvt, hSelf] at hv
        rw [hOther u hut, hStep.after x hv] at hu
        exact absurd hu (hStep.free u hut)
      · rw [hOther u hut] at hu
        rw [hOther v hvt] at hv
        exact h.distinct u v x hu hv
  · by_cases hut : u = t
    · by_cases hvt : v = t
      · exact hut.trans hvt.symm
      · rw [hut, hSelf] at hu
        rw [hOther v hvt] at hv
        exact absurd hv (hOwn v m hvt hu)
    · by_cases hvt : v = t
      · rw [hvt, hSelf] at hv
        rw [hOther u hut] at hu
        exact absurd hu (hOwn u m hut hv)
      · rw [hOther u hut] at hu
        rw [hOther v hvt] at hv
        exact h.apart u v m hu hv
  · by_cases hEq : x = fd
    · subst hEq
      refine hRest ?_
      have hNone := hx t
      rw [hSelf] at hNone
      cases hPoint : p.fd? with
      | none => rfl
      | some y => exact absurd (hPoint.trans (congrArg some (hStep.after y hPoint))) hNone
    · have hIdle : ∀ u, (s.calls u).fd? ≠ some x := by
        intro u hu
        by_cases hut : u = t
        · rw [hut] at hu
          exact hEq (hStep.before x hu)
        · have hNone := hx u
          rw [hOther u hut] at hNone
          exact hNone hu
      rw [hStep.same.counted x hEq, hStep.same.table x hEq, hStep.same.isOpen x hEq]
      exact h.rest x hIdle
  · by_cases hEq : x = fd
    · subst hEq
      exact hFiles file hFile hCount
    · rw [hStep.same.table x hEq] at hFile
      rw [hStep.same.counted x hEq] at hCount
      rw [hStep.same.ino x file.mmio hEq hCount]
      exact h.files x file hFile hCount
  · rcases hTaken m hm with hHash | hMine | ⟨u, hu, hTheirs⟩
    · exact .inl hHash
    · exact .inr ⟨t, by rw [hSelf]; exact hMine⟩
    · exact .inr ⟨u, by rw [hOther u hu]; exact hTheirs⟩

end Frame

end State

end Libnvmmio.FileHash

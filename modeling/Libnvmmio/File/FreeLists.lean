import Libnvmmio.File.LastLength
import Libnvmmio.Radixlog.Lookups
import Mathlib.Data.Finset.Prod

/-! # What the free lists get back

The calls of a process on its files, with the number of objects in the free
lists of the allocator. `get_new_mmio` takes an object and the tables of
`init_radixlog`, a lookup takes tables, and `get_log_entry` takes an entry with
a log buffer. `checkpoint_mmio` gives entries and buffers back, `release_mmio`
gives the object back, and its `init_mmio` forgets the tables.
-/

namespace Libnvmmio

open Mmio RadixLog Outcome GuardedRun

set_option autoImplicit false

def Backing.isHashed : Backing → Bool
  | .released _ => false
  | .hashed _ _ => true

@[ext] structure FreeLists where
  mmio : Nat
  table : Nat
  idx : Nat
  log : LogSize → Nat

def RadixLog.slots (r : RadixLog) : Finset (Nat × Nat) :=
  (Finset.range r.nextTable ×ˢ Finset.range ptrsPerTable).filter fun x => (r.entryAt ⟨x.1, x.2⟩).isSome

def RadixLog.ofSize (r : RadixLog) (s : LogSize) (slots : Finset (Nat × Nat)) : Finset (Nat × Nat) :=
  slots.filter fun x => (r.tables x.1).logSize = some s

namespace FreeLists

/-- `get_new_mmio` on an object with these tables. `POP_PROVIDER` exits when it
finds no object to hand out. -/
def takeMmio (free : FreeLists) (r : RadixLog) : Except Failure FreeLists :=
  if 0 < free.mmio ∧ r.nextTable ≤ free.table then
    .ok { free with mmio := free.mmio - 1, table := free.table - r.nextTable }
  else .error .exit

/-- A call that turns the tables `r` into `r'`: `alloc_log_table` pops the tables
that are new, `alloc_idx_entry` pops an entry and a buffer for each slot that the
call fills, `free_idx_entry` pushes them for each slot that it clears. -/
def exchange (free : FreeLists) (r r' : RadixLog) : Except Failure FreeLists :=
  let filled := r'.slots \ r.slots
  let cleared := r.slots \ r'.slots
  let log (s : LogSize) := free.log s + (r.ofSize s cleared).card
  if r'.nextTable - r.nextTable ≤ free.table ∧ filled.card ≤ free.idx + cleared.card ∧
      ∀ s, (r'.ofSize s filled).card ≤ log s then
    .ok { free with
      table := free.table - (r'.nextTable - r.nextTable)
      idx := free.idx + cleared.card - filled.card
      log := fun s => log s - (r'.ofSize s filled).card }
  else .error .exit

def settle (free : FreeLists) : Backing → Backing → Except Failure FreeLists
  | .released _, .released _ => .ok free
  | .released _, .hashed m _ => free.takeMmio m.radixlog
  | .hashed m _, .hashed m' _ => free.exchange m.radixlog m'.radixlog
  | .hashed m _, .released _ => do
    -- what the checkpoint of `delete_mmio_hash` leaves installed is not freed
    let m' ← m.checkpointMmio
    let free ← free.exchange m.radixlog m'.radixlog
    .ok { free with mmio := free.mmio + 1 }

theorem takeMmio_eq_ok {free free' : FreeLists} {r : RadixLog} (h : free.takeMmio r = .ok free') :
    0 < free.mmio ∧ r.nextTable ≤ free.table ∧
      free' = { free with mmio := free.mmio - 1, table := free.table - r.nextTable } := by
  unfold takeMmio at h
  split at h
  · rename_i hEnough
    exact ⟨hEnough.1, hEnough.2, (Except.ok.inj h).symm⟩
  · cases h

/-- A call gives no table back, and leaves the objects alone. -/
theorem exchange_keeps {free free' : FreeLists} {r r' : RadixLog} (h : free.exchange r r' = .ok free') :
    free'.mmio = free.mmio ∧ free'.table ≤ free.table := by
  unfold exchange at h
  dsimp only at h
  split at h
  · cases h
    exact ⟨rfl, Nat.sub_le _ _⟩
  · cases h

theorem mem_slots {r : RadixLog} {x : Nat × Nat} : x ∈ r.slots ↔
    (x.1 < r.nextTable ∧ x.2 < ptrsPerTable) ∧ (r.entryAt ⟨x.1, x.2⟩).isSome := by
  rw [slots, Finset.mem_filter, Finset.mem_product, Finset.mem_range, Finset.mem_range]

theorem ofSize_empty (r : RadixLog) (s : LogSize) : r.ofSize s ∅ = ∅ := Finset.filter_empty _

/-- Only new tables, and slots that are filled or cleared, are paid for. -/
theorem exchange_of_slots_eq {free : FreeLists} {r r' : RadixLog} (hSlots : r'.slots = r.slots)
    (hTables : r'.nextTable = r.nextTable) : free.exchange r r' = .ok free := by
  have hNone : r.slots \ r.slots = ∅ := Finset.sdiff_self _
  unfold exchange
  simp only [hSlots, hNone, hTables, Nat.sub_self, Finset.card_empty, Nat.zero_le, ofSize_empty,
    implies_true, and_self, if_true, Nat.add_zero, Nat.sub_zero]

end FreeLists

inductive FileEvent where
  | call (c : Call)
  | checkpoint

structure Process where
  inodes : Nat → Inode
  free : FreeLists

namespace Process

def set (p : Process) (ino : Nat) (n : Inode) (free : FreeLists) : Process :=
  ⟨Function.update p.inodes ino n, free⟩

def next (policy : Policy) (p : Process) (e : Nat × FileEvent) : Except Failure (Process × Result) :=
  let n := p.inodes e.1
  match e.2 with
  | .call c => do
    let (n', result) ← n.call policy c
    let free ← p.free.settle n.backing n'.backing
    .ok (p.set e.1 n' free, result)
  | .checkpoint =>
    match n.backing with
    | .hashed m ref => do
      let m' ← m.checkpointMmio
      let free ← p.free.exchange m.radixlog m'.radixlog
      .ok (p.set e.1 ⟨n.files, .hashed m' ref⟩ free, .success)
    | .released _ => .ok (p, .success)

def FreshFd (p : Process) (e : Nat × FileEvent) : Prop :=
  match e.2 with
  | .call c => ∀ ino, (p.inodes ino).FreshFd c
  | .checkpoint => True

abbrev Runs (policy : Policy) : Process → List (Nat × FileEvent) → Process → Prop :=
  Run (Guarded FreshFd (Steps (next policy)))

def Closed (p : Process) : Prop := ∀ ino, (p.inodes ino).files = []

def Hashed (p : Process) (ino : Nat) : Prop := (p.inodes ino).backing.isHashed = true

section Step

variable {policy : Policy} {p p' : Process} {ino : Nat} {event : FileEvent}

theorem step_settle (hCounted : (p.inodes ino).Counted)
    (hStep : Guarded FreshFd (Steps (next policy)) p (ino, event) p') :
    ∃ n' free', p' = p.set ino n' free' ∧ n'.Counted ∧
      p.free.settle (p.inodes ino).backing n'.backing = .ok free' := by
  obtain ⟨hFresh, result, hOk⟩ := hStep
  cases event with
  | call c =>
    obtain ⟨⟨n', _⟩, hCall, hRest⟩ := bind_eq_ok hOk
    obtain ⟨free', hSettle, hDone⟩ := bind_eq_ok hRest
    cases hDone
    exact ⟨n', free', rfl, hCounted.step ⟨hFresh ino, _, hCall⟩, hSettle⟩
  | checkpoint =>
    unfold next at hOk
    dsimp only at hOk
    split at hOk
    · rename_i m ref hBacking
      obtain ⟨m', hCheckpoint, hRest⟩ := bind_eq_ok hOk
      obtain ⟨free', hExchange, hDone⟩ := bind_eq_ok hRest
      cases hDone
      obtain ⟨hRef, hOpen, hBacked⟩ := hCounted.hashed m ref hBacking
      have hPass : Steps perform m .checkpoint m' := ⟨.done, by rw [perform, hCheckpoint, ok_bind]⟩
      refine ⟨_, free', rfl, ⟨hCounted.nodup, ?_, ?_⟩, ?_⟩
      · rintro _ _ ⟨⟩
        exact ⟨hRef, hOpen, hBacked.step hPass⟩
      · rintro _ ⟨⟩
      · rw [hBacking]
        exact hExchange
    · rename_i disk hBacking
      cases hOk
      refine ⟨p.inodes ino, p.free, ?_, hCounted, ?_⟩
      · rw [set, Function.update_eq_self]
      · rw [hBacking]
        rfl

end Step

structure Accounted (mmios : Nat) (p : Process) : Prop where
  counted : ∀ ino, (p.inodes ino).Counted
  objects : ∃ hashed : Finset Nat, (∀ ino, ino ∈ hashed ↔ p.Hashed ino) ∧ p.free.mmio + hashed.card = mmios

section Accounted

variable {policy : Policy} {p p' : Process} {mmios : Nat} {e : Nat × FileEvent}

theorem inodes_set {ino : Nat} {n : Inode} {free : FreeLists} (P : Inode → Prop) (i : Nat) :
    P ((p.set ino n free).inodes i) ↔ if i = ino then P n else P (p.inodes i) := by
  change P (Function.update p.inodes ino n i) ↔ _
  by_cases hi : i = ino
  · rw [hi, Function.update_self, if_pos rfl]
  · rw [Function.update_of_ne hi, if_neg hi]

theorem mem_hashed_set {ino : Nat} {n : Inode} {free : FreeLists} {hashed : Finset Nat}
    (hMem : ∀ i, i ∈ hashed ↔ p.Hashed i) (i : Nat) :
    (i ∈ if n.backing.isHashed then insert ino hashed else hashed.erase ino) ↔
      (p.set ino n free).Hashed i := by
  unfold Hashed at hMem ⊢
  rw [inodes_set (fun n => n.backing.isHashed = true)]
  by_cases hi : i = ino
  · rw [if_pos hi]
    split
    · rename_i hNew
      exact ⟨fun _ => hNew, fun _ => Finset.mem_insert.mpr (.inl hi)⟩
    · rename_i hNew
      exact ⟨fun hErased => absurd hi (Finset.mem_erase.mp hErased).1, fun h => absurd h hNew⟩
  · rw [if_neg hi, ← hMem]
    split
    · rw [Finset.mem_insert, or_iff_right hi]
    · rw [Finset.mem_erase, and_iff_right hi]

theorem Accounted.step (h : p.Accounted mmios) (hStep : Guarded FreshFd (Steps (next policy)) p e p') :
    p'.Accounted mmios := by
  obtain ⟨ino, event⟩ := e
  obtain ⟨n', free', rfl, hCounted, hSettle⟩ := step_settle (h.counted ino) hStep
  obtain ⟨hashed, hMem, hCard⟩ := h.objects
  have hOld := hMem ino
  unfold Hashed at hOld
  refine ⟨fun i => ?_, _, mem_hashed_set hMem, ?_⟩
  · rw [inodes_set Inode.Counted]
    split
    · exact hCounted
    · exact h.counted i
  · change free'.mmio + _ = _
    cases hBefore : (p.inodes ino).backing with
    | released disk =>
      have hOut : ino ∉ hashed := by
        rw [hOld, hBefore]
        nofun
      cases hAfter : n'.backing with
      | released disk' =>
        rw [hBefore, hAfter] at hSettle
        cases hSettle
        rw [Backing.isHashed, if_neg nofun, Finset.erase_eq_of_notMem hOut]
        exact hCard
      | hashed m ref =>
        rw [hBefore, hAfter] at hSettle
        obtain ⟨hSome, _, rfl⟩ := FreeLists.takeMmio_eq_ok hSettle
        rw [Backing.isHashed, if_pos rfl, Finset.card_insert_of_notMem hOut]
        dsimp only
        omega
    | hashed m ref =>
      have hIn : ino ∈ hashed := by
        rw [hOld, hBefore]
        rfl
      cases hAfter : n'.backing with
      | released disk' =>
        rw [hBefore, hAfter] at hSettle
        obtain ⟨m', _, hRest⟩ := bind_eq_ok hSettle
        obtain ⟨free, hExchange, hDone⟩ := bind_eq_ok hRest
        cases hDone
        have hSame := (FreeLists.exchange_keeps hExchange).1
        have hPos := Finset.card_pos.mpr ⟨ino, hIn⟩
        rw [Backing.isHashed, if_neg nofun, Finset.card_erase_of_mem hIn]
        dsimp only
        omega
      | hashed m' ref' =>
        rw [hBefore, hAfter] at hSettle
        rw [Backing.isHashed, if_pos rfl, Finset.insert_eq_self.mpr hIn,
          (FreeLists.exchange_keeps hSettle).1]
        exact hCard

end Accounted

section Tables

variable {policy : Policy} {p p' : Process} {mmios : Nat} {e : Nat × FileEvent}

theorem table_step_le (h : p.Accounted mmios) (hStep : Guarded FreshFd (Steps (next policy)) p e p') :
    p'.free.table ≤ p.free.table := by
  obtain ⟨n', free', rfl, _, hSettle⟩ := step_settle (h.counted e.1) hStep
  change free'.table ≤ _
  cases hBefore : (p.inodes e.1).backing with
  | released disk =>
    cases hAfter : n'.backing with
    | released disk' =>
      rw [hBefore, hAfter] at hSettle
      cases hSettle
      exact Nat.le_refl _
    | hashed m ref =>
      rw [hBefore, hAfter] at hSettle
      obtain ⟨_, _, rfl⟩ := FreeLists.takeMmio_eq_ok hSettle
      exact Nat.sub_le _ _
  | hashed m ref =>
    cases hAfter : n'.backing with
    | released disk' =>
      rw [hBefore, hAfter] at hSettle
      obtain ⟨m', _, hRest⟩ := bind_eq_ok hSettle
      obtain ⟨free, hExchange, hDone⟩ := bind_eq_ok hRest
      cases hDone
      exact (FreeLists.exchange_keeps hExchange).2
    | hashed m' ref' =>
      rw [hBefore, hAfter] at hSettle
      exact (FreeLists.exchange_keeps hSettle).2

theorem table_step_lt (h : p.Accounted mmios) (hStep : Guarded FreshFd (Steps (next policy)) p e p')
    (hBefore : ¬ p.Hashed e.1) (hAfter : p'.Hashed e.1) : p'.free.table < p.free.table := by
  obtain ⟨n', free', rfl, hCounted, hSettle⟩ := step_settle (h.counted e.1) hStep
  unfold Hashed at hBefore hAfter
  rw [inodes_set (fun n => n.backing.isHashed = true), if_pos rfl] at hAfter
  cases hOld : (p.inodes e.1).backing with
  | released disk =>
    cases hNew : n'.backing with
    | released disk' =>
      rw [hNew] at hAfter
      cases hAfter
    | hashed m ref =>
      rw [hOld, hNew] at hSettle
      obtain ⟨_, hEnough, rfl⟩ := FreeLists.takeMmio_eq_ok hSettle
      have hRoot := (hCounted.hashed m ref hNew).2.2.sound.wellFormed.shape.skip_lt
      change p.free.table - m.radixlog.nextTable < p.free.table
      omega
  | hashed m ref =>
    rw [hOld] at hBefore
    exact absurd rfl hBefore

theorem hashed_of_open {ino fd : Nat} {flags : AccMode} {provision : Provision}
    (hStep : Guarded FreshFd (Steps (next policy)) p (ino, .call (.open fd flags provision)) p') :
    p'.Hashed ino := by
  obtain ⟨_, result, hOk⟩ := hStep
  obtain ⟨⟨n', _⟩, hCall, hRest⟩ := bind_eq_ok hOk
  obtain ⟨free', _, hDone⟩ := bind_eq_ok hRest
  cases hDone
  unfold Hashed
  rw [inodes_set (fun n => n.backing.isHashed = true), if_pos rfl]
  obtain ⟨n₁, hOpen, hDone⟩ := bind_eq_ok hCall
  cases hDone
  obtain ⟨_, m, ref, hBacking⟩ := Inode.libnvmmioOpen_eq_ok hOpen
  rw [hBacking]
  rfl

end Tables

section Runs

variable {policy : Policy} {p p' : Process} {mmios : Nat} {events : List (Nat × FileEvent)}

theorem Accounted.run (h : p.Accounted mmios) (hRun : Runs policy p events p') : p'.Accounted mmios :=
  hRun.invariant (Accounted mmios) (fun _ _ _ h hStep => h.step hStep) h

theorem Accounted.table_run_le (h : p.Accounted mmios) (hRun : Runs policy p events p') :
    p'.free.table ≤ p.free.table := by
  have hBoth : p'.Accounted mmios ∧ p'.free.table ≤ p.free.table := by
    refine hRun.invariant (fun q => q.Accounted mmios ∧ q.free.table ≤ p.free.table) ?_
      ⟨h, Nat.le_refl _⟩
    rintro q e q' ⟨hAccounted, hLe⟩ hStep
    exact ⟨hAccounted.step hStep, Nat.le_trans (table_step_le hAccounted hStep) hLe⟩
  exact hBoth.2

theorem Accounted.not_hashed (h : p.Accounted mmios) (hClosed : p.Closed) (ino : Nat) : ¬ p.Hashed ino := by
  intro hHashed
  unfold Hashed at hHashed
  cases hBacking : (p.inodes ino).backing with
  | released disk =>
    rw [hBacking] at hHashed
    cases hHashed
  | hashed m ref => exact ((h.counted ino).hashed m ref hBacking).2.1 (hClosed ino)

/-- As long as an inode is in the hash, tables are missing. -/
theorem Accounted.table_lt_of_hashed (h : p.Accounted mmios) (hClosed : p.Closed)
    (hRun : Runs policy p events p') {ino : Nat} (hHashed : p'.Hashed ino) :
    p'.free.table < p.free.table := by
  have hAll : p'.Accounted mmios ∧ p'.free.table ≤ p.free.table ∧
      ∀ ino, p'.Hashed ino → p'.free.table < p.free.table := by
    refine hRun.invariant (fun q => q.Accounted mmios ∧ q.free.table ≤ p.free.table ∧
      ∀ ino, q.Hashed ino → q.free.table < p.free.table) ?_
      ⟨h, Nat.le_refl _, fun ino hHashed => absurd hHashed (h.not_hashed hClosed ino)⟩
    rintro q e q' ⟨hAccounted, hLe, hLt⟩ hStep
    have hStepLe := table_step_le hAccounted hStep
    refine ⟨hAccounted.step hStep, Nat.le_trans hStepLe hLe, fun i hAfter => ?_⟩
    by_cases hBefore : q.Hashed i
    · exact Nat.lt_of_le_of_lt hStepLe (hLt i hBefore)
    · -- only the inode of the event can have entered the hash
      have hSame : i = e.1 := by
        obtain ⟨n', free', rfl, _, _⟩ := step_settle (hAccounted.counted e.1) hStep
        unfold Hashed at hBefore hAfter
        rw [inodes_set (fun n => n.backing.isHashed = true)] at hAfter
        split at hAfter
        · assumption
        · exact absurd hAfter hBefore
      rw [hSame] at hBefore hAfter
      exact Nat.lt_of_lt_of_le (table_step_lt hAccounted hStep hBefore hAfter) hLe
  exact hAll.2.2 ino hHashed

/-- A run with an open does not get all of its tables back. -/
theorem Accounted.table_lt_of_open (h : p.Accounted mmios) (hClosed : p.Closed)
    (hRun : Runs policy p events p') {ino fd : Nat} {flags : AccMode} {provision : Provision}
    (hOpen : (ino, .call (.open fd flags provision)) ∈ events) : p'.free.table < p.free.table := by
  obtain ⟨before, behind, rfl⟩ := List.append_of_mem hOpen
  obtain ⟨q, hBefore, hRest⟩ := hRun.of_append
  cases hRest with
  | cons hStep hBehind =>
    have hUpTo := hBefore.snoc hStep
    have hLt := h.table_lt_of_hashed hClosed hUpTo (hashed_of_open hStep)
    exact Nat.lt_of_le_of_lt ((h.run hUpTo).table_run_le hBehind) hLt

theorem Accounted.mmio_of_closed (h : p.Accounted mmios) (hClosed : p.Closed) : p.free.mmio = mmios := by
  obtain ⟨hashed, hMem, hCard⟩ := h.objects
  have hNone : hashed = ∅ := by
    rw [Finset.eq_empty_iff_forall_notMem]
    intro ino hIn
    exact h.not_hashed hClosed ino ((hMem ino).mp hIn)
  rw [← hCard, hNone, Finset.card_empty, Nat.add_zero]

end Runs

section Idle

def Idle (p : Process) : Prop := ∀ ino, ∃ disk, p.inodes ino = Inode.closed disk

variable {policy : Policy} {p p' : Process} {events : List (Nat × FileEvent)}

theorem Idle.accounted (h : p.Idle) : p.Accounted p.free.mmio := by
  refine ⟨fun ino => ?_, ∅, fun ino => ?_, by rw [Finset.card_empty, Nat.add_zero]⟩
  · obtain ⟨disk, hIno⟩ := h ino
    rw [hIno]
    exact Inode.closed_counted disk
  · obtain ⟨disk, hIno⟩ := h ino
    unfold Hashed
    rw [hIno]
    exact ⟨fun hIn => absurd hIn (Finset.notMem_empty ino), nofun⟩

theorem Idle.closed (h : p.Idle) : p.Closed := by
  intro ino
  obtain ⟨disk, hIno⟩ := h ino
  rw [hIno]
  rfl

theorem Idle.step (h : p.Idle) {e : Nat × FileEvent}
    (hOpen : ∀ fd flags provision, e.2 ≠ .call (.open fd flags provision))
    (hStep : Guarded FreshFd (Steps (next policy)) p e p') : p' = p := by
  obtain ⟨ino, event⟩ := e
  obtain ⟨disk, hIno⟩ := h ino
  obtain ⟨_, result, hOk⟩ := hStep
  unfold next at hOk
  cases event with
  | call c =>
    cases c with
    | «open» fd flags provision => exact absurd rfl (hOpen fd flags provision)
    | onFile fd call =>
      dsimp only at hOk
      rw [hIno] at hOk
      change (.ok (p.set ino (Inode.closed disk) p.free, Result.posix) : Except Failure _) = _ at hOk
      cases hOk
      rw [← hIno, set, Function.update_eq_self]
  | checkpoint =>
    dsimp only at hOk
    rw [hIno] at hOk
    cases hOk
    rfl

end Idle

/-- In every run that ends with no open descriptor, the objects are all back in
the free lists, and with them all tables, entries and buffers exactly if
nothing was opened. -/
theorem returnsAll_iff {policy : Policy} {p p' : Process} {events : List (Nat × FileEvent)} (hIdle : p.Idle)
    (hRun : Runs policy p events p') (hClosed : p'.Closed) :
    p'.free.mmio = p.free.mmio ∧
      (p'.free = p.free ↔
        ∀ ino fd flags provision, (ino, .call (.open fd flags provision)) ∉ events) := by
  refine ⟨(hIdle.accounted.run hRun).mmio_of_closed hClosed, fun hFree ino fd flags provision hOpen => ?_,
    fun hNone => ?_⟩
  · have hLt := hIdle.accounted.table_lt_of_open hIdle.closed hRun hOpen
    rw [hFree] at hLt
    exact Nat.lt_irrefl _ hLt
  · have hSame : p' = p := by
      induction hRun with
      | nil s => rfl
      | @cons s t r e es hStep _ ih =>
        have hStay : t = s := by
          refine hIdle.step (fun fd flags provision hEvent => ?_) hStep
          exact hNone e.1 fd flags provision (hEvent ▸ List.mem_cons_self)
        subst hStay
        exact ih hIdle hClosed fun ino fd flags provision hMem =>
          hNone ino fd flags provision (List.mem_cons_of_mem _ hMem)
    rw [hSame]

/-- From no open descriptor to none, with an open in between. -/
def Cycle (policy : Policy) (p : Process) (events : List (Nat × FileEvent)) (p' : Process) : Prop :=
  p.Closed ∧ Runs policy p events p' ∧
    ∃ ino fd flags provision, (ino, .call (.open fd flags provision)) ∈ events

/-- The tables bound the number of open/close cycles that a process can run. -/
theorem cycles_le_tables {policy : Policy} {p p' : Process} {cycles : List (List (Nat × FileEvent))} {mmios : Nat}
    (h : p.Accounted mmios) (hRun : Run (Cycle policy) p cycles p') :
    p'.free.table + cycles.length ≤ p.free.table := by
  induction hRun with
  | nil s => exact Nat.le_refl _
  | cons hCycle _ ih =>
    obtain ⟨hClosed, hEvents, _, _, _, _, hOpen⟩ := hCycle
    have hLt := h.table_lt_of_open hClosed hEvents hOpen
    have hRest := ih (h.run hEvents)
    rw [List.length_cons]
    omega

section OneCycle

def twoRegions : Disk := ⟨2 ^ 21 + 1, fun _ => 0⟩

def twoRegionsMmio : Mmio :=
  ⟨2 ^ 21, 2 ^ 21 + 1, 0, .undo, initRadixlog (2 ^ 21 + 1), 0, 0, 2 ^ 21 + 1, false, twoRegions,
    fun _ _ => 0, 0⟩

/-- A process with three tables, and one of each other object. -/
def smallProcess : Process := ⟨fun _ => Inode.closed twoRegions, ⟨1, 3, 1, fun _ => 1⟩⟩

def openClose : List (Nat × FileEvent) :=
  [(0, .call (.open 3 .rdOnly Inode.emptyProvision)), (0, .call (.onFile 3 .close))]

def smallOpened : Process :=
  smallProcess.set 0 ⟨[(3, ⟨.rdOnly, 0⟩)], .hashed twoRegionsMmio 1⟩ ⟨0, 0, 1, fun _ => 1⟩

def smallClosed : Process := smallOpened.set 0 (Inode.closed twoRegions) ⟨1, 0, 1, fun _ => 1⟩

theorem twoRegions_find (offset : Nat) : twoRegionsMmio.radixlog.findLogTable offset = none := by
  have hFind : (initRadixlog (2 ^ 21 + 1)).findLogTable offset = _ := find_initRadixlog (by decide) offset
  rw [if_neg (by decide)] at hFind
  exact hFind

theorem twoRegions_checkpointFrom (currentEpoch endoff offset : Nat) :
    checkpointFrom currentEpoch endoff twoRegionsMmio offset = .ok twoRegionsMmio := by
  induction hLeft : endoff - offset using Nat.strongRecOn generalizing offset with
  | ind left ih =>
    by_cases hMore : offset < endoff
    · have hStep : 0 < 2 ^ lmdShift := by decide
      rw [checkpointFrom_skip hMore (.inr (twoRegions_find offset))]
      exact ih _ (by omega) _ rfl
    · exact checkpointFrom_done hMore

theorem smallProcess_open :
    next .undo smallProcess (0, .call (.open 3 .rdOnly Inode.emptyProvision)) = .ok (smallOpened, .success) :=
  rfl

theorem smallOpened_close :
    next .undo smallOpened (0, .call (.onFile 3 .close)) = .ok (smallClosed, .success) := by
  have hCheckpoint : twoRegionsMmio.checkpointMmio = .ok twoRegionsMmio := twoRegions_checkpointFrom _ _ 0
  have hClose : twoRegionsMmio.closeMmio false = .ok twoRegions := by
    rw [closeMmio, hCheckpoint, ok_bind]
    rfl
  change (Inode.call .undo ⟨[(3, ⟨.rdOnly, 0⟩)], .hashed twoRegionsMmio 1⟩ (.onFile 3 .close) >>= _) = _
  rw [Inode.last_close_succeeds 3 ⟨.rdOnly, 0⟩ hClose, ok_bind]
  change ((twoRegionsMmio.checkpointMmio >>= _) >>= _) = _
  rw [hCheckpoint, ok_bind, FreeLists.exchange_of_slots_eq rfl rfl, ok_bind]
  rfl

theorem smallProcess_runs : Runs .undo smallProcess openClose smallClosed :=
  .cons ⟨fun _ => rfl, .success, smallProcess_open⟩
    (.cons ⟨fun _ => trivial, .success, smallOpened_close⟩ (.nil _))

theorem smallProcess_idle : smallProcess.Idle := fun _ => ⟨twoRegions, rfl⟩

theorem smallClosed_closed : smallClosed.Closed := by
  intro ino
  unfold smallClosed smallOpened
  rw [inodes_set (fun n => n.files = []), inodes_set (fun n => n.files = [])]
  split
  · rfl
  · rfl

theorem returnsAll_openClose :
    smallClosed.free.mmio = smallProcess.free.mmio ∧ smallClosed.free ≠ smallProcess.free := by
  obtain ⟨hMmio, hIff⟩ := returnsAll_iff smallProcess_idle smallProcess_runs smallClosed_closed
  exact ⟨hMmio, fun hFree => hIff.mp hFree 0 3 .rdOnly Inode.emptyProvision List.mem_cons_self⟩

/-- After one open and one close, the process has no table left for the next open. -/
theorem returnsAll_fails_openClose : ∃ p', Runs .undo smallProcess openClose p' ∧ p'.Closed ∧
    smallProcess.free.table = 3 ∧ p'.free.table = 0 ∧
    p'.next .undo (0, .call (.open 3 .rdOnly Inode.emptyProvision)) = .error .exit :=
  ⟨smallClosed, smallProcess_runs, smallClosed_closed, rfl, rfl, rfl⟩

end OneCycle

end Process

end Libnvmmio

import Libnvmmio.Concurrent.Requests
import Libnvmmio.Foundation.LinkedLists

/-! # The lists of locked entries

Requests on one mmio lock entries, push them to their lists and unlock what
they find on them. The link to the next entry lies in the entry, so the lists of
all requests run through the same memory. `slist_push` is one step, and in
`UNLOCK_ENTRIES` so are the release of a lock and the load of the next entry.
-/

namespace Libnvmmio.LockLists

open GuardedRun LinkedLists Mmio RadixLog
open Concurrent (Range)
open EntrySlots (acquire)

set_option autoImplicit false

inductive Var (T : Type) where
  /-- `entries_head.next` -/
  | head (t : T)
  /-- `entry_` of `UNLOCK_ENTRIES` -/
  | entry (t : T)
  deriving DecidableEq

inductive Phase (E : Type) where
  | out
  /-- the loop of `LOCK_ENTRIES` -/
  | lock (r : Range)
  /-- `slist_push`, the lock being taken -/
  | push (r : Range) (e : E) (s : LogSize)
  /-- between `LOCK_ENTRIES` and `UNLOCK_ENTRIES` -/
  | body
  /-- the loop of `UNLOCK_ENTRIES`: its condition and `RWLOCK_UNLOCK` -/
  | unlock
  | advance (e : E)
  deriving DecidableEq

structure State (T E : Type) where
  /-- the pointers, and `next` of each entry -/
  links : Links (Var T) E
  locks : E → RwLock T
  phase : T → Phase E
  /-- the entries that the call has locked, the last one first -/
  locked : T → List E
  /-- those that it has released -/
  released : T → List E
  /-- those that it has pushed and whose `next` it may still follow -/
  listed : T → List E

variable {T E : Type}

def init (links : Links (Var T) E) : State T E where
  links := links
  locks _ := .free
  phase _ := .out
  locked _ := []
  released _ := []
  listed _ := []

inductive Act (E : Type) where
  | request (type : LockType) (offset len : Nat)
  /-- `get_log_entry` and `get_log_size` have found an entry, and its trylock succeeds -/
  | lock (e : E) (s : LogSize)
  | step

namespace State

variable [DecidableEq T] [DecidableEq E]

def goto (s : State T E) (t : T) (p : Phase E) : State T E :=
  { s with phase := Function.update s.phase t p }

def setVar (s : State T E) (x : Var T) (v : Option E) : State T E :=
  { s with links := Function.update s.links (.inl x) v }

theorem setVar_self (s : State T E) (x : Var T) (v : Option E) : (s.setVar x v).links (.inl x) = v :=
  Function.update_self ..

theorem setVar_inl_of_ne {x y : Var T} (hy : y ≠ x) (s : State T E) (v : Option E) :
    (s.setVar x v).links (.inl y) = s.links (.inl y) := Function.update_of_ne (fun hEq => hy (Sum.inl.inj hEq)) ..

theorem setVar_inr (s : State T E) (x : Var T) (v : Option E) (e : E) :
    (s.setVar x v).links (.inr e) = s.links (.inr e) := by
  have hne : (Sum.inr e : Var T ⊕ E) ≠ .inl x := nofun
  exact Function.update_of_ne hne v s.links

def enter (s : State T E) (t : T) (r : Range) : State T E :=
  { (s.setVar (.head t) none).goto t (.lock r) with
    locked := Function.update s.locked t []
    released := Function.update s.released t []
    listed := Function.update s.listed t [] }

def take (s : State T E) (t : T) (r : Range) (e : E) (size : LogSize) (l : RwLock T) : State T E :=
  { s.goto t (.push r e size) with
    locks := Function.update s.locks e l
    locked := Function.update s.locked t (e :: s.locked t) }

def pushEntry (s : State T E) (t : T) (r : Range) (e : E) (size : LogSize) : State T E :=
  { s.goto t (.lock (r.advance size)) with
    links := push s.links e (.head t)
    listed := Function.update s.listed t (e :: s.listed t) }

def firstEntry (s : State T E) (t : T) : State T E :=
  (s.setVar (.entry t) (s.links (.inl (.head t)))).goto t .unlock

def release (s : State T E) (t : T) (e : E) (l : RwLock T) : State T E :=
  { s.goto t (.advance e) with
    locks := Function.update s.locks e l
    released := Function.update s.released t (e :: s.released t) }

def nextEntry (s : State T E) (t : T) (e : E) : State T E :=
  { (s.setVar (.entry t) (s.links (.inr e))).goto t .unlock with
    listed := Function.update s.listed t ((s.listed t).erase e) }

def step (s : State T E) (t : T) : Phase E → Option (State T E)
  | .out => none
  | .lock r => if r.n = 0 then some (s.goto t .body) else none
  | .push r e size => some (s.pushEntry t r e size)
  | .body => some (s.firstEntry t)
  | .unlock =>
    match s.links (.inl (.entry t)) with
    | none => some (s.goto t .out)
    | some e => do
      let l ← (s.locks e).unlock t
      some (s.release t e l)
  | .advance e => some (s.nextEntry t e)

def next (s : State T E) : T × Act E → Option (State T E)
  | (t, .request type offset len) =>
    if s.phase t = .out then some (s.enter t ⟨type, offset, (toInt len).toNat⟩) else none
  | (t, .lock e size) =>
    match s.phase t with
    | .lock r =>
      if 0 < r.n then do
        let l ← acquire r.type t (s.locks e)
        some (s.take t r e size l)
      else none
    | _ => none
  | (t, .step) => s.step t (s.phase t)

def Step (s : State T E) (a : T × Act E) (s' : State T E) : Prop := s.next a = some s'

/-- The list of a call is what it has locked, and its unlocking releases just that. -/
structure TwoPhase (s : State T E) : Prop where
  listed : ∀ t, s.phase t = .body → ∃ es, Linked s.links (.inl (.head t)) es ∧ es.Perm (s.locked t)
  /-- a lock that is about to be released is held by the call itself -/
  owned : ∀ t e, s.phase t = .unlock → s.links (.inl (.entry t)) = some e → 0 < (s.locks e).holds t
  /-- at the end each lock has been released once -/
  once : ∀ t, s.phase t = .unlock → s.links (.inl (.entry t)) = none → (s.released t).Perm (s.locked t)

/-- A push changes no link that some call may still follow. -/
def PushesApart (s : State T E) : T × Act E → Prop
  | (t, .step) => ∀ r e size, s.phase t = .push r e size →
    s.links (.inr e) = s.links (.inl (.head t)) ∨ ∀ u, e ∉ s.listed u
  | _ => True

/-! ## The steps -/

inductive Moves (s : State T E) (t : T) : State T E → Prop where
  | enter (r : Range) (hPhase : s.phase t = .out) : Moves s t (s.enter t r)
  | take (r : Range) (e : E) (size : LogSize) (l : RwLock T) (hPhase : s.phase t = .lock r)
      (hLock : acquire r.type t (s.locks e) = some l) : Moves s t (s.take t r e size l)
  | locked (r : Range) (hPhase : s.phase t = .lock r) : Moves s t (s.goto t .body)
  | push (r : Range) (e : E) (size : LogSize) (hPhase : s.phase t = .push r e size)
      (hApart : s.links (.inr e) = s.links (.inl (.head t)) ∨ ∀ u, e ∉ s.listed u) :
      Moves s t (s.pushEntry t r e size)
  | first (hPhase : s.phase t = .body) : Moves s t (s.firstEntry t)
  | release (e : E) (l : RwLock T) (hPhase : s.phase t = .unlock) (hEntry : s.links (.inl (.entry t)) = some e)
      (hUnlock : (s.locks e).unlock t = some l) : Moves s t (s.release t e l)
  | finish (hPhase : s.phase t = .unlock) (hEntry : s.links (.inl (.entry t)) = none) : Moves s t (s.goto t .out)
  | advance (e : E) (hPhase : s.phase t = .advance e) : Moves s t (s.nextEntry t e)

theorem moves_of_step {s s' : State T E} {a : T × Act E} (hApart : s.PushesApart a) (h : Step s a s') :
    Moves s a.1 s' := by
  obtain ⟨t, act⟩ := a
  dsimp only [Step] at h ⊢
  cases act with
  | request type offset len =>
    obtain ⟨hOut, hDone⟩ := Option.ite_none_right_eq_some.mp h
    cases hDone
    exact .enter _ hOut
  | lock e size =>
    rw [next] at h
    cases hPhase : s.phase t with
    | lock r =>
      rw [hPhase] at h
      obtain ⟨_, hRest⟩ := Option.ite_none_right_eq_some.mp h
      obtain ⟨l, hLock, hDone⟩ := Option.bind_eq_some_iff.mp hRest
      cases hDone
      exact .take r e size l hPhase hLock
    | _ =>
      rw [hPhase] at h
      cases h
  | step =>
    rw [next] at h
    cases hPhase : s.phase t with
    | out =>
      rw [hPhase] at h
      cases h
    | lock r =>
      rw [hPhase] at h
      obtain ⟨_, hDone⟩ := Option.ite_none_right_eq_some.mp h
      cases hDone
      exact .locked r hPhase
    | push r e size =>
      rw [hPhase] at h
      cases h
      exact .push r e size hPhase (hApart r e size hPhase)
    | body =>
      rw [hPhase] at h
      cases h
      exact .first hPhase
    | unlock =>
      rw [hPhase, step] at h
      cases hEntry : s.links (.inl (.entry t)) with
      | none =>
        rw [hEntry] at h
        cases h
        exact .finish hPhase hEntry
      | some e =>
        rw [hEntry] at h
        obtain ⟨l, hUnlock, hDone⟩ := Option.bind_eq_some_iff.mp h
        cases hDone
        exact .release e l hPhase hEntry hUnlock
    | advance e =>
      rw [hPhase] at h
      cases h
      exact .advance e hPhase

/-! ## The lists -/

def Holding (locks : E → RwLock T) (t : T) (es : List E) : Prop := ∀ e, (locks e).holds t = es.count e

def Tracked (links : Links (Var T) E) (locks : E → RwLock T) (t : T) (locked released listed : List E) :
    Phase E → Prop
  | .out => Holding locks t []
  | .lock _ | .body => Linked links (.inl (.head t)) listed ∧ locked = listed ∧ released = [] ∧ Holding locks t listed
  | .push _ e _ =>
    Linked links (.inl (.head t)) listed ∧ locked = e :: listed ∧ released = [] ∧ Holding locks t (e :: listed)
  | .unlock =>
    Linked links (.inl (.entry t)) listed ∧ locked = released.reverse ++ listed ∧ Holding locks t listed
  | .advance e => ∃ es, listed = e :: es ∧ Linked links (.inr e) es ∧ locked = released.reverse ++ es ∧
    Holding locks t es

structure Tracks (s : State T E) (t : T) : Prop where
  tracked : Tracked s.links s.locks t (s.locked t) (s.released t) (s.listed t) (s.phase t)
  nodup : (s.listed t).Nodup

structure Unmoved (s s' : State T E) (u : T) : Prop where
  phase : s'.phase u = s.phase u
  locked : s'.locked u = s.locked u
  released : s'.released u = s.released u
  listed : s'.listed u = s.listed u
  head : s'.links (.inl (.head u)) = s.links (.inl (.head u))
  entry : s'.links (.inl (.entry u)) = s.links (.inl (.entry u))
  nodes : ∀ e ∈ s.listed u, s'.links (.inr e) = s.links (.inr e)
  holds : ∀ e, (s'.locks e).holds u = (s.locks e).holds u

section Invariant

variable {s s' : State T E} {t u : T} {es : List E}

theorem Holding.congr {locks locks' : E → RwLock T} (h : Holding locks u es)
    (hHolds : ∀ e, (locks' e).holds u = (locks e).holds u) : Holding locks' u es :=
  fun e => (hHolds e).trans (h e)

theorem Tracks.unmoved (h : s.Tracks u) (hSame : Unmoved s s' u) : s'.Tracks u := by
  obtain ⟨hTracked, hNodup⟩ := h
  refine ⟨?_, by rw [hSame.listed]; exact hNodup⟩
  rw [hSame.phase, hSame.locked, hSame.released, hSame.listed]
  cases hPhase : s.phase u with
  | out =>
    rw [hPhase] at hTracked
    exact Holding.congr hTracked hSame.holds
  | lock r =>
    rw [hPhase] at hTracked
    obtain ⟨hList, hLocked, hReleased, hHolding⟩ := hTracked
    exact ⟨hList.congr hSame.head hSame.nodes, hLocked, hReleased, hHolding.congr hSame.holds⟩
  | push r e size =>
    rw [hPhase] at hTracked
    obtain ⟨hList, hLocked, hReleased, hHolding⟩ := hTracked
    exact ⟨hList.congr hSame.head hSame.nodes, hLocked, hReleased, hHolding.congr hSame.holds⟩
  | body =>
    rw [hPhase] at hTracked
    obtain ⟨hList, hLocked, hReleased, hHolding⟩ := hTracked
    exact ⟨hList.congr hSame.head hSame.nodes, hLocked, hReleased, hHolding.congr hSame.holds⟩
  | unlock =>
    rw [hPhase] at hTracked
    obtain ⟨hList, hLocked, hHolding⟩ := hTracked
    exact ⟨hList.congr hSame.entry hSame.nodes, hLocked, hHolding.congr hSame.holds⟩
  | advance e =>
    rw [hPhase] at hTracked
    obtain ⟨es, hListed, hList, hLocked, hHolding⟩ := hTracked
    have hNodes := hSame.nodes
    rw [hListed] at hNodes
    refine ⟨es, hListed, hList.congr (hNodes e List.mem_cons_self) fun x hx => ?_, hLocked,
      hHolding.congr hSame.holds⟩
    exact hNodes x (List.mem_cons_of_mem e hx)

theorem holds_of_acquire {type : LockType} {l l' : RwLock T} (h : acquire type t l = some l') (u : T) :
    l'.holds u = l.holds u + if u = t then 1 else 0 := by
  cases type with
  | rd => exact RwLock.holds_of_rdlock h u
  | wr => exact RwLock.holds_of_wrlock h u

theorem holds_update_of_ne {locks : E → RwLock T} {e : E} {l : RwLock T} (hl : l.holds u = (locks e).holds u) (x : E) :
    (Function.update locks e l x).holds u = (locks x).holds u := by
  by_cases hx : x = e
  · rw [hx, Function.update_self, hl]
  · rw [Function.update_of_ne hx]

theorem Holding.acquire {locks : E → RwLock T} {e : E} {l : RwLock T} (h : Holding locks t es)
    (hl : l.holds t = (locks e).holds t + 1) : Holding (Function.update locks e l) t (e :: es) := by
  intro x
  by_cases hx : x = e
  · rw [hx, Function.update_self, hl, h e, List.count_cons_self]
  · rw [Function.update_of_ne hx, h x, List.count_cons_of_ne (Ne.symm hx)]

theorem Holding.release {locks : E → RwLock T} {e : E} {l : RwLock T} (h : Holding locks t (e :: es))
    (hl : l.holds t = (locks e).holds t - 1) : Holding (Function.update locks e l) t es := by
  intro x
  by_cases hx : x = e
  · rw [hx, Function.update_self, hl, h e, List.count_cons_self, Nat.add_sub_cancel]
  · rw [Function.update_of_ne hx, h x, List.count_cons_of_ne (Ne.symm hx)]

theorem Moves.unmoved (h : Moves s t s') (hu : u ≠ t) : Unmoved s s' u := by
  have hHead : Var.head u ≠ .head t := fun hEq => hu (Var.head.inj hEq)
  have hEntry : Var.entry u ≠ .entry t := fun hEq => hu (Var.entry.inj hEq)
  have hCross : Var.entry u ≠ .head t := nofun
  have hCross' : Var.head u ≠ .entry t := nofun
  cases h with
  | enter r hPhase =>
    exact ⟨Function.update_of_ne hu .., Function.update_of_ne hu .., Function.update_of_ne hu ..,
      Function.update_of_ne hu .., setVar_inl_of_ne hHead s none, setVar_inl_of_ne hCross s none,
      fun e _ => setVar_inr s (.head t) none e, fun _ => rfl⟩
  | take r e size l hPhase hLock =>
    have hl := holds_of_acquire hLock u
    rw [if_neg hu, Nat.add_zero] at hl
    exact ⟨Function.update_of_ne hu .., Function.update_of_ne hu .., rfl, rfl, rfl, rfl, fun _ _ => rfl,
      holds_update_of_ne hl⟩
  | locked r hPhase => exact ⟨Function.update_of_ne hu .., rfl, rfl, rfl, rfl, rfl, fun _ _ => rfl, fun _ => rfl⟩
  | push r e size hPhase hApart =>
    refine ⟨Function.update_of_ne hu .., rfl, rfl, Function.update_of_ne hu .., push_inl_of_ne hHead,
      @push_inl_of_ne _ _ _ _ s.links _ e _ hCross, fun x hx => ?_, fun _ => rfl⟩
    -- the entry of the push may be on the other list if its link stays as it is
    by_cases hxe : x = e
    · rcases hApart with hSame | hFree
      · rw [hxe]
        exact push_inr_self.trans hSame.symm
      · exact absurd (hxe ▸ hx) (hFree u)
    · exact push_inr_of_ne hxe
  | first hPhase =>
    exact ⟨Function.update_of_ne hu .., rfl, rfl, rfl, setVar_inl_of_ne hCross' s (s.links (.inl (.head t))),
      setVar_inl_of_ne hEntry s (s.links (.inl (.head t))),
      fun x _ => setVar_inr s (.entry t) (s.links (.inl (.head t))) x, fun _ => rfl⟩
  | release e l hPhase hSome hUnlock =>
    have hl := RwLock.holds_of_unlock hUnlock u
    rw [if_neg hu, Nat.sub_zero] at hl
    exact ⟨Function.update_of_ne hu .., rfl, Function.update_of_ne hu .., rfl, rfl, rfl, fun _ _ => rfl,
      holds_update_of_ne hl⟩
  | finish hPhase hNone => exact ⟨Function.update_of_ne hu .., rfl, rfl, rfl, rfl, rfl, fun _ _ => rfl, fun _ => rfl⟩
  | advance e hPhase =>
    exact ⟨Function.update_of_ne hu .., rfl, rfl, Function.update_of_ne hu ..,
      setVar_inl_of_ne hCross' s (s.links (.inr e)), setVar_inl_of_ne hEntry s (s.links (.inr e)),
      fun x _ => setVar_inr s (.entry t) (s.links (.inr e)) x, fun _ => rfl⟩

theorem Moves.tracks (h : Moves s t s') (hTracks : s.Tracks t) : s'.Tracks t := by
  obtain ⟨hTracked, hNodup⟩ := hTracks
  cases h with
  | enter r hPhase =>
    rw [hPhase] at hTracked
    refine ⟨?_, ?_⟩
    · dsimp only [State.enter, goto]
      rw [Function.update_self, Function.update_self, Function.update_self, Function.update_self]
      exact ⟨setVar_self .., rfl, rfl, hTracked⟩
    · dsimp only [State.enter, goto]
      rw [Function.update_self]
      exact List.nodup_nil
  | take r e size l hPhase hLock =>
    rw [hPhase] at hTracked
    obtain ⟨hList, hLocked, hReleased, hHolding⟩ := hTracked
    refine ⟨?_, hNodup⟩
    dsimp only [State.take, goto]
    rw [Function.update_self, Function.update_self]
    have hl := holds_of_acquire hLock t
    rw [if_pos rfl] at hl
    exact ⟨hList, congrArg (e :: ·) hLocked, hReleased, hHolding.acquire hl⟩
  | locked r hPhase =>
    rw [hPhase] at hTracked
    refine ⟨?_, hNodup⟩
    dsimp only [goto]
    rw [Function.update_self]
    exact hTracked
  | push r e size hPhase hApart =>
    rw [hPhase] at hTracked
    obtain ⟨hList, hLocked, hReleased, hHolding⟩ := hTracked
    have hNew : e ∉ s.listed t := by
      rcases hApart with hSame | hFree
      · exact hList.not_mem_of_eq hSame
      · exact hFree t
    refine ⟨?_, ?_⟩
    · dsimp only [pushEntry, goto]
      rw [Function.update_self, Function.update_self]
      exact ⟨linked_push hList hNew, hLocked, hReleased, hHolding⟩
    · dsimp only [pushEntry, goto]
      rw [Function.update_self]
      exact List.nodup_cons.mpr ⟨hNew, hNodup⟩
  | first hPhase =>
    rw [hPhase] at hTracked
    obtain ⟨hList, hLocked, hReleased, hHolding⟩ := hTracked
    refine ⟨?_, hNodup⟩
    dsimp only [firstEntry, goto]
    rw [Function.update_self]
    refine ⟨hList.congr (setVar_self ..) fun x _ => setVar_inr s (.entry t) _ x, ?_, hHolding⟩
    dsimp only [setVar]
    rw [hLocked, hReleased]
    rfl
  | release e l hPhase hSome hUnlock =>
    rw [hPhase] at hTracked
    obtain ⟨hList, hLocked, hHolding⟩ := hTracked
    have hl := RwLock.holds_of_unlock hUnlock t
    rw [if_pos rfl] at hl
    refine ⟨?_, hNodup⟩
    dsimp only [State.release, goto]
    rw [Function.update_self, Function.update_self]
    generalize s.listed t = listed at hList hLocked hHolding ⊢
    cases listed with
    | nil => cases hSome.symm.trans hList
    | cons x es =>
      obtain ⟨hHead, hRest⟩ := hList
      rw [hSome] at hHead
      cases hHead
      refine ⟨es, rfl, hRest, ?_, hHolding.release hl⟩
      rw [hLocked, List.reverse_cons, List.append_assoc]
      rfl
  | finish hPhase hNone =>
    rw [hPhase] at hTracked
    obtain ⟨hList, hLocked, hHolding⟩ := hTracked
    refine ⟨?_, hNodup⟩
    dsimp only [goto]
    rw [Function.update_self]
    have hEmpty : s.listed t = [] := by
      rw [← List.head?_eq_none_iff, ← hList.head, hNone]
    rw [hEmpty] at hHolding
    exact hHolding
  | advance e hPhase =>
    rw [hPhase] at hTracked
    obtain ⟨es, hListed, hList, hLocked, hHolding⟩ := hTracked
    have hErase : (s.listed t).erase e = es := by rw [hListed, List.erase_cons_head]
    refine ⟨?_, ?_⟩
    · dsimp only [nextEntry, goto]
      rw [Function.update_self, Function.update_self, hErase]
      exact ⟨hList.congr (setVar_self ..) fun x _ => setVar_inr s (.entry t) _ x, hLocked, hHolding⟩
    · dsimp only [nextEntry, goto]
      rw [Function.update_self]
      exact hNodup.erase e

end Invariant

/-! ## Runs -/

theorem tracks_of_run {links : Links (Var T) E} {s : State T E} {acts : List (T × Act E)}
    (hRun : Run (Guarded PushesApart Step) (init links) acts s) (t : T) : s.Tracks t := by
  refine hRun.invariant (fun s => ∀ t, s.Tracks t) (fun s a s' h hStep u => ?_) (fun t => ?_) t
  · have hMoves := moves_of_step hStep.1 hStep.2
    by_cases hu : u = a.1
    · rw [hu]
      exact hMoves.tracks (h a.1)
    · exact (h u).unmoved (hMoves.unmoved hu)
  · exact ⟨fun _ => rfl, List.nodup_nil⟩

/-- While no push changes a link that a call may still follow, every request locks in two phases. -/
theorem twoPhase_of_run {links : Links (Var T) E} {s : State T E} {acts : List (T × Act E)}
    (hRun : Run (Guarded PushesApart Step) (init links) acts s) : s.TwoPhase where
  listed t hPhase := by
    have hTracked := (tracks_of_run hRun t).tracked
    rw [hPhase] at hTracked
    obtain ⟨hList, hLocked, _⟩ := hTracked
    exact ⟨s.listed t, hList, hLocked ▸ .refl _⟩
  owned t e hPhase hSome := by
    have hTracked := (tracks_of_run hRun t).tracked
    rw [hPhase] at hTracked
    obtain ⟨hList, _, hHolding⟩ := hTracked
    rw [hHolding e]
    refine List.count_pos_iff.mpr (List.mem_of_mem_head? ?_)
    rw [← hList.head, hSome]
    rfl
  once t hPhase hNone := by
    have hTracked := (tracks_of_run hRun t).tracked
    rw [hPhase] at hTracked
    obtain ⟨hList, hLocked, _⟩ := hTracked
    have hEmpty : s.listed t = [] := by
      rw [← List.head?_eq_none_iff, ← hList.head, hNone]
    rw [hLocked, hEmpty, List.append_nil]
    exact (List.reverse_perm _).symm

/-! ## Overlapping ranges -/

section Schedules

def readTwo (t : Bool) (offset e : Nat) : List (Bool × Act Nat) :=
  [(t, .request .rd offset 8192), (t, .lock e .log4K), (t, .step)]

/-- Two requests on different blocks lock, and unlock; one of them is through its list. -/
def readApart : List (Bool × Act Nat) :=
  readTwo false 0 0 ++ readTwo true 8192 2 ++ [(false, .lock 1 .log4K), (false, .step), (true, .lock 3 .log4K),
    (true, .step), (false, .step), (true, .step), (false, .step), (false, .step), (true, .step), (false, .step),
    (false, .step), (true, .step), (false, .step)]

theorem twoPhase_readApart : ∃ s, Run (Guarded PushesApart Step) (init fun _ => none) readApart s ∧
    s.released false = [0, 1] ∧ s.released true = [3] ∧ s.TwoPhase := by
  have hRun : ∃ s, Run (Guarded PushesApart Step) (init fun _ => none) readApart s ∧
      s.released false = [0, 1] ∧ s.released true = [3] := by
    refine ⟨_, .cons ⟨trivial, rfl⟩ (.cons ⟨trivial, rfl⟩ (.cons ⟨?_, rfl⟩ (.cons ⟨trivial, rfl⟩
      (.cons ⟨trivial, rfl⟩ (.cons ⟨?_, rfl⟩ (.cons ⟨trivial, rfl⟩ (.cons ⟨?_, rfl⟩ (.cons ⟨trivial, rfl⟩
      (.cons ⟨?_, rfl⟩ (.cons ⟨?_, rfl⟩ (.cons ⟨?_, rfl⟩ (.cons ⟨?_, rfl⟩ (.cons ⟨?_, rfl⟩ (.cons ⟨?_, rfl⟩
      (.cons ⟨?_, rfl⟩ (.cons ⟨?_, rfl⟩ (.cons ⟨?_, rfl⟩ (.cons ⟨?_, rfl⟩ (.nil _))))))))))))))))))), rfl, rfl⟩
    all_goals
      intro r e size hPhase
      cases hPhase
      try exact .inr fun u => by cases u <;> decide
  obtain ⟨s, hRun, hReleased, hReleased'⟩ := hRun
  exact ⟨s, hRun, hReleased, hReleased', twoPhase_of_run hRun⟩

/-- While thread `false` has the entries 0 and 1 on its list, thread `true` pushes 1 to its own. -/
def readOverlapping : List (Bool × Act Nat) :=
  readTwo false 0 0 ++ [(false, .lock 1 .log4K), (false, .step)] ++ readTwo true 4096 1 ++ [(false, .step)]

theorem twoPhase_fails_overlapping : ∃ s, Run Step (init fun _ => none) readOverlapping s ∧ ¬ s.TwoPhase := by
  have hRun : ∃ s, Run Step (init fun _ => none) readOverlapping s ∧ s.phase false = .body ∧
      Linked s.links (.inl (.head false)) [1] ∧ s.locked false = [1, 0] := by
    refine ⟨_, .cons rfl (.cons rfl (.cons rfl (.cons rfl (.cons rfl (.cons rfl (.cons rfl (.cons rfl
      (.cons rfl (.nil _))))))))), rfl, ⟨rfl, rfl⟩, rfl⟩
  obtain ⟨s, hRun, hPhase, hList, hLocked⟩ := hRun
  refine ⟨s, hRun, fun hTwo => ?_⟩
  obtain ⟨es, hLinked, hPerm⟩ := hTwo.listed false hPhase
  rw [hLinked.unique hList, hLocked] at hPerm
  have hLength := hPerm.length_eq
  cases hLength

end Schedules

end State

end Libnvmmio.LockLists

import Mathlib.Tactic.Common

/-! # Stores to persistent memory

A trace of stores, flushes and fences over any kind of locations, which lie in
words. From it follow the memory afterwards, what is durable for certain, and
what a crash may leave: of the stores since the last fence each word keeps the
first few.
-/

namespace Libnvmmio.PersistentMemory

set_option autoImplicit false

universe u v w
variable {L : Type u} {V : L → Type v} {W : Type w} {word : L → W}

/-- A store, possibly to several words. -/
structure Store (V : L → Type v) (word : L → W) where
  data : (l : L) → Option (V l)
  touches : W → Bool
  touches_word : ∀ l, data l ≠ none → touches (word l) = true

inductive Event (V : L → Type v) (word : L → W) where
  | store (s : Store V word)
  /-- a store that needs no flush -/
  | ntstore (s : Store V word)
  | flush (covers : L → Bool)
  | fence

namespace Store

def apply (s : Store V word) (mem : (l : L) → V l) : (l : L) → V l := fun l => (s.data l).getD (mem l)

theorem apply_of_none {s : Store V word} {l : L} (h : s.data l = none) (mem : (l : L) → V l) :
    s.apply mem l = mem l := by
  rw [apply, h]
  rfl

def applyAll (stores : List (Store V word)) (mem : (l : L) → V l) : (l : L) → V l :=
  stores.foldl (fun mem s => s.apply mem) mem

theorem applyAll_append (stores stores' : List (Store V word)) (mem : (l : L) → V l) :
    applyAll (stores ++ stores') mem = applyAll stores' (applyAll stores mem) := List.foldl_append

theorem applyAll_of_none {stores : List (Store V word)} {l : L} (h : ∀ s ∈ stores, s.data l = none)
    (mem : (l : L) → V l) : applyAll stores mem l = mem l := by
  induction stores generalizing mem with
  | nil => rfl
  | cons s stores ih =>
    rw [applyAll, List.foldl_cons, ← applyAll, ih fun s' hs' => h s' (List.mem_cons_of_mem _ hs')]
    exact apply_of_none (h s List.mem_cons_self) mem

theorem applyAll_filter (stores : List (Store V word)) {l : L} {mem mem' : (l : L) → V l}
    (hMem : mem l = mem' l) :
    applyAll (stores.filter (·.touches (word l))) mem l = applyAll stores mem' l := by
  induction stores generalizing mem mem' with
  | nil => exact hMem
  | cons s stores ih =>
    cases hTouches : s.touches (word l) with
    | true =>
      rw [List.filter_cons_of_pos (by exact hTouches)]
      refine ih ?_
      show (s.data l).getD (mem l) = (s.data l).getD (mem' l)
      rw [hMem]
    | false =>
      rw [List.filter_cons_of_neg (by rw [hTouches]; exact Bool.false_ne_true)]
      have hNone : s.data l = none := by
        by_contra hData
        rw [s.touches_word l hData] at hTouches
        cases hTouches
      exact ih (hMem.trans (apply_of_none hNone mem').symm)

end Store

/-! ## The memory after a trace -/

namespace Event

def stored : Event V word → Option (Store V word)
  | .store s | .ntstore s => some s
  | .flush _ | .fence => none

end Event

def replay (events : List (Event V word)) (mem : (l : L) → V l) : (l : L) → V l :=
  Store.applyAll (events.filterMap Event.stored) mem

@[simp] theorem replay_nil (mem : (l : L) → V l) : replay ([] : List (Event V word)) mem = mem := rfl

@[simp] theorem replay_append (events events' : List (Event V word)) (mem : (l : L) → V l) :
    replay (events ++ events') mem = replay events' (replay events mem) := by
  rw [replay, List.filterMap_append, Store.applyAll_append]
  rfl

@[simp] theorem replay_store (s : Store V word) (events : List (Event V word)) (mem : (l : L) → V l) :
    replay (.store s :: events) mem = replay events (s.apply mem) := rfl

@[simp] theorem replay_ntstore (s : Store V word) (events : List (Event V word)) (mem : (l : L) → V l) :
    replay (.ntstore s :: events) mem = replay events (s.apply mem) := rfl

@[simp] theorem replay_flush (covers : L → Bool) (events : List (Event V word)) (mem : (l : L) → V l) :
    replay (.flush covers :: events) mem = replay events mem := rfl

@[simp] theorem replay_fence (events : List (Event V word)) (mem : (l : L) → V l) :
    replay (.fence :: events) mem = replay events mem := rfl

def Event.Avoids (l : L) : Event V word → Prop
  | .store s | .ntstore s => s.data l = none
  | .flush _ | .fence => True

theorem replay_of_avoids {events : List (Event V word)} {l : L} (h : ∀ event ∈ events, event.Avoids l)
    (mem : (l : L) → V l) : replay events mem l = mem l := by
  refine Store.applyAll_of_none (fun s hs => ?_) mem
  obtain ⟨event, hEvent, hStored⟩ := List.mem_filterMap.mp hs
  have hAvoids := h event hEvent
  cases event with
  | store s' =>
    cases hStored
    exact hAvoids
  | ntstore s' =>
    cases hStored
    exact hAvoids
  | flush covers => cases hStored
  | fence => cases hStored

/-! ## What is durable for certain -/

inductive Status where
  | dirty | flushed | durable
  deriving DecidableEq, Repr

def Event.status (l : L) (status : Status) : Event V word → Status
  | .store s => if (s.data l).isSome then .dirty else status
  | .ntstore s => if (s.data l).isSome then .flushed else status
  | .flush covers => if covers l then (if status = .dirty then .flushed else status) else status
  | .fence => if status = .dirty then .dirty else .durable

def statusAfter (events : List (Event V word)) (status : L → Status) : L → Status :=
  fun l => events.foldl (Event.status l) (status l)

@[simp] theorem statusAfter_nil (status : L → Status) : statusAfter ([] : List (Event V word)) status = status := rfl

@[simp] theorem statusAfter_append (events events' : List (Event V word)) (status : L → Status) :
    statusAfter (events ++ events') status = statusAfter events' (statusAfter events status) := by
  funext l
  exact List.foldl_append

theorem statusAfter_cons (event : Event V word) (events : List (Event V word)) (status : L → Status) :
    statusAfter (event :: events) status = statusAfter events (fun l => event.status l (status l)) := rfl

def Event.Spares (l : L) : Event V word → Prop
  | .store s => s.data l = none
  | _ => True

/-- Only a plain store makes a location dirty. -/
theorem not_dirty_of_spares {events : List (Event V word)} {l : L} (h : ∀ event ∈ events, event.Spares l)
    {status : L → Status} (hStatus : status l ≠ .dirty) : statusAfter events status l ≠ .dirty := by
  induction events generalizing status with
  | nil => exact hStatus
  | cons event events ih =>
    rw [statusAfter_cons]
    refine ih (fun event' hEvent => h event' (List.mem_cons_of_mem _ hEvent)) ?_
    have hSpares := h event List.mem_cons_self
    cases event with
    | store s =>
      rw [Event.status, show s.data l = none from hSpares]
      exact hStatus
    | ntstore s =>
      rw [Event.status]
      split
      · nofun
      · exact hStatus
    | flush covers =>
      rw [Event.status]
      split
      · exact hStatus
      · exact hStatus
    | fence =>
      rw [Event.status, if_neg hStatus]
      nofun

/-- A flush, or a store that needs none, at the end of a trace. -/
theorem not_dirty_of_flush (events : List (Event V word)) {covers : L → Bool} {l : L}
    (hCovers : covers l = true) (status : L → Status) :
    statusAfter (events ++ [.flush covers]) status l ≠ .dirty := by
  rw [statusAfter_append, statusAfter_cons, statusAfter_nil, Event.status, if_pos hCovers]
  split
  · nofun
  · assumption

theorem not_dirty_of_ntstore {events : List (Event V word)} {s : Store V word} {l : L}
    (hMem : .ntstore s ∈ events) (hData : s.data l ≠ none) (h : ∀ event ∈ events, event.Spares l)
    (status : L → Status) : statusAfter events status l ≠ .dirty := by
  obtain ⟨before, rest, rfl⟩ := List.append_of_mem hMem
  rw [statusAfter_append, statusAfter_cons]
  refine not_dirty_of_spares (fun event hEvent => h event ?_) ?_
  · exact List.mem_append_right _ (List.mem_cons_of_mem _ hEvent)
  · rw [Event.status, if_pos (Option.isSome_iff_ne_none.mpr hData)]
    nofun

theorem Event.Avoids.spares {event : Event V word} {l : L} (h : event.Avoids l) : event.Spares l := by
  cases event with
  | store s => exact h
  | _ => trivial

theorem statusAfter_fence (events : List (Event V word)) (status : L → Status) (l : L) :
    statusAfter (events ++ [.fence]) status l = if statusAfter events status l = .dirty then .dirty else .durable := by
  rw [statusAfter_append]
  rfl

/-- The event does not take a location out of the cache. -/
def Event.Leaves (l : L) : Event V word → Prop
  | .ntstore s => s.data l = none
  | .flush covers => covers l = false
  | _ => True

theorem dirty_of_leaves {events : List (Event V word)} {l : L} (h : ∀ event ∈ events, event.Leaves l)
    {status : L → Status} (hStatus : status l = .dirty) : statusAfter events status l = .dirty := by
  induction events generalizing status with
  | nil => exact hStatus
  | cons event events ih =>
    rw [statusAfter_cons]
    refine ih (fun event' hEvent => h event' (List.mem_cons_of_mem _ hEvent)) ?_
    have hLeaves := h event List.mem_cons_self
    cases event with
    | store s =>
      rw [Event.status]
      split
      · rfl
      · exact hStatus
    | ntstore s =>
      rw [Event.status, show s.data l = none from hLeaves]
      exact hStatus
    | flush covers =>
      rw [Event.status, show covers l = false from hLeaves]
      exact hStatus
    | fence => rw [Event.status, if_pos hStatus]

/-! ## What a crash leaves -/

/-- The stores since the last fence, over the memory that is durable. -/
structure Pending (V : L → Type v) (word : L → W) where
  base : (l : L) → V l
  stores : List (Store V word)

namespace Pending

def step (p : Pending V word) : Event V word → Pending V word
  | .store s | .ntstore s => ⟨p.base, p.stores ++ [s]⟩
  | .flush _ => p
  | .fence => ⟨Store.applyAll p.stores p.base, []⟩

def after (events : List (Event V word)) (p : Pending V word) : Pending V word := events.foldl step p

def current (p : Pending V word) : (l : L) → V l := Store.applyAll p.stores p.base

theorem current_after (events : List (Event V word)) (p : Pending V word) :
    (after events p).current = replay events p.current := by
  induction events generalizing p with
  | nil => rfl
  | cons event events ih =>
    rw [after, List.foldl_cons, ← after, ih]
    cases event with
    | store s => rw [step, current, Store.applyAll_append, replay_store]; rfl
    | ntstore s => rw [step, current, Store.applyAll_append, replay_ntstore]; rfl
    | flush covers => rfl
    | fence => rfl

theorem after_append (events events' : List (Event V word)) (p : Pending V word) :
    after (events ++ events') p = after events' (after events p) := List.foldl_append

/-- Without a fence no store leaves the pending ones. -/
theorem mem_stores_after {events : List (Event V word)} (hNoFence : ∀ event ∈ events, event ≠ .fence)
    {p : Pending V word} {s : Store V word}
    (h : s ∈ p.stores ∨ ∃ event ∈ events, event.stored = some s) : s ∈ (after events p).stores := by
  induction events generalizing p with
  | nil =>
    rcases h with hHere | ⟨_, hMem, _⟩
    · exact hHere
    · cases hMem
  | cons event events ih =>
    rw [after, List.foldl_cons, ← after]
    refine ih (fun event' hEvent => hNoFence event' (List.mem_cons_of_mem _ hEvent)) ?_
    rcases h with hHere | ⟨event', hMem, hStored⟩
    · refine .inl ?_
      cases event with
      | store s' => exact List.mem_append_left _ hHere
      | ntstore s' => exact List.mem_append_left _ hHere
      | flush covers => exact hHere
      | fence => exact absurd rfl (hNoFence _ List.mem_cons_self)
    · rcases List.mem_cons.mp hMem with rfl | hMem
      · refine .inl ?_
        cases event' with
        | store s' =>
          cases hStored
          exact List.mem_append_right _ List.mem_cons_self
        | ntstore s' =>
          cases hStored
          exact List.mem_append_right _ List.mem_cons_self
        | flush covers => cases hStored
        | fence => cases hStored
      · exact .inr ⟨event', hMem, hStored⟩

def toWord (p : Pending V word) (w : W) : List (Store V word) := p.stores.filter (·.touches w)

/-- The memory after a crash at which each word keeps the given number of its pending stores. -/
def survive (p : Pending V word) (keep : W → Nat) : (l : L) → V l :=
  fun l => Store.applyAll ((p.toWord (word l)).take (keep (word l))) p.base l

/-- The crash has not cost the location its latest store. -/
def LatestSurvives (p : Pending V word) (keep : W → Nat) (l : L) : Prop :=
  ∀ s ∈ (p.toWord (word l)).drop (keep (word l)), s.data l = none

theorem survive_eq_current {p : Pending V word} {keep : W → Nat} {l : L} (h : p.LatestSurvives keep l) :
    p.survive keep l = p.current l := by
  have hAll : Store.applyAll (p.toWord (word l)) p.base l = p.current l := Store.applyAll_filter _ rfl
  rw [← hAll, ← List.take_append_drop (keep (word l)) (p.toWord (word l)), Store.applyAll_append,
    Store.applyAll_of_none h]
  rfl

theorem latestSurvives_of_le {p : Pending V word} {keep : W → Nat} {l : L}
    (h : p.stores.length ≤ keep (word l)) : p.LatestSurvives keep l := by
  have hLength : (p.toWord (word l)).length ≤ keep (word l) := Nat.le_trans (List.length_filter_le _ _) h
  intro s hs
  rw [List.drop_eq_nil_of_le hLength] at hs
  cases hs

theorem not_latestSurvives_of_zero {p : Pending V word} {keep : W → Nat} {l : L} {s : Store V word}
    (hMem : s ∈ p.stores) (hData : s.data l ≠ none) (hKeep : keep (word l) = 0) :
    ¬ p.LatestSurvives keep l := by
  intro h
  refine hData (h s ?_)
  rw [hKeep, List.drop_zero]
  exact List.mem_filter.mpr ⟨hMem, s.touches_word l hData⟩

end Pending

end Libnvmmio.PersistentMemory

import Libnvmmio.Concurrent.Installed
import Libnvmmio.Concurrent.LockLists

/-! # Systems over the shared lists of entries

A request pushes each entry that it has locked to its list, and `UNLOCK_ENTRIES`
releases what it finds there; the link to the next entry lies in the entry. A
system whose requests release just what they hold is put over these lists. As
long as no store changes a link that is still to be followed, the two agree.
-/

namespace Libnvmmio.SharedLists

open EntrySlots (Hold Point acquire)
open GuardedRun LinkedLists Mmio
open LockLists (Var)

set_option autoImplicit false
set_option linter.unusedSectionVars false

variable {T S E σ α : Type}

/-- A system whose threads lock entries in slots and release what they hold. -/
structure Host (T S E σ α : Type) where
  Step : σ → T × α → σ → Prop
  Guard : σ → T × α → Prop
  /-- the guard, but for the entries being installed that are locked -/
  Proper : σ → T × α → Prop
  base : σ → EntrySlots.State T S E
  setBase : σ → EntrySlots.State T S E → σ
  /-- the access to entries that an act is -/
  entry : α → Option (EntrySlots.State.Act S E)
  AtUnlock : σ → T → Prop
  /-- the end of `UNLOCK_ENTRIES` -/
  Leaves : σ → T → α → Prop
  leave : σ → T → σ

structure Host.Lawful [DecidableEq T] [DecidableEq S] [DecidableEq E] (H : Host T S E σ α) : Prop where
  step_entry : ∀ s t a s' act, H.entry a = some act → H.Step s (t, a) s' → (H.base s).Step (t, act) (H.base s')
  step_other : ∀ s t a s', H.entry a = none → H.Step s (t, a) s' →
    H.base s' = H.base s ∨ ∃ p type, (H.base s).Step (t, .lock p type) (H.base s')
  step_atUnlock : ∀ s t a s' u, H.Step s (t, a) s' → u ≠ t → H.AtUnlock s u → H.AtUnlock s' u
  guard : ∀ s t a, H.Proper s (t, a) → (∀ act, H.entry a = some act → (H.base s).StillInstalled (t, act)) →
    H.Guard s (t, a)
  base_setBase : ∀ s b, H.base (H.setBase s b) = b
  setBase_base : ∀ s, H.setBase s (H.base s) = s
  atUnlock_setBase : ∀ s b u, b.calls = (H.base s).calls → H.AtUnlock s u → H.AtUnlock (H.setBase s b) u
  idle : ∀ s t, H.AtUnlock s t → (H.base s).calls t = .idle
  unlock : ∀ s t k b, H.AtUnlock s t → (H.base s).Step (t, .unlock k) b →
    ∃ a, Guarded H.Guard H.Step s (t, a) (H.setBase s b)
  leave : ∀ s t, H.AtUnlock s t → (H.base s).held t = [] → ∃ as, Run (Guarded H.Guard H.Step) s as (H.leave s t)
  base_leave : ∀ s t, H.base (H.leave s t) = H.base s
  atUnlock_leave : ∀ s t u, u ≠ t → H.AtUnlock s u → H.AtUnlock (H.leave s t) u

inductive Walk (E : Type) where
  | quiet
  /-- `slist_push`, the lock being taken -/
  | push (e : E)
  /-- the loop of `UNLOCK_ENTRIES`: its condition and `RWLOCK_UNLOCK` -/
  | unlock
  | advance (e : E)
  deriving DecidableEq

structure State (T E σ : Type) where
  host : σ
  /-- the pointers of the calls, and `next` of each entry -/
  links : Links (Var T) E
  walk : T → Walk E
  /-- the entries that a call has pushed and whose `next` it may still follow -/
  listed : T → List E
  /-- the entry that a thread is about to lock has been freed since it loaded it -/
  recycled : T → Bool

inductive Act (α : Type) where
  | host (a : α)
  /-- `UNLOCK_ENTRIES` begins -/
  | unlockEntries
  | list

def init (host : σ) (next : E → Option E) : State T E σ where
  host := host
  links := Sum.elim (fun _ => none) next
  walk _ := .quiet
  listed _ := []
  recycled _ := false

/-- `pthread_rwlock_unlock`, which does not look at who the holders are: a thread that is
none of them takes the place of one. -/
def rwlockUnlock [DecidableEq T] (t : T) : RwLock T → Option (RwLock T)
  | .writing _ => some .free
  | .reading [] => none
  | .reading (u :: us) => some (.reading (if t ∈ u :: us then (u :: us).erase t else us))

namespace State

variable [DecidableEq T] [DecidableEq S] [DecidableEq E]

def freed (b : EntrySlots.State T S E) (t : T) : EntrySlots.State.Act S E → Option E
  | .access =>
    match b.calls t with
    | .drop _ _ e | .ckptFree _ e => some e
    | _ => none
  | _ => none

def Takes (b : EntrySlots.State T S E) (t : T) : Prop :=
  match b.calls t with
  | .trylock _ type e => acquire type t (b.locks e) ≠ none
  | .ckptTrylock _ e => (b.locks e).wrlock t ≠ none
  | _ => False

/-- The access of one thread recycles the entry that another is about to lock. -/
def recycledAfter (b : EntrySlots.State T S E) (recycled : T → Bool) (t : T) (act : EntrySlots.State.Act S E)
    (u : T) : Bool :=
  if u = t then false
  else recycled u || (freed b t act).any fun e => ((b.calls u).source.map Prod.snd) == some e

/-- `alloc_idx_entry` clears the link of the entry. -/
def linksAfter (links : Links (Var T) E) : Option (EntrySlots.State.Act S E) → Links (Var T) E
  | some (.alloc e) => Function.update links (.inr e) none
  | _ => links

/-- A thread that has locked an entry goes on to push it. -/
def walkAfter (hs : List (Hold S E)) : List (Hold S E) → Walk E
  | h :: hs' => if hs' = hs then .push h.entry else .quiet
  | [] => .quiet

variable (H : Host T S E σ α)

def hosted (s : State T E σ) (t : T) (a : α) (host : σ) : State T E σ where
  host := host
  links := linksAfter s.links (H.entry a)
  walk := Function.update s.walk t (walkAfter ((H.base s.host).held t) ((H.base host).held t))
  listed := s.listed
  recycled :=
    match H.entry a with
    | some act => recycledAfter (H.base s.host) s.recycled t act
    | none => s.recycled

def pushEntry (s : State T E σ) (t : T) (e : E) : State T E σ :=
  { s with
    links := push s.links e (.head t)
    walk := Function.update s.walk t .quiet
    listed := Function.update s.listed t (e :: s.listed t) }

def firstEntry (s : State T E σ) (t : T) : State T E σ :=
  { s with
    links := assign s.links (.entry t) (s.links (.inl (.head t)))
    walk := Function.update s.walk t .unlock }

/-- The thread gives up a hold on the entry if it has one. -/
def release (s : State T E σ) (t : T) (e : E) (l : RwLock T) : State T E σ :=
  let b := H.base s.host
  { s with
    host := H.setBase s.host ((b.setLock e l).setHeld t ((b.held t).eraseP fun k => k.entry = e))
    walk := Function.update s.walk t (.advance e) }

def nextEntry (s : State T E σ) (t : T) (e : E) : State T E σ :=
  { s with
    links := assign s.links (.entry t) (s.links (.inr e))
    walk := Function.update s.walk t .unlock
    listed := Function.update s.listed t ((s.listed t).erase e) }

/-- The variables of the call end with it, and the next call begins with an empty list. -/
def finish (s : State T E σ) (t : T) : State T E σ :=
  { s with
    host := H.leave (H.setBase s.host ((H.base s.host).setHeld t [])) t
    links := assign s.links (.head t) none
    walk := Function.update s.walk t .quiet
    listed := Function.update s.listed t [] }

inductive Step (s : State T E σ) (t : T) : Act α → State T E σ → Prop where
  | host (a : α) (host : σ) (hWalk : s.walk t = .quiet) (hLeaves : ¬ H.Leaves s.host t a)
      (hUnlock : ∀ k, H.entry a ≠ some (.unlock k)) (hStep : H.Step s.host (t, a) host) :
      Step s t (.host a) (s.hosted H t a host)
  | push (e : E) (hWalk : s.walk t = .push e) : Step s t .list (s.pushEntry t e)
  | first (hWalk : s.walk t = .quiet) (hAt : H.AtUnlock s.host t) : Step s t .unlockEntries (s.firstEntry t)
  | release (e : E) (l : RwLock T) (hWalk : s.walk t = .unlock) (hEntry : s.links (.inl (.entry t)) = some e)
      (hUnlock : rwlockUnlock t ((H.base s.host).locks e) = some l) : Step s t .list (s.release H t e l)
  | advance (e : E) (hWalk : s.walk t = .advance e) : Step s t .list (s.nextEntry t e)
  | finish (hWalk : s.walk t = .unlock) (hEntry : s.links (.inl (.entry t)) = none) :
      Step s t .list (s.finish H t)

/-- An entry that is locked has not been freed since it was loaded. -/
def Unrecycled (s : State T E σ) : T × Act α → Prop
  | (t, .host a) => H.entry a = some .access → Takes (H.base s.host) t → s.recycled t = false
  | _ => True

/-- A store to the link of an entry changes no link that some call may still follow. -/
def StoresApart (s : State T E σ) : T × Act α → Prop
  | (_, .host a) => ∀ e, H.entry a = some (.alloc e) → s.links (.inr e) = none ∨ ∀ u, e ∉ s.listed u
  | (t, .list) => ∀ e, s.walk t = .push e → s.links (.inr e) = s.links (.inl (.head t)) ∨ ∀ u, e ∉ s.listed u
  | _ => True

structure Proper (s : State T E σ) (a : T × Act α) : Prop where
  unrecycled : Unrecycled H s a
  apart : StoresApart H s a
  host : ∀ b, a.2 = .host b → H.Proper s.host (a.1, b)

theorem proper_host {s : State T E σ} {t : T} {a : α} (hRecycled : s.recycled t = false)
    (hApart : ∀ e, H.entry a = some (.alloc e) → s.links (.inr e) = none) (hProper : H.Proper s.host (t, a)) :
    Proper H s (t, .host a) :=
  ⟨fun _ _ => hRecycled, fun e hAlloc => .inl (hApart e hAlloc), fun _ hEq => by cases hEq; exact hProper⟩

theorem proper_push {s : State T E σ} {t : T} {e : E} (hWalk : s.walk t = .push e) (hFree : ∀ u, e ∉ s.listed u) :
    Proper H s (t, .list) := by
  refine ⟨trivial, fun x hPush => .inr fun u => ?_, fun _ hEq => by cases hEq⟩
  cases hWalk.symm.trans hPush
  exact hFree u

theorem proper_walk {s : State T E σ} {t : T} {w : Walk E} (hWalk : s.walk t = w) (hPush : ∀ e, w ≠ .push e) :
    Proper H s (t, .list) :=
  ⟨trivial, fun e hEq => absurd (hWalk.symm.trans hEq) (hPush e), fun _ hEq => by cases hEq⟩

theorem proper_unlockEntries {s : State T E σ} {t : T} : Proper H s (t, .unlockEntries) :=
  ⟨trivial, trivial, fun _ hEq => by cases hEq⟩

abbrev Runs : State T E σ → List (T × Act α) → State T E σ → Prop :=
  Run (Guarded (Proper H) fun s a s' => Step H s a.1 a.2 s')

/-! ## Recycled entries -/

section Base

variable {b b' : EntrySlots.State T S E} {t u : T} {act : EntrySlots.State.Act S E} {recycled : T → Bool}

/-- An entry that is about to be locked, and that has not been freed since it was loaded, is
still in its slot, or its slot has been cleared and the entry is about to be freed. -/
def Fresh (b : EntrySlots.State T S E) (recycled : T → Bool) : Prop :=
  ∀ u p e, (b.calls u).source = some (p, e) → recycled u = false →
    b.slots p = some e ∨ ∃ v, b.calls v = .ckptFree p e

theorem source_of_effect (h : b.Effect t act b') {p : S} {e : E} (hSource : (b'.calls t).source = some (p, e)) :
    b'.slots p = some e := by
  cases h with
  | move c hQuiet =>
    rw [EntrySlots.State.goto_self] at hSource
    exact hQuiet.loaded p e hSource
  | unlock k l hIdle _ _ _ =>
    have hCall : (b.calls t).source = some (p, e) := hSource
    rw [hIdle] at hCall
    cases hCall
  | install q type e' _ _ =>
    rw [EntrySlots.State.goto_self] at hSource
    cases hSource
    exact Function.update_self ..
  | free e' c _ _ _ _ hUnloaded =>
    rw [EntrySlots.State.goto_self, hUnloaded] at hSource
    cases hSource
  | _ =>
    rw [EntrySlots.State.goto_self] at hSource
    cases hSource

/-- Only the thread itself frees the entry whose slot it has cleared. -/
theorem freed_of_step (h : b.Step (t, act) b') {p : S} {e : E} (hCall : b.calls t = .ckptFree p e) :
    freed b t act = some e := by
  unfold EntrySlots.State.Step EntrySlots.State.next at h
  cases act with
  | access =>
    unfold freed
    rw [hCall]
  | lock q type | unlock k | checkpoint q => simp [hCall] at h
  | alloc e' | test stale =>
    simp only [hCall] at h
    cases h

theorem Fresh.step (h : Fresh b recycled) (hSettled : b.Settled) (hStep : b.Step (t, act) b') :
    Fresh b' (recycledAfter b recycled t act) := by
  have hEffect := EntrySlots.State.step_effect hStep
  intro u p e hSource hRecycled
  by_cases hu : u = t
  · rw [hu] at hSource
    exact .inl (source_of_effect hEffect hSource)
  · rw [(hEffect.other hu).1] at hSource
    unfold recycledAfter at hRecycled
    rw [if_neg hu, Bool.or_eq_false_iff, hSource] at hRecycled
    obtain ⟨hWas, hKept⟩ := hRecycled
    rcases h u p e hSource hWas with hSlot | ⟨v, hFree⟩
    · cases hEffect with
      | install q type e' _ hEmpty =>
        refine .inl ((Function.update_of_ne ?_ ..).trans hSlot)
        rintro rfl
        rw [hEmpty] at hSlot
        cases hSlot
      | clear q e' hTest =>
        by_cases hp : p = q
        · -- the slot is cleared, and its entry is about to be freed
          subst hp
          have hThere := hSettled.anchored.test t p e' hTest
          rw [hSlot] at hThere
          cases hThere
          exact .inr ⟨t, EntrySlots.State.goto_self ..⟩
        · exact .inl ((Function.update_of_ne hp ..).trans hSlot)
      | _ => exact .inl hSlot
    · by_cases hv : v = t
      · rw [hv] at hFree
        rw [freed_of_step hStep hFree] at hKept
        simp at hKept
      · exact .inr ⟨v, (hEffect.other hv).1.trans hFree⟩

theorem Fresh.mono {recycled' : T → Bool} (h : Fresh b recycled) (hLe : ∀ u, recycled' u = false → recycled u = false) :
    Fresh b recycled' := fun u p e hSource hKept => h u p e hSource (hLe u hKept)

theorem recycledAfter_lock {p : S} {type : LockType} (h : recycled u = false) :
    recycledAfter b recycled t (.lock p type) u = false := by
  unfold recycledAfter
  rw [h]
  split <;> rfl

theorem writes_of_acquire {type : LockType} {l : RwLock T} (h : acquire type t l ≠ none) (u : T) : l.writes u = 0 := by
  obtain ⟨l', hLock⟩ := Option.ne_none_iff_exists'.mp h
  cases type with
  | rd => exact (RwLock.rdlock_eq_some hLock).2.1 u
  | wr => rw [(RwLock.wrlock_eq_some hLock).1, RwLock.writes_free]

/-- An entry whose slot has been cleared stays locked until it is freed. -/
theorem writes_of_ckptFree (hSettled : b.Settled) {p : S} {e : E} (hCall : b.calls u = .ckptFree p e) :
    0 < (b.locks e).writes u := by
  have hWriting : (b.calls u).writing = some e := congrArg Point.writing hCall
  rw [hSettled.accounted.writes e (hSettled.placed.not_pooled_of_writing hSettled.anchored hWriting), if_pos hWriting]
  omega

theorem Fresh.stillInstalled (h : Fresh b recycled) (hSettled : b.Settled)
    (hTakes : act = .access → Takes b t → recycled t = false) : b.StillInstalled (t, act) := by
  have hKept : ∀ p e type, (b.calls t).source = some (p, e) → recycled t = false →
      acquire type t (b.locks e) ≠ none → b.slots p = some e := by
    intro p e type hSource hRecycled hLock
    rcases h t p e hSource hRecycled with hSlot | ⟨v, hFree⟩
    · exact hSlot
    · have hWrites := writes_of_ckptFree hSettled hFree
      rw [writes_of_acquire hLock] at hWrites
      exact absurd hWrites (Nat.lt_irrefl 0)
  cases act with
  | access =>
    have hNone := hTakes rfl
    unfold Takes at hNone
    unfold EntrySlots.State.StillInstalled
    dsimp only
    split
    · rename_i p type e hCall
      rw [hCall] at hNone hKept
      exact fun hLock => hKept p e type rfl (hNone hLock) hLock
    · rename_i p e hCall
      rw [hCall] at hNone hKept
      exact fun hLock => hKept p e .wr rfl (hNone hLock) hLock
    · trivial
  | _ => trivial

end Base

/-! ## The lists -/

variable {H} {s s' : State T E σ} {t u : T} {host : σ}

def entries (b : EntrySlots.State T S E) (t : T) : List E := (b.held t).map Hold.entry

variable (H) in
def Tracked (s : State T E σ) (t : T) : Walk E → Prop
  | .quiet => Linked s.links (.inl (.head t)) (s.listed t) ∧ entries (H.base s.host) t = s.listed t
  | .push e => Linked s.links (.inl (.head t)) (s.listed t) ∧ entries (H.base s.host) t = e :: s.listed t
  | .unlock => Linked s.links (.inl (.entry t)) (s.listed t) ∧ entries (H.base s.host) t = s.listed t ∧
      H.AtUnlock s.host t
  | .advance e => ∃ es, s.listed t = e :: es ∧ Linked s.links (.inr e) es ∧ entries (H.base s.host) t = es ∧
      H.AtUnlock s.host t

variable (H) in
structure Inv (s : State T E σ) : Prop where
  settled : (H.base s.host).Settled
  fresh : Fresh (H.base s.host) s.recycled
  tracked : ∀ t, Tracked H s t (s.walk t)
  nodup : ∀ t, (s.listed t).Nodup

structure Unmoved (H : Host T S E σ α) (s s' : State T E σ) (u : T) : Prop where
  walk : s'.walk u = s.walk u
  listed : s'.listed u = s.listed u
  held : (H.base s'.host).held u = (H.base s.host).held u
  head : s'.links (.inl (.head u)) = s.links (.inl (.head u))
  entry : s'.links (.inl (.entry u)) = s.links (.inl (.entry u))
  nodes : ∀ e ∈ s.listed u, s'.links (.inr e) = s.links (.inr e)
  atUnlock : H.AtUnlock s.host u → H.AtUnlock s'.host u

theorem Unmoved.tracked (h : Unmoved H s s' u) (hTracked : Tracked H s u (s.walk u)) :
    Tracked H s' u (s'.walk u) := by
  have hEntries : entries (H.base s'.host) u = entries (H.base s.host) u := congrArg _ h.held
  rw [h.walk]
  cases hWalk : s.walk u with
  | quiet | push e =>
    rw [hWalk] at hTracked
    obtain ⟨hList, hHeld⟩ := hTracked
    unfold Tracked
    rw [h.listed, hEntries]
    exact ⟨hList.congr h.head h.nodes, hHeld⟩
  | unlock =>
    rw [hWalk] at hTracked
    obtain ⟨hList, hHeld, hAt⟩ := hTracked
    unfold Tracked
    rw [h.listed, hEntries]
    exact ⟨hList.congr h.entry h.nodes, hHeld, h.atUnlock hAt⟩
  | advance e =>
    rw [hWalk] at hTracked
    obtain ⟨es, hListed, hList, hHeld, hAt⟩ := hTracked
    have hNodes := h.nodes
    rw [hListed] at hNodes
    refine ⟨es, h.listed.trans hListed, hList.congr (hNodes e List.mem_cons_self) fun x hx => ?_,
      hEntries.trans hHeld, h.atUnlock hAt⟩
    exact hNodes x (List.mem_cons_of_mem e hx)

/-- A step of one thread, as far as its own list and the others go. -/
theorem Inv.next (h : Inv H s) (hSettled : (H.base s'.host).Settled) (hFresh : Fresh (H.base s'.host) s'.recycled)
    (hOther : ∀ u, u ≠ t → Unmoved H s s' u) (hHere : Tracked H s' t (s'.walk t)) (hNodup : (s'.listed t).Nodup) :
    Inv H s' := by
  refine ⟨hSettled, hFresh, fun u => ?_, fun u => ?_⟩
  · by_cases hu : u = t
    · rw [hu]
      exact hHere
    · exact (hOther u hu).tracked (h.tracked u)
  · by_cases hu : u = t
    · rw [hu]
      exact hNodup
    · rw [(hOther u hu).listed]
      exact h.nodup u

/-! ## Steps of the system -/

theorem linksAfter_inl (links : Links (Var T) E) (act : Option (EntrySlots.State.Act S E)) (x : Var T) :
    linksAfter links act (.inl x) = links (.inl x) := by
  unfold linksAfter
  split
  · exact Function.update_of_ne (fun hEq => by cases hEq) ..
  · rfl

theorem linksAfter_inr {links : Links (Var T) E} {act : Option (EntrySlots.State.Act S E)} {x : E}
    (hApart : ∀ e, act = some (.alloc e) → links (.inr e) = none ∨ x ≠ e) :
    linksAfter links act (.inr x) = links (.inr x) := by
  unfold linksAfter
  split
  · rename_i e
    by_cases hx : x = e
    · subst hx
      rcases hApart x rfl with hNone | hne
      · rw [Function.update_self, hNone]
      · exact absurd rfl hne
    · exact Function.update_of_ne (fun hEq => hx (Sum.inr.inj hEq)) ..
  · rfl

/-- An access takes at most one lock, and releases none but by `unlock`. -/
theorem held_of_step {b b' : EntrySlots.State T S E} {act : EntrySlots.State.Act S E} (hStep : b.Step (t, act) b')
    (hUnlock : ∀ k, act ≠ .unlock k) : b'.held t = b.held t ∨ ∃ k, b'.held t = k :: b.held t := by
  cases EntrySlots.State.step_effect hStep with
  | unlock k _ _ _ _ hAct => exact absurd hAct (hUnlock k)
  | take p type e l _ _ _ => exact .inr ⟨_, Function.update_self ..⟩
  | _ => exact .inl rfl

section Hosted

variable (hH : H.Lawful) {a : α} (hStep : H.Step s.host (t, a) host)

include hH hStep

/-- An act of the system as an access to the entries, if it is one. -/
theorem base_cases : H.base host = H.base s.host ∧ H.entry a = none ∨
    ∃ act, (H.base s.host).Step (t, act) (H.base host) ∧
      (H.entry a = some act ∨ H.entry a = none ∧ ∃ p type, act = .lock p type) := by
  cases hEntry : H.entry a with
  | some act => exact .inr ⟨act, hH.step_entry _ _ _ _ _ hEntry hStep, .inl rfl⟩
  | none =>
    rcases hH.step_other _ _ _ _ hEntry hStep with hSame | ⟨p, type, hLock⟩
    · exact .inl ⟨hSame, rfl⟩
    · exact .inr ⟨_, hLock, .inr ⟨rfl, p, type, rfl⟩⟩

theorem hosted_unmoved (hApart : StoresApart H s (t, .host a)) (hu : u ≠ t) : Unmoved H s (s.hosted H t a host) u := by
  refine ⟨Function.update_of_ne hu .., rfl, ?_, linksAfter_inl .., linksAfter_inl .., fun x hx => ?_,
    hH.step_atUnlock _ _ _ _ _ hStep hu⟩
  · rcases base_cases hH hStep with ⟨hSame, _⟩ | ⟨act, hBase, _⟩
    · exact congrArg (fun b => b.held u) hSame
    · exact ((EntrySlots.State.step_effect hBase).other hu).2
  · refine linksAfter_inr fun e hAlloc => ?_
    rcases hApart e hAlloc with hNone | hFree
    · exact .inl hNone
    · exact .inr fun hEq => hFree u (hEq ▸ hx)

theorem hosted_tracked (hApart : StoresApart H s (t, .host a)) (hUnlock : ∀ k, H.entry a ≠ some (.unlock k))
    (hTracked : Tracked H s t .quiet) :
    Tracked H (s.hosted H t a host) t ((s.hosted H t a host).walk t) := by
  obtain ⟨hList, hHeld⟩ := hTracked
  have hList' : Linked (s.hosted H t a host).links (.inl (.head t)) (s.listed t) := by
    refine hList.congr (linksAfter_inl ..) fun x hx => linksAfter_inr fun e hAlloc => ?_
    rcases hApart e hAlloc with hNone | hFree
    · exact .inl hNone
    · exact .inr fun hEq => hFree t (hEq ▸ hx)
  have hNext : (H.base host).held t = (H.base s.host).held t ∨
      ∃ k, (H.base host).held t = k :: (H.base s.host).held t := by
    rcases base_cases hH hStep with ⟨hSame, _⟩ | ⟨act, hBase, hAct⟩
    · exact .inl (congrArg (fun b => b.held t) hSame)
    · refine held_of_step hBase fun k hIs => ?_
      rcases hAct with hEntry | ⟨_, p, type, hLock⟩
      · exact hUnlock k (hIs ▸ hEntry)
      · rw [hIs] at hLock
        cases hLock
  have hAfter : (s.hosted H t a host).walk t =
      walkAfter ((H.base s.host).held t) ((H.base host).held t) := Function.update_self ..
  rw [hAfter]
  rcases hNext with hSame | ⟨k, hCons⟩
  · have hQuiet : walkAfter ((H.base s.host).held t) ((H.base host).held t) = .quiet := by
      rw [hSame]
      cases (H.base s.host).held t with
      | nil => rfl
      | cons k ks => exact if_neg fun hEq => List.cons_ne_self k ks hEq.symm
    rw [hQuiet]
    exact ⟨hList', (congrArg _ hSame).trans hHeld⟩
  · rw [hCons]
    have hPush : walkAfter ((H.base s.host).held t) (k :: (H.base s.host).held t) = .push k.entry := if_pos rfl
    rw [hPush]
    refine ⟨hList', ?_⟩
    change ((H.base host).held t).map Hold.entry = _
    rw [hCons, List.map_cons]
    exact congrArg (k.entry :: ·) hHeld

theorem Inv.hosted (h : Inv H s) (hProper : Proper H s (t, .host a)) (hWalk : s.walk t = .quiet)
    (hUnlock : ∀ k, H.entry a ≠ some (.unlock k)) :
    H.Guard s.host (t, a) ∧ Inv H (s.hosted H t a host) := by
  have hInstalled : ∀ act, H.entry a = some act → (H.base s.host).StillInstalled (t, act) := by
    intro act hEntry
    refine h.fresh.stillInstalled h.settled fun hAccess hTakes => ?_
    exact hProper.unrecycled (hAccess ▸ hEntry) hTakes
  have hQuiet := h.tracked t
  rw [hWalk] at hQuiet
  refine ⟨hH.guard _ _ _ (hProper.host a rfl) hInstalled, h.next (t := t) ?_ ?_
    (fun u hu => hosted_unmoved hH hStep hProper.apart hu)
    (hosted_tracked hH hStep hProper.apart hUnlock hQuiet) (h.nodup t)⟩
  · rcases base_cases hH hStep with ⟨hSame, _⟩ | ⟨act, hBase, hAct⟩
    · exact hSame ▸ h.settled
    · refine h.settled.step ⟨?_, hBase⟩
      rcases hAct with hEntry | ⟨_, p, type, rfl⟩
      · exact hInstalled act hEntry
      · trivial
  · change Fresh (H.base host) (match H.entry a with
      | some act => recycledAfter (H.base s.host) s.recycled t act
      | none => s.recycled)
    rcases base_cases hH hStep with ⟨hSame, hEntry⟩ | ⟨act, hBase, hAct⟩
    · rw [hSame, hEntry]
      exact h.fresh
    · rcases hAct with hEntry | ⟨hEntry, p, type, rfl⟩
      · rw [hEntry]
        exact h.fresh.step h.settled hBase
      · rw [hEntry]
        exact (h.fresh.step h.settled hBase).mono fun u hu => recycledAfter_lock hu

end Hosted

/-! ## Steps on the lists -/

theorem Inv.pushEntry (h : Inv H s) {e : E} (hProper : Proper H s (t, .list)) (hWalk : s.walk t = .push e) :
    Inv H (s.pushEntry t e) := by
  have hTracked := h.tracked t
  rw [hWalk] at hTracked
  obtain ⟨hList, hHeld⟩ := hTracked
  have hApart := hProper.apart e hWalk
  have hNew : e ∉ s.listed t := by
    rcases hApart with hSame | hFree
    · exact hList.not_mem_of_eq hSame
    · exact hFree t
  have hListed : (s.pushEntry t e).listed t = e :: s.listed t := Function.update_self ..
  refine h.next (t := t) h.settled h.fresh (fun u hu => ?_) ?_ ?_
  · have hHead : Var.head u ≠ .head t := fun hEq => hu (Var.head.inj hEq)
    have hCross : Var.entry u ≠ .head t := nofun
    refine ⟨Function.update_of_ne hu .., Function.update_of_ne hu .., rfl, push_inl_of_ne hHead,
      @push_inl_of_ne _ _ _ _ s.links _ e _ hCross, fun x hx => ?_, id⟩
    -- the entry of the push may be on the other list if its link stays as it is
    by_cases hxe : x = e
    · rcases hApart with hSame | hFree
      · rw [hxe]
        exact push_inr_self.trans hSame.symm
      · exact absurd (hxe ▸ hx) (hFree u)
    · exact push_inr_of_ne hxe
  · rw [show (s.pushEntry t e).walk t = .quiet from Function.update_self ..]
    unfold Tracked
    rw [hListed]
    exact ⟨linked_push hList hNew, hHeld⟩
  · rw [hListed]
    exact List.nodup_cons.mpr ⟨hNew, h.nodup t⟩

/-- A step of the loop of `UNLOCK_ENTRIES` that moves its variable on. -/
theorem Inv.follow (h : Inv H s) {c : Var T ⊕ E} {es : List E} (hList : Linked s.links c es)
    (hListed : s'.listed t = es) (hOther : ∀ u, u ≠ t → s'.listed u = s.listed u ∧ s'.walk u = s.walk u)
    (hWalk : s'.walk t = .unlock) (hLinks : s'.links = assign s.links (.entry t) (s.links c))
    (hHost : s'.host = s.host ∧ s'.recycled = s.recycled) (hHeld : entries (H.base s.host) t = es)
    (hAt : H.AtUnlock s.host t) (hNodup : es.Nodup) : Inv H s' := by
  obtain ⟨hSame, hRecycled⟩ := hHost
  refine h.next (t := t) (hSame ▸ h.settled) (hSame ▸ hRecycled ▸ h.fresh) (fun u hu => ?_) ?_ (hListed ▸ hNodup)
  · have hEntry : Var.entry u ≠ .entry t := fun hEq => hu (Var.entry.inj hEq)
    have hCross : Var.head u ≠ .entry t := nofun
    refine ⟨(hOther u hu).2, (hOther u hu).1, by rw [hSame], ?_, ?_, fun x _ => ?_, fun hIs => hSame ▸ hIs⟩
    · rw [hLinks, assign_inl_of_ne hCross]
    · rw [hLinks, assign_inl_of_ne hEntry]
    · rw [hLinks, assign_inr]
  · rw [hWalk]
    unfold Tracked
    rw [hListed, hSame, hLinks]
    exact ⟨hList.congr (assign_self ..) fun x _ => assign_inr .., hHeld, hAt⟩

theorem Inv.firstEntry (h : Inv H s) (hWalk : s.walk t = .quiet) (hAt : H.AtUnlock s.host t) :
    Inv H (s.firstEntry t) := by
  have hTracked := h.tracked t
  rw [hWalk] at hTracked
  exact h.follow hTracked.1 rfl (fun u hu => ⟨rfl, Function.update_of_ne hu ..⟩) (Function.update_self ..) rfl
    ⟨rfl, rfl⟩ hTracked.2 hAt (h.nodup t)

theorem Inv.nextEntry (h : Inv H s) {e : E} (hWalk : s.walk t = .advance e) : Inv H (s.nextEntry t e) := by
  have hTracked := h.tracked t
  rw [hWalk] at hTracked
  obtain ⟨es, hListed, hList, hHeld, hAt⟩ := hTracked
  have hNodup := h.nodup t
  rw [hListed] at hNodup
  refine h.follow hList ?_ (fun u hu => ⟨Function.update_of_ne hu .., Function.update_of_ne hu ..⟩)
    (Function.update_self ..) rfl ⟨rfl, rfl⟩ hHeld hAt (List.nodup_cons.mp hNodup).2
  refine (Function.update_self ..).trans ?_
  rw [hListed, List.erase_cons_head]

theorem rwlockUnlock_of_unlock {l l' : RwLock T} (h : l.unlock t = some l') : rwlockUnlock t l = some l' := by
  cases l with
  | writing w =>
    obtain ⟨_, hDone⟩ := Option.ite_none_right_eq_some.mp h
    exact hDone
  | reading ts =>
    obtain ⟨hMem, hDone⟩ := Option.ite_none_right_eq_some.mp h
    cases ts with
    | nil => cases hMem
    | cons u us =>
      rw [rwlockUnlock, if_pos hMem]
      exact hDone

/-- The entry that `UNLOCK_ENTRIES` releases is the last one that the call has locked. -/
theorem Inv.release (hH : H.Lawful) (h : Inv H s) {e : E} {l : RwLock T} (hWalk : s.walk t = .unlock)
    (hEntry : s.links (.inl (.entry t)) = some e) (hUnlock : rwlockUnlock t ((H.base s.host).locks e) = some l) :
    (∃ a, Guarded H.Guard H.Step s.host (t, a) (s.release H t e l).host) ∧ Inv H (s.release H t e l) := by
  have hTracked := h.tracked t
  rw [hWalk] at hTracked
  obtain ⟨hList, hHeld, hAt⟩ := hTracked
  obtain ⟨es, hListed⟩ : ∃ es, s.listed t = e :: es := by
    have hHead := hList.head.symm.trans hEntry
    cases hAll : s.listed t with
    | nil =>
      rw [hAll] at hHead
      cases hHead
    | cons x es =>
      rw [hAll] at hHead
      cases hHead
      exact ⟨es, rfl⟩
  obtain ⟨k, ks, hHolds, rfl, hRest⟩ : ∃ k ks, (H.base s.host).held t = k :: ks ∧ k.entry = e ∧
      ks.map Hold.entry = es := by
    rw [hListed] at hHeld
    unfold entries at hHeld
    cases hAll : (H.base s.host).held t with
    | nil =>
      rw [hAll] at hHeld
      cases hHeld
    | cons k ks =>
      rw [hAll, List.map_cons] at hHeld
      obtain ⟨hFirst, hMore⟩ := List.cons.inj hHeld
      exact ⟨k, ks, rfl, hFirst, hMore⟩
  have hMem : k ∈ (H.base s.host).held t := by
    rw [hHolds]
    exact List.mem_cons_self
  -- the call has the lock, so that it is its own hold that goes
  have hBase : (H.base s.host).Step (t, .unlock k)
      (((H.base s.host).setLock k.entry l).setHeld t
        (((H.base s.host).held t).eraseP fun k' => k'.entry = k.entry)) := by
    obtain ⟨l', hExact⟩ := h.settled.exists_unlock hMem
    cases (rwlockUnlock_of_unlock hExact).symm.trans hUnlock
    refine (if_pos ⟨hH.idle _ _ hAt, hMem⟩).trans ?_
    rw [hExact, hHolds, List.erase_cons_head, List.eraseP_cons_of_pos (by simp)]
    rfl
  obtain ⟨a, hStep⟩ := hH.unlock _ _ _ _ hAt hBase
  have hSet := hH.base_setBase s.host (((H.base s.host).setLock k.entry l).setHeld t
    (((H.base s.host).held t).eraseP fun k' => k'.entry = k.entry))
  have hErased : ((H.base s.host).held t).eraseP (fun k' => k'.entry = k.entry) = ks := by
    rw [hHolds, List.eraseP_cons_of_pos (by simp)]
  have hAtUnlock : ∀ u, H.AtUnlock s.host u → H.AtUnlock (s.release H t k.entry l).host u :=
    fun u hIs => hH.atUnlock_setBase _ _ _ rfl hIs
  refine ⟨⟨a, hStep⟩, h.next (t := t) ?_ ?_ (fun u hu => ?_) ?_ (h.nodup t)⟩
  · change (H.base (H.setBase _ _)).Settled
    rw [hSet]
    exact h.settled.step (a := (t, .unlock k)) ⟨trivial, hBase⟩
  · change Fresh (H.base (H.setBase _ _)) s.recycled
    rw [hSet]
    exact h.fresh
  · refine ⟨Function.update_of_ne hu .., rfl, ?_, rfl, rfl, fun _ _ => rfl, hAtUnlock u⟩
    change (H.base (H.setBase _ _)).held u = _
    rw [hSet]
    exact Function.update_of_ne hu ..
  · rw [show (s.release H t k.entry l).walk t = .advance k.entry from Function.update_self ..]
    rw [hListed] at hList
    refine ⟨es, hListed, hList.2, ?_, hAtUnlock t hAt⟩
    change ((H.base (H.setBase _ _)).held t).map Hold.entry = es
    rw [hSet, EntrySlots.State.setHeld_held, if_pos rfl, hErased, hRest]

theorem Inv.finish (hH : H.Lawful) (h : Inv H s) (hWalk : s.walk t = .unlock)
    (hEntry : s.links (.inl (.entry t)) = none) :
    (∃ as, Run (Guarded H.Guard H.Step) s.host as (s.finish H t).host) ∧ Inv H (s.finish H t) := by
  have hTracked := h.tracked t
  rw [hWalk] at hTracked
  obtain ⟨hList, hHeld, hAt⟩ := hTracked
  have hEmpty : s.listed t = [] := by
    rw [← List.head?_eq_none_iff, ← hList.head, hEntry]
  have hNone : (H.base s.host).held t = [] := by
    rw [hEmpty] at hHeld
    exact List.map_eq_nil_iff.mp hHeld
  have hHost : (s.finish H t).host = H.leave s.host t := by
    change H.leave (H.setBase s.host ((H.base s.host).setHeld t [])) t = _
    have hSame : (H.base s.host).setHeld t [] = H.base s.host := by
      rw [← hNone, EntrySlots.State.setHeld, Function.update_eq_self]
    rw [hSame, hH.setBase_base]
  have hBase : H.base (s.finish H t).host = H.base s.host := by rw [hHost, hH.base_leave]
  refine ⟨by rw [hHost]; exact hH.leave _ _ hAt hNone, h.next (t := t) (hBase ▸ h.settled) ?_ (fun u hu => ?_) ?_ ?_⟩
  · rw [hBase]
    exact h.fresh
  · have hHead : Var.head u ≠ .head t := fun hEq => hu (Var.head.inj hEq)
    have hCross : Var.entry u ≠ .head t := nofun
    refine ⟨Function.update_of_ne hu .., Function.update_of_ne hu .., by rw [hBase], assign_inl_of_ne hHead none,
      assign_inl_of_ne hCross none, fun x _ => assign_inr s.links (.head t) none x, fun hIs => ?_⟩
    rw [hHost]
    exact hH.atUnlock_leave _ _ _ hu hIs
  · rw [show (s.finish H t).walk t = .quiet from Function.update_self ..]
    unfold Tracked
    rw [show (s.finish H t).listed t = [] from Function.update_self .., hBase, entries, hNone]
    exact ⟨assign_self .., rfl⟩
  · rw [show (s.finish H t).listed t = [] from Function.update_self ..]
    exact List.nodup_nil

/-- Between `LOCK_ENTRIES` and `UNLOCK_ENTRIES` the list is what the call holds; `mmio_write` goes
over it. -/
theorem Inv.linked (h : Inv H s) (hWalk : s.walk t = .quiet) :
    Linked s.links (.inl (.head t)) (entries (H.base s.host) t) := by
  have hTracked := h.tracked t
  rw [hWalk] at hTracked
  rw [hTracked.2]
  exact hTracked.1

/-! ## Runs -/

theorem Inv.step (hH : H.Lawful) (h : Inv H s) {a : T × Act α} (hProper : Proper H s a)
    (hStep : Step H s a.1 a.2 s') : (∃ as, Run (Guarded H.Guard H.Step) s.host as s'.host) ∧ Inv H s' := by
  obtain ⟨t, act⟩ := a
  dsimp only at hStep
  cases hStep with
  | host a host hWalk hLeaves hUnlock hStep =>
    obtain ⟨hGuard, hInv⟩ := h.hosted hH hStep hProper hWalk hUnlock
    exact ⟨⟨_, .cons ⟨hGuard, hStep⟩ (.nil _)⟩, hInv⟩
  | push e hWalk => exact ⟨⟨[], .nil _⟩, h.pushEntry hProper hWalk⟩
  | first hWalk hAt => exact ⟨⟨[], .nil _⟩, h.firstEntry hWalk hAt⟩
  | release e l hWalk hEntry hUnlock =>
    obtain ⟨⟨a, hHost⟩, hInv⟩ := h.release hH hWalk hEntry hUnlock
    exact ⟨⟨_, .cons hHost (.nil _)⟩, hInv⟩
  | advance e hWalk => exact ⟨⟨[], .nil _⟩, h.nextEntry hWalk⟩
  | finish hWalk hEntry => exact h.finish hH hWalk hEntry

theorem inv_init {host : σ} (hSettled : (H.base host).Settled) (hIdle : ∀ t, (H.base host).calls t = .idle)
    (hNone : ∀ t, (H.base host).held t = []) (next : E → Option E) : Inv H (init host next) := by
  refine ⟨hSettled, fun u p e hSource => ?_, fun t => ⟨rfl, ?_⟩, fun _ => List.nodup_nil⟩
  · have hCall : ((H.base host).calls u).source = some (p, e) := hSource
    rw [hIdle] at hCall
    cases hCall
  · change ((H.base host).held t).map Hold.entry = []
    rw [hNone]
    rfl

/-- A run over the shared lists is a run of the system. -/
theorem refines_of_run (hH : H.Lawful) {host : σ} {next : E → Option E} {acts : List (T × Act α)}
    (hInit : Inv H (init host next)) (hRun : Runs H (init host next) acts s) :
    (∃ as, Run (Guarded H.Guard H.Step) host as s.host) ∧ Inv H s := by
  obtain ⟨as, _, hHost, rfl, hInv⟩ := hRun.forward (fun (s : State T E σ) h => h = s.host ∧ Inv H s)
    (by
      rintro s a s' _ ⟨rfl, h⟩ ⟨hProper, hStep⟩
      obtain ⟨⟨as, hHost⟩, hInv⟩ := h.step hH hProper hStep
      exact ⟨as, _, hHost, rfl, hInv⟩)
    ⟨rfl, hInit⟩
  exact ⟨⟨as, hHost⟩, hInv⟩

end State

end Libnvmmio.SharedLists

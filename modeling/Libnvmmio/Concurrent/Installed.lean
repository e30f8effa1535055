import Libnvmmio.Concurrent.EntrySlots

/-! # A held entry is the installed entry

An entry is in the pool, in the hands of one thread, or installed in one slot.
As long as every trylock that succeeds finds its entry still installed, an entry
that is held stays installed, and the checkpointer clears and frees the entry
that is installed.
-/

namespace Libnvmmio.EntrySlots

open GuardedRun Mmio

set_option autoImplicit false
set_option linter.unusedSectionVars false

variable {T S E : Type}

namespace Point

def owned : Point S E → Option E
  | .swap _ _ e | .drop _ _ e | .ckptFree _ e => some e
  | _ => none

def writing : Point S E → Option E
  | .ckptTest _ e | .ckptFree _ e => some e
  | _ => none

def Scanning : Point S E → Prop
  | .ckptLoad _ | .ckptTrylock _ _ | .ckptTest _ _ | .ckptFree _ _ => True
  | _ => False

/-- The entry that is about to be locked, and the slot that it was loaded from. -/
def source : Point S E → Option (S × E)
  | .trylock p _ e | .ckptTrylock p e => some (p, e)
  | _ => none

def target : Point S E → Option (S × LockType)
  | .load p type | .alloc p type | .swap p type _ | .drop p type _ | .reload p type
  | .trylock p type _ => some (p, type)
  | _ => none

structure Follows (c c' : Point S E) : Prop where
  target : ∀ x, c.target = some x → c'.target = some x
  scan : c.Scanning → c'.Scanning ∨ c' = .idle

theorem follows_request {c c' : Point S E} (h : c'.target = c.target) (hScan : ¬ c.Scanning) :
    Follows c c' := ⟨fun _ hx => h.trans hx, fun hIs => absurd hIs hScan⟩

theorem follows_scan {c c' : Point S E} (h : c'.Scanning ∨ c' = .idle) (hTarget : c.target = none) :
    Follows c c' := ⟨fun x hx => (by rw [hTarget] at hx; cases hx), fun _ => h⟩

end Point

namespace State

variable [DecidableEq T] [DecidableEq S] [DecidableEq E] {s s' : State T S E} {t : T}

section Fields

variable (s) (u : T) (c : Point S E) (p : S) (e : E) (o : Option E) (l : RwLock T) (b : Bool)
  (hs : List (Hold S E))

@[simp] theorem goto_slots : (s.goto u c).slots = s.slots := rfl
@[simp] theorem goto_locks : (s.goto u c).locks = s.locks := rfl
@[simp] theorem goto_pooled : (s.goto u c).pooled = s.pooled := rfl
@[simp] theorem goto_self : (s.goto u c).calls u = c := Function.update_self ..
theorem setSlot_slots (q : S) : (s.setSlot p o).slots q = if q = p then o else s.slots q :=
  Function.update_apply ..
@[simp] theorem setHeld_locks : (s.setHeld u hs).locks = s.locks := rfl
theorem setHeld_held (v : T) : (s.setHeld u hs).held v = if v = u then hs else s.held v :=
  Function.update_apply ..
theorem setLock_locks (e' : E) : (s.setLock e l).locks e' = if e' = e then l else s.locks e' :=
  Function.update_apply ..
theorem freeIdxEntry_pooled (e' : E) :
    (s.freeIdxEntry e).pooled e' = if e' = e then true else s.pooled e' := Function.update_apply ..
theorem allocIdxEntry_pooled (e' : E) :
    (s.allocIdxEntry e).pooled e' = if e' = e then false else s.pooled e' := Function.update_apply ..

variable {u}

theorem goto_of_ne (hne : t ≠ u) : (s.goto u c).calls t = s.calls t := Function.update_of_ne hne ..

end Fields

structure Quiet (s : State T S E) (t : T) (c c' : Point S E) : Prop where
  owned : c'.owned = c.owned
  not_writing : c.writing = none
  writing : c'.writing = none
  scan : c'.Scanning → c.Scanning ∨ s.held t = []
  follows : c.Follows c'
  loaded : ∀ p e, c'.source = some (p, e) → s.slots p = some e

inductive Effect (s : State T S E) (t : T) (act : Act S E) : State T S E → Prop where
  | move (c : Point S E) (hQuiet : Quiet s t (s.calls t) c) : Effect s t act (s.goto t c)
  | unlock (h : Hold S E) (l : RwLock T) (hIdle : s.calls t = .idle) (hMem : h ∈ s.held t)
      (hUnlock : (s.locks h.entry).unlock t = some l) (hAct : act = .unlock h) :
      Effect s t act ((s.setLock h.entry l).setHeld t ((s.held t).erase h))
  | alloc (p : S) (type : LockType) (e : E) (hCall : s.calls t = .alloc p type)
      (hPooled : s.pooled e = true) : Effect s t act ((s.allocIdxEntry e).goto t (.swap p type e))
  | install (p : S) (type : LockType) (e : E) (hCall : s.calls t = .swap p type e)
      (hEmpty : s.slots p = none) : Effect s t act ((s.setSlot p (some e)).goto t (.trylock p type e))
  | free (e : E) (c : Point S E) (hOwned : (s.calls t).owned = some e)
      (hWriting : ∀ e', (s.calls t).writing = some e' → e' = e)
      (hQuiet : c.owned = none ∧ c.writing = none ∧ ¬ c.Scanning) (hFollows : (s.calls t).Follows c)
      (hUnloaded : c.source = none) : Effect s t act ((s.freeIdxEntry e).goto t c)
  | take (p : S) (type : LockType) (e : E) (l : RwLock T) (hCall : s.calls t = .trylock p type e)
      (hLock : acquire type t (s.locks e) = some l) (hInstalled : StillInstalled s (t, act) → s.slots p = some e) :
      Effect s t act (((s.setLock e l).setHeld t (⟨p, type, e⟩ :: s.held t)).goto t .idle)
  | seize (p : S) (e : E) (l : RwLock T) (hCall : s.calls t = .ckptTrylock p e)
      (hLock : (s.locks e).wrlock t = some l) (hInstalled : StillInstalled s (t, act) → s.slots p = some e) :
      Effect s t act ((s.setLock e l).goto t (.ckptTest p e))
  | clear (p : S) (e : E) (hCall : s.calls t = .ckptTest p e) :
      Effect s t act ((s.setSlot p none).goto t (.ckptFree p e))
  | keep (p : S) (e : E) (l : RwLock T) (hCall : s.calls t = .ckptTest p e)
      (hUnlock : (s.locks e).unlock t = some l) : Effect s t act ((s.setLock e l).goto t .idle)

theorem Effect.move_of {act : Act S E} {c c' : Point S E} (hCall : s.calls t = c)
    (hQuiet : Quiet s t c c') : Effect s t act (s.goto t c') := by
  subst hCall
  exact .move c' hQuiet

theorem quiet_request {c c' : Point S E} (hTarget : c'.target = c.target) (hOwned : c'.owned = c.owned)
    (hWriting : c.writing = none) (hWriting' : c'.writing = none) (hScan : ¬ c.Scanning) (hScan' : ¬ c'.Scanning)
    (hLoaded : ∀ p e, c'.source = some (p, e) → s.slots p = some e) : Quiet s t c c' :=
  ⟨hOwned, hWriting, hWriting', fun hIs => absurd hIs hScan', Point.follows_request hTarget hScan, hLoaded⟩

theorem access_effect (hStep : s.access t (s.calls t) = some s') : Effect s t .access s' := by
  unfold access at hStep
  split at hStep
  · rename_i p type hCall
    split at hStep <;> cases hStep
    · exact .move_of hCall (quiet_request rfl rfl rfl rfl id id fun _ _ hEq => (by cases hEq; assumption))
    · exact .move_of hCall (quiet_request rfl rfl rfl rfl id id fun _ _ hEq => (by cases hEq))
  · rename_i p type e hCall
    split at hStep <;> cases hStep
    · exact .install p type e hCall ‹_›
    · exact .move_of hCall (quiet_request rfl rfl rfl rfl id id fun _ _ hEq => (by cases hEq))
  · rename_i p type e hCall
    cases hStep
    exact .free e _ (by rw [hCall]; rfl) (fun e' h => by rw [hCall] at h; cases h) ⟨rfl, rfl, id⟩
      (by rw [hCall]; exact Point.follows_request rfl id) rfl
  · rename_i p type hCall
    split at hStep <;> cases hStep
    exact .move_of hCall (quiet_request rfl rfl rfl rfl id id fun _ _ hEq => (by cases hEq; assumption))
  · rename_i p type e hCall
    split at hStep <;> cases hStep
    · rename_i l hLock
      refine .take p type e l hCall hLock fun hGuard => ?_
      simp only [StillInstalled, hCall] at hGuard
      exact hGuard (by rw [hLock]; simp)
    · exact .move_of hCall (quiet_request rfl rfl rfl rfl id id fun _ _ hEq => (by cases hEq))
  · rename_i p e hCall
    split at hStep <;> cases hStep
    · rename_i l hLock
      refine .seize p e l hCall hLock fun hGuard => ?_
      simp only [StillInstalled, hCall] at hGuard
      exact hGuard (by rw [hLock]; simp)
    · exact .move_of hCall ⟨rfl, rfl, rfl, False.elim, Point.follows_scan (.inr rfl) rfl, fun _ _ hEq => (by cases hEq)⟩
  · rename_i p e hCall
    cases hStep
    exact .free e _ (by rw [hCall]; rfl) (fun e' h => by rw [hCall] at h; cases h; rfl) ⟨rfl, rfl, id⟩
      (by rw [hCall]; exact Point.follows_scan (.inr rfl) rfl) rfl
  · cases hStep

theorem step_effect {a : T × Act S E} (hStep : Step s a s') : Effect s a.1 a.2 s' := by
  obtain ⟨t, act⟩ := a
  unfold Step at hStep
  cases act with
  | lock p type =>
    obtain ⟨hIdle, hDone⟩ := Option.ite_none_right_eq_some.mp hStep
    cases hDone
    exact .move_of hIdle ⟨rfl, rfl, rfl, False.elim, ⟨fun _ hx => (by cases hx), False.elim⟩,
      fun _ _ hEq => (by cases hEq)⟩
  | unlock h =>
    obtain ⟨⟨hIdle, hMem⟩, hDone⟩ := Option.ite_none_right_eq_some.mp hStep
    obtain ⟨l, hUnlock, hDone⟩ := Option.bind_eq_some_iff.mp hDone
    cases hDone
    exact .unlock h l hIdle hMem hUnlock rfl
  | checkpoint p =>
    obtain ⟨⟨hIdle, hNone⟩, hDone⟩ := Option.ite_none_right_eq_some.mp hStep
    cases hDone
    exact .move_of hIdle ⟨rfl, rfl, rfl, fun _ => .inr hNone, ⟨fun _ hx => (by cases hx), False.elim⟩,
      fun _ _ hEq => (by cases hEq)⟩
  | alloc e =>
    simp only [next] at hStep
    split at hStep
    · rename_i p type hCall
      obtain ⟨hPooled, hDone⟩ := Option.ite_none_right_eq_some.mp hStep
      cases hDone
      exact .alloc p type e hCall hPooled
    · cases hStep
  | test stale =>
    simp only [next] at hStep
    split at hStep
    · rename_i p hCall
      split at hStep <;> cases hStep
      · exact .move_of hCall ⟨rfl, rfl, rfl, fun _ => .inl trivial, Point.follows_scan (.inl trivial) rfl,
          fun _ _ hEq => (by cases hEq; assumption)⟩
      · exact .move_of hCall ⟨rfl, rfl, rfl, False.elim, Point.follows_scan (.inr rfl) rfl, fun _ _ hEq =>
          (by cases hEq)⟩
    · rename_i p e hCall
      split at hStep
      · cases hStep
        exact .clear p e hCall
      · obtain ⟨l, hUnlock, hDone⟩ := Option.bind_eq_some_iff.mp hStep
        cases hDone
        exact .keep p e l hCall hUnlock
    · cases hStep
  | access => exact access_effect hStep

theorem Effect.other {act : Act S E} {u : T} (h : Effect s t act s') (hne : u ≠ t) :
    s'.calls u = s.calls u ∧ s'.held u = s.held u := by
  cases h with
  | unlock k l _ _ _ => exact ⟨rfl, Function.update_of_ne hne ..⟩
  | take p type e l _ _ _ => exact ⟨Function.update_of_ne hne .., Function.update_of_ne hne ..⟩
  | _ => exact ⟨Function.update_of_ne hne .., rfl⟩

theorem Effect.request {act : Act S E} {p : S} {type : LockType} (h : Effect s t act s')
    (hTarget : (s.calls t).target = some (p, type)) :
    (s'.calls t).target = some (p, type) ∧ s'.held t = s.held t ∨
      s'.calls t = .idle ∧ ∃ e, s'.held t = ⟨p, type, e⟩ :: s.held t := by
  cases h with
  | move c hQuiet =>
    rw [goto_self]
    exact .inl ⟨hQuiet.follows.target _ hTarget, rfl⟩
  | unlock k l hIdle _ _ =>
    rw [hIdle] at hTarget
    cases hTarget
  | alloc p' type' e hCall _ =>
    rw [hCall] at hTarget
    rw [goto_self]
    exact .inl ⟨hTarget, rfl⟩
  | install p' type' e hCall _ =>
    rw [hCall] at hTarget
    rw [goto_self]
    exact .inl ⟨hTarget, rfl⟩
  | free e c _ _ _ hFollows _ =>
    rw [goto_self]
    exact .inl ⟨hFollows.target _ hTarget, rfl⟩
  | take p' type' e l hCall _ _ =>
    rw [hCall] at hTarget
    cases hTarget
    exact .inr ⟨goto_self .., e, Function.update_self ..⟩
  | seize p' e l hCall _ _ =>
    rw [hCall] at hTarget
    cases hTarget
  | clear p' e hCall =>
    rw [hCall] at hTarget
    cases hTarget
  | keep p' e l hCall _ =>
    rw [hCall] at hTarget
    cases hTarget

theorem Effect.scan {act : Act S E} (h : Effect s t act s') (hScan : (s.calls t).Scanning) :
    ((s'.calls t).Scanning ∨ s'.calls t = .idle) ∧ s'.held t = s.held t := by
  cases h with
  | move c hQuiet =>
    rw [goto_self]
    exact ⟨hQuiet.follows.scan hScan, rfl⟩
  | unlock k l hIdle _ _ =>
    rw [hIdle] at hScan
    exact hScan.elim
  | alloc p type e hCall _ =>
    rw [hCall] at hScan
    exact hScan.elim
  | install p type e hCall _ =>
    rw [hCall] at hScan
    exact hScan.elim
  | free e c _ _ _ hFollows _ =>
    rw [goto_self]
    exact ⟨hFollows.scan hScan, rfl⟩
  | take p type e l hCall _ _ =>
    rw [hCall] at hScan
    exact hScan.elim
  | seize p e l hCall _ _ =>
    rw [goto_self]
    exact ⟨.inl trivial, rfl⟩
  | clear p e hCall =>
    rw [goto_self]
    exact ⟨.inl trivial, rfl⟩
  | keep p e l hCall _ => exact ⟨.inr (goto_self ..), rfl⟩

/-- As long as no slot is cleared, the entry that a trylock is about to lock is still installed. -/
theorem Effect.loaded {act : Act S E} (h : Effect s t act s') (hKept : ∀ p e, s.calls t ≠ .ckptTest p e)
    (hLoaded : ∀ u p type e, s.calls u = .trylock p type e → s.slots p = some e) (u : T) (p : S)
    (type : LockType) (e : E) (hCall : s'.calls u = .trylock p type e) : s'.slots p = some e := by
  by_cases hu : u = t
  · subst hu
    cases h with
    | move c hQuiet =>
      rw [goto_self] at hCall
      exact hQuiet.loaded p e (by rw [hCall]; rfl)
    | unlock _ _ _ _ _ => exact hLoaded u p type e hCall
    | install p' type' e' _ _ =>
      rw [goto_self] at hCall
      cases hCall
      exact Function.update_self ..
    | free e' c _ _ _ _ hUnloaded =>
      rw [goto_self] at hCall
      rw [hCall] at hUnloaded
      cases hUnloaded
    | clear p' e' hTest => exact absurd hTest (hKept p' e')
    | _ =>
      rw [goto_self] at hCall
      cases hCall
  · rw [(h.other hu).1] at hCall
    have hSlot := hLoaded u p type e hCall
    cases h with
    | install p' type' e' _ hEmpty =>
      have hne : p ≠ p' := by
        rintro rfl
        rw [hSlot] at hEmpty
        cases hEmpty
      exact (Function.update_of_ne hne ..).trans hSlot
    | clear p' e' hTest => exact absurd hTest (hKept p' e')
    | _ => exact hSlot

/-! ## The place of an entry -/

inductive Place (T S : Type) where
  | pool
  | thread (t : T)
  | slot (p : S)

def At (s : State T S E) (e : E) : Place T S → Prop
  | .pool => s.pooled e = true
  | .thread t => (s.calls t).owned = some e
  | .slot p => s.slots p = some e

def Placed (s : State T S E) : Prop := ∀ e x y, s.At e x → s.At e y → x = y

theorem Placed.moved (h : Placed s) {e : E} (old new : Place T S) (hOld : s.At e old)
    (hGone : ¬ s'.At e old) (hKept : ∀ e' x, s'.At e' x → s.At e' x ∨ e' = e ∧ x = new) : Placed s' := by
  intro e' x y hx hy
  rcases hKept e' x hx with hx' | ⟨rfl, rfl⟩
  · rcases hKept e' y hy with hy' | ⟨rfl, rfl⟩
    · exact h e' x y hx' hy'
    · rw [h e' x old hx' hOld] at hx
      exact absurd hx hGone
  · rcases hKept e' y hy with hy' | ⟨_, rfl⟩
    · rw [h e' y old hy' hOld] at hy
      exact absurd hy hGone
    · rfl

theorem calls_goto (c : Point S E) (u : T) :
    (s.goto t c).calls u = if u = t then c else s.calls u := Function.update_apply ..

theorem owned_goto (c : Point S E) (u : T) : ((s.goto t c).calls u).owned =
    if u = t then c.owned else (s.calls u).owned := by
  split
  · rename_i hu
    rw [hu, goto_self]
  · rename_i hu
    rw [goto_of_ne s c hu]

theorem writing_goto (c : Point S E) (u : T) : ((s.goto t c).calls u).writing =
    if u = t then c.writing else (s.calls u).writing := by
  split
  · rename_i hu
    rw [hu, goto_self]
  · rename_i hu
    rw [goto_of_ne s c hu]

theorem at_thread_goto {c : Point S E} {e : E} {u : T} (h : (s.goto t c).At e (.thread u)) :
    (u = t ∧ c.owned = some e) ∨ s.At e (.thread u) := by
  rw [At, owned_goto] at h
  split at h
  · rename_i hu
    exact .inl ⟨hu, h⟩
  · exact .inr h

theorem at_slot_setSlot {p q : S} {o : Option E} {e : E} (h : (s.setSlot p o).At e (.slot q)) :
    (q = p ∧ o = some e) ∨ s.At e (.slot q) := by
  rw [At, setSlot_slots] at h
  split at h
  · rename_i hq
    exact .inl ⟨hq, h⟩
  · exact .inr h

theorem Placed.goto (h : Placed s) {c : Point S E} (hOwned : c.owned = (s.calls t).owned) :
    Placed (s.goto t c) := by
  intro e x y hx hy
  have hSame : ∀ z, (s.goto t c).At e z → s.At e z := by
    intro z hz
    cases z with
    | pool => exact hz
    | slot p => exact hz
    | thread u =>
      rcases at_thread_goto hz with ⟨rfl, hMine⟩ | hTheirs
      · rw [At, ← hOwned]
        exact hMine
      · exact hTheirs
  exact h e x y (hSame x hx) (hSame y hy)

theorem Placed.step (h : Placed s) (hTest : ∀ t p e, s.calls t = .ckptTest p e → s.slots p = some e)
    {act : Act S E} (hEffect : Effect s t act s') : Placed s' := by
  cases hEffect with
  | move c hQuiet => exact h.goto hQuiet.owned
  | unlock _ _ _ _ _ => exact h
  | take p type e l hCall _ _ =>
    exact Placed.goto (s := (s.setLock e l).setHeld t _) h (congrArg Point.owned hCall).symm
  | seize p e l hCall _ _ => exact Placed.goto (s := s.setLock e l) h (congrArg Point.owned hCall).symm
  | keep p e l hCall _ => exact Placed.goto (s := s.setLock e l) h (congrArg Point.owned hCall).symm
  | alloc p type e hCall hPooled =>
    refine h.moved .pool (.thread t) hPooled ?_ fun e' x hx => ?_
    · rw [At, goto_pooled, allocIdxEntry_pooled, if_pos rfl]
      exact Bool.false_ne_true
    · cases x with
      | pool =>
        rw [At, goto_pooled, allocIdxEntry_pooled] at hx
        split at hx
        · cases hx
        · exact .inl hx
      | slot q => exact .inl hx
      | thread u =>
        rcases at_thread_goto hx with ⟨rfl, hMine⟩ | hTheirs
        · cases hMine
          exact .inr ⟨rfl, rfl⟩
        · exact .inl hTheirs
  | install p type e hCall hEmpty =>
    refine h.moved (.thread t) (.slot p) (by rw [At, hCall]; rfl) ?_ fun e' x hx => ?_
    · rw [At, goto_self]
      simp [Point.owned]
    · cases x with
      | pool => exact .inl hx
      | slot q =>
        rcases at_slot_setSlot hx with ⟨rfl, hNew⟩ | hOld
        · cases hNew
          exact .inr ⟨rfl, rfl⟩
        · exact .inl hOld
      | thread u =>
        rcases at_thread_goto hx with ⟨_, hMine⟩ | hTheirs
        · cases hMine
        · exact .inl hTheirs
  | free e c hOwned _ hQuiet _ _ =>
    refine h.moved (.thread t) .pool hOwned ?_ fun e' x hx => ?_
    · rw [At, goto_self, hQuiet.1]
      intro hEq
      cases hEq
    · cases x with
      | pool =>
        rw [At, goto_pooled, freeIdxEntry_pooled] at hx
        split at hx
        · exact .inr ⟨‹_›, rfl⟩
        · exact .inl hx
      | slot q => exact .inl hx
      | thread u =>
        rcases at_thread_goto hx with ⟨_, hMine⟩ | hTheirs
        · rw [hQuiet.1] at hMine
          cases hMine
        · exact .inl hTheirs
  | clear p e hCall =>
    refine h.moved (.slot p) (.thread t) (hTest t p e hCall) ?_ fun e' x hx => ?_
    · rw [At, goto_slots, setSlot_slots, if_pos rfl]
      intro hEq
      cases hEq
    · cases x with
      | pool => exact .inl hx
      | slot q =>
        rcases at_slot_setSlot hx with ⟨_, hNew⟩ | hOld
        · cases hNew
        · exact .inl hOld
      | thread u =>
        rcases at_thread_goto hx with ⟨rfl, hMine⟩ | hTheirs
        · cases hMine
          exact .inr ⟨rfl, rfl⟩
        · exact .inl hTheirs

/-! ## Holds -/

/-- Held and locked entries are installed; a thread in `checkpoint_mmio` holds no request. -/
structure Anchored (s : State T S E) : Prop where
  held : ∀ t, ∀ h ∈ s.held t, s.slots h.slot = some h.entry
  test : ∀ t p e, s.calls t = .ckptTest p e → s.slots p = some e
  scan : ∀ t, (s.calls t).Scanning → s.held t = []

def holds (s : State T S E) (t : T) (type : LockType) (e : E) : Nat :=
  (s.held t).countP fun h => h.type = type ∧ h.entry = e

structure Accounted (s : State T S E) : Prop where
  reads : ∀ e, s.pooled e = false → ∀ t, (s.locks e).reads t = s.holds t .rd e
  writes : ∀ e, s.pooled e = false → ∀ t, (s.locks e).writes t =
    s.holds t .wr e + if (s.calls t).writing = some e then 1 else 0

theorem holds_pos {h : Hold S E} (hMem : h ∈ s.held t) : 0 < s.holds t h.type h.entry :=
  List.countP_pos_iff.mpr ⟨h, hMem, by simp⟩

theorem Placed.not_pooled (h : Placed s) {p : S} {e : E} (hSlot : s.slots p = some e) :
    s.pooled e = false := by
  cases hPooled : s.pooled e with
  | false => rfl
  | true => cases h e .pool (.slot p) hPooled hSlot

theorem Accounted.not_held (h : Accounted s) (hAnchored : Anchored s) {e : E} (hPooled : s.pooled e = false)
    (hWriting : (s.calls t).writing = some e) (hScan : (s.calls t).Scanning) (u : T) (k : Hold S E)
    (hMem : k ∈ s.held u) : k.entry ≠ e := by
  rintro rfl
  have hWrites := h.writes k.entry hPooled t
  rw [if_pos hWriting] at hWrites
  have hPos := holds_pos hMem
  cases hType : k.type with
  | rd =>
    rw [hType, ← h.reads k.entry hPooled u, RwLock.reads_eq_zero_of_writes (t := t) (by omega)] at hPos
    exact Nat.lt_irrefl 0 hPos
  | wr =>
    have hOther := h.writes k.entry hPooled u
    rw [hType] at hPos
    have hSame : t = u := RwLock.writer_unique (by omega) (by omega : 0 < (s.locks k.entry).writes u)
    rw [← hSame, hAnchored.scan t hScan] at hMem
    cases hMem

theorem Anchored.goto (h : Anchored s) {c : Point S E} (hWriting : c.writing = none)
    (hScan : c.Scanning → s.held t = []) : Anchored (s.goto t c) where
  held := h.held
  test u p e hCall := by
    rw [calls_goto] at hCall
    split at hCall
    · rw [hCall] at hWriting
      cases hWriting
    · exact h.test u p e hCall
  scan u hIs := by
    rw [calls_goto] at hIs
    split at hIs
    · rename_i hu
      rw [hu]
      exact hScan hIs
    · exact h.scan u hIs

theorem Anchored.step (h : Anchored s) (hPlaced : Placed s) (hAcc : Accounted s) {act : Act S E}
    (hGuard : StillInstalled s (t, act)) (hEffect : Effect s t act s') : Anchored s' := by
  cases hEffect with
  | move c hQuiet =>
    refine h.goto hQuiet.writing fun hIs => ?_
    rcases hQuiet.scan hIs with hWas | hNone
    · exact h.scan t hWas
    · exact hNone
  | unlock k l hIdle hMem _ =>
    refine ⟨fun u k' hk' => ?_, h.test, fun u hIs => ?_⟩
    · rw [setHeld_held] at hk'
      split at hk'
      · exact h.held t k' (List.mem_of_mem_erase hk')
      · exact h.held u k' hk'
    · rw [setHeld_held, if_neg]
      · exact h.scan u hIs
      · rintro rfl
        have hIs' : (s.calls u).Scanning := hIs
        rw [hIdle] at hIs'
        exact hIs'
  | alloc p type e hCall hPooled => exact Anchored.goto (s := s.allocIdxEntry e) ⟨h.held, h.test, h.scan⟩ rfl False.elim
  | install p type e hCall hEmpty =>
    -- nothing is anchored in an empty slot
    have hKept : ∀ q e', s.slots q = some e' → (s.setSlot p (some e)).slots q = some e' := by
      intro q e' hSlot
      rw [setSlot_slots, if_neg]
      · exact hSlot
      · rintro rfl
        rw [hEmpty] at hSlot
        cases hSlot
    exact Anchored.goto (s := s.setSlot p (some e)) ⟨fun u k hk => hKept _ _ (h.held u k hk),
      fun u q e' hIs => hKept _ _ (h.test u q e' hIs), h.scan⟩ rfl False.elim
  | free e c hOwned _ hQuiet _ _ =>
    exact Anchored.goto (s := s.freeIdxEntry e) ⟨h.held, h.test, h.scan⟩ hQuiet.2.1 fun hIs => absurd hIs hQuiet.2.2
  | take p type e l hCall hLock hInstalled =>
    refine Anchored.goto (s := (s.setLock e l).setHeld t _) ⟨fun u k hk => ?_, h.test, fun u hIs => ?_⟩ rfl False.elim
    · rw [setHeld_held] at hk
      split at hk
      · rcases List.mem_cons.mp hk with rfl | hk
        · exact hInstalled hGuard
        · exact h.held t k hk
      · exact h.held u k hk
    · rw [setHeld_held, if_neg]
      · exact h.scan u hIs
      · rintro rfl
        have hIs' : (s.calls u).Scanning := hIs
        rw [hCall] at hIs'
        exact hIs'
  | seize p e l hCall hLock hInstalled =>
    refine ⟨h.held, fun u q e' hIs => ?_, fun u hIs => ?_⟩
    · rw [calls_goto] at hIs
      split at hIs
      · cases hIs
        exact hInstalled hGuard
      · exact h.test u q e' hIs
    · rw [calls_goto] at hIs
      split at hIs
      · rename_i hu
        subst hu
        exact h.scan u (by rw [hCall]; trivial)
      · exact h.scan u hIs
  | clear p e hCall =>
    have hSlot := h.test t p e hCall
    have hWriting : (s.calls t).writing = some e := by
      rw [hCall]
      rfl
    have hScan : (s.calls t).Scanning := by
      rw [hCall]
      trivial
    have hPooled := hPlaced.not_pooled hSlot
    have hKept : ∀ q e', e' ≠ e → s.slots q = some e' → (s.setSlot p none).slots q = some e' := by
      intro q e' hne hSlot'
      rw [setSlot_slots, if_neg]
      · exact hSlot'
      · rintro rfl
        rw [hSlot] at hSlot'
        cases hSlot'
        exact hne rfl
    refine ⟨fun u k hk => hKept _ _ (hAcc.not_held h hPooled hWriting hScan u k hk) (h.held u k hk),
      fun u q e' hIs => ?_, fun u hIs => ?_⟩
    · rw [calls_goto] at hIs
      split at hIs
      · cases hIs
      · rename_i hu
        refine hKept _ _ ?_ (h.test u q e' hIs)
        rintro rfl
        have hMine := hAcc.writes e' hPooled t
        have hOther := hAcc.writes e' hPooled u
        rw [if_pos hWriting] at hMine
        rw [show s.calls u = _ from hIs, if_pos (show (Point.ckptTest q e').writing = some e' from rfl)] at hOther
        exact hu (RwLock.writer_unique (by omega) (by omega : 0 < (s.locks e').writes t))
    · rw [calls_goto] at hIs
      split at hIs
      · rename_i hu
        subst hu
        exact h.scan u hScan
      · exact h.scan u hIs
  | keep p e l hCall hUnlock => exact Anchored.goto (s := s.setLock e l) ⟨h.held, h.test, h.scan⟩ rfl False.elim

theorem Accounted.update (h : Accounted s) (e : E)
    (hPooled : ∀ e', e' ≠ e → s'.pooled e' = false → s.pooled e' = false)
    (hLocks : ∀ e', e' ≠ e → s'.locks e' = s.locks e')
    (hHolds : ∀ u type e', e' ≠ e → s'.holds u type e' = s.holds u type e')
    (hWriting : ∀ u e', e' ≠ e → ((s'.calls u).writing = some e' ↔ (s.calls u).writing = some e'))
    (hHere : s'.pooled e = false → ∀ u, (s'.locks e).reads u = s'.holds u .rd e ∧
      (s'.locks e).writes u = s'.holds u .wr e + if (s'.calls u).writing = some e then 1 else 0) :
    Accounted s' := by
  constructor
  · intro e' he' u
    by_cases hne : e' = e
    · subst hne
      exact (hHere he' u).1
    · rw [hLocks e' hne, hHolds u .rd e' hne]
      exact h.reads e' (hPooled e' hne he') u
  · intro e' he' u
    by_cases hne : e' = e
    · subst hne
      exact (hHere he' u).2
    · rw [hLocks e' hne, hHolds u .wr e' hne, if_congr (hWriting u e' hne) rfl rfl]
      exact h.writes e' (hPooled e' hne he') u

theorem Accounted.goto (h : Accounted s) {c : Point S E} (hWriting : c.writing = (s.calls t).writing) :
    Accounted (s.goto t c) := by
  refine ⟨h.reads, fun e he u => ?_⟩
  rw [writing_goto]
  split
  · rename_i hu
    rw [hWriting, ← hu]
    exact h.writes e he u
  · exact h.writes e he u

theorem Placed.not_pooled_of_writing (h : Placed s) (hAnchored : Anchored s) {e : E}
    (hWriting : (s.calls t).writing = some e) : s.pooled e = false := by
  cases hPoint : s.calls t with
  | ckptTest p e' =>
    rw [hPoint] at hWriting
    cases hWriting
    exact h.not_pooled (hAnchored.test t p e hPoint)
  | ckptFree p e' =>
    rw [hPoint] at hWriting
    cases hWriting
    cases hPooled : s.pooled e with
    | false => rfl
    | true => cases h e .pool (.thread t) hPooled (by rw [At, hPoint]; rfl)
  | _ =>
    rw [hPoint] at hWriting
    cases hWriting

theorem holds_setHeld (hs : List (Hold S E)) (u : T) (type : LockType) (e : E) :
    (s.setHeld t hs).holds u type e =
      if u = t then hs.countP (fun h => h.type = type ∧ h.entry = e) else s.holds u type e := by
  rw [holds, setHeld_held]
  split <;> rfl

theorem holds_cons (k : Hold S E) (u : T) (type : LockType) (e : E) :
    (s.setHeld t (k :: s.held t)).holds u type e =
      s.holds u type e + if u = t ∧ k.type = type ∧ k.entry = e then 1 else 0 := by
  rw [holds_setHeld]
  by_cases hu : u = t
  · subst hu
    rw [if_pos rfl, List.countP_cons]
    simp [holds]
  · rw [if_neg hu, if_neg fun hBoth => hu hBoth.1, Nat.add_zero]

theorem holds_erase {k : Hold S E} (hMem : k ∈ s.held t) (u : T) (type : LockType) (e : E) :
    (s.setHeld t ((s.held t).erase k)).holds u type e =
      s.holds u type e - if u = t ∧ k.type = type ∧ k.entry = e then 1 else 0 := by
  rw [holds_setHeld]
  by_cases hu : u = t
  · subst hu
    rw [if_pos rfl, List.countP_erase]
    simp [holds, hMem]
  · rw [if_neg hu, if_neg fun hBoth => hu hBoth.1, Nat.sub_zero]

theorem Accounted.unlock (h : Accounted s) {k : Hold S E} {l : RwLock T} (hMem : k ∈ s.held t)
    (hPooled : s.pooled k.entry = false) (hUnlock : (s.locks k.entry).unlock t = some l) :
    Accounted ((s.setLock k.entry l).setHeld t ((s.held t).erase k)) := by
  have hErase : ∀ u type e, ((s.setLock k.entry l).setHeld t ((s.held t).erase k)).holds u type e =
      s.holds u type e - if u = t ∧ k.type = type ∧ k.entry = e then 1 else 0 :=
    holds_erase (s := s.setLock k.entry l) hMem
  refine h.update k.entry (fun _ _ he => he) (fun e' hne => ?_) (fun u type e' hne => ?_)
    (fun _ _ _ => Iff.rfl) fun _ u => ?_
  · rw [setHeld_locks, setLock_locks, if_neg hne]
  · rw [hErase, if_neg fun hBoth => hne hBoth.2.2.symm, Nat.sub_zero]
  · have hReads := h.reads k.entry hPooled u
    have hWrites := h.writes k.entry hPooled u
    have hPos := holds_pos hMem
    rw [hErase, hErase, setHeld_locks, setLock_locks, if_pos rfl]
    change l.reads u = _ ∧ l.writes u = _ + if (s.calls u).writing = some k.entry then 1 else 0
    cases hType : k.type with
    | rd =>
      rw [hType, ← h.reads k.entry hPooled t] at hPos
      obtain ⟨l', hSome, hReads', hNone, hNone'⟩ := RwLock.unlock_of_reads hPos
      rw [hUnlock] at hSome
      cases hSome
      have hLess := hReads' u
      have hZero := hNone u
      have hZero' := hNone' u
      constructor
      · rw [hLess, hReads]
        simp
      · rw [hZero, if_neg (c := u = t ∧ LockType.rd = .wr ∧ _) (by simp)]
        omega
    | wr =>
      rw [hType] at hPos
      have hWrite := h.writes k.entry hPooled t
      obtain ⟨hFree, hOne⟩ := RwLock.unlock_of_writes (l := s.locks k.entry) (t := t) (by omega)
      rw [hUnlock] at hFree
      cases hFree
      have hSingle := hOne u
      have hNoRead := RwLock.reads_eq_zero_of_writes (l := s.locks k.entry) (t := t) (by omega) u
      constructor
      · rw [if_neg (by simp), RwLock.reads_free]
        omega
      · rw [RwLock.writes_free]
        by_cases hu : u = t
        · subst hu
          rw [if_pos ⟨rfl, rfl, rfl⟩]
          rw [if_pos rfl] at hSingle
          omega
        · rw [if_neg fun hBoth => hu hBoth.1]
          rw [if_neg hu] at hSingle
          omega

theorem Accounted.take (h : Accounted s) {p : S} {type : LockType} {e : E} {l : RwLock T}
    (hPooled : s.pooled e = false) (hLock : acquire type t (s.locks e) = some l) :
    Accounted ((s.setLock e l).setHeld t (⟨p, type, e⟩ :: s.held t)) := by
  have hCons : ∀ u type' e', ((s.setLock e l).setHeld t (⟨p, type, e⟩ :: s.held t)).holds u type' e' =
      s.holds u type' e' + if u = t ∧ type = type' ∧ e = e' then 1 else 0 :=
    holds_cons (s := s.setLock e l) ⟨p, type, e⟩
  refine h.update e (fun _ _ he => he) (fun e' hne => ?_) (fun u type' e' hne => ?_)
    (fun _ _ _ => Iff.rfl) fun _ u => ?_
  · rw [setHeld_locks, setLock_locks, if_neg hne]
  · rw [hCons, if_neg fun hBoth => hne hBoth.2.2.symm, Nat.add_zero]
  · have hReads := h.reads e hPooled u
    have hWrites := h.writes e hPooled u
    rw [hCons, hCons, setHeld_locks, setLock_locks, if_pos rfl]
    change l.reads u = _ ∧ l.writes u = _ + if (s.calls u).writing = some e then 1 else 0
    cases type with
    | rd =>
      obtain ⟨hMore, hNone, hNone'⟩ := RwLock.rdlock_eq_some hLock
      have hZero := hNone u
      constructor
      · rw [hMore, hReads]
        simp
      · rw [hNone', if_neg (by simp)]
        omega
    | wr =>
      obtain ⟨hFree, hNone, hOne⟩ := RwLock.wrlock_eq_some hLock
      rw [hFree, RwLock.reads_free] at hReads
      rw [hFree, RwLock.writes_free] at hWrites
      constructor
      · rw [hNone, if_neg (by simp)]
        omega
      · rw [hOne]
        simp only [and_true]
        omega

theorem Accounted.step (h : Accounted s) (hPlaced : Placed s) (hAnchored : Anchored s) {act : Act S E}
    (hGuard : StillInstalled s (t, act)) (hEffect : Effect s t act s') : Accounted s' := by
  cases hEffect with
  | move c hQuiet => exact h.goto (hQuiet.writing.trans hQuiet.not_writing.symm)
  | unlock k l hIdle hMem hUnlock =>
    exact h.unlock hMem (hPlaced.not_pooled (hAnchored.held t k hMem)) hUnlock
  | alloc p type e hCall hPooled =>
    -- nobody holds an entry of the pool
    have hHolds : ∀ u type', s.holds u type' e = 0 := by
      intro u type'
      rw [holds, List.countP_eq_zero]
      intro k hk hIs
      obtain ⟨_, rfl⟩ := of_decide_eq_true hIs
      rw [hPlaced.not_pooled (hAnchored.held u k hk)] at hPooled
      cases hPooled
    have hWriting : ∀ u, (s.calls u).writing ≠ some e := by
      intro u hIs
      rw [hPlaced.not_pooled_of_writing hAnchored hIs] at hPooled
      cases hPooled
    have hAlloc : Accounted (s.allocIdxEntry e) := by
      refine h.update e (fun e' hne he' => ?_) (fun e' hne => setLock_locks .. |>.trans (if_neg hne))
        (fun _ _ _ _ => rfl) (fun _ _ _ => Iff.rfl) fun _ u => ?_
      · rwa [allocIdxEntry_pooled, if_neg hne] at he'
      · rw [show (s.allocIdxEntry e).locks e = .free from (setLock_locks ..).trans (if_pos rfl)]
        have hNone : ¬ ((s.allocIdxEntry e).calls u).writing = some e := hWriting u
        rw [RwLock.reads_free, RwLock.writes_free, if_neg hNone]
        exact ⟨(hHolds u .rd).symm, (hHolds u .wr).symm⟩
    exact hAlloc.goto (congrArg Point.writing hCall).symm
  | install p type e hCall hEmpty =>
    exact Accounted.goto (s := s.setSlot p (some e)) ⟨h.reads, h.writes⟩ (congrArg Point.writing hCall).symm
  | free e c hOwned hWriting hQuiet _ _ =>
    refine h.update e (fun e' hne he' => ?_) (fun _ _ => rfl) (fun _ _ _ _ => rfl) (fun u e' hne => ?_)
      fun hPooled => ?_
    · rwa [goto_pooled, freeIdxEntry_pooled, if_neg hne] at he'
    · rw [writing_goto]
      split
      · rename_i hu
        rw [hQuiet.2.1, hu]
        exact ⟨fun hIs => (by cases hIs), fun hIs => absurd (hWriting e' hIs) hne⟩
      · exact Iff.rfl
    · rw [goto_pooled, freeIdxEntry_pooled, if_pos rfl] at hPooled
      cases hPooled
  | take p type e l hCall hLock hInstalled =>
    exact (h.take (hPlaced.not_pooled (hInstalled hGuard)) hLock).goto (congrArg Point.writing hCall).symm
  | seize p e l hCall hLock hInstalled =>
    obtain ⟨hFree, hNone, hOne⟩ := RwLock.wrlock_eq_some hLock
    have hPooled := hPlaced.not_pooled (hInstalled hGuard)
    refine h.update e (fun _ _ he => he) (fun e' hne => (setLock_locks ..).trans (if_neg hne))
      (fun _ _ _ _ => rfl) (fun u e' hne => ?_) fun _ u => ?_
    · rw [writing_goto]
      split
      · rename_i hu
        rw [hu, hCall]
        exact ⟨fun hIs => absurd (Option.some.inj hIs).symm hne, fun hIs => (by cases hIs)⟩
      · exact Iff.rfl
    · have hReads := h.reads e hPooled u
      have hWrites := h.writes e hPooled u
      rw [hFree, RwLock.reads_free] at hReads
      rw [hFree, RwLock.writes_free] at hWrites
      rw [goto_locks, setLock_locks, if_pos rfl, hNone, hOne, writing_goto]
      refine ⟨hReads, ?_⟩
      change _ = s.holds u .wr e + _
      by_cases hu : u = t
      · rw [if_pos hu, if_pos hu, if_pos (show (Point.ckptTest p e).writing = some e from rfl)]
        omega
      · rw [if_neg hu, if_neg hu]
        exact hWrites
  | clear p e hCall =>
    exact Accounted.goto (s := s.setSlot p none) ⟨h.reads, h.writes⟩ (congrArg Point.writing hCall).symm
  | keep p e l hCall hUnlock =>
    have hWriting : (s.calls t).writing = some e := congrArg Point.writing hCall
    have hPooled := hPlaced.not_pooled_of_writing hAnchored hWriting
    have hMine := h.writes e hPooled t
    rw [if_pos hWriting] at hMine
    obtain ⟨hFree, hOne⟩ := RwLock.unlock_of_writes (l := s.locks e) (t := t) (by omega)
    rw [hUnlock] at hFree
    cases hFree
    refine h.update e (fun _ _ he => he) (fun e' hne => (setLock_locks ..).trans (if_neg hne))
      (fun _ _ _ _ => rfl) (fun u e' hne => ?_) fun _ u => ?_
    · rw [writing_goto]
      split
      · rename_i hu
        rw [hu, hCall]
        exact ⟨fun hIs => (by cases hIs), fun hIs => absurd (Option.some.inj hIs).symm hne⟩
      · exact Iff.rfl
    · have hReads := h.reads e hPooled u
      have hWrites := h.writes e hPooled u
      rw [RwLock.reads_eq_zero_of_writes (t := t) (by omega)] at hReads
      rw [hOne] at hWrites
      rw [goto_locks, setLock_locks, if_pos rfl, RwLock.reads_free, RwLock.writes_free, writing_goto]
      refine ⟨hReads, ?_⟩
      change _ = s.holds u .wr e + _
      by_cases hu : u = t
      · subst hu
        rw [if_pos rfl, if_pos hWriting] at hWrites
        rw [if_pos rfl, if_neg (fun hIs => (by cases hIs))]
        omega
      · rw [if_neg hu] at hWrites ⊢
        exact hWrites

/-! ## Runs -/

structure Settled (s : State T S E) : Prop where
  placed : Placed s
  anchored : Anchored s
  accounted : Accounted s

theorem Settled.step (h : Settled s) {a : T × Act S E} (hStep : Guarded StillInstalled Step s a s') :
    Settled s' := by
  have hEffect := step_effect hStep.2
  exact ⟨h.placed.step h.anchored.test hEffect, h.anchored.step h.placed h.accounted hStep.1 hEffect,
    h.accounted.step h.placed h.anchored hStep.1 hEffect⟩

/-- A held lock can be released. -/
theorem Settled.exists_unlock (h : Settled s) {k : Hold S E} (hMem : k ∈ s.held t) :
    ∃ l, (s.locks k.entry).unlock t = some l := by
  have hPooled := h.placed.not_pooled (h.anchored.held t k hMem)
  have hPos := holds_pos hMem
  cases hType : k.type with
  | rd =>
    rw [hType, ← h.accounted.reads k.entry hPooled] at hPos
    obtain ⟨l, hUnlock, _⟩ := RwLock.unlock_of_reads hPos
    exact ⟨l, hUnlock⟩
  | wr =>
    rw [hType] at hPos
    have hWrites := h.accounted.writes k.entry hPooled t
    exact ⟨_, (RwLock.unlock_of_writes (by omega)).1⟩

theorem settled_init (locks : E → RwLock T) : Settled (init locks : State T S E) := by
  refine ⟨fun e x y hx hy => ?_, ⟨fun t h hMem => ?_, fun t p e hCall => ?_, fun _ _ => rfl⟩,
    ⟨fun e he => ?_, fun e he => ?_⟩⟩
  · cases x with
    | pool =>
      cases y with
      | pool => rfl
      | thread t => cases hy
      | slot p => cases hy
    | thread t => cases hx
    | slot p => cases hx
  · cases hMem
  · cases hCall
  · cases he
  · cases he

/-- What is held is installed; what the checkpointer clears is installed; and what is freed is
neither in the pool, nor in a slot, nor in the hands of another thread. -/
structure HeldInstalled (s : State T S E) : Prop where
  held : ∀ t, ∀ h ∈ s.held t, s.slots h.slot = some h.entry
  cleared : ∀ t p e, s.calls t = .ckptTest p e → s.slots p = some e
  freed : ∀ t e, (s.calls t).owned = some e → s.pooled e = false ∧ (∀ p, s.slots p ≠ some e) ∧
    ∀ u, (s.calls u).owned = some e → u = t

theorem Settled.heldInstalled (h : Settled s) : HeldInstalled s := by
  refine ⟨h.anchored.held, h.anchored.test, fun t e hOwned => ⟨?_, fun p hSlot => ?_, fun u hu => ?_⟩⟩
  · cases hPooled : s.pooled e with
    | false => rfl
    | true => cases h.placed e .pool (.thread t) hPooled hOwned
  · cases h.placed e (.slot p) (.thread t) hSlot hOwned
  · cases h.placed e (.thread u) (.thread t) hu hOwned
    rfl

end State

end Libnvmmio.EntrySlots

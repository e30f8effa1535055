import Libnvmmio.Concurrent.Installed
import Libnvmmio.Radixlog.LogSize

/-! # Log buffers and log sizes

The buffers of each log size have a free list of their own. An entry gets its
buffer from the list of the size that its thread has from the table, and the
buffer goes back to the list of the size that the freeing thread has. The two
agree, since `get_log_size` lets one thread set the size of a table for good.
-/

namespace Libnvmmio.EntrySlots

open GuardedRun Mmio

set_option autoImplicit false
set_option linter.unusedSectionVars false

inductive Sizing (B : Type) where
  | out
  /-- `get_log_size`: the test of `table->log_size` -/
  | test (b : B) (best : LogSize)
  /-- the size is set; load it once more -/
  | load (b : B)
  /-- compare-and-swap `NR_LOG_SIZES` -/
  | swap (b : B) (best : LogSize)
  | got (b : B) (size : LogSize)

/-- The entries and slots, with the sizes of the tables and the buffers of the entries. -/
structure Buffers (T S E B L : Type) where
  base : State T S E
  sizes : B → Option LogSize
  sizing : T → Sizing B
  logs : E → Option L
  /-- `global_log_list` with its providers and collectors -/
  free : LogSize → L → Bool

namespace Buffers

inductive Act (S E B L : Type) where
  | entry (act : State.Act S E)
  /-- `alloc_idx_entry`, which takes an entry and a buffer -/
  | alloc (e : E) (l : L)
  /-- `get_log_size` is called; `best` is what `set_log_size` computes -/
  | size (b : B) (best : LogSize)
  | step
  /-- `checkpoint_mmio` loads the size of a table that has one -/
  | scan (b : B)

variable {T S E B L : Type}

/-- The free lists have been filled from the log files. -/
def init (fileOf : L → LogSize) (locks : E → RwLock T) : Buffers T S E B L where
  base := EntrySlots.init locks
  sizes _ := none
  sizing _ := .out
  logs _ := none
  free size l := decide (fileOf l = size)

variable [DecidableEq T] [DecidableEq S] [DecidableEq E] [DecidableEq B] [DecidableEq L]

def allocLogData (s : Buffers T S E B L) (e : E) (l : L) (size : LogSize) : Buffers T S E B L :=
  { s with
    logs := Function.update s.logs e (some l)
    free := Function.update s.free size (Function.update (s.free size) l false) }

def freeLogData (s : Buffers T S E B L) (e : E) (size : LogSize) : Buffers T S E B L :=
  match s.logs e with
  | some l =>
    { s with
      logs := Function.update s.logs e none
      free := Function.update s.free size (Function.update (s.free size) l true) }
  | none => s

def freedAt : Point S E → Option E
  | .drop _ _ e | .ckptFree _ e => some e
  | _ => none

def freed (s : State T S E) (t : T) : State.Act S E → Option E
  | .access => freedAt (s.calls t)
  | _ => none

variable (tableOf : S → B)

/-- An access to a slot of a table needs the size of the table. -/
def Allows (s : Buffers T S E B L) (t : T) : State.Act S E → Bool
  | .lock p _ | .checkpoint p =>
    match s.sizing t with
    | .got b _ => decide (b = tableOf p)
    | _ => false
  | .alloc _ => false
  | _ => true

def getLogSize (s : Buffers T S E B L) (t : T) : Option (Buffers T S E B L) :=
  match s.sizing t with
  | .test b best =>
    match s.sizes b with
    | some _ => some { s with sizing := Function.update s.sizing t (.load b) }
    | none => some { s with sizing := Function.update s.sizing t (.swap b best) }
  | .load b => (s.sizes b).map fun size => { s with sizing := Function.update s.sizing t (.got b size) }
  | .swap b best =>
    match s.sizes b with
    | some _ => some { s with sizing := Function.update s.sizing t (.test b best) }
    | none => some { s with
        sizes := Function.update s.sizes b (some best), sizing := Function.update s.sizing t (.got b best) }
  | _ => none

def next (s : Buffers T S E B L) : T × Act S E B L → Option (Buffers T S E B L)
  | (t, .entry act) =>
    if s.Allows tableOf t act then do
      let base ← s.base.next (t, act)
      match freed s.base t act, s.sizing t with
      | some e, .got _ size => some { s.freeLogData e size with base := base }
      | _, _ => some { s with base := base }
    else none
  | (t, .alloc e l) =>
    match s.sizing t with
    | .got _ size =>
      if s.free size l then do
        let base ← s.base.next (t, .alloc e)
        some { s.allocLogData e l size with base := base }
      else none
    | _ => none
  | (t, .size b best) =>
    if s.base.calls t = .idle then some { s with sizing := Function.update s.sizing t (.test b best) } else none
  | (t, .step) => s.getLogSize t
  | (t, .scan b) =>
    if s.base.calls t = .idle then
      (s.sizes b).map fun size => { s with sizing := Function.update s.sizing t (.got b size) }
    else none

def Step (s : Buffers T S E B L) (a : T × Act S E B L) (s' : Buffers T S E B L) : Prop :=
  s.next tableOf a = some s'

/-- A trylock that succeeds finds its entry still installed. -/
def StillInstalled (s : Buffers T S E B L) : T × Act S E B L → Prop
  | (t, .entry act) => s.base.StillInstalled (t, act)
  | _ => True

/-- All threads have the one size of a table, and a buffer is in the free list of its own log file or
in one entry, which is in use and is installed only in tables of that size. -/
structure BuffersFit (fileOf : L → LogSize) (s : Buffers T S E B L) : Prop where
  agreed : ∀ t b size, s.sizing t = .got b size → s.sizes b = some size
  installed : ∀ p e, s.base.slots p = some e → ∃ l, s.logs e = some l ∧ s.sizes (tableOf p) = some (fileOf l)
  free : ∀ size l, s.free size l = true → fileOf l = size
  apart : ∀ e l, s.logs e = some l → s.base.pooled e = false ∧ s.free (fileOf l) l = false ∧
    ∀ e', s.logs e' = some l → e' = e
  kept : ∀ l, s.free (fileOf l) l = true ∨ ∃ e, s.logs e = some l
  /-- and in every run from here the sizes stay -/
  fixed : ∀ as s', Run (Step tableOf) s as s' → ∀ b size, s.sizes b = some size → s'.sizes b = some size

/-! ## What an access changes -/

section Accesses

variable {s s' : State T S E} {t : T} {act : State.Act S E}

def slotOf : Point S E → Option S
  | .idle => none
  | .load p _ | .alloc p _ | .swap p _ _ | .drop p _ _ | .reload p _ | .trylock p _ _ | .ckptLoad p
  | .ckptTrylock p _ | .ckptTest p _ | .ckptFree p _ => some p

def enters : State.Act S E → Option S
  | .lock p _ | .checkpoint p => some p
  | _ => none

inductive Change (s : State T S E) (t : T) (act : State.Act S E) (s' : State T S E) : Prop where
  | quiet (hSlots : s'.slots = s.slots) (hPooled : s'.pooled = s.pooled)
      (hOwned : (s'.calls t).owned = (s.calls t).owned)
      (hSlot : ∀ p, slotOf (s'.calls t) = some p →
        slotOf (s.calls t) = some p ∨ s.calls t = .idle ∧ enters act = some p)
      (hFreed : freed s t act = none)
  | install (p : S) (type : LockType) (e : E) (hCall : s.calls t = .swap p type e)
      (hSlots : s'.slots = Function.update s.slots p (some e)) (hPooled : s'.pooled = s.pooled)
      (hCall' : s'.calls t = .trylock p type e) (hFreed : freed s t act = none)
  | free (p : S) (e : E) (hOwned : (s.calls t).owned = some e) (hSlot : slotOf (s.calls t) = some p)
      (hSlots : s'.slots = s.slots) (hPooled : s'.pooled = Function.update s.pooled e true)
      (hOwned' : (s'.calls t).owned = none) (hSlot' : ∀ q, slotOf (s'.calls t) = some q → q = p)
      (hFreed : freed s t act = some e)
  | clear (p : S) (e : E) (hCall : s.calls t = .ckptTest p e)
      (hSlots : s'.slots = Function.update s.slots p none) (hPooled : s'.pooled = s.pooled)
      (hCall' : s'.calls t = .ckptFree p e) (hFreed : freed s t act = none)

theorem Change.stay {c c' : Point S E} (hCall : s.calls t = c) (hCall' : s'.calls t = c')
    (hSlots : s'.slots = s.slots) (hPooled : s'.pooled = s.pooled) (hOwned : c'.owned = c.owned)
    (hSlot : ∀ p, slotOf c' = some p → slotOf c = some p ∨ c = .idle ∧ enters act = some p)
    (hFreed : freed s t act = none) : Change s t act s' := by
  refine .quiet hSlots hPooled ?_ ?_ hFreed
  · rw [hCall, hCall', hOwned]
  · rw [hCall, hCall']
    exact hSlot

theorem freed_access {c : Point S E} (hCall : s.calls t = c) : freed s t .access = freedAt c := by
  rw [freed, hCall]

theorem change_of_access (h : s.access t (s.calls t) = some s') : Change s t .access s' := by
  unfold State.access at h
  split at h
  · rename_i p type hCall
    split at h <;> cases h
    · exact .stay hCall (State.goto_self ..) rfl rfl rfl (fun _ hp => .inl hp) (freed_access hCall)
    · exact .stay hCall (State.goto_self ..) rfl rfl rfl (fun _ hp => .inl hp) (freed_access hCall)
  · rename_i p type e hCall
    split at h <;> cases h
    · exact .install p type e hCall rfl rfl (State.goto_self ..) (freed_access hCall)
    · exact .stay hCall (State.goto_self ..) rfl rfl rfl (fun _ hp => .inl hp) (freed_access hCall)
  · rename_i p type e hCall
    cases h
    refine .free p e (by rw [hCall]; rfl) (by rw [hCall]; rfl) rfl rfl ?_ ?_ (freed_access hCall)
    · rw [State.goto_self]
      rfl
    · rw [State.goto_self]
      rintro q hq
      cases hq
      rfl
  · rename_i p type hCall
    split at h <;> cases h
    exact .stay hCall (State.goto_self ..) rfl rfl rfl (fun _ hp => .inl hp) (freed_access hCall)
  · rename_i p type e hCall
    split at h <;> cases h
    · refine .stay hCall (State.goto_self ..) rfl rfl rfl (fun _ hp => ?_) (freed_access hCall)
      cases hp
    · exact .stay hCall (State.goto_self ..) rfl rfl rfl (fun _ hp => .inl hp) (freed_access hCall)
  · rename_i p e hCall
    split at h <;> cases h
    · exact .stay hCall (State.goto_self ..) rfl rfl rfl (fun _ hp => .inl hp) (freed_access hCall)
    · refine .stay hCall (State.goto_self ..) rfl rfl rfl (fun _ hp => ?_) (freed_access hCall)
      cases hp
  · rename_i p e hCall
    cases h
    refine .free p e (by rw [hCall]; rfl) (by rw [hCall]; rfl) rfl rfl ?_ ?_ (freed_access hCall)
    · rw [State.goto_self]
      rfl
    · rw [State.goto_self]
      rintro q hq
      cases hq
  · cases h

theorem change_of_next (h : s.next (t, act) = some s') (hNoAlloc : ∀ e, act ≠ .alloc e) : Change s t act s' := by
  unfold State.next at h
  cases act with
  | lock p type =>
    obtain ⟨hIdle, hDone⟩ := Option.ite_none_right_eq_some.mp h
    cases hDone
    exact .stay hIdle (State.goto_self ..) rfl rfl rfl (fun _ hp => .inr ⟨rfl, hp⟩) rfl
  | unlock k =>
    obtain ⟨⟨hIdle, _⟩, hDone⟩ := Option.ite_none_right_eq_some.mp h
    obtain ⟨l, _, hDone⟩ := Option.bind_eq_some_iff.mp hDone
    cases hDone
    exact .stay hIdle hIdle rfl rfl rfl (fun _ hp => .inl hp) rfl
  | checkpoint p =>
    obtain ⟨⟨hIdle, _⟩, hDone⟩ := Option.ite_none_right_eq_some.mp h
    cases hDone
    exact .stay hIdle (State.goto_self ..) rfl rfl rfl (fun _ hp => .inr ⟨rfl, hp⟩) rfl
  | alloc e => exact absurd rfl (hNoAlloc e)
  | test stale =>
    dsimp only at h
    split at h
    · rename_i p hCall
      split at h <;> cases h
      · exact .stay hCall (State.goto_self ..) rfl rfl rfl (fun _ hp => .inl hp) rfl
      · exact .stay hCall (State.goto_self ..) rfl rfl rfl (fun _ hp => by cases hp) rfl
    · rename_i p e hCall
      split at h
      · cases h
        exact .clear p e hCall rfl rfl (State.goto_self ..) rfl
      · obtain ⟨l, _, hDone⟩ := Option.bind_eq_some_iff.mp h
        cases hDone
        exact .stay hCall (State.goto_self ..) rfl rfl rfl (fun _ hp => by cases hp) rfl
    · cases h
  | access => exact change_of_access h

end Accesses

/-! ## The free lists -/

structure Stocked (fileOf : L → LogSize) (logs : E → Option L) (free : LogSize → L → Bool) : Prop where
  filed : ∀ size l, free size l = true → fileOf l = size
  used : ∀ e l, logs e = some l → free (fileOf l) l = false
  own : ∀ e e' l, logs e = some l → logs e' = some l → e = e'
  kept : ∀ l, free (fileOf l) l = true ∨ ∃ e, logs e = some l

section Stock

variable {fileOf : L → LogSize} {s : Buffers T S E B L} {e e' : E} {l : L} {size : LogSize}

theorem update_logs (logs : E → Option L) (e e' : E) (o : Option L) :
    Function.update logs e o e' = if e' = e then o else logs e' := Function.update_apply ..

theorem update_free (free : LogSize → L → Bool) (size size' : LogSize) (l l' : L) (b : Bool) :
    Function.update free size (Function.update (free size) l b) size' l' =
      if size' = size ∧ l' = l then b else free size' l' := by
  rw [Function.update_apply]
  by_cases hSize : size' = size
  · subst hSize
    simp [Function.update_apply]
  · simp [hSize]

theorem Stocked.alloc (h : Stocked fileOf s.logs s.free) (hFree : s.free size l = true) (hNone : s.logs e = none) :
    Stocked fileOf (s.allocLogData e l size).logs (s.allocLogData e l size).free := by
  have hFile := h.filed size l hFree
  have hUnused : ∀ e', s.logs e' ≠ some l := by
    intro e' hLog
    have hUsed := h.used e' l hLog
    rw [hFile, hFree] at hUsed
    cases hUsed
  have hFrees := update_free s.free size (l := l) (b := false)
  have hLogs := fun e' => update_logs s.logs e e' (some l)
  constructor
  · intro size' l' hTaken
    rw [allocLogData] at hTaken
    dsimp only at hTaken
    rw [hFrees] at hTaken
    split at hTaken
    · cases hTaken
    · exact h.filed size' l' hTaken
  · intro e' l' hLog
    rw [allocLogData] at hLog ⊢
    dsimp only at hLog ⊢
    rw [hLogs] at hLog
    rw [hFrees]
    split at hLog
    · cases hLog
      rw [if_pos ⟨hFile, rfl⟩]
    · split
      · rfl
      · exact h.used e' l' hLog
  · intro e₁ e₂ l' hFirst hSecond
    rw [allocLogData] at hFirst hSecond
    dsimp only at hFirst hSecond
    rw [hLogs] at hFirst hSecond
    split at hFirst <;> split at hSecond
    · rename_i h₁ h₂
      rw [h₁, h₂]
    · cases hFirst
      exact absurd hSecond (hUnused e₂)
    · cases hSecond
      exact absurd hFirst (hUnused e₁)
    · exact h.own e₁ e₂ l' hFirst hSecond
  · intro l'
    rw [allocLogData]
    dsimp only
    by_cases hl : l' = l
    · exact .inr ⟨e, by rw [hLogs, if_pos rfl, hl]⟩
    · rw [hFrees, if_neg fun hBoth => hl hBoth.2]
      rcases h.kept l' with hKept | ⟨e', hLog⟩
      · exact .inl hKept
      · refine .inr ⟨e', ?_⟩
        rw [hLogs, if_neg]
        · exact hLog
        · rintro rfl
          rw [hNone] at hLog
          cases hLog

theorem Stocked.release (h : Stocked fileOf s.logs s.free) (hLog : s.logs e = some l) :
    Stocked fileOf (s.freeLogData e (fileOf l)).logs (s.freeLogData e (fileOf l)).free := by
  have hFrees := update_free s.free (fileOf l) (l := l) (b := true)
  have hLogs := fun e' => update_logs s.logs e e' (none : Option L)
  rw [freeLogData, hLog]
  dsimp only
  constructor
  · intro size' l' hTaken
    rw [hFrees] at hTaken
    split at hTaken
    · rename_i hBoth
      rw [hBoth.1, hBoth.2]
    · exact h.filed size' l' hTaken
  · intro e' l' hOther
    rw [hLogs] at hOther
    split at hOther
    · cases hOther
    · rename_i hne
      rw [hFrees, if_neg]
      · exact h.used e' l' hOther
      · rintro ⟨_, rfl⟩
        exact hne (h.own e' e l' hOther hLog)
  · intro e₁ e₂ l' hFirst hSecond
    rw [hLogs] at hFirst hSecond
    split at hFirst
    · cases hFirst
    · split at hSecond
      · cases hSecond
      · exact h.own e₁ e₂ l' hFirst hSecond
  · intro l'
    rw [hFrees]
    by_cases hl : l' = l
    · exact .inl (by rw [if_pos ⟨by rw [hl], hl⟩])
    · rw [if_neg fun hBoth => hl hBoth.2]
      rcases h.kept l' with hKept | ⟨e', hOther⟩
      · exact .inl hKept
      · refine .inr ⟨e', ?_⟩
        rw [hLogs, if_neg]
        · exact hOther
        · rintro rfl
          rw [hLog] at hOther
          exact hl (Option.some.inj hOther).symm

end Stock

/-! ## The invariant -/

structure Kept (fileOf : L → LogSize) (s : Buffers T S E B L) : Prop where
  settled : s.base.Settled
  stocked : Stocked fileOf s.logs s.free
  agreed : ∀ t b size, s.sizing t = .got b size → s.sizes b = some size
  ready : ∀ t p, slotOf (s.base.calls t) = some p → ∃ size, s.sizing t = .got (tableOf p) size
  logged : ∀ e, s.base.pooled e = false ↔ ∃ l, s.logs e = some l
  atSlot : ∀ p e l, s.base.slots p = some e → s.logs e = some l → s.sizes (tableOf p) = some (fileOf l)
  atThread : ∀ t p e l, (s.base.calls t).owned = some e → slotOf (s.base.calls t) = some p →
    s.logs e = some l → s.sizes (tableOf p) = some (fileOf l)

section Invariant

variable {fileOf : L → LogSize} {tableOf} {s s' : Buffers T S E B L} {t : T}

/-- A table that has a size keeps it. -/
theorem Kept.sized (h : Kept tableOf fileOf s) {sizes : B → Option LogSize} {x : Sizing B}
    (hSizes : ∀ b size, s.sizes b = some size → sizes b = some size)
    (hOut : slotOf (s.base.calls t) = none) (hAgreed : ∀ b size, x = .got b size → sizes b = some size) :
    Kept tableOf fileOf { s with sizes := sizes, sizing := Function.update s.sizing t x } := by
  refine ⟨h.settled, h.stocked, fun u b size hGot => ?_, fun u p hSlot => ?_, h.logged,
    fun p e l hSlot hLog => hSizes _ _ (h.atSlot p e l hSlot hLog),
    fun u p e l hOwned hSlot hLog => hSizes _ _ (h.atThread u p e l hOwned hSlot hLog)⟩
  · dsimp only at hGot ⊢
    rw [Function.update_apply] at hGot
    split at hGot
    · exact hAgreed b size hGot
    · exact hSizes b size (h.agreed u b size hGot)
  · dsimp only at hSlot ⊢
    rw [Function.update_of_ne]
    · exact h.ready u p hSlot
    · rintro rfl
      rw [hOut] at hSlot
      cases hSlot

theorem Kept.out_of_sizing (h : Kept tableOf fileOf s) (hNot : ∀ b size, s.sizing t ≠ .got b size) :
    slotOf (s.base.calls t) = none := by
  cases hSlot : slotOf (s.base.calls t) with
  | none => rfl
  | some p =>
    obtain ⟨size, hGot⟩ := h.ready t p hSlot
    exact absurd hGot (hNot _ size)

theorem Kept.getLogSize (h : Kept tableOf fileOf s) (hStep : s.getLogSize t = some s') : Kept tableOf fileOf s' := by
  have hSame : ∀ b size, s.sizes b = some size → s.sizes b = some size := fun _ _ hSize => hSize
  unfold Buffers.getLogSize at hStep
  split at hStep
  · rename_i b best hAt
    have hOut := h.out_of_sizing fun b size => by rw [hAt]; simp
    split at hStep <;> cases hStep
    · exact h.sized hSame hOut (by simp)
    · exact h.sized hSame hOut (by simp)
  · rename_i b hAt
    have hOut := h.out_of_sizing fun b size => by rw [hAt]; simp
    obtain ⟨size, hSize, rfl⟩ := Option.map_eq_some_iff.mp hStep
    refine h.sized hSame hOut fun b' size' hEq => ?_
    cases hEq
    exact hSize
  · rename_i b best hAt
    have hOut := h.out_of_sizing fun b size => by rw [hAt]; simp
    split at hStep
    · cases hStep
      exact h.sized hSame hOut (by simp)
    · rename_i hNone
      cases hStep
      refine h.sized (fun b' size hSize => ?_) hOut fun b' size hEq => ?_
      · rw [Function.update_of_ne]
        · exact hSize
        · rintro rfl
          rw [hNone] at hSize
          cases hSize
      · cases hEq
        exact Function.update_self ..
  · cases hStep

theorem Kept.log_none (h : Kept tableOf fileOf s) {e : E} (hPooled : s.base.pooled e = true) : s.logs e = none := by
  cases hLog : s.logs e with
  | none => rfl
  | some l =>
    have hOut := (h.logged e).mpr ⟨l, hLog⟩
    rw [hPooled] at hOut
    cases hOut

/-- A thread works on the slots of the table whose size it has. -/
theorem Kept.size_of_slot (h : Kept tableOf fileOf s) {p : S} {b : B} {size : LogSize}
    (hSlot : slotOf (s.base.calls t) = some p) (hGot : s.sizing t = .got b size) :
    s.sizes (tableOf p) = some size := by
  obtain ⟨size', hReady⟩ := h.ready t p hSlot
  rw [hGot] at hReady
  cases hReady
  exact h.agreed t _ size hGot

theorem Kept.alloc (h : Kept tableOf fileOf s) {b : B} {size : LogSize} {e : E} {l : L} {base : State T S E}
    (hGot : s.sizing t = .got b size) (hFree : s.free size l = true) (hBase : s.base.next (t, .alloc e) = some base) :
    Kept tableOf fileOf { s.allocLogData e l size with base := base } := by
  have hSettled := h.settled.step (a := (t, .alloc e)) ⟨trivial, hBase⟩
  have hFile := h.stocked.filed size l hFree
  unfold State.next at hBase
  dsimp only at hBase
  split at hBase
  · rename_i p type hCall
    split at hBase
    · rename_i hPooled
      cases hBase
      have hNone := h.log_none hPooled
      have hLogs : ∀ e', (s.allocLogData e l size).logs e' = if e' = e then some l else s.logs e' :=
        fun e' => update_logs s.logs e e' (some l)
      have hSize : s.sizes (tableOf p) = some (fileOf l) := by
        rw [hFile]
        exact h.size_of_slot (by rw [hCall]; rfl) hGot
      refine ⟨hSettled, h.stocked.alloc hFree hNone, h.agreed, fun u q hSlot => ?_, fun e' => ?_,
        fun q e' l' hSlot hLog => ?_, fun u q e' l' hOwned hSlot hLog => ?_⟩
      · dsimp only at hSlot ⊢
        rw [State.calls_goto] at hSlot
        split at hSlot
        · rename_i hu
          rw [hu]
          exact h.ready t q (by rw [hCall]; exact hSlot)
        · exact h.ready u q hSlot
      · dsimp only
        rw [hLogs, State.goto_pooled, State.allocIdxEntry_pooled]
        split
        · exact ⟨fun _ => ⟨l, rfl⟩, fun _ => rfl⟩
        · exact h.logged e'
      · dsimp only at hSlot hLog
        rw [hLogs] at hLog
        split at hLog
        · rename_i he
          subst he
          cases h.settled.placed e' .pool (.slot q) hPooled hSlot
        · exact h.atSlot q e' l' hSlot hLog
      · dsimp only at hOwned hSlot hLog
        rw [hLogs] at hLog
        rw [State.calls_goto] at hOwned hSlot
        split at hLog
        · rename_i he
          cases hLog
          split at hSlot
          · cases hSlot
            exact hSize
          · rename_i hu
            rw [if_neg hu, he] at hOwned
            cases h.settled.placed e .pool (.thread u) hPooled hOwned
        · rename_i he
          split at hSlot
          · rename_i hu
            rw [if_pos hu] at hOwned
            cases hOwned
            exact absurd rfl he
          · rename_i hu
            rw [if_neg hu] at hOwned
            exact h.atThread u q e' l' hOwned hSlot hLog
    · cases hBase
  · cases hBase

/-- A call that has entered a slot has the size of its table. -/
theorem Kept.ready_step (h : Kept tableOf fileOf s) {act : State.Act S E} (hAllows : s.Allows tableOf t act = true)
    {base : State T S E} (hOther : ∀ u, u ≠ t → base.calls u = s.base.calls u)
    (hSlot : ∀ p, slotOf (base.calls t) = some p →
      slotOf (s.base.calls t) = some p ∨ s.base.calls t = .idle ∧ enters act = some p)
    (u : T) (p : S) (hAt : slotOf (base.calls u) = some p) : ∃ size, s.sizing u = .got (tableOf p) size := by
  by_cases hu : u = t
  · subst hu
    rcases hSlot p hAt with hWas | ⟨_, hEnters⟩
    · exact h.ready u p hWas
    · unfold Allows at hAllows
      cases act with
      | lock q type | checkpoint q =>
        cases hEnters
        dsimp only at hAllows
        split at hAllows
        · rename_i b size hGot
          exact ⟨size, by rw [hGot, of_decide_eq_true hAllows]⟩
        · cases hAllows
      | _ => cases hEnters
  · rw [hOther u hu] at hAt
    exact h.ready u p hAt

theorem Kept.quiet (h : Kept tableOf fileOf s) {base : State T S E} (hSettled : base.Settled)
    (hReady : ∀ u p, slotOf (base.calls u) = some p → ∃ size, s.sizing u = .got (tableOf p) size)
    (hPooled : base.pooled = s.base.pooled)
    (hSlots : ∀ p e, base.slots p = some e → s.base.slots p = some e ∨
      ∃ u, (s.base.calls u).owned = some e ∧ slotOf (s.base.calls u) = some p)
    (hOwned : ∀ u p e, (base.calls u).owned = some e → slotOf (base.calls u) = some p →
      ((s.base.calls u).owned = some e ∧ slotOf (s.base.calls u) = some p) ∨ s.base.slots p = some e) :
    Kept tableOf fileOf { s with base := base } := by
  refine ⟨hSettled, h.stocked, h.agreed, hReady, fun e => ?_, fun p e l hSlot hLog => ?_,
    fun u p e l hOwn hSlot hLog => ?_⟩
  · rw [hPooled]
    exact h.logged e
  · rcases hSlots p e hSlot with hWas | ⟨u, hOwn, hAt⟩
    · exact h.atSlot p e l hWas hLog
    · exact h.atThread u p e l hOwn hAt hLog
  · rcases hOwned u p e hOwn hSlot with ⟨hWas, hAt⟩ | hWas
    · exact h.atThread u p e l hWas hAt hLog
    · exact h.atSlot p e l hWas hLog

theorem Kept.log_of_owned (h : Kept tableOf fileOf s) {p : S} {e : E} {b : B} {size : LogSize}
    (hOwned : (s.base.calls t).owned = some e) (hSlot : slotOf (s.base.calls t) = some p)
    (hGot : s.sizing t = .got b size) : ∃ l, s.logs e = some l ∧ size = fileOf l := by
  have hOut : s.base.pooled e = false := by
    cases hPooled : s.base.pooled e with
    | false => rfl
    | true => cases h.settled.placed e .pool (.thread t) hPooled hOwned
  obtain ⟨l, hLog⟩ := (h.logged e).mp hOut
  refine ⟨l, hLog, ?_⟩
  have hHere := h.size_of_slot hSlot hGot
  rw [h.atThread t p e l hOwned hSlot hLog] at hHere
  exact (Option.some.inj hHere).symm

/-- A buffer goes back to the list of its file. -/
theorem Kept.freed (h : Kept tableOf fileOf s) {base : State T S E} (hSettled : base.Settled)
    (hReady : ∀ u p, slotOf (base.calls u) = some p → ∃ size, s.sizing u = .got (tableOf p) size)
    (hOther : ∀ u, u ≠ t → base.calls u = s.base.calls u) {p : S} {e : E} {b : B} {size : LogSize}
    (hOwned : (s.base.calls t).owned = some e) (hSlot : slotOf (s.base.calls t) = some p)
    (hSlots : base.slots = s.base.slots) (hPooled : base.pooled = Function.update s.base.pooled e true)
    (hOwned' : (base.calls t).owned = none) (hGot : s.sizing t = .got b size) :
    Kept tableOf fileOf { s.freeLogData e size with base := base } := by
  obtain ⟨l, hLog, rfl⟩ := h.log_of_owned hOwned hSlot hGot
  have hStocked := h.stocked.release hLog
  have hFields : s.freeLogData e (fileOf l) = { s with
      logs := (s.freeLogData e (fileOf l)).logs, free := (s.freeLogData e (fileOf l)).free } := by
    rw [freeLogData, hLog]
  have hLogs : ∀ e', (s.freeLogData e (fileOf l)).logs e' = if e' = e then none else s.logs e' := by
    intro e'
    rw [freeLogData, hLog]
    exact update_logs s.logs e e' none
  have hOther' : ∀ e' l', (s.freeLogData e (fileOf l)).logs e' = some l' → s.logs e' = some l' := by
    intro e' l' hLog'
    rw [hLogs] at hLog'
    split at hLog'
    · cases hLog'
    · exact hLog'
  rw [hFields]
  refine ⟨hSettled, hStocked, h.agreed, hReady, fun e' => ?_, fun q e' l' hAt hLog' => ?_,
    fun u q e' l' hOwn hAt hLog' => ?_⟩
  · dsimp only
    rw [hLogs, hPooled, Function.update_apply]
    split
    · simp
    · exact h.logged e'
  · dsimp only at hAt
    rw [hSlots] at hAt
    exact h.atSlot q e' l' hAt (hOther' e' l' hLog')
  · dsimp only at hOwn hAt
    by_cases hu : u = t
    · rw [hu, hOwned'] at hOwn
      cases hOwn
    · rw [hOther u hu] at hOwn hAt
      exact h.atThread u q e' l' hOwn hAt (hOther' e' l' hLog')

theorem Kept.entry (h : Kept tableOf fileOf s) {act : State.Act S E}
    (hGuard : s.base.StillInstalled (t, act)) (hStep : Step tableOf s (t, .entry act) s') : Kept tableOf fileOf s' := by
  obtain ⟨hAllows, hDone⟩ := Option.ite_none_right_eq_some.mp hStep
  obtain ⟨base, hBase, hDone⟩ := Option.bind_eq_some_iff.mp hDone
  have hSettled := h.settled.step (a := (t, act)) ⟨hGuard, hBase⟩
  have hOther := fun u (hne : u ≠ t) => ((State.step_effect hBase).other hne).1
  have hNoAlloc : ∀ e, act ≠ .alloc e := by
    rintro e rfl
    cases hAllows
  have hNotMine : ∀ u p e, u ≠ t → (base.calls u).owned = some e → slotOf (base.calls u) = some p →
      (s.base.calls u).owned = some e ∧ slotOf (s.base.calls u) = some p := by
    intro u p e hne hOwn hAt
    rw [hOther u hne] at hOwn hAt
    exact ⟨hOwn, hAt⟩
  have hReady := fun (hSame : ∀ q, slotOf (base.calls t) = some q → slotOf (s.base.calls t) = some q) =>
    h.ready_step hAllows hOther fun q hAt => .inl (hSame q hAt)
  cases change_of_next hBase hNoAlloc with
  | quiet hSlots hPooled hOwned hSlot hFreed =>
    rw [hFreed] at hDone
    cases hDone
    refine h.quiet hSettled (h.ready_step hAllows hOther hSlot) hPooled (fun p e hAt => .inl (hSlots ▸ hAt))
      fun u p e hOwn hAt => .inl ?_
    by_cases hu : u = t
    · subst hu
      rw [hOwned] at hOwn
      rcases hSlot p hAt with hWas | ⟨hIdle, _⟩
      · exact ⟨hOwn, hWas⟩
      · rw [hIdle] at hOwn
        cases hOwn
    · exact hNotMine u p e hu hOwn hAt
  | install p type e hCall hSlots hPooled hCall' hFreed =>
    rw [hFreed] at hDone
    cases hDone
    have hSame : slotOf (base.calls t) = slotOf (s.base.calls t) := by
      rw [hCall', hCall]
      rfl
    refine h.quiet hSettled (hReady fun q hAt => hSame ▸ hAt) hPooled (fun q e' hAt => ?_)
      fun u q e' hOwn hAt => .inl ?_
    · rw [hSlots, Function.update_apply] at hAt
      split at hAt
      · rename_i hq
        cases hAt
        exact .inr ⟨t, by rw [hCall]; rfl, by rw [hCall, hq]; rfl⟩
      · exact .inl hAt
    · by_cases hu : u = t
      · rw [hu, hCall'] at hOwn
        cases hOwn
      · exact hNotMine u q e' hu hOwn hAt
  | free p e hOwned hSlot hSlots hPooled hOwned' hSlot' hFreed =>
    obtain ⟨size, hGot⟩ := h.ready t p hSlot
    rw [hFreed, hGot] at hDone
    cases hDone
    have hStays := hReady fun q hAt => by
      rw [hSlot' q hAt]
      exact hSlot
    exact h.freed hSettled hStays hOther hOwned hSlot hSlots hPooled hOwned' hGot
  | clear p e hCall hSlots hPooled hCall' hFreed =>
    rw [hFreed] at hDone
    cases hDone
    have hSame : slotOf (base.calls t) = slotOf (s.base.calls t) := by
      rw [hCall', hCall]
      rfl
    refine h.quiet hSettled (hReady fun q hAt => hSame ▸ hAt) hPooled (fun q e' hAt => ?_) fun u q e' hOwn hAt => ?_
    · rw [hSlots, Function.update_apply] at hAt
      split at hAt
      · cases hAt
      · exact .inl hAt
    · by_cases hu : u = t
      · rw [hu, hCall'] at hOwn hAt
        cases hOwn
        cases hAt
        exact .inr (h.settled.anchored.test t p e hCall)
      · exact .inl (hNotMine u q e' hu hOwn hAt)

theorem Kept.step (h : Kept tableOf fileOf s) {a : T × Act S E B L}
    (hStep : Guarded StillInstalled (Step tableOf) s a s') : Kept tableOf fileOf s' := by
  obtain ⟨hGuard, hStep⟩ := hStep
  obtain ⟨t, act⟩ := a
  cases act with
  | entry act => exact h.entry hGuard hStep
  | alloc e l =>
    unfold Step next at hStep
    dsimp only at hStep
    split at hStep
    · rename_i b size hGot
      obtain ⟨hFree, hDone⟩ := Option.ite_none_right_eq_some.mp hStep
      obtain ⟨base, hBase, hDone⟩ := Option.bind_eq_some_iff.mp hDone
      cases hDone
      exact h.alloc hGot hFree hBase
    · cases hStep
  | size b best =>
    obtain ⟨hIdle, hDone⟩ := Option.ite_none_right_eq_some.mp hStep
    cases hDone
    exact h.sized (fun _ _ hSize => hSize) (by rw [hIdle]; rfl) (by simp)
  | step => exact h.getLogSize hStep
  | scan b =>
    obtain ⟨hIdle, hDone⟩ := Option.ite_none_right_eq_some.mp hStep
    obtain ⟨size, hSize, rfl⟩ := Option.map_eq_some_iff.mp hDone
    refine h.sized (fun _ _ hSize => hSize) (by rw [hIdle]; rfl) fun b' size' hEq => ?_
    cases hEq
    exact hSize

/-! ## Runs -/

theorem freeLogData_sizes (e : E) (size : LogSize) : (s.freeLogData e size).sizes = s.sizes := by
  unfold freeLogData
  split <;> rfl

/-- The size of a table is set once, whatever the entries do. -/
theorem sizes_step {a : T × Act S E B L} (hStep : Step tableOf s a s') {b : B} {size : LogSize}
    (hSize : s.sizes b = some size) : s'.sizes b = some size := by
  obtain ⟨t, act⟩ := a
  unfold Step next at hStep
  cases act with
  | entry act =>
    obtain ⟨_, hDone⟩ := Option.ite_none_right_eq_some.mp hStep
    obtain ⟨base, _, hDone⟩ := Option.bind_eq_some_iff.mp hDone
    split at hDone
    · cases hDone
      exact (congrFun (freeLogData_sizes ..) b).trans hSize
    · cases hDone
      exact hSize
  | alloc e l =>
    dsimp only at hStep
    split at hStep
    · obtain ⟨_, hDone⟩ := Option.ite_none_right_eq_some.mp hStep
      obtain ⟨base, _, hDone⟩ := Option.bind_eq_some_iff.mp hDone
      cases hDone
      exact hSize
    · cases hStep
  | size b' best =>
    obtain ⟨_, hDone⟩ := Option.ite_none_right_eq_some.mp hStep
    cases hDone
    exact hSize
  | step =>
    unfold Buffers.getLogSize at hStep
    dsimp only at hStep
    split at hStep
    · split at hStep <;> cases hStep <;> exact hSize
    · obtain ⟨_, _, rfl⟩ := Option.map_eq_some_iff.mp hStep
      exact hSize
    · split at hStep <;> cases hStep
      · exact hSize
      · rename_i hNone
        refine (Function.update_of_ne ?_ ..).trans hSize
        rintro rfl
        rw [hNone] at hSize
        cases hSize
    · cases hStep
  | scan b' =>
    obtain ⟨_, hDone⟩ := Option.ite_none_right_eq_some.mp hStep
    obtain ⟨_, _, rfl⟩ := Option.map_eq_some_iff.mp hDone
    exact hSize

end Invariant

theorem init_kept (fileOf : L → LogSize) (locks : E → RwLock T) :
    Kept tableOf fileOf (init fileOf locks : Buffers T S E B L) where
  settled := State.settled_init locks
  stocked := {
    filed := fun _ _ hFree => of_decide_eq_true hFree
    used := fun _ _ hLog => by cases hLog
    own := fun _ _ _ hLog => by cases hLog
    kept := fun _ => .inl (decide_eq_true rfl) }
  agreed _ _ _ hGot := by cases hGot
  ready _ _ hSlot := by cases hSlot
  logged e := by simp [init, EntrySlots.init]
  atSlot _ _ _ hSlot := by cases hSlot
  atThread _ _ _ _ hOwned := by cases hOwned

theorem buffersFit_of_run {fileOf : L → LogSize} {locks : E → RwLock T} {as : List (T × Act S E B L)}
    {s : Buffers T S E B L} (hRun : Run (Guarded StillInstalled (Step tableOf)) (init fileOf locks) as s) :
    BuffersFit tableOf fileOf s := by
  have hKept := hRun.invariant (Kept tableOf fileOf) (fun _ _ _ h hStep => h.step hStep) (init_kept tableOf fileOf locks)
  refine ⟨hKept.agreed, fun p e hSlot => ?_, hKept.stocked.filed, fun e l hLog => ?_, hKept.stocked.kept,
    fun as' s' hLater b size hSize => ?_⟩
  · obtain ⟨l, hLog⟩ := (hKept.logged e).mp (hKept.settled.placed.not_pooled hSlot)
    exact ⟨l, hLog, hKept.atSlot p e l hSlot hLog⟩
  · exact ⟨(hKept.logged e).mpr ⟨l, hLog⟩, hKept.stocked.used e l hLog,
      fun e' hOther => hKept.stocked.own e' e l hOther hLog⟩
  · exact hLater.invariant (fun r => r.sizes b = some size) (fun _ _ _ h hStep => sizes_step hStep h) hSize

section Schedules

theorem one_lt_nrLogSizes : 1 < nrLogSizes := by decide

def log8K : LogSize := ⟨1, one_lt_nrLogSizes⟩

/-- Two requests race for the size of a table. The first to test loses, and allocates by the size of
the other one. -/
def sizeRace : List (Bool × Act Nat Nat Unit LogSize) :=
  [(false, .size () .log4K), (false, .step), (true, .size () log8K), (true, .step), (true, .step), (false, .step),
    (false, .step), (false, .step), (false, .entry (.lock 3 .wr)), (false, .entry .access), (false, .alloc 7 log8K),
    (false, .entry .access), (false, .entry .access)]

theorem buffersFit_sizeRace : ∃ s : Buffers Bool Nat Nat Unit LogSize,
    Run (Guarded StillInstalled (Step fun _ => ())) (init id fun _ => .free) sizeRace s ∧
      s.base.slots 3 = some 7 ∧ s.sizes () = some log8K ∧ BuffersFit (fun _ => ()) id s := by
  have hRun : ∃ s : Buffers Bool Nat Nat Unit LogSize,
      Run (Guarded StillInstalled (Step fun _ => ())) (init id fun _ => .free) sizeRace s ∧
        s.base.slots 3 = some 7 ∧ s.sizes () = some log8K :=
    ⟨_, .cons ⟨trivial, rfl⟩ (.cons ⟨trivial, rfl⟩ (.cons ⟨trivial, rfl⟩ (.cons ⟨trivial, rfl⟩
      (.cons ⟨trivial, rfl⟩ (.cons ⟨trivial, rfl⟩ (.cons ⟨trivial, rfl⟩ (.cons ⟨trivial, rfl⟩
      (.cons ⟨trivial, rfl⟩ (.cons ⟨trivial, rfl⟩ (.cons ⟨trivial, rfl⟩ (.cons ⟨trivial, rfl⟩
      (.cons ⟨fun _ => rfl, rfl⟩ (.nil _))))))))))))), rfl, rfl⟩
  obtain ⟨s, hRun, hSlot, hSize⟩ := hRun
  exact ⟨s, hRun, hSlot, hSize, buffersFit_of_run (fun _ => ()) hRun⟩

end Schedules

end Buffers

end Libnvmmio.EntrySlots

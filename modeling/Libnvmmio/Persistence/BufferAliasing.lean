import Libnvmmio.Foundation.GuardedRun
import Libnvmmio.Foundation.PersistentWord
import Libnvmmio.Persistence.Stores

/-! # The log buffers that index entries name after a crash

The index entries of any number of mmios and threads, with the stores to their
headers and log pointers. `free_idx_entry` gives the buffer back, clears both
and flushes neither, so the entry that had the buffer and the entry that has it
may both survive with it.
-/

namespace Libnvmmio.BufferAliasing

open GuardedRun Persistence PersistentWord

set_option autoImplicit false
set_option linter.unusedSectionVars false

inductive Assign where
  | epoch (n : Nat)
  | offset (n : Nat)
  | len (n : Nat)
  | policy (p : Policy)

def Assign.apply (h : Header) : Assign → Header
  | .epoch n => { h with epoch := n % 2 ^ 20 }
  | .offset n => { h with offset := n % 2 ^ 21 }
  | .len n => { h with len := n % 2 ^ 22 }
  | .policy p => { h with policy := p }

inductive Stage where
  | pooled
  /-- from `alloc_idx_entry` on -/
  | live
  /-- `free_idx_entry` has given the buffer back -/
  | bufferFreed
  /-- `entry->log` is cleared -/
  | logCleared
  /-- `entry->united` is cleared -/
  | headerCleared
  deriving DecidableEq, Repr

/-- The words of the entries and the pools. `lastOwner` is the entry that a buffer was last
given to, `sinceFree` how far the flushes of an entry have got since its last `free_idx_entry`
cleared `entry->log`. -/
structure State (E B : Type) where
  header : E → PersistentWord Header
  log : E → PersistentWord (Option B)
  stage : E → Stage
  pooledLog : B → Bool
  lastOwner : B → Option E
  sinceFree : E → Option Settling

variable {E B : Type}

/-- After `init_idx` on files that were created empty. -/
def init : State E B where
  header _ := .durable Header.zero
  log _ := .durable none
  stage _ := .pooled
  pooledLog _ := true
  lastOwner _ := none
  sinceFree _ := none

inductive Act (E B : Type) where
  | alloc (e : E) (b : B)
  /-- in `get_log_entry`, `mmio_write` and `checkpoint_entry` -/
  | assign (e : E) (a : Assign)
  /-- `FLUSH(entry, sizeof(idx_entry_t))` -/
  | flush (e : E)
  /-- `FENCE` by a thread that has flushed these entries -/
  | fence (flushed : E → Bool)
  /-- `free_log_data(entry->log)` -/
  | freeLog (e : E)
  | clearLog (e : E)
  | clearHeader (e : E)
  /-- the push at the end of `free_idx_entry` -/
  | push (e : E)

namespace State

variable [DecidableEq E] [DecidableEq B]

def setHeader (s : State E B) (e : E) (w : PersistentWord Header) : State E B :=
  { s with header := Function.update s.header e w }

def setLog (s : State E B) (e : E) (w : PersistentWord (Option B)) : State E B :=
  { s with log := Function.update s.log e w }

def setStage (s : State E B) (e : E) (stage : Stage) : State E B :=
  { s with stage := Function.update s.stage e stage }

def setPooledLog (s : State E B) (b : B) (pooled : Bool) : State E B :=
  { s with pooledLog := Function.update s.pooledLog b pooled }

def setOwner (s : State E B) (b : B) (e : E) : State E B :=
  { s with lastOwner := Function.update s.lastOwner b (some e) }

def setSince (s : State E B) (e : E) (t : Option Settling) : State E B :=
  { s with sinceFree := Function.update s.sinceFree e t }

def fence (s : State E B) (flushed : E → Bool) : State E B :=
  { s with
    header := fun e => if flushed e then (s.header e).fence else s.header e
    log := fun e => if flushed e then (s.log e).fence else s.log e
    sinceFree := fun e => if flushed e then (s.sinceFree e).map Settling.afterFence else s.sinceFree e }

def next (s : State E B) : Act E B → Option (State E B)
  | .alloc e b =>
    if s.stage e = .pooled ∧ s.pooledLog b then
      some ((((s.setPooledLog b false).setLog e ((s.log e).store (some b))).setOwner b e).setStage e .live)
    else none
  | .assign e a =>
    if s.stage e = .live then some (s.setHeader e ((s.header e).store (a.apply (s.header e).current)))
    else none
  | .flush e =>
    if s.stage e = .live then
      some (((s.setHeader e (s.header e).flush).setLog e (s.log e).flush).setSince e
        ((s.sinceFree e).map Settling.afterFlush))
    else none
  | .fence flushed => some (s.fence flushed)
  | .freeLog e =>
    match s.stage e, (s.log e).current with
    | .live, some b => some (((s.setPooledLog b true).setSince e none).setStage e .bufferFreed)
    | _, _ => none
  | .clearLog e =>
    if s.stage e = .bufferFreed then
      some (((s.setLog e ((s.log e).store none)).setSince e (some .pending)).setStage e .logCleared)
    else none
  | .clearHeader e =>
    if s.stage e = .logCleared then
      some ((s.setHeader e ((s.header e).store Header.zero)).setStage e .headerCleared)
    else none
  | .push e => if s.stage e = .headerCleared then some (s.setStage e .pooled) else none

def Step (s : State E B) (a : Act E B) (s' : State E B) : Prop := s.next a = some s'

/-- An index file that a crash may leave: of each word the last durable value or a later one. -/
def Survives (s : State E B) (image : E → Header × Option B) : Prop :=
  ∀ e, (image e).1 ∈ (s.header e).values ∧ (image e).2 ∈ (s.log e).values

/-- No two entries of a surviving image hold data in the same buffer. -/
def NoAlias (s : State E B) : Prop :=
  ∀ image, s.Survives image → ∀ e e' b, 0 < (image e).1.len → 0 < (image e').1.len →
    (image e).2 = some b → (image e').2 = some b → e = e'

/-- `alloc_idx_entry` gets a buffer whose last owner is the entry itself, or was flushed and
then fenced since it gave the buffer back and cleared its pointer. -/
def ReusesFlushed (s : State E B) : Act E B → Prop
  | .alloc e b => ∀ e', s.lastOwner b = some e' → e' = e ∨ s.sinceFree e' = some .fenced
  | _ => True

/-! ## Owners -/

def InUse (s : State E B) (log : Option B) : Prop := ∀ b, log = some b → s.pooledLog b = false

/-- An entry may survive with the buffers that were last given to it, and after its clearing
is durable only with one that is in use. -/
structure Owned (s : State E B) : Prop where
  owner : ∀ e b, some b ∈ (s.log e).values → s.lastOwner b = some e
  recent : ∀ e t, s.sinceFree e = some t → (s.log e).Since s.InUse t

variable {s s' : State E B} {e : E} {b : B}

theorem init_owned : (init : State E B).Owned where
  owner e b hMem := by cases List.mem_singleton.mp hMem
  recent e t hSince := by cases hSince

theorem Owned.alloc (h : s.Owned) (hFree : s.pooledLog b = true) (hGuard : s.ReusesFlushed (.alloc e b)) :
    ((((s.setPooledLog b false).setLog e ((s.log e).store (some b))).setOwner b e).setStage e .live).Owned where
  owner x c hMem := by
    change some c ∈ (Function.update s.log e ((s.log e).store (some b)) x).values at hMem
    change Function.update s.lastOwner b (some e) c = some x
    have hOld (hBefore : some c ∈ (s.log x).values) : Function.update s.lastOwner b (some e) c = some x := by
      have hOwner := h.owner x c hBefore
      by_cases hc : c = b
      · subst hc
        rw [Function.update_self]
        rcases hGuard x hOwner with rfl | hFenced
        · rfl
        · have hUsed := h.recent x .fenced hFenced (some c) hBefore c rfl
          rw [hFree] at hUsed
          cases hUsed
      · rw [Function.update_of_ne hc]
        exact hOwner
    by_cases hx : x = e
    · subst hx
      rw [Function.update_self, values_store] at hMem
      rcases List.mem_append.mp hMem with hBefore | hNew
      · exact hOld hBefore
      · cases List.mem_singleton.mp hNew
        exact Function.update_self ..
    · rw [Function.update_of_ne hx] at hMem
      exact hOld hMem
  recent x t hSince := by
    have hKept (v : Option B) (hv : s.InUse v) : (s.setPooledLog b false).InUse v := by
      intro c hc
      change Function.update s.pooledLog b false c = false
      by_cases hcb : c = b
      · rw [hcb, Function.update_self]
      · rw [Function.update_of_ne hcb]
        exact hv c hc
    have hRecent := (h.recent x t hSince).mono fun v _ => hKept v
    change (Function.update s.log e ((s.log e).store (some b)) x).Since (s.setPooledLog b false).InUse t
    by_cases hx : x = e
    · subst hx
      rw [Function.update_self]
      refine hRecent.store ?_
      rintro c ⟨⟩
      exact Function.update_self ..
    · rw [Function.update_of_ne hx]
      exact hRecent

theorem Owned.flush (h : s.Owned) (e : E) :
    (((s.setHeader e (s.header e).flush).setLog e (s.log e).flush).setSince e
      ((s.sinceFree e).map Settling.afterFlush)).Owned where
  owner x c hMem := by
    change some c ∈ (Function.update s.log e (s.log e).flush x).values at hMem
    by_cases hx : x = e
    · subst hx
      rw [Function.update_self, values_flush] at hMem
      exact h.owner x c hMem
    · rw [Function.update_of_ne hx] at hMem
      exact h.owner x c hMem
  recent x t hSince := by
    change Function.update s.sinceFree e ((s.sinceFree e).map Settling.afterFlush) x = some t at hSince
    change (Function.update s.log e (s.log e).flush x).Since s.InUse t
    by_cases hx : x = e
    · subst hx
      rw [Function.update_self] at hSince ⊢
      obtain ⟨t₀, hBefore, rfl⟩ := Option.map_eq_some_iff.mp hSince
      exact (h.recent x t₀ hBefore).flush
    · rw [Function.update_of_ne hx] at hSince ⊢
      exact h.recent x t hSince

theorem Owned.fence (h : s.Owned) (flushed : E → Bool) : (s.fence flushed).Owned where
  owner x c hMem := by
    change some c ∈ (if flushed x then (s.log x).fence else s.log x).values at hMem
    split at hMem
    · exact h.owner x c (mem_values_of_fence hMem)
    · exact h.owner x c hMem
  recent x t hSince := by
    change (if flushed x then (s.sinceFree x).map Settling.afterFence else s.sinceFree x) = some t at hSince
    change (if flushed x then (s.log x).fence else s.log x).Since s.InUse t
    by_cases hx : flushed x
    · rw [if_pos hx] at hSince ⊢
      obtain ⟨t₀, hBefore, rfl⟩ := Option.map_eq_some_iff.mp hSince
      exact (h.recent x t₀ hBefore).fence
    · rw [if_neg hx] at hSince ⊢
      exact h.recent x t hSince

/-- The buffer goes back to the pool with its owner, whose clearing is to come. -/
theorem Owned.freeLog (h : s.Owned) (hLog : (s.log e).current = some b) :
    (((s.setPooledLog b true).setSince e none).setStage e .bufferFreed).Owned where
  owner := h.owner
  recent x t hSince := by
    change Function.update s.sinceFree e none x = some t at hSince
    have hOwner := h.owner e b (hLog ▸ (s.log e).current_mem)
    by_cases hx : x = e
    · subst hx
      rw [Function.update_self] at hSince
      cases hSince
    · rw [Function.update_of_ne hx] at hSince
      refine (h.recent x t hSince).mono fun v hv hUsed c hc => ?_
      change Function.update s.pooledLog b true c = false
      subst hc
      have hNot : c ≠ b := by
        rintro rfl
        have hOther := h.owner x c hv
        rw [hOwner, Option.some.injEq] at hOther
        exact hx hOther.symm
      rw [Function.update_of_ne hNot]
      exact hUsed c rfl

theorem Owned.clearLog (h : s.Owned) (e : E) :
    (((s.setLog e ((s.log e).store none)).setSince e (some .pending)).setStage e .logCleared).Owned where
  owner x c hMem := by
    change some c ∈ (Function.update s.log e ((s.log e).store none) x).values at hMem
    by_cases hx : x = e
    · subst hx
      rw [Function.update_self, values_store] at hMem
      rcases List.mem_append.mp hMem with hBefore | hNew
      · exact h.owner x c hBefore
      · cases List.mem_singleton.mp hNew
    · rw [Function.update_of_ne hx] at hMem
      exact h.owner x c hMem
  recent x t hSince := by
    change Function.update s.sinceFree e (some .pending) x = some t at hSince
    change (Function.update s.log e ((s.log e).store none) x).Since s.InUse t
    by_cases hx : x = e
    · subst hx
      rw [Function.update_self] at hSince ⊢
      cases hSince
      exact since_store _ fun c hc => by cases hc
    · rw [Function.update_of_ne hx] at hSince ⊢
      exact h.recent x t hSince

theorem Owned.step {a : Act E B} (h : s.Owned) (hStep : Guarded ReusesFlushed Step s a s') : s'.Owned := by
  obtain ⟨hGuard, hStep⟩ := hStep
  unfold Step at hStep
  cases a with
  | alloc e b =>
    obtain ⟨hReady, hDone⟩ := Option.ite_none_right_eq_some.mp hStep
    cases hDone
    exact h.alloc hReady.2 hGuard
  | assign e a =>
    obtain ⟨_, hDone⟩ := Option.ite_none_right_eq_some.mp hStep
    cases hDone
    exact ⟨h.owner, h.recent⟩
  | flush e =>
    obtain ⟨_, hDone⟩ := Option.ite_none_right_eq_some.mp hStep
    cases hDone
    exact h.flush e
  | fence flushed =>
    cases hStep
    exact h.fence flushed
  | freeLog e =>
    simp only [next] at hStep
    split at hStep <;> cases hStep
    rename_i hLog
    exact h.freeLog hLog
  | clearLog e =>
    obtain ⟨_, hDone⟩ := Option.ite_none_right_eq_some.mp hStep
    cases hDone
    exact h.clearLog e
  | clearHeader e =>
    obtain ⟨_, hDone⟩ := Option.ite_none_right_eq_some.mp hStep
    cases hDone
    exact ⟨h.owner, h.recent⟩
  | push e =>
    obtain ⟨_, hDone⟩ := Option.ite_none_right_eq_some.mp hStep
    cases hDone
    exact ⟨h.owner, h.recent⟩

theorem Owned.noAlias (h : s.Owned) : s.NoAlias := by
  intro image hSurvives e e' b _ _ hLog hLog'
  have hOwner := h.owner e b (hLog ▸ (hSurvives e).2)
  have hOwner' := h.owner e' b (hLog' ▸ (hSurvives e').2)
  exact Option.some.inj (hOwner.symm.trans hOwner')

/-- In every run whose reuses meet the condition, at every crash point no two entries
survive with data in one buffer. -/
theorem noAlias_of_run {as : List (Act E B)} (hRun : Run (Guarded ReusesFlushed Step) init as s) : s.NoAlias :=
  (hRun.invariant Owned (fun _ _ _ h hStep => h.step hStep) init_owned).noAlias

section Schedules

/-- A write of `n` bytes at the start of the block of a live entry, in epoch 1. -/
def written (e : Bool) (n : Nat) : List (Act Bool Nat) :=
  [.assign e (.epoch 1), .assign e (.offset 0), .assign e (.len n), .assign e (.policy .undo), .flush e,
    .fence (· == e)]

def freed (e : Bool) : List (Act Bool Nat) := [.freeLog e, .clearLog e, .clearHeader e, .push e]

/-- An entry is written and freed, used again with another buffer, and only then does the
other entry take the first buffer. -/
def reusedAfterFlush : List (Act Bool Nat) :=
  [.alloc false 0] ++ written false 100 ++ freed false ++ [.alloc false 1] ++ written false 20 ++
    [.alloc true 0] ++ written true 50

/-- The first owner has been flushed and fenced by the write to its second buffer. -/
theorem reusesFlushed_of_fenced {s : State Bool Nat} {e : Bool} {b : Nat}
    (h : s.lastOwner b = none ∨ s.lastOwner b = some false ∧ s.sinceFree false = some .fenced) :
    s.ReusesFlushed (.alloc e b) := by
  intro e' hOwner
  rcases h with hNone | ⟨hFalse, hFenced⟩
  · rw [hNone] at hOwner
    cases hOwner
  · rw [hFalse] at hOwner
    cases hOwner
    exact .inr hFenced

theorem noAlias_reusedAfterFlush : ∃ s : State Bool Nat, Run (Guarded ReusesFlushed Step) init reusedAfterFlush s ∧
    s.NoAlias := by
  have hRun : ∃ s : State Bool Nat, Run (Guarded ReusesFlushed Step) init reusedAfterFlush s :=
    ⟨_, .cons ⟨reusesFlushed_of_fenced (.inl rfl), rfl⟩ (.cons ⟨trivial, rfl⟩ (.cons ⟨trivial, rfl⟩
      (.cons ⟨trivial, rfl⟩ (.cons ⟨trivial, rfl⟩ (.cons ⟨trivial, rfl⟩ (.cons ⟨trivial, rfl⟩
      (.cons ⟨trivial, rfl⟩ (.cons ⟨trivial, rfl⟩ (.cons ⟨trivial, rfl⟩ (.cons ⟨trivial, rfl⟩
      (.cons ⟨reusesFlushed_of_fenced (.inl rfl), rfl⟩ (.cons ⟨trivial, rfl⟩ (.cons ⟨trivial, rfl⟩
      (.cons ⟨trivial, rfl⟩ (.cons ⟨trivial, rfl⟩ (.cons ⟨trivial, rfl⟩ (.cons ⟨trivial, rfl⟩
      (.cons ⟨reusesFlushed_of_fenced (.inr ⟨rfl, rfl⟩), rfl⟩ (.cons ⟨trivial, rfl⟩ (.cons ⟨trivial, rfl⟩
      (.cons ⟨trivial, rfl⟩ (.cons ⟨trivial, rfl⟩ (.cons ⟨trivial, rfl⟩ (.cons ⟨trivial, rfl⟩
      (.nil _)))))))))))))))))))))))))⟩
  obtain ⟨s, hRun⟩ := hRun
  exact ⟨s, hRun, noAlias_of_run hRun⟩

def reusedByAnother : List (Act Bool Nat) :=
  [.alloc false 0] ++ written false 100 ++ freed false ++ [.alloc true 0] ++ written true 50

theorem reusedByAnother_run : ∃ s : State Bool Nat, Run Step init reusedByAnother s ∧
    (s.header false).values = [⟨1, 0, 100, .undo⟩, Header.zero] ∧ (s.log false).values = [some 0, none] ∧
    (s.header true).values = [⟨1, 0, 50, .undo⟩] ∧ (s.log true).values = [some 0] :=
  ⟨_, .cons rfl (.cons rfl (.cons rfl (.cons rfl (.cons rfl (.cons rfl (.cons rfl (.cons rfl (.cons rfl
    (.cons rfl (.cons rfl (.cons rfl (.cons rfl (.cons rfl (.cons rfl (.cons rfl (.cons rfl (.cons rfl
    (.nil _)))))))))))))))))), rfl, rfl, rfl, rfl⟩

/-- The crash keeps none of the stores of `free_idx_entry`. -/
theorem noAlias_fails_reusedByAnother : ∃ s : State Bool Nat, Run Step init reusedByAnother s ∧
    ¬ s.NoAlias := by
  obtain ⟨s, hRun, hHeader, hLog, hHeader', hLog'⟩ := reusedByAnother_run
  refine ⟨s, hRun, fun hNone => ?_⟩
  let image : Bool → Header × Option Nat
    | false => (⟨1, 0, 100, .undo⟩, some 0)
    | true => (⟨1, 0, 50, .undo⟩, some 0)
  have hSurvives : s.Survives image := by
    intro e
    cases e with
    | false =>
      rw [hHeader, hLog]
      exact ⟨List.mem_cons_self, List.mem_cons_self⟩
    | true =>
      rw [hHeader', hLog']
      exact ⟨List.mem_cons_self, List.mem_cons_self⟩
  cases hNone image hSurvives false true 0 (by decide) (by decide) rfl rfl

end Schedules

end State

end Libnvmmio.BufferAliasing

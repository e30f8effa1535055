import Libnvmmio.Concurrent.Stages
import Libnvmmio.Radixlog.Init

/-! # One epoch for each write

A write has the reader side of the lock of the mmio as long as it holds an
entry, so no commit raises the epoch meanwhile. Tags are epochs of the past, cut
to 20 bits; an entry whose tag is not below the epoch has the tag of the epoch.
-/

namespace Libnvmmio.Concurrent.State

open GuardedRun Mmio RadixLog

set_option autoImplicit false
set_option linter.unusedSectionVars false

variable {T E R X : Type} [DecidableEq T] [DecidableEq E] {s s' : State T E R} {t u : T}
  {locate : R → X → Nat → Nat → Slot × LogSize × R}

/-! ## The epoch during a request -/

theorem Attached.reads_of_held (h : Attached s) (hHeld : s.base.held t ≠ []) :
    (s.stages t).reads = true := by
  have hFits := h t
  generalize s.stages t = g at hFits ⊢
  cases g with
  | loop _ | inner _ _ _ _ | body _ _ | retire _ _ | unlock _ => rfl
  | _ => exact absurd hFits.2 hHeld

theorem Locked.epoch_eq (h : Locked s) (hReads : (s.stages t).reads = true) {act : Act X E}
    (hEffect : Effect locate s u act s') : s'.epoch = s.epoch := by
  cases hEffect with
  | bump hStage =>
    have hRead := h.reads t
    have hWrite := h.writes u
    rw [hStage] at hWrite
    rw [hReads, RwLock.reads_eq_zero_of_writes (t := u) (hWrite ▸ Nat.zero_lt_one)] at hRead
    cases hRead
  | _ => rfl

def Holding (t : T) (s : State T E R) (_ : T × Act X E) : Prop := s.base.held t ≠ []

theorem epoch_eq_of_holding (hLocked : Locked s) (hAttached : Attached s) {as : List (T × Act X E)}
    (hRun : Run (Guarded (Holding t) (Step locate)) s as s') : s'.epoch = s.epoch := by
  have hKept := hRun.invariant (fun r => (Locked r ∧ Attached r) ∧ r.epoch = s.epoch)
    (fun r a r' ⟨⟨hLocked, hAttached⟩, hEpoch⟩ hStep => by
      have hEffect := step_effect locate hStep.2
      exact ⟨⟨hLocked.step hEffect, hAttached.step hEffect⟩,
        (hLocked.epoch_eq (hAttached.reads_of_held hStep.1) hEffect).trans hEpoch⟩)
    ⟨⟨hLocked, hAttached⟩, rfl⟩
  exact hKept.2

/-! ## Without a checkpoint entries stay in their slots -/

structure Stable (s : State T E R) : Prop where
  settled : s.base.Settled
  locked : Locked s
  attached : Attached s
  no_scan : ∀ t, s.stages t ≠ .scan ∧ s.stages t ≠ .table
  loaded : ∀ t p type e, s.base.calls t = .trylock p type e → s.base.slots p = some e

theorem Stable.not_scanning (h : Stable s) (t : T) : ¬ (s.base.calls t).Scanning := by
  intro hScan
  have hFits := h.attached t
  have hStage := h.no_scan t
  generalize s.stages t = g at hFits hStage
  cases g with
  | inner r p size epoch =>
    rw [Fits] at hFits
    generalize s.base.calls t = c at hFits hScan
    cases c <;> first | exact hScan | cases hFits
  | table => exact hStage.2 rfl
  | loop _ | body _ _ | retire _ _ | unlock _ =>
    rw [show s.base.calls t = .idle from hFits] at hScan
    exact hScan
  | _ =>
    rw [show s.base.calls t = .idle from hFits.1] at hScan
    exact hScan

/-- So a trylock finds its entry installed. -/
theorem Stable.stillInstalled (h : Stable s) (t : T) (act : EntrySlots.State.Act Slot E) :
    s.base.StillInstalled (t, act) := by
  cases act with
  | access =>
    unfold EntrySlots.State.StillInstalled
    dsimp only
    split
    · rename_i p type e hCall
      exact fun _ => h.loaded t p type e hCall
    · rename_i p e hCall
      have hScan := h.not_scanning t
      rw [hCall] at hScan
      exact absurd trivial hScan
    · trivial
  | _ => trivial

theorem Effect.no_scan (h : Stable s) {act : Act X E} (hAct : act ≠ .checkpoint)
    (hEffect : Effect locate s t act s') : s'.stages t ≠ .scan ∧ s'.stages t ≠ .table := by
  have hStage := h.no_scan t
  cases hEffect with
  | stay => exact hStage
  | move g hMoves =>
    rw [goto_self]
    generalize s.stages t = g₀ at hMoves hStage
    cases hMoves with
    | checkpoint hIs => exact absurd hIs hAct
    | finish => exact absurd rfl hStage.1
    | _ => exact ⟨nofun, nofun⟩
  | rdlock g l hOpens _ =>
    rw [show _ = g from goto_self s t g]
    generalize s.stages t = g₀ at hOpens hStage
    cases hOpens with
    | table => exact absurd rfl hStage.1
    | _ => exact ⟨nofun, nofun⟩
  | wrlock g l hSeals _ =>
    rw [show _ = g from goto_self s t g]
    generalize s.stages t = g₀ at hSeals
    cases hSeals <;> exact ⟨nofun, nofun⟩
  | release g l hCloses _ =>
    rw [show _ = g from goto_self s t g]
    generalize s.stages t = g₀ at hCloses hStage
    cases hCloses with
    | table _ => exact absurd rfl hStage.2
    | _ => exact ⟨nofun, nofun⟩
  | inner r p size epoch a base _ _ _ =>
    rw [show _ = s.afterAccess t base (.inner r p size epoch) from goto_self s t _]
    have hReads := (afterAccess_sides (t := t) (s := s) base r p size epoch).1
    unfold afterAccess
    dsimp only
    split
    · exact ⟨nofun, nofun⟩
    · split <;> exact ⟨nofun, nofun⟩
  | table a base hTable _ _ _ => exact absurd hTable hStage.2
  | _ =>
    rw [show _ = _ from goto_self s t _]
    exact ⟨nofun, nofun⟩

theorem Stable.step (h : Stable s) {a : T × Act X E} (hAct : a.2 ≠ .checkpoint)
    (hStep : Step locate s a s') : Stable s' := by
  have hEffect := step_effect locate hStep
  have hInstalled : StillInstalled s a := by
    obtain ⟨t, act⟩ := a
    cases act with
    | entry b => exact h.stillInstalled t b
    | _ => trivial
  refine ⟨settled_step h.settled ⟨hInstalled, hStep⟩, h.locked.step hEffect, h.attached.step hEffect,
    fun u => ?_, ?_⟩
  · by_cases hu : u = a.1
    · subst hu
      exact hEffect.no_scan h hAct
    · rw [hEffect.stages_of_ne hu]
      exact h.no_scan u
  · rcases hEffect.base_cases with hSame | ⟨b, hBase, _⟩
    · rw [hSame]
      exact h.loaded
    · refine (EntrySlots.State.step_effect hBase).loaded (fun p e hTest => ?_) h.loaded
      have hScan := h.not_scanning a.1
      rw [hTest] at hScan
      exact hScan trivial

/-! ## Tags -/

/-- A step by which an access to the entries changes a tag: the entry is new, or is freed. -/
theorem tagAfter_cases (r : Range) (p : Slot) (size : LogSize) (epoch : Nat) {a : EntrySlots.State.Act Slot E}
    {base : EntrySlots.State T Slot E} (hBase : s.base.Step (t, a) base) :
    s.tagAfter t (.inner r p size epoch) a = s.tag ∨
      ∃ e x, (s.base.pooled e = true ∨ (s.base.calls t).owned = some e) ∧ (x = 0 ∨ x = epoch % 2 ^ 20) ∧
        s.tagAfter t (.inner r p size epoch) a = Function.update s.tag e x := by
  cases a with
  | alloc e =>
    refine .inr ⟨e, _, .inl ?_, .inr rfl, rfl⟩
    unfold EntrySlots.State.Step EntrySlots.State.next at hBase
    dsimp only at hBase
    split at hBase
    · exact (Option.ite_none_right_eq_some.mp hBase).1
    · cases hBase
  | access =>
    unfold tagAfter
    cases hCall : s.base.calls t with
    | drop q type e => exact .inr ⟨e, 0, .inr rfl, .inl rfl, rfl⟩
    | ckptFree q e => exact .inr ⟨e, 0, .inr rfl, .inl rfl, rfl⟩
    | _ => exact .inl rfl
  | _ => exact .inl rfl

def Current (s : State T E R) (e : E) : Prop := s.tag e = s.epoch % 2 ^ 20

structure Tagged (s : State T E R) : Prop where
  tag : ∀ e, s.tag e ≤ s.epoch ∧ s.tag e < 2 ^ 20
  inner : ∀ t r p size epoch, s.stages t = .inner r p size epoch → epoch = s.epoch

theorem Tagged.current_of_le (h : Tagged s) {e : E} (hFresh : s.epoch ≤ s.tag e) : s.Current e := by
  obtain ⟨hPast, hSmall⟩ := h.tag e
  rw [Current, Nat.mod_eq_of_lt (by omega)]
  omega

def Unwrapped (s : State T E R) (a : T × Act X E) : Prop :=
  s.stages a.1 = .commitEpoch → s.epoch + 1 < 2 ^ 64

def Requested (_ : State T E R) (a : T × Act X E) : Prop := a.2 ≠ .checkpoint

theorem Tagged.of_tag_le (h : Tagged s) {tag : E → Nat} (hTag : s'.tag = tag) (hEpoch : s'.epoch = s.epoch)
    (hSmall : ∀ e, tag e ≤ s.epoch ∧ tag e < 2 ^ 20) (hOther : ∀ u, u ≠ t → s'.stages u = s.stages u)
    (hInner : ∀ r p size epoch, s'.stages t = .inner r p size epoch → epoch = s.epoch) : Tagged s' := by
  refine ⟨fun e => ?_, fun u r p size epoch hStage => ?_⟩
  · rw [hTag, hEpoch]
    exact hSmall e
  · rw [hEpoch]
    by_cases hu : u = t
    · subst hu
      exact hInner r p size epoch hStage
    · rw [hOther u hu] at hStage
      exact h.inner u r p size epoch hStage

theorem Tagged.update_le (h : Tagged s) (e : E) {x : Nat} (hx : x = 0 ∨ x = s.epoch % 2 ^ 20) (e' : E) :
    Function.update s.tag e x e' ≤ s.epoch ∧ Function.update s.tag e x e' < 2 ^ 20 := by
  by_cases he : e' = e
  · subst he
    rw [Function.update_self]
    have hMod := Nat.mod_le s.epoch (2 ^ 20)
    have hLt := Nat.mod_lt s.epoch (Nat.two_pow_pos 20)
    omega
  · rw [Function.update_of_ne he]
    exact h.tag e'

theorem Tagged.step (h : Tagged s) (hStable : Stable s) {act : Act X E}
    (hEffect : Effect locate s t act s') (hUnwrapped : s.stages t = .commitEpoch → s.epoch + 1 < 2 ^ 64) :
    Tagged s' := by
  have hOther := fun u => hEffect.stages_of_ne (u := u)
  cases hEffect with
  | stay => exact h
  | move g hMoves =>
    refine h.of_tag_le rfl rfl h.tag hOther fun r p size epoch hStage => ?_
    rw [goto_self] at hStage
    subst hStage
    generalize s.stages t = g₀ at hMoves
    cases hMoves
  | rdlock g l hOpens _ =>
    refine h.of_tag_le rfl rfl h.tag hOther fun r p size epoch hStage => ?_
    rw [show _ = g from goto_self s t g] at hStage
    subst hStage
    generalize s.stages t = g₀ at hOpens
    cases hOpens
  | wrlock g l hSeals _ =>
    refine h.of_tag_le rfl rfl h.tag hOther fun r p size epoch hStage => ?_
    rw [show _ = g from goto_self s t g] at hStage
    subst hStage
    generalize s.stages t = g₀ at hSeals
    cases hSeals
  | release g l hCloses _ =>
    refine h.of_tag_le rfl rfl h.tag hOther fun r p size epoch hStage => ?_
    rw [show _ = g from goto_self s t g] at hStage
    subst hStage
    generalize s.stages t = g₀ at hCloses
    cases hCloses
  | bump hCommit =>
    have hLess := hUnwrapped hCommit
    refine ⟨fun e => ?_, fun u r p size epoch hStage => ?_⟩
    · obtain ⟨hPast, hSmall⟩ := h.tag e
      refine ⟨?_, hSmall⟩
      change s.tag e ≤ (s.epoch + 1) % 2 ^ 64
      rw [Nat.mod_eq_of_lt hLess]
      exact Nat.le_succ_of_le hPast
    · have hReads : (s.stages u).reads = true := by
        by_cases hu : u = t
        · subst hu
          rw [show _ = Stage.commitUnlock from goto_self s u _] at hStage
          cases hStage
        · rw [hOther u hu] at hStage
          rw [hStage]
          rfl
      have hRead := hStable.locked.reads u
      have hWrite := hStable.locked.writes t
      rw [hCommit] at hWrite
      rw [hReads, RwLock.reads_eq_zero_of_writes (t := t) (hWrite ▸ Nat.zero_lt_one)] at hRead
      cases hRead
  | retire k todo _ =>
    refine h.of_tag_le rfl rfl (h.update_le k.entry (.inr rfl)) hOther fun r p size epoch hStage => ?_
    rw [show _ = Stage.body .wr todo from goto_self s t _] at hStage
    cases hStage
  | locate r p size radixlog x base _ _ _ _ =>
    refine h.of_tag_le rfl rfl h.tag hOther fun r' p' size' epoch hStage => ?_
    rw [show _ = Stage.inner r p size s.epoch from goto_self s t _] at hStage
    cases hStage
    rfl
  | inner r p size epoch a base hInner _ hBase =>
    have hSame := h.inner t r p size epoch hInner
    subst hSame
    refine h.of_tag_le rfl rfl ?_ hOther fun r' p' size' epoch hStage => ?_
    · rcases tagAfter_cases r p size s.epoch hBase with hTag | ⟨e, x, _, hx, hTag⟩
      · rw [hTag]
        exact h.tag
      · rw [hTag]
        exact h.update_le e hx
    · rw [show _ = s.afterAccess t base (.inner r p size s.epoch) from goto_self s t _] at hStage
      unfold afterAccess at hStage
      dsimp only at hStage
      split at hStage
      · cases hStage
      · split at hStage <;> cases hStage <;> rfl
  | unlock type k base _ _ _ =>
    refine h.of_tag_le rfl rfl h.tag hOther fun r p size epoch hStage => ?_
    rw [show _ = Stage.unlock type from goto_self s t _] at hStage
    cases hStage
  | table a base hTable _ _ _ => exact absurd hTable (hStable.no_scan t).2

/-! ## The entries of a write -/

def Worked (s : State T E R) (t : T) : Stage E → Prop
  | .body .rd todo => todo = []
  | .body .wr todo => ∀ k ∈ s.base.held t, k ∈ todo ∨ s.Current k.entry
  | .retire h todo => ∀ k ∈ s.base.held t, k = h ∨ k ∈ todo ∨ s.Current k.entry
  | .unlock .wr => ∀ k ∈ s.base.held t, s.Current k.entry
  | _ => True

theorem Worked.mono {g : Stage E} (h : Worked s t g) (hHeld : ∀ k ∈ s'.base.held t, k ∈ s.base.held t)
    (hCurrent : ∀ k ∈ s.base.held t, s.Current k.entry → s'.Current k.entry) : Worked s' t g := by
  cases g with
  | body type todo =>
    cases type with
    | rd => exact h
    | wr => exact fun k hk => (h k (hHeld k hk)).imp_right (hCurrent k (hHeld k hk))
  | retire k₀ todo => exact fun k hk => (h k (hHeld k hk)).imp_right (.imp_right (hCurrent k (hHeld k hk)))
  | unlock type =>
    cases type with
    | rd => trivial
    | wr => exact fun k hk => hCurrent k (hHeld k hk) (h k (hHeld k hk))
  | _ => trivial

theorem Effect.current (h : Stable s) {act : Act X E} (hEffect : Effect locate s t act s')
    {k : EntrySlots.Hold Slot E} (hMem : k ∈ s.base.held u) (hCurrent : s.Current k.entry) :
    s'.Current k.entry := by
  have hEpoch : s'.epoch = s.epoch :=
    h.locked.epoch_eq (h.attached.reads_of_held (List.ne_nil_of_mem hMem)) hEffect
  unfold Current
  rw [hEpoch]
  cases hEffect with
  | retire k₀ todo _ =>
    change Function.update s.tag k₀.entry _ k.entry = _
    by_cases hEntry : k.entry = k₀.entry
    · rw [hEntry, Function.update_self]
    · rw [Function.update_of_ne hEntry]
      exact hCurrent
  | inner r p size epoch a base _ _ hBase =>
    change s.tagAfter t (.inner r p size epoch) a k.entry = _
    rcases tagAfter_cases r p size epoch hBase with hTag | ⟨e, x, hPlace, _, hTag⟩
    · rw [hTag]
      exact hCurrent
    · have hSlot := h.settled.anchored.held u k hMem
      have hEntry : k.entry ≠ e := by
        rintro rfl
        rcases hPlace with hPooled | hOwned
        · cases h.settled.placed k.entry .pool (.slot k.slot) hPooled hSlot
        · cases h.settled.placed k.entry (.thread t) (.slot k.slot) hOwned hSlot
      rw [hTag, Function.update_of_ne hEntry]
      exact hCurrent
  | table a base hTable _ _ _ => exact absurd hTable (h.no_scan t).2
  | _ => exact hCurrent

theorem Moves.worked (h : Tagged s) {act : Act X E} {g g' : Stage E} (hMoves : Moves s t act g g')
    (hWorked : Worked s t g) : Worked s t g' := by
  cases hMoves with
  | collect r hDone =>
    obtain ⟨type, off, n⟩ := r
    cases type with
    | rd => exact rfl
    | wr => exact fun k hk => .inl hk
  | fresh type k₀ todo hFresh =>
    cases type with
    | rd => cases hWorked
    | wr =>
      intro k hk
      rcases hWorked k hk with hTodo | hCurrent
      · rcases List.mem_cons.mp hTodo with rfl | hTodo
        · exact .inr (h.current_of_le hFresh)
        · exact .inl hTodo
      · exact .inr hCurrent
  | stale type k₀ todo =>
    cases type with
    | rd => cases hWorked
    | wr =>
      intro k hk
      rcases hWorked k hk with hTodo | hCurrent
      · exact (List.mem_cons.mp hTodo).imp_right .inl
      · exact .inr (.inr hCurrent)
  | done type =>
    cases type with
    | rd => trivial
    | wr => exact fun k hk => (hWorked k hk).resolve_left List.not_mem_nil
  | _ => trivial

theorem Effect.worked (h : Stable s) (hTagged : Tagged s) (hWorked : ∀ u, Worked s u (s.stages u))
    {act : Act X E} (hEffect : Effect locate s t act s') (u : T) : Worked s' u (s'.stages u) := by
  have hCurrent := fun k => hEffect.current h (u := u) (k := k)
  by_cases hu : u = t
  · subst hu
    have hHere := hWorked u
    cases hEffect with
    | stay => exact hHere
    | move g hMoves =>
      rw [goto_self]
      exact (hMoves.worked hTagged hHere).mono (fun _ hk => hk) hCurrent
    | rdlock g l hOpens _ =>
      rw [show _ = g from goto_self s u g]
      generalize s.stages u = g₀ at hOpens
      cases hOpens <;> trivial
    | wrlock g l hSeals _ =>
      rw [show _ = g from goto_self s u g]
      generalize s.stages u = g₀ at hSeals
      cases hSeals <;> trivial
    | release g l hCloses _ =>
      rw [show _ = g from goto_self s u g]
      generalize s.stages u = g₀ at hCloses
      cases hCloses <;> trivial
    | bump _ =>
      rw [show _ = Stage.commitUnlock from goto_self s u _]
      trivial
    | retire k₀ todo hStage =>
      rw [hStage] at hHere
      rw [show _ = Stage.body .wr todo from goto_self s u _]
      intro k hk
      rcases hHere k hk with rfl | hTodo | hIs
      · exact .inr (Function.update_self ..)
      · exact .inl hTodo
      · exact .inr (hCurrent k hk hIs)
    | locate r p size radixlog x base _ _ _ _ =>
      rw [show _ = Stage.inner r p size s.epoch from goto_self s u _]
      trivial
    | inner r p size epoch a base _ _ _ =>
      rw [show _ = s.afterAccess u base (.inner r p size epoch) from goto_self s u _]
      unfold afterAccess
      dsimp only
      split
      · trivial
      · split <;> trivial
    | unlock type k₀ base hStage _ hBase =>
      rw [hStage] at hHere
      rw [show _ = Stage.unlock type from goto_self s u _]
      refine hHere.mono (fun k hk => ?_) hCurrent
      obtain ⟨_, hDone⟩ := Option.ite_none_right_eq_some.mp hBase
      obtain ⟨l, _, hDone⟩ := Option.bind_eq_some_iff.mp hDone
      cases hDone
      change k ∈ Function.update s.base.held u ((s.base.held u).erase k₀) u at hk
      rw [Function.update_self] at hk
      exact List.mem_of_mem_erase hk
    | table a base hTable _ _ _ => exact absurd hTable (h.no_scan u).2
  · rw [hEffect.stages_of_ne hu]
    refine (hWorked u).mono (fun k hk => ?_) hCurrent
    rcases hEffect.base_cases with hSame | ⟨a, hBase, _⟩
    · rw [hSame] at hk
      exact hk
    · rw [((EntrySlots.State.step_effect hBase).other hu).2] at hk
      exact hk

/-! ## Runs -/

/-- Until the last entry of a write is unlocked the epoch is that of its first entry, and when it
unlocks its entries all of them have the tag of this epoch. -/
structure WritesWhole (locate : R → X → Nat → Nat → Slot × LogSize × R) (s : State T E R) : Prop where
  epoch : ∀ t as s', Run (Guarded (Holding t) (Step locate)) s as s' → s'.epoch = s.epoch
  tag : ∀ t, s.stages t = .unlock .wr → ∀ k ∈ s.base.held t, s.tag k.entry = s.epoch % 2 ^ 20

structure Tracked (s : State T E R) : Prop where
  stable : Stable s
  tagged : Tagged s
  worked : ∀ t, Worked s t (s.stages t)

def Counted (s : State T E R) (a : T × Act X E) : Prop := Requested s a ∧ Unwrapped s a

theorem Tracked.step (h : Tracked s) {a : T × Act X E} (hStep : Guarded Counted (Step locate) s a s') :
    Tracked s' := by
  have hEffect := step_effect locate hStep.2
  exact ⟨h.stable.step hStep.1.1 hStep.2, h.tagged.step h.stable hEffect hStep.1.2,
    hEffect.worked h.stable h.tagged h.worked⟩

theorem tracked_init (locks : E → RwLock T) (radixlog : R) (epoch : Nat) :
    Tracked (init locks radixlog epoch : State T E R) where
  stable := {
    settled := EntrySlots.State.settled_init locks
    locked := ⟨fun _ => rfl, fun _ => rfl⟩
    attached := fun _ => ⟨rfl, rfl⟩
    no_scan := fun _ => ⟨nofun, nofun⟩
    loaded := nofun }
  tagged := ⟨fun _ => ⟨Nat.zero_le _, Nat.two_pow_pos 20⟩, nofun⟩
  worked _ := trivial

theorem writesWhole_of_run {locks : E → RwLock T} {radixlog : R} {epoch : Nat} {as : List (T × Act X E)}
    (hRun : Run (Guarded Counted (Step locate)) (init locks radixlog epoch) as s) : WritesWhole locate s := by
  have hTracked := hRun.invariant Tracked (fun _ _ _ h hStep => h.step hStep) (tracked_init locks radixlog epoch)
  refine ⟨fun t as s' hHolding => ?_, fun t hStage => ?_⟩
  · exact epoch_eq_of_holding hTracked.stable.locked hTracked.stable.attached hHolding
  · have hWorked := hTracked.worked t
    rw [hStage] at hWorked
    exact hWorked

section Schedules

def file (epoch : Nat) : State Unit Nat RadixLog := init (fun _ => .free) (initRadixlog 4096) epoch

def writeFirst : List (Unit × Act Unit Nat) :=
  [((), .request .wr 0 1), ((), .step), ((), .step), ((), .locate ()), ((), .entry .access),
    ((), .entry (.alloc 7)), ((), .entry .access), ((), .entry .access), ((), .step), ((), .step), ((), .step)]

theorem writesWhole_writeFirst : ∃ s, Run (Guarded Counted (Step locateBlock)) (file 5) writeFirst s ∧
    s.stages () = .unlock .wr ∧ WritesWhole locateBlock s := by
  have hRun : ∃ s, Run (Guarded Counted (Step locateBlock)) (file 5) writeFirst s ∧
      s.stages () = .unlock .wr := by
    refine ⟨_, .cons ⟨⟨?_, ?_⟩, rfl⟩ (.cons ⟨⟨?_, ?_⟩, rfl⟩ (.cons ⟨⟨?_, ?_⟩, rfl⟩ (.cons ⟨⟨?_, ?_⟩, rfl⟩
      (.cons ⟨⟨?_, ?_⟩, rfl⟩ (.cons ⟨⟨?_, ?_⟩, rfl⟩ (.cons ⟨⟨?_, ?_⟩, rfl⟩ (.cons ⟨⟨?_, ?_⟩, rfl⟩
      (.cons ⟨⟨?_, ?_⟩, rfl⟩ (.cons ⟨⟨?_, ?_⟩, rfl⟩ (.cons ⟨⟨?_, ?_⟩, rfl⟩ (.nil _))))))))))), rfl⟩ <;> nofun
  obtain ⟨s, hRun, hStage⟩ := hRun
  exact ⟨s, hRun, hStage, writesWhole_of_run hRun⟩

theorem commit_run (epoch : Nat) (hLess : epoch + 1 < 2 ^ 64) :
    Run (Guarded Requested (Step locateBlock)) (file epoch)
      [((), .commit), ((), .step), ((), .step), ((), .step)] (file (epoch + 1)) := by
  have hRun : ∃ s, Run (Guarded Requested (Step locateBlock)) (file epoch)
      [((), .commit), ((), .step), ((), .step), ((), .step)] s ∧
      s = { file epoch with epoch := (epoch + 1) % 2 ^ 64, stages := s.stages } ∧ s.stages () = .out :=
    ⟨_, .cons ⟨nofun, rfl⟩ (.cons ⟨nofun, rfl⟩ (.cons ⟨nofun, rfl⟩ (.cons ⟨nofun, rfl⟩ (.nil _)))), rfl, rfl⟩
  obtain ⟨s, hRun, hSame, hOut⟩ := hRun
  have hStages : s.stages = fun _ => .out := funext fun _ => hOut
  rw [hStages, Nat.mod_eq_of_lt hLess] at hSame
  rw [hSame] at hRun
  exact hRun

theorem commits_run (n : Nat) (hLess : n < 2 ^ 64) :
    ∃ as, Run (Guarded Requested (Step locateBlock)) (file 0) as (file n) := by
  induction n with
  | zero => exact ⟨[], .nil _⟩
  | succ n ih =>
    obtain ⟨as, hRun⟩ := ih (by omega)
    exact ⟨_, hRun.append (commit_run n hLess)⟩

/-- A write in the last epoch, a commit, and one more write. -/
def writeAround : List (Unit × Act Unit Nat) :=
  writeFirst ++ [((), .step), ((), .entry (.unlock ⟨⟨3, 0⟩, .wr, 7⟩)), ((), .step), ((), .step),
    ((), .commit), ((), .step), ((), .step), ((), .step),
    ((), .request .wr 0 1), ((), .step), ((), .step), ((), .locate ()), ((), .entry .access),
    ((), .entry .access), ((), .step), ((), .step), ((), .step)]

theorem writeAround_run : ∃ s, Run (Step locateBlock) (file (2 ^ 64 - 1)) writeAround s ∧
    s.stages () = .unlock .wr ∧ s.base.held () = [⟨⟨3, 0⟩, .wr, 7⟩] ∧ s.tag 7 = 2 ^ 20 - 1 ∧ s.epoch = 0 :=
  ⟨_, .cons rfl (.cons rfl (.cons rfl (.cons rfl (.cons rfl (.cons rfl (.cons rfl (.cons rfl (.cons rfl
    (.cons rfl (.cons rfl (.cons rfl (.cons rfl (.cons rfl (.cons rfl (.cons rfl (.cons rfl (.cons rfl
    (.cons rfl (.cons rfl (.cons rfl (.cons rfl (.cons rfl (.cons rfl (.cons rfl (.cons rfl (.cons rfl
    (.cons rfl (.nil _)))))))))))))))))))))))))))), rfl, rfl, rfl, rfl⟩

/-- After 2^64 commits the tag of the last epoch passes for one of the future. -/
theorem writesWhole_fails_around : ∃ as s, Run (Guarded Requested (Step locateBlock)) (file 0) as s ∧
    ¬ WritesWhole locateBlock s := by
  obtain ⟨as, hCommits⟩ := commits_run (2 ^ 64 - 1) (by omega)
  obtain ⟨s, hRun, hStage, hHeld, hTag, hEpoch⟩ := writeAround_run
  have hRequested : ∀ s, ∀ a ∈ writeAround, Requested (s : State Unit Nat RadixLog) a := by
    intro s a ha
    revert a
    simp [writeAround, writeFirst, Requested]
  refine ⟨_, s, hCommits.append (hRun.guard hRequested), fun hWhole => ?_⟩
  have hEq := hWhole.tag () hStage ⟨⟨3, 0⟩, .wr, 7⟩ (by rw [hHeld]; exact List.mem_cons_self)
  rw [hTag, hEpoch] at hEq
  revert hEq
  decide

end Schedules

end Libnvmmio.Concurrent.State

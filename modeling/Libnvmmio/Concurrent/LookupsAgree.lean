import Libnvmmio.Concurrent.TableLookup
import Libnvmmio.Radixlog.Init

/-! # Concurrent lookups return the installed tables

What a call knows at each point stays true while other calls install tables,
since a slot is filled once. The cached pair is right for a call that finds the
table of its own region in `prev_table`.
-/

namespace Libnvmmio.TableLookup

open GuardedRun RadixLog IndexTrie

set_option autoImplicit false
set_option linter.unusedSectionVars false

variable {T : Type}

theorem path_cons {type : TableType} (hType : type ≠ .table) (off : Nat) :
    path type off = slotIndex type off :: path (nextType type) off := by
  cases type with
  | table => exact absurd rfl hType
  | lmd => exact path_lmd off
  | lud =>
    rw [path_lud, nextType, path_lmd]
    rfl
  | lgd =>
    rw [path_lgd, nextType, path_lud]
    rfl

theorem path_table (off : Nat) : path .table off = [] := rfl

namespace State

section Knowledge

/-- The walk for an offset has come to the table `n` of the type. -/
def Reaches (s : State T) (off n : Nat) (type : TableType) : Prop :=
  ∃ before, path s.skipType off = before ++ path type off ∧ follow s.links s.skip before = some n

def Known (s : State T) : Point → Prop
  | .idle | .check _ => True
  | .reuse _ => s.storedFor ≠ none
  | .load off n type | .alloc off n type | .swap off n type _ | .drop off n type _
  | .reload off n type => type ≠ .table ∧ s.Reaches off n type
  | .setTable off table => s.find off = some table
  | .setIndex off table => s.find off = some table ∧ s.storedFor ≠ none

structure Grown (s s' : State T) : Prop where
  skip : s'.skip = s.skip
  skipType : s'.skipType = s.skipType
  links : ∀ n i c, s.links n i = some c → s'.links n i = some c
  stored : s.storedFor ≠ none → s'.storedFor ≠ none

variable {s s' : State T}

theorem Grown.follow (h : Grown s s') {table : Nat} {p : List Nat}
    (hPath : IndexTrie.follow s.links s.skip p = some table) :
    IndexTrie.follow s'.links s'.skip p = some table := by
  rw [h.skip]
  exact follow_of_kept h.links hPath

theorem Grown.find (h : Grown s s') {off table : Nat} (hFind : s.find off = some table) :
    s'.find off = some table := by
  unfold State.find
  rw [h.skipType]
  exact h.follow hFind

theorem Grown.reaches (h : Grown s s') {off n : Nat} {type : TableType} (hReach : s.Reaches off n type) :
    s'.Reaches off n type := by
  obtain ⟨before, hPath, hFollow⟩ := hReach
  exact ⟨before, by rw [h.skipType, hPath], h.follow hFollow⟩

theorem Grown.known (h : Grown s s') {c : Point} (hKnown : s.Known c) : s'.Known c := by
  cases c with
  | idle => trivial
  | check off => trivial
  | reuse off => exact h.stored hKnown
  | load off n type => exact ⟨hKnown.1, h.reaches hKnown.2⟩
  | alloc off n type => exact ⟨hKnown.1, h.reaches hKnown.2⟩
  | swap off n type table => exact ⟨hKnown.1, h.reaches hKnown.2⟩
  | drop off n type table => exact ⟨hKnown.1, h.reaches hKnown.2⟩
  | reload off n type => exact ⟨hKnown.1, h.reaches hKnown.2⟩
  | setTable off table => exact h.find hKnown
  | setIndex off table => exact ⟨h.find hKnown.1, h.stored hKnown.2⟩

theorem reaches_skip (s : State T) (off : Nat) : s.Reaches off s.skip s.skipType := ⟨[], rfl, rfl⟩

/-- A table that the walk finds in a slot is the next one on the path. -/
theorem Reaches.down {off n c : Nat} {type : TableType} (h : s.Reaches off n type) (hType : type ≠ .table)
    (hSlot : s.links n (slotIndex type off) = some c) : s.Reaches off c (nextType type) := by
  obtain ⟨before, hPath, hFollow⟩ := h
  refine ⟨before ++ [slotIndex type off], ?_, ?_⟩
  · rw [hPath, path_cons hType, List.append_assoc, List.singleton_append]
  · exact (follow_snoc_eq_some _ _ _ _ _).mpr ⟨n, hFollow, hSlot⟩

theorem Reaches.known_arrive {off n : Nat} {type : TableType} (h : s.Reaches off n type) :
    s.Known (arrive off n type) := by
  unfold arrive
  split
  · rename_i hType
    obtain ⟨before, hPath, hFollow⟩ := h
    rw [hType, path_table, List.append_nil] at hPath
    change follow s.links s.skip (path s.skipType off) = some n
    rw [hPath]
    exact hFollow
  · rename_i hType
    exact ⟨hType, h⟩

theorem find_congr {a b : Nat} (h : a / 2 ^ lmdShift = b / 2 ^ lmdShift) : s.find a = s.find b := by
  unfold find path
  rw [h]

theorem linked_of_find {off table : Nat} (h : s.find off = some table) : s.Linked table :=
  eq_or_linked_of_follow h

end Knowledge

variable [DecidableEq T] {s s' : State T} {t : T} {act : Act}

@[simp] theorem goto_self (c : Point) : (s.goto t c).calls t = c := Function.update_self ..

theorem goto_of_ne {u : T} (hne : u ≠ t) (c : Point) : (s.goto t c).calls u = s.calls u :=
  Function.update_of_ne hne ..

inductive Effect (s : State T) (t : T) (act : Act) : State T → Prop where
  | move (c : Point) (hOwned : c.owned = (s.calls t).owned)
      (hKnown : (s.prevTableIndex ≠ ulongMax → s.storedFor ≠ none) → s.Known (s.calls t) → s.Known c) :
      Effect s t act (s.goto t c)
  | alloc (off n : Nat) (type : TableType) (table : Nat) (hCall : s.calls t = .alloc off n type)
      (hPooled : s.pooled table = true) :
      Effect s t act ((s.setPooled table false).goto t (.swap off n type table))
  | install (off n : Nat) (type : TableType) (table : Nat) (hCall : s.calls t = .swap off n type table)
      (hEmpty : s.links n (slotIndex type off) = none) :
      Effect s t act ((s.setLink n (slotIndex type off) table).goto t (arrive off table (nextType type)))
  | free (off n : Nat) (type : TableType) (table : Nat) (hCall : s.calls t = .drop off n type table) :
      Effect s t act ((s.setPooled table true).goto t (.reload off n type))
  | storeTable (off table : Nat) (hCall : s.calls t = .setTable off table) :
      Effect s t act ((s.storeTable off table).goto t (.setIndex off table))
  | reuse (off : Nat) (hCall : s.calls t = .reuse off)
      (hRegion : SameRegion s (t, act) → ∀ o, s.storedFor = some o → o / 2 ^ lmdShift = off / 2 ^ lmdShift) :
      Effect s t act (s.done t off s.prevTable)
  | storeIndex (off table : Nat) (hCall : s.calls t = .setIndex off table) :
      Effect s t act ((s.storeIndex off).done t off table)

theorem arrive_owned (off n : Nat) (type : TableType) : (arrive off n type).owned = none := by
  unfold arrive
  split <;> rfl

theorem ne_ulongMax_of_checkPrevTable {index off : Nat} (h : checkPrevTable index off = true) :
    index ≠ ulongMax := by
  have hIndex := of_decide_eq_true h
  have hLt : off / 2 ^ lmdShift % tableMask < tableMask := Nat.mod_lt _ (by decide)
  have hMask : tableMask < ulongMax := by decide
  omega

theorem step_effect {a : T × Act} (hStep : Step s a s') : Effect s a.1 a.2 s' := by
  obtain ⟨t, act⟩ := a
  unfold Step at hStep
  cases act with
  | call off =>
    obtain ⟨hIdle, hDone⟩ := Option.ite_none_right_eq_some.mp hStep
    cases hDone
    exact .move _ (by rw [hIdle]; rfl) fun _ _ => trivial
  | alloc table =>
    simp only [next] at hStep
    split at hStep
    · rename_i off n type hCall
      obtain ⟨hPooled, hDone⟩ := Option.ite_none_right_eq_some.mp hStep
      cases hDone
      exact .alloc off n type table hCall hPooled
    · cases hStep
  | access =>
    change s.access t (s.calls t) = some s' at hStep
    unfold access at hStep
    split at hStep
    · rename_i off hCall
      split at hStep <;> cases hStep
      · rename_i hCheck
        exact .move _ (by rw [hCall]; rfl) fun hIndex _ => hIndex (ne_ulongMax_of_checkPrevTable hCheck)
      · exact .move _ (by rw [hCall, arrive_owned]; rfl) fun _ _ => (s.reaches_skip off).known_arrive
    · rename_i off hCall
      cases hStep
      refine .reuse off hCall fun hGuard => ?_
      simp only [SameRegion, hCall] at hGuard
      exact hGuard
    · rename_i off n type hCall
      split at hStep <;> cases hStep
      · rename_i c hSlot
        refine .move _ (by rw [hCall, arrive_owned]; rfl) fun _ hKnown => ?_
        rw [hCall] at hKnown
        exact (hKnown.2.down hKnown.1 hSlot).known_arrive
      · exact .move _ (by rw [hCall]; rfl) fun _ hKnown => (by rw [hCall] at hKnown; exact hKnown)
    · rename_i off n type table hCall
      split at hStep <;> cases hStep
      · exact .install off n type table hCall ‹_›
      · exact .move _ (by rw [hCall]; rfl) fun _ hKnown => (by rw [hCall] at hKnown; exact hKnown)
    · rename_i off n type table hCall
      cases hStep
      exact .free off n type table hCall
    · rename_i off n type hCall
      split at hStep <;> cases hStep
      rename_i c hSlot
      refine .move _ (by rw [hCall, arrive_owned]; rfl) fun _ hKnown => ?_
      rw [hCall] at hKnown
      exact (hKnown.2.down hKnown.1 hSlot).known_arrive
    · rename_i off table hCall
      cases hStep
      exact .storeTable off table hCall
    · rename_i off table hCall
      cases hStep
      exact .storeIndex off table hCall
    · cases hStep

theorem Effect.grown (h : Effect s t act s') : Grown s s' := by
  cases h with
  | install off n type table hCall hEmpty =>
    exact ⟨rfl, rfl, fun m j c hOld => link_of_some hEmpty table hOld, id⟩
  | storeTable off table hCall => exact ⟨rfl, rfl, fun _ _ _ => id, fun _ => nofun⟩
  | _ => exact ⟨rfl, rfl, fun _ _ _ => id, id⟩

theorem Effect.other (h : Effect s t act s') {u : T} (hne : u ≠ t) : s'.calls u = s.calls u := by
  cases h with
  | _ => exact Function.update_of_ne hne ..

/-! ## What the calls return -/

structure Right (s : State T) : Prop where
  known : ∀ t, s.Known (s.calls t)
  index : s.prevTableIndex ≠ ulongMax → s.storedFor ≠ none
  cached : ∀ o, s.storedFor = some o → s.find o = some s.prevTable
  returned : ∀ c ∈ s.returned, s.find c.1 = some c.2

theorem Right.known_step (h : s.Right) (hEffect : Effect s t act s') : s'.Known (s'.calls t) := by
  have hGrown := hEffect.grown
  have hKnown := h.known t
  cases hEffect with
  | move c hOwned hNext =>
    rw [goto_self]
    exact hGrown.known (hNext h.index hKnown)
  | alloc off n type table hCall hPooled =>
    rw [hCall] at hKnown
    rw [goto_self]
    exact hGrown.known (c := .alloc off n type) hKnown
  | install off n type table hCall hEmpty =>
    rw [hCall] at hKnown
    rw [goto_self]
    exact ((hGrown.reaches hKnown.2).down hKnown.1 (link_self ..)).known_arrive
  | free off n type table hCall =>
    rw [hCall] at hKnown
    rw [goto_self]
    exact hGrown.known (c := .reload off n type) hKnown
  | storeTable off table hCall =>
    rw [hCall] at hKnown
    rw [goto_self]
    exact ⟨hGrown.find hKnown, nofun⟩
  | reuse off hCall =>
    change Known _ ((s.goto t .idle).calls t)
    rw [goto_self]
    trivial
  | storeIndex off table hCall =>
    change Known _ (((s.storeIndex off).goto t .idle).calls t)
    rw [goto_self]
    trivial

theorem Right.step (h : s.Right) {a : T × Act} (hStep : Guarded SameRegion Step s a s') : s'.Right := by
  obtain ⟨t, act⟩ := a
  have hEffect := step_effect hStep.2
  have hGrown := hEffect.grown
  refine ⟨fun u => ?_, ?_, ?_, ?_⟩
  · by_cases hu : u = t
    · rw [hu]
      exact h.known_step hEffect
    · rw [hEffect.other hu]
      exact hGrown.known (h.known u)
  · intro hIndex
    cases hEffect with
    | storeIndex off table hCall =>
      have hKnown := h.known t
      rw [hCall] at hKnown
      exact hKnown.2
    | storeTable off table hCall => nofun
    | _ => exact h.index hIndex
  · intro o hStored
    cases hEffect with
    | storeTable off table hCall =>
      have hKnown := h.known t
      rw [hCall] at hKnown
      cases hStored
      exact hKnown
    | install off n type table hCall hEmpty => exact hGrown.find (h.cached o hStored)
    | _ => exact h.cached o hStored
  · cases hEffect with
    | reuse off hCall hRegion =>
      refine List.forall_mem_cons.mpr ⟨?_, h.returned⟩
      have hKnown := h.known t
      rw [hCall] at hKnown
      cases hStored : s.storedFor with
      | none => exact absurd hStored hKnown
      | some o =>
        have hFind := h.cached o hStored
        rw [find_congr (hRegion hStep.1 o hStored)] at hFind
        exact hFind
    | storeIndex off table hCall =>
      have hKnown := h.known t
      rw [hCall] at hKnown
      exact List.forall_mem_cons.mpr ⟨hKnown.1, h.returned⟩
    | install off n type table hCall hEmpty => exact fun c hMem => hGrown.find (h.returned c hMem)
    | _ => exact h.returned

/-! ## Where a table is -/

inductive Place (T : Type) where
  | pool
  | thread (t : T)
  | root

def At (s : State T) (table : Nat) : Place T → Prop
  | .pool => s.pooled table = true
  | .thread t => (s.calls t).owned = some table
  | .root => s.Linked table

def Placed (s : State T) : Prop := ∀ table x y, s.At table x → s.At table y → x = y

theorem Placed.not_at (h : s.Placed) {table : Nat} {x y : Place T} (hx : s.At table x) (hne : y ≠ x) :
    ¬ s.At table y := fun hy => hne (h table y x hy hx)

theorem owned_goto (s : State T) (t u : T) (c : Point) :
    ((s.goto t c).calls u).owned = if u = t then c.owned else (s.calls u).owned := by
  split
  · rename_i hu
    rw [hu, goto_self]
  · rename_i hu
    rw [goto_of_ne hu]

theorem at_goto {c : Point} (hOwned : c.owned = (s.calls t).owned) (table : Nat) (x : Place T) :
    (s.goto t c).At table x ↔ s.At table x := by
  cases x with
  | pool => exact Iff.rfl
  | thread u =>
    change ((s.goto t c).calls u).owned = _ ↔ _
    rw [owned_goto]
    split
    · rename_i hu
      rw [hu, hOwned]
      exact Iff.rfl
    · exact Iff.rfl
  | root => exact Iff.rfl

def Moved (s s' : State T) (table : Nat) (y : Place T) : Prop :=
  (∀ z, s'.At table z ↔ z = y) ∧ ∀ other z, other ≠ table → (s'.At other z ↔ s.At other z)

theorem moved_alloc (hPlaced : s.Placed) {off n table : Nat} {type : TableType}
    (hCall : s.calls t = .alloc off n type) (hPooled : s.pooled table = true) :
    Moved s ((s.setPooled table false).goto t (.swap off n type table)) table (.thread t) := by
  have hOnly : ∀ y : Place T, y ≠ .pool → ¬ s.At table y := fun _ => hPlaced.not_at (x := .pool) hPooled
  refine ⟨fun z => ?_, fun other z hne => ?_⟩
  · cases z with
    | pool =>
      change Function.update s.pooled table false table = true ↔ _
      rw [Function.update_self]
      exact ⟨nofun, nofun⟩
    | thread u =>
      change (((s.setPooled table false).goto t _).calls u).owned = _ ↔ _
      rw [owned_goto]
      split
      · rename_i hu
        rw [hu]
        exact ⟨fun _ => rfl, fun _ => rfl⟩
      · rename_i hu
        exact ⟨fun h => absurd h (hOnly (.thread u) nofun), fun h => absurd (Place.thread.inj h) hu⟩
    | root => exact ⟨fun h => absurd h (hOnly .root nofun), nofun⟩
  · cases z with
    | pool =>
      change Function.update s.pooled table false other = true ↔ _
      rw [Function.update_of_ne hne]
      exact Iff.rfl
    | thread u =>
      change (((s.setPooled table false).goto t _).calls u).owned = _ ↔ _
      rw [owned_goto]
      split
      · rename_i hu
        change some table = some other ↔ (s.calls u).owned = some other
        rw [hu, hCall]
        exact ⟨fun h => absurd (Option.some.inj h).symm hne, nofun⟩
      · exact Iff.rfl
    | root => exact Iff.rfl

theorem moved_install (hPlaced : s.Placed) {off n table : Nat} {type : TableType}
    (hCall : s.calls t = .swap off n type table) (hEmpty : s.links n (slotIndex type off) = none) :
    Moved s ((s.setLink n (slotIndex type off) table).goto t (arrive off table (nextType type))) table
      .root := by
  have hMine : s.At table (.thread t) := congrArg Point.owned hCall
  have hOnly : ∀ y : Place T, y ≠ .thread t → ¬ s.At table y := fun _ => hPlaced.not_at hMine
  refine ⟨fun z => ?_, fun other z hne => ?_⟩
  · cases z with
    | pool => exact ⟨fun h => absurd h (hOnly .pool nofun), nofun⟩
    | thread u =>
      change (((s.setLink n _ table).goto t _).calls u).owned = _ ↔ _
      rw [owned_goto, arrive_owned]
      split
      · exact ⟨nofun, nofun⟩
      · rename_i hu
        exact ⟨fun h => absurd h (hOnly (.thread u) fun hEq => hu (Place.thread.inj hEq)), nofun⟩
    | root => exact ⟨fun _ => rfl, fun _ => .inr ⟨n, slotIndex type off, link_self ..⟩⟩
  · cases z with
    | pool => exact Iff.rfl
    | thread u =>
      change (((s.setLink n _ table).goto t _).calls u).owned = _ ↔ (s.calls u).owned = _
      rw [owned_goto, arrive_owned]
      split
      · rename_i hu
        rw [hu, hCall]
        exact ⟨nofun, fun h => absurd (Option.some.inj h).symm hne⟩
      · exact Iff.rfl
    | root =>
      refine or_congr Iff.rfl ⟨fun h => ?_, fun h => ?_⟩
      · obtain ⟨m, j, hLink⟩ := h
        rcases of_link_eq_some hLink with ⟨_, _, hSame⟩ | hOld
        · exact absurd hSame hne
        · exact ⟨m, j, hOld⟩
      · obtain ⟨m, j, hLink⟩ := h
        exact ⟨m, j, link_of_some hEmpty table hLink⟩

theorem moved_free (hPlaced : s.Placed) {off n table : Nat} {type : TableType}
    (hCall : s.calls t = .drop off n type table) :
    Moved s ((s.setPooled table true).goto t (.reload off n type)) table .pool := by
  have hMine : s.At table (.thread t) := congrArg Point.owned hCall
  have hOnly : ∀ y : Place T, y ≠ .thread t → ¬ s.At table y := fun _ => hPlaced.not_at hMine
  refine ⟨fun z => ?_, fun other z hne => ?_⟩
  · cases z with
    | pool => exact ⟨fun _ => rfl, fun _ => Function.update_self ..⟩
    | thread u =>
      change (((s.setPooled table true).goto t _).calls u).owned = _ ↔ _
      rw [owned_goto]
      split
      · exact ⟨nofun, nofun⟩
      · rename_i hu
        exact ⟨fun h => absurd h (hOnly (.thread u) fun hEq => hu (Place.thread.inj hEq)), nofun⟩
    | root => exact ⟨fun h => absurd h (hOnly .root nofun), nofun⟩
  · cases z with
    | pool =>
      change Function.update s.pooled table true other = true ↔ _
      rw [Function.update_of_ne hne]
      exact Iff.rfl
    | thread u =>
      change (((s.setPooled table true).goto t _).calls u).owned = _ ↔ (s.calls u).owned = _
      rw [owned_goto]
      split
      · rename_i hu
        rw [hu, hCall]
        exact ⟨nofun, fun h => absurd (Option.some.inj h).symm hne⟩
      · exact Iff.rfl
    | root => exact Iff.rfl

theorem Effect.moved (hPlaced : s.Placed) (h : Effect s t act s') :
    (∀ table x, s'.At table x ↔ s.At table x) ∨ ∃ table y, Moved s s' table y := by
  cases h with
  | move c hOwned _ => exact .inl fun table x => at_goto hOwned table x
  | alloc off n type table hCall hPooled => exact .inr ⟨_, _, moved_alloc hPlaced hCall hPooled⟩
  | install off n type table hCall hEmpty => exact .inr ⟨_, _, moved_install hPlaced hCall hEmpty⟩
  | free off n type table hCall => exact .inr ⟨_, _, moved_free hPlaced hCall⟩
  | storeTable off table hCall =>
    have hOwned := (congrArg Point.owned hCall).symm
    exact .inl (at_goto (s := s.storeTable off table) (c := .setIndex off table) hOwned)
  | reuse off hCall _ =>
    have hOwned := (congrArg Point.owned hCall).symm
    exact .inl (at_goto (s := s) (c := .idle) hOwned)
  | storeIndex off table hCall =>
    have hOwned := (congrArg Point.owned hCall).symm
    exact .inl (at_goto (s := s.storeIndex off) (c := .idle) hOwned)

structure Accounted (s₀ s : State T) : Prop where
  placed : s.Placed
  kept : ∀ table, s₀.pooled table = true → ∃ x, s.At table x

theorem Accounted.step {s₀ : State T} (h : Accounted s₀ s) (hEffect : Effect s t act s') :
    Accounted s₀ s' := by
  rcases hEffect.moved h.placed with hSame | ⟨table, y, hTable, hOther⟩
  · refine ⟨fun table x z hx hz => ?_, fun table hFirst => ?_⟩
    · exact h.placed table x z ((hSame table x).mp hx) ((hSame table z).mp hz)
    · obtain ⟨x, hx⟩ := h.kept table hFirst
      exact ⟨x, (hSame table x).mpr hx⟩
  · refine ⟨fun other x z hx hz => ?_, fun other hFirst => ?_⟩
    · by_cases hne : other = table
      · subst hne
        rw [(hTable x).mp hx, (hTable z).mp hz]
      · exact h.placed other x z ((hOther other x hne).mp hx) ((hOther other z hne).mp hz)
    · by_cases hne : other = table
      · exact ⟨y, hne ▸ (hTable y).mpr rfl⟩
      · obtain ⟨x, hx⟩ := h.kept other hFirst
        exact ⟨x, (hOther other x hne).mpr hx⟩

/-- No table hangs at two slots. -/
def OneSlot (s : State T) : Prop :=
  ∀ n i m j c, s.links n i = some c → s.links m j = some c → n = m ∧ i = j

theorem OneSlot.step (h : s.OneSlot) (hPlaced : s.Placed) (hEffect : Effect s t act s') : s'.OneSlot := by
  cases hEffect with
  | install off n type table hCall hEmpty =>
    have hFresh : ∀ m j, s.links m j ≠ some table := by
      intro m j hLink
      cases hPlaced table (.thread t) .root (congrArg Point.owned hCall) (.inr ⟨m, j, hLink⟩)
    intro m j m' j' c hc hc'
    rcases of_link_eq_some hc with ⟨rfl, rfl, rfl⟩ | hOld
    · rcases of_link_eq_some hc' with ⟨rfl, rfl, _⟩ | hOld'
      · exact ⟨rfl, rfl⟩
      · exact absurd hOld' (hFresh m' j')
    · rcases of_link_eq_some hc' with ⟨_, _, rfl⟩ | hOld'
      · exact absurd hOld (hFresh m j)
      · exact h m j m' j' c hOld hOld'
  | _ => exact h

/-! ## Runs -/

theorem init_right (filesize : Nat) (pool : Nat → Bool) : (init filesize pool : State T).Right where
  known _ := trivial
  index h := absurd (initRadixlog_chain filesize).index h
  cached o h := by cases h
  returned c h := by cases h

theorem init_accounted (filesize : Nat) (pool : Nat → Bool) :
    Accounted (init filesize pool : State T) (init filesize pool) := by
  have hShape := (initRadixlog_chain filesize).shape
  have hApart : ∀ table, (init filesize pool : State T).pooled table = true →
      ¬ (init filesize pool : State T).Linked table := by
    intro table hPooled hLinked
    have hBeyond := of_decide_eq_true (Bool.and_eq_true_iff.mp hPooled).2
    have hLt : table < (initRadixlog filesize).nextTable := by
      rcases hLinked with rfl | ⟨n, i, hLink⟩
      · exact hShape.skip_lt
      · exact hShape.forest.child_lt n i table hLink
    omega
  refine ⟨fun table x y hx hy => ?_, fun table hPooled => ⟨.pool, hPooled⟩⟩
  cases x with
  | pool =>
    cases y with
    | pool => rfl
    | thread t => cases hy
    | root => exact absurd hy (hApart table hx)
  | thread t => cases hx
  | root =>
    cases y with
    | pool => exact absurd hx (hApart table hy)
    | thread t => cases hy
    | root => rfl

theorem lookupsAgree_of_right {s₀ : State T} (hRight : s.Right) (hAccounted : Accounted s₀ s) :
    LookupsAgree s₀ s where
  returned := hRight.returned
  regions c hMem c' hMem' hRegion := by
    have hFind := hRight.returned c hMem
    rw [find_congr hRegion, hRight.returned c' hMem'] at hFind
    exact (Option.some.inj hFind).symm
  spare table hSpare := by
    have hUnlinked : ¬ s.Linked table := by
      intro hLinked
      rcases hSpare with hPooled | ⟨t, hOwned⟩
      · cases hAccounted.placed table .pool .root hPooled hLinked
      · cases hAccounted.placed table (.thread t) .root hOwned hLinked
    exact ⟨hUnlinked, fun c hMem hSame => hUnlinked (hSame ▸ linked_of_find (hRight.returned c hMem))⟩
  kept table hFirst := by
    obtain ⟨x, hx⟩ := hAccounted.kept table hFirst
    cases x with
    | pool => exact .inl (.inl hx)
    | thread t => exact .inl (.inr ⟨t, hx⟩)
    | root => exact .inr hx

structure Agreeing (s₀ s : State T) : Prop where
  right : s.Right
  accounted : Accounted s₀ s
  oneSlot : s.OneSlot

theorem Agreeing.step {s₀ : State T} (h : Agreeing s₀ s) {a : T × Act}
    (hStep : Guarded SameRegion Step s a s') : Agreeing s₀ s' where
  right := h.right.step hStep
  accounted := h.accounted.step (step_effect hStep.2)
  oneSlot := h.oneSlot.step h.accounted.placed (step_effect hStep.2)

theorem init_agreeing (filesize : Nat) (pool : Nat → Bool) :
    Agreeing (init filesize pool : State T) (init filesize pool) where
  right := init_right filesize pool
  accounted := init_accounted filesize pool
  oneSlot := (initRadixlog_chain filesize).shape.forest.unique

/-- For offsets within the span of the root, the condition is exact at each step. -/
theorem Agreeing.lookupsAgree_step_iff {s₀ : State T} (h : Agreeing s₀ s) {a : T × Act}
    (hStep : Step s a s') (hCall : ∀ off, s.calls a.1 = .reuse off → off < s.skipType.span)
    (hStored : ∀ o, s.storedFor = some o → o < s.skipType.span) :
    LookupsAgree s₀ s' ↔ SameRegion s a := by
  constructor
  · intro hAgree
    obtain ⟨t, act⟩ := a
    cases act with
    | access =>
      unfold SameRegion
      dsimp only
      split
      · rename_i off hReuse
        intro o ho
        change s.access t (s.calls t) = some s' at hStep
        rw [hReuse] at hStep
        cases hStep
        have hOff := hAgree.returned (off, s.prevTable) List.mem_cons_self
        have hPath := follow_injective_of_unique h.oneSlot s.skip (path s.skipType o) (path s.skipType off)
          s.prevTable (by rw [length_path, length_path]) (h.right.cached o ho) hOff
        exact (path_eq_iff_of_lt_span (hStored o ho) (hCall off hReuse)).mp hPath
      · trivial
    | _ => trivial
  · intro hGuard
    have hNext := h.step ⟨hGuard, hStep⟩
    exact lookupsAgree_of_right hNext.right hNext.accounted

/-- In every interleaving in which each call that reuses `prev_table` finds there what a
call for its own region stored, the lookups agree. -/
theorem lookupsAgree_of_run {filesize : Nat} {pool : Nat → Bool} {as : List (T × Act)}
    (hRun : Run (Guarded SameRegion Step) (init filesize pool) as s) :
    LookupsAgree (init filesize pool) s := by
  have hAgreeing := hRun.invariant (Agreeing (init filesize pool))
    (fun _ _ _ hInv hStep => hInv.step hStep) (init_agreeing filesize pool)
  exact lookupsAgree_of_right hAgreeing.right hAgreeing.accounted

section Schedules

def twoRegions : State Bool := init (2 ^ 21 + 1) fun _ => true

/-- A call installs a table for its region, up to the store of `prev_table`. -/
def installFor (t : Bool) (off table : Nat) : List (Bool × Act) :=
  [(t, .call off), (t, .access), (t, .access), (t, .alloc table), (t, .access), (t, .access)]

theorem lookupsAgree_reuse : ∃ s, Run (Guarded SameRegion Step) twoRegions
      (installFor false 0 3 ++ [(false, .access), (true, .call 1), (true, .access), (true, .access)]) s ∧
    LookupsAgree twoRegions s := by
  have hRun : ∃ s, Run (Guarded SameRegion Step) twoRegions
      (installFor false 0 3 ++ [(false, .access), (true, .call 1), (true, .access), (true, .access)]) s :=
    ⟨_, .cons ⟨trivial, rfl⟩ (.cons ⟨trivial, rfl⟩ (.cons ⟨trivial, rfl⟩ (.cons ⟨trivial, rfl⟩
      (.cons ⟨trivial, rfl⟩ (.cons ⟨trivial, rfl⟩ (.cons ⟨trivial, rfl⟩ (.cons ⟨trivial, rfl⟩
      (.cons ⟨trivial, rfl⟩ (.cons ⟨fun o h => (by cases h; rfl), rfl⟩ (.nil _))))))))))⟩
  obtain ⟨s, hRun⟩ := hRun
  exact ⟨s, hRun, lookupsAgree_of_run hRun⟩

/-- Thread `false` stores `prev_table` for region 0 and is overtaken by thread `true`, which
stores both fields for region 1. Then it stores the index of region 0 and looks it up again. -/
def overtaken : List (Bool × Act) :=
  installFor false 0 3 ++ installFor true (2 ^ 21) 4 ++
    [(true, .access), (false, .access), (false, .call 0), (false, .access), (false, .access)]

theorem overtaken_run : ∃ s, Run Step twoRegions overtaken s ∧
    s.returned = [(0, 4), (0, 3), (2 ^ 21, 4)] :=
  ⟨_, .cons rfl (.cons rfl (.cons rfl (.cons rfl (.cons rfl (.cons rfl (.cons rfl (.cons rfl (.cons rfl
    (.cons rfl (.cons rfl (.cons rfl (.cons rfl (.cons rfl (.cons rfl (.cons rfl (.cons rfl
    (.nil _))))))))))))))))), rfl⟩

/-- The second call for region 0 returns the table of region 1. -/
theorem lookupsAgree_fails_overtaken : ∃ s, Run Step twoRegions overtaken s ∧
    ¬ LookupsAgree twoRegions s := by
  obtain ⟨s, hRun, hReturned⟩ := overtaken_run
  refine ⟨s, hRun, fun hAgree => ?_⟩
  have hSame := hAgree.regions (0, 4) (by rw [hReturned]; decide) (0, 3) (by rw [hReturned]; decide) rfl
  cases hSame

end Schedules

end State

end Libnvmmio.TableLookup

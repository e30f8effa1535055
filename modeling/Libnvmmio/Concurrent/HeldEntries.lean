import Libnvmmio.Concurrent.SharedLists

/-! # A held entry is the installed entry, over the shared lists

An entry that `LOCK_ENTRIES` returned with stays in its slot until `UNLOCK_ENTRIES`
releases it, as long as no entry is locked that has been freed since it was loaded
and no link is overwritten that is still to be followed.
-/

namespace Libnvmmio.SharedLists

open EntrySlots (Hold Point)
open GuardedRun Mmio
open State (proper_host proper_push proper_walk proper_unlockEntries)

set_option autoImplicit false
set_option linter.unusedSectionVars false

variable {T S E : Type} [DecidableEq T] [DecidableEq S] [DecidableEq E]

/-- The entries, their slots and the pool by themselves: an idle thread may begin `UNLOCK_ENTRIES`. -/
def entrySlots : Host T S E (EntrySlots.State T S E) (EntrySlots.State.Act S E) where
  Step := EntrySlots.State.Step
  Guard := EntrySlots.State.StillInstalled
  Proper _ _ := True
  base s := s
  setBase _ b := b
  entry := some
  AtUnlock s t := s.calls t = .idle
  Leaves _ _ _ := False
  leave s _ := s

theorem entrySlots_lawful : (entrySlots : Host T S E _ _).Lawful where
  step_entry _ _ _ _ _ hEntry hStep := by
    cases hEntry
    exact hStep
  step_other _ _ _ _ hEntry _ := by cases hEntry
  step_atUnlock _ _ _ _ _ hStep hu hAt := ((EntrySlots.State.step_effect hStep).other hu).1.trans hAt
  guard _ _ _ _ hInstalled := hInstalled _ rfl
  base_setBase _ _ := rfl
  setBase_base _ := rfl
  atUnlock_setBase _ _ u hCalls hAt := (congrFun hCalls u).trans hAt
  idle _ _ hAt := hAt
  unlock _ _ k _ _ hStep := ⟨.unlock k, trivial, hStep⟩
  leave _ _ _ _ := ⟨[], .nil _⟩
  base_leave _ _ := rfl
  atUnlock_leave _ _ _ _ hAt := hAt

variable {s : State T E (EntrySlots.State T S E)}

/-- Held entries are installed while no recycled entry is locked and no link is lost. -/
theorem heldInstalled_over_lists {locks : E → RwLock T} {next : E → Option E}
    {acts : List (T × Act (EntrySlots.State.Act S E))}
    (hRun : State.Runs entrySlots (init (EntrySlots.init locks) next) acts s) : s.host.HeldInstalled := by
  have hInit : State.Inv entrySlots (init (EntrySlots.init locks : EntrySlots.State T S E) next) :=
    State.inv_init (EntrySlots.State.settled_init locks) (fun _ => rfl) (fun _ => rfl) next
  exact (State.refines_of_run entrySlots_lawful hInit hRun).2.settled.heldInstalled

section Schedules

def unlockOne (t : Bool) : List (Bool × Act (EntrySlots.State.Act Nat Nat)) :=
  [(t, .unlockEntries), (t, .list), (t, .list), (t, .list)]

def lockFresh (t : Bool) (p e : Nat) : List (Bool × Act (EntrySlots.State.Act Nat Nat)) :=
  [(t, .host (.lock p .wr)), (t, .host .access), (t, .host (.alloc e)), (t, .host .access), (t, .host .access),
    (t, .list)]

def emptySlots : State Bool Nat (EntrySlots.State Bool Nat Nat) := init (EntrySlots.init fun _ => .free) fun _ => none

/-- A reader waits for the writer of a slot, and locks the entry when the writer has unlocked it. -/
def readAfterWrite : List (Bool × Act (EntrySlots.State.Act Nat Nat)) :=
  lockFresh false 0 7 ++ [(true, .host (.lock 0 .rd)), (true, .host .access), (true, .host .access)] ++
    unlockOne false ++ [(true, .host .access), (true, .host .access), (true, .list)]

theorem heldInstalled_readAfterWrite : ∃ s, State.Runs entrySlots emptySlots readAfterWrite s ∧
    s.host.held true = [⟨0, .rd, 7⟩] ∧ s.host.HeldInstalled := by
  have hRun : ∃ s, State.Runs entrySlots emptySlots readAfterWrite s ∧ s.host.held true = [⟨0, .rd, 7⟩] := by
    refine ⟨_, .cons ⟨proper_host _ rfl ?_ trivial, .host _ _ rfl id ?_ rfl⟩
      (.cons ⟨proper_host _ rfl ?_ trivial, .host _ _ rfl id ?_ rfl⟩
      (.cons ⟨proper_host _ rfl ?_ trivial, .host _ _ rfl id ?_ rfl⟩
      (.cons ⟨proper_host _ rfl ?_ trivial, .host _ _ rfl id ?_ rfl⟩
      (.cons ⟨proper_host _ rfl ?_ trivial, .host _ _ rfl id ?_ rfl⟩ (.cons ⟨proper_push _ rfl ?_, .push _ rfl⟩
      (.cons ⟨proper_host _ rfl ?_ trivial, .host _ _ rfl id ?_ rfl⟩
      (.cons ⟨proper_host _ rfl ?_ trivial, .host _ _ rfl id ?_ rfl⟩
      (.cons ⟨proper_host _ rfl ?_ trivial, .host _ _ rfl id ?_ rfl⟩
      (.cons ⟨proper_unlockEntries _, .first rfl rfl⟩ (.cons ⟨proper_walk _ rfl ?_, .release 7 _ rfl rfl rfl⟩
      (.cons ⟨proper_walk _ rfl ?_, .advance 7 rfl⟩ (.cons ⟨proper_walk _ rfl ?_, .finish rfl rfl⟩
      (.cons ⟨proper_host _ rfl ?_ trivial, .host _ _ rfl id ?_ rfl⟩
      (.cons ⟨proper_host _ rfl ?_ trivial, .host _ _ rfl id ?_ rfl⟩ (.cons ⟨proper_push _ rfl ?_, .push _ rfl⟩
      (.nil _)))))))))))))))), rfl⟩
    all_goals first
      | (intro u; cases u <;> exact List.not_mem_nil)
      | (intro e hEq; first | rfl | cases hEq)
  obtain ⟨s, hRun, hHeld⟩ := hRun
  exact ⟨s, hRun, hHeld, heldInstalled_over_lists hRun⟩

/-- Thread `false` loads entry 7 from slot 0. Then thread `true` writes back and frees the entry,
and installs it in slot 1. -/
def recycle : List (Bool × Act (EntrySlots.State.Act Nat Nat)) :=
  lockFresh true 0 7 ++ unlockOne true ++ [(false, .host (.lock 0 .wr)), (false, .host .access),
    (true, .host (.checkpoint 0)), (true, .host (.test true)), (true, .host .access), (true, .host (.test true)),
    (true, .host .access)] ++ lockFresh true 1 7 ++ unlockOne true ++ [(false, .host .access)]

/-- The trylock succeeds on an entry that is no longer the slot's. -/
theorem heldInstalled_fails_after_recycle : ∃ s,
    Run (fun s a s' => State.Step entrySlots s a.1 a.2 s') emptySlots recycle s ∧ ¬ s.host.HeldInstalled := by
  have hRun : ∃ s, Run (fun s a s' => State.Step entrySlots s a.1 a.2 s') emptySlots recycle s ∧
      s.host.slots 0 = none ∧ s.host.held false = [⟨0, .wr, 7⟩] := by
    refine ⟨_, .cons (.host _ _ rfl id ?_ rfl) (.cons (.host _ _ rfl id ?_ rfl) (.cons (.host _ _ rfl id ?_ rfl)
      (.cons (.host _ _ rfl id ?_ rfl) (.cons (.host _ _ rfl id ?_ rfl) (.cons (.push _ rfl)
      (.cons (.first rfl rfl) (.cons (.release 7 _ rfl rfl rfl) (.cons (.advance 7 rfl) (.cons (.finish rfl rfl)
      (.cons (.host _ _ rfl id ?_ rfl) (.cons (.host _ _ rfl id ?_ rfl) (.cons (.host _ _ rfl id ?_ rfl)
      (.cons (.host _ _ rfl id ?_ rfl) (.cons (.host _ _ rfl id ?_ rfl) (.cons (.host _ _ rfl id ?_ rfl)
      (.cons (.host _ _ rfl id ?_ rfl) (.cons (.host _ _ rfl id ?_ rfl) (.cons (.host _ _ rfl id ?_ rfl)
      (.cons (.host _ _ rfl id ?_ rfl) (.cons (.host _ _ rfl id ?_ rfl) (.cons (.host _ _ rfl id ?_ rfl)
      (.cons (.push _ rfl) (.cons (.first rfl rfl) (.cons (.release 7 _ rfl rfl rfl) (.cons (.advance 7 rfl)
      (.cons (.finish rfl rfl) (.cons (.host _ _ rfl id ?_ rfl) (.nil _)))))))))))))))))))))))))))), rfl, rfl⟩
    all_goals
      intro k hEq
      cases hEq
  obtain ⟨s, hRun, hSlot, hHeld⟩ := hRun
  refine ⟨s, hRun, fun hInstalled => ?_⟩
  have hSome := hInstalled.held false ⟨0, .wr, 7⟩ (by rw [hHeld]; exact List.mem_cons_self)
  rw [hSlot] at hSome
  cases hSome

end Schedules

end Libnvmmio.SharedLists

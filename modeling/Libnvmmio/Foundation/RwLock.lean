import Mathlib.Data.List.Basic
import Mathlib.Algebra.BigOperators.Group.Finset.Basic

/-! # Reader-writer locks

A correct lock, as a value: it has one writer or a list of readers, in which a
thread stands once for each of its holds. The rules say what an acquisition or
a release changes for each thread.
-/

namespace Libnvmmio

set_option autoImplicit false

universe u

inductive RwLock (T : Type u) where
  | writing (t : T)
  | reading (ts : List T)

namespace RwLock

variable {T : Type u}

def free : RwLock T := .reading []

def rdlock (t : T) : RwLock T → Option (RwLock T)
  | .writing _ => none
  | .reading ts => some (.reading (t :: ts))

def wrlock (t : T) : RwLock T → Option (RwLock T)
  | .reading [] => some (.writing t)
  | _ => none

variable [DecidableEq T]

/-- Released by a thread that holds it; for another thread the call has no meaning. -/
def unlock (t : T) : RwLock T → Option (RwLock T)
  | .writing w => if w = t then some free else none
  | .reading ts => if t ∈ ts then some (.reading (ts.erase t)) else none

def reads (t : T) : RwLock T → Nat
  | .writing _ => 0
  | .reading ts => ts.count t

def writes (t : T) : RwLock T → Nat
  | .writing w => if w = t then 1 else 0
  | .reading _ => 0

@[simp] theorem reads_free (t : T) : free.reads t = 0 := rfl
@[simp] theorem writes_free (t : T) : free.writes t = 0 := rfl

theorem writes_le_one (l : RwLock T) (t : T) : l.writes t ≤ 1 := by
  cases l with
  | writing w =>
    rw [writes]
    split <;> omega
  | reading ts => exact Nat.zero_le 1

theorem writes_eq_zero_of_reads {l : RwLock T} {t : T} (h : 0 < l.reads t) (u : T) :
    l.writes u = 0 := by
  cases l with
  | writing w => exact absurd h (Nat.lt_irrefl 0)
  | reading ts => rfl

theorem reads_eq_zero_of_writes {l : RwLock T} {t : T} (h : 0 < l.writes t) (u : T) :
    l.reads u = 0 := by
  cases l with
  | writing w => rfl
  | reading ts => exact absurd h (Nat.lt_irrefl 0)

theorem writer_unique {l : RwLock T} {t u : T} (ht : 0 < l.writes t) (hu : 0 < l.writes u) :
    t = u := by
  cases l with
  | writing w =>
    have hw : ∀ v, 0 < (RwLock.writing w).writes v → w = v := by
      intro v hv
      by_contra hne
      rw [writes, if_neg hne] at hv
      exact Nat.lt_irrefl 0 hv
    exact (hw t ht).symm.trans (hw u hu)
  | reading ts => exact absurd ht (Nat.lt_irrefl 0)

theorem rdlock_eq_some {l l' : RwLock T} {t : T} (h : l.rdlock t = some l') :
    (∀ u, l'.reads u = l.reads u + if u = t then 1 else 0) ∧
      (∀ u, l.writes u = 0) ∧ ∀ u, l'.writes u = 0 := by
  cases l with
  | writing w => cases h
  | reading ts =>
    cases h
    refine ⟨fun u => ?_, fun _ => rfl, fun _ => rfl⟩
    by_cases hu : u = t
    · subst hu
      rw [reads, reads, List.count_cons_self, if_pos rfl]
    · rw [reads, reads, List.count_cons_of_ne (Ne.symm hu), if_neg hu]
      rfl

theorem wrlock_eq_some {l l' : RwLock T} {t : T} (h : l.wrlock t = some l') :
    l = free ∧ (∀ u, l'.reads u = 0) ∧ ∀ u, l'.writes u = if u = t then 1 else 0 := by
  cases l with
  | writing w => cases h
  | reading ts =>
    cases ts with
    | cons u us => cases h
    | nil =>
      cases h
      refine ⟨rfl, fun _ => rfl, fun u => ?_⟩
      rw [writes]
      exact if_congr eq_comm rfl rfl

theorem unlock_of_writes {l : RwLock T} {t : T} (h : 0 < l.writes t) :
    l.unlock t = some free ∧ ∀ u, l.writes u = if u = t then 1 else 0 := by
  cases l with
  | reading ts => exact absurd h (Nat.lt_irrefl 0)
  | writing w =>
    have hw : w = t := by
      by_contra hne
      rw [writes, if_neg hne] at h
      exact Nat.lt_irrefl 0 h
    subst hw
    refine ⟨by rw [unlock, if_pos rfl], fun u => ?_⟩
    rw [writes]
    exact if_congr eq_comm rfl rfl

theorem unlock_of_reads {l : RwLock T} {t : T} (h : 0 < l.reads t) :
    ∃ l', l.unlock t = some l' ∧ (∀ u, l'.reads u = l.reads u - if u = t then 1 else 0) ∧
      (∀ u, l'.writes u = 0) ∧ ∀ u, l.writes u = 0 := by
  cases l with
  | writing w => exact absurd h (Nat.lt_irrefl 0)
  | reading ts =>
    have hMem : t ∈ ts := List.count_pos_iff.mp h
    refine ⟨_, if_pos hMem, fun u => ?_, fun _ => rfl, fun _ => rfl⟩
    by_cases hu : u = t
    · subst hu
      rw [reads, reads, List.count_erase_self, if_pos rfl]
    · rw [reads, reads, List.count_erase_of_ne hu, if_neg hu]
      rfl

theorem unlock_eq_some {l l' : RwLock T} {t : T} (h : l.unlock t = some l') (u : T) :
    l'.reads u = l.reads u - (if u = t then 1 else 0) ∧
      l'.writes u = l.writes u - if u = t then 1 else 0 := by
  cases l with
  | writing w =>
    obtain ⟨rfl, hDone⟩ := Option.ite_none_right_eq_some.mp h
    cases hDone
    refine ⟨(Nat.zero_sub _).symm, ?_⟩
    by_cases hu : u = w
    · rw [hu, writes_free, writes, if_pos rfl]
    · rw [writes_free, writes, if_neg (Ne.symm hu), Nat.zero_sub]
  | reading ts =>
    obtain ⟨hMem, hDone⟩ := Option.ite_none_right_eq_some.mp h
    cases hDone
    refine ⟨?_, (Nat.zero_sub _).symm⟩
    by_cases hu : u = t
    · rw [hu, reads, reads, List.count_erase_self, if_pos rfl]
    · rw [reads, reads, List.count_erase_of_ne hu, if_neg hu, Nat.sub_zero]

theorem eq_free {l : RwLock T} (h : ∀ t, l.reads t = 0 ∧ l.writes t = 0) : l = free := by
  cases l with
  | writing w =>
    have hw := (h w).2
    rw [writes, if_pos rfl] at hw
    cases hw
  | reading ts =>
    cases ts with
    | nil => rfl
    | cons t ts =>
      have ht := (h t).1
      rw [reads, List.count_cons_self] at ht
      cases ht

def holds (t : T) (l : RwLock T) : Nat := l.reads t + l.writes t

theorem holds_of_rdlock {l l' : RwLock T} {t : T} (h : l.rdlock t = some l') (u : T) :
    l'.holds u = l.holds u + if u = t then 1 else 0 := by
  obtain ⟨hReads, hWrites, hWrites'⟩ := rdlock_eq_some h
  rw [holds, holds, hReads, hWrites, hWrites', Nat.add_zero, Nat.add_zero]

theorem holds_of_wrlock {l l' : RwLock T} {t : T} (h : l.wrlock t = some l') (u : T) :
    l'.holds u = l.holds u + if u = t then 1 else 0 := by
  obtain ⟨rfl, hReads, hWrites⟩ := wrlock_eq_some h
  rw [holds, holds, hReads, hWrites, reads_free, writes_free]

theorem holds_of_unlock {l l' : RwLock T} {t : T} (h : l.unlock t = some l') (u : T) :
    l'.holds u = l.holds u - if u = t then 1 else 0 := by
  obtain ⟨hReads, hWrites⟩ := unlock_eq_some h u
  have hExclusive : l.reads u = 0 ∨ l.writes u = 0 := by
    rcases Nat.eq_zero_or_pos (l.reads u) with hZero | hPos
    · exact .inl hZero
    · exact .inr (writes_eq_zero_of_reads hPos u)
  rw [holds, holds, hReads, hWrites]
  omega

def readers : RwLock T → Nat
  | .writing _ => 0
  | .reading ts => ts.length

theorem sum_reads [Fintype T] (l : RwLock T) : ∑ t, l.reads t = l.readers := by
  cases l with
  | writing w => exact Finset.sum_const_zero
  | reading ts =>
    have hSum := Multiset.sum_count_eq_card (m := (ts : Multiset T)) fun a _ => Finset.mem_univ a
    simpa only [reads, readers, Multiset.coe_count, Multiset.coe_card] using hSum

end RwLock

end Libnvmmio

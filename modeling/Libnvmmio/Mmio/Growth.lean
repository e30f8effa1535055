import Libnvmmio.Mmio.Write

/-! # The closed form of `expend_mmio`

The loop doubles the mapping until the request fits. Only its last `mremap`
decides where the mapping ends up.
-/

namespace Libnvmmio.Mmio

set_option autoImplicit false

/-- The length at which the loop of `expend_mmio` stops. -/
def grownLen (currentLen target : Nat) : Nat :=
  if currentLen < target then grownLen (newLen currentLen) target
  else currentLen
termination_by target - currentLen
decreasing_by
  have hLt := lt_newLen currentLen
  omega

theorem le_grownLen (currentLen target : Nat) :
    currentLen ≤ grownLen currentLen target ∧ target ≤ grownLen currentLen target := by
  induction currentLen using grownLen.induct target with
  | case1 currentLen hShort ih =>
    have hLt := lt_newLen currentLen
    rw [grownLen, if_pos hShort]
    omega
  | case2 currentLen hEnough =>
    rw [grownLen, if_neg hEnough]
    omega

def grownStart (m : Mmio) (remap : Nat → Nat) (target : Nat) : Nat :=
  if m.mapLen < target then remap (grownLen m.mapLen target) else m.start

/-- The state of `mmio_write` after `check_expend` and `expend_mmio`. -/
def grown (m : Mmio) (remap : Nat → Nat) (target : Nat) : Mmio :=
  { m with
    start := m.grownStart remap target
    mapLen := grownLen m.mapLen target
    disk := if m.mapLen < target then
        { m.disk with length := max m.disk.length (grownLen m.mapLen target) }
      else m.disk }

theorem grown_of_le {m : Mmio} {target : Nat} (remap : Nat → Nat) (h : target ≤ m.mapLen) :
    m.grown remap target = m := by
  have hFits : ¬ m.mapLen < target := by omega
  rw [grown, grownStart, if_neg hFits, if_neg hFits, grownLen, if_neg hFits]

theorem grown_bytes (m : Mmio) (remap : Nat → Nat) (target : Nat) :
    (m.grown remap target).disk.bytes = m.disk.bytes := by
  rw [grown]
  dsimp only
  split <;> rfl

theorem grown_length {m : Mmio} (remap : Nat → Nat) {target : Nat} (h : m.disk.length = m.mapLen) :
    (m.grown remap target).disk.length = (m.grown remap target).mapLen := by
  have hLe := le_grownLen m.mapLen target
  rw [grown]
  dsimp only
  split
  · dsimp only
    omega
  · rename_i hFits
    rw [h, grownLen, if_neg hFits]

theorem expendMmio_true (remap : Nat → Nat) (m : Mmio) (offset len : Nat) :
    expendMmio true remap m offset len = .ok (m.grown remap (offset + len)) := by
  induction m using expendMmio.induct true remap offset len with
  | case1 m hShort hWritable ih =>
    rw [expendMmio, if_pos hShort, if_pos rfl]
    refine ih.trans ?_
    have hNext : grownLen m.mapLen (offset + len) = grownLen (newLen m.mapLen) (offset + len) := by
      rw [grownLen, if_pos hShort]
    have hLe := le_grownLen (newLen m.mapLen) (offset + len)
    simp only [grown, grownStart, if_pos hShort, hNext]
    split
    · congr 3
      omega
    · rename_i hEnough
      have hStop : grownLen (newLen m.mapLen) (offset + len) = newLen m.mapLen := by
        rw [grownLen, if_neg hEnough]
      rw [hStop]
  | case2 m hShort hWritable => exact absurd rfl hWritable
  | case3 m hFits =>
    rw [expendMmio, if_neg hFits, grown_of_le remap (by omega)]

theorem expendMmio_false {m : Mmio} {offset len : Nat} (remap : Nat → Nat)
    (h : m.mapLen < offset + len) : expendMmio false remap m offset len = .error .exit := by
  rw [expendMmio, if_pos h, if_neg (by decide)]

theorem ensureMapped_eq_ok {m m' : Mmio} {fdWritable : Bool} {remap : Nat → Nat} {offset len : Nat}
    (h : ensureMapped fdWritable remap m offset len = .ok m') :
    m' = m.grown remap (offset + len) := by
  rw [ensureMapped, checkExpend_eq] at h
  split at h
  · rename_i hShort
    rw [decide_eq_true_eq] at hShort
    cases fdWritable with
    | true => exact (Except.ok.inj ((expendMmio_true remap m offset len).symm.trans h)).symm
    | false =>
      rw [expendMmio_false remap hShort] at h
      cases h
  · rename_i hFits
    rw [decide_eq_true_eq] at hFits
    rw [grown_of_le remap (by omega)]
    exact (Except.ok.inj h).symm

theorem ensureMapped_true (remap : Nat → Nat) (m : Mmio) (offset len : Nat) :
    ensureMapped true remap m offset len = .ok (m.grown remap (offset + len)) := by
  rw [ensureMapped, checkExpend_eq]
  split
  · exact expendMmio_true remap m offset len
  · rename_i hFits
    rw [decide_eq_true_eq] at hFits
    rw [grown_of_le remap (by omega)]

end Libnvmmio.Mmio

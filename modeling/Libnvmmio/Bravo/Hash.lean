import Libnvmmio.Bravo.Refinement
import Libnvmmio.Foundation.EvenSpread

/-! # The slots of the biased lock

`bravo_hash` adds the words of the thread and of the lock, mixes the bits of the sum and
takes the amount of its upper half, a C `int`, modulo the size of the table. The slots
are all in the table, and none is given to more threads or locks than another.
-/

namespace Libnvmmio.Bravo

open EvenSpread GuardedRun

set_option autoImplicit false

/-- `abs` of the least `int` is the least `int`, as the machine computes it. -/
def mix32 (z : BitVec 64) : BitVec 32 :=
  let z := (z ^^^ (z >>> 33)) * 0xff51afd7ed558ccd#64
  let z := (z ^^^ (z >>> 33)) * 0xc4ceb9fe1a85ec53#64
  ((z >>> 32).setWidth 32).abs

/-- The index that the C code computes, an `int`. -/
def bravoHash (self l : BitVec 64) : BitVec 32 :=
  (mix32 (self + l)).srem (BitVec.ofNat 32 nrEntries)

/-! ## The remainder -/

theorem toInt_srem_abs (z : BitVec 32) :
    (z.abs.srem (BitVec.ofNat 32 nrEntries)).toInt = (z.abs.setWidth 12).toNat := by
  have hTable : (BitVec.ofNat 32 nrEntries).toInt = 4096 := by decide
  rw [BitVec.toInt_srem, hTable, BitVec.toNat_setWidth]
  by_cases hMin : z = BitVec.intMin 32
  · -- the remainder of the least `int` is 0
    rw [hMin]
    decide
  · have hSign : z.abs.msb = false := by
      rw [BitVec.msb_abs, decide_eq_false hMin, Bool.false_and]
    rw [BitVec.toInt_eq_toNat_of_msb hSign, Int.tmod_eq_emod_of_nonneg (Int.natCast_nonneg _)]
    rfl

def slotBits (sum : BitVec 64) : BitVec 12 := (mix32 sum).setWidth 12

theorem toInt_bravoHash (self l : BitVec 64) : (bravoHash self l).toInt = (slotBits (self + l)).toNat :=
  toInt_srem_abs _

theorem bravoHash_lt (self l : BitVec 64) : (bravoHash self l).toInt.toNat < nrEntries := by
  rw [toInt_bravoHash, Int.toNat_natCast]
  exact (slotBits (self + l)).isLt

def slot (self l : BitVec 64) : Fin nrEntries := ⟨(bravoHash self l).toInt.toNat, bravoHash_lt self l⟩

theorem toInt_eq_slot (self l : BitVec 64) : (bravoHash self l).toInt = slot self l := by
  change _ = ((bravoHash self l).toInt.toNat : Int)
  rw [toInt_bravoHash, Int.toNat_natCast]

/-! ## The spread -/

def mixRound (c z : BitVec 64) : BitVec 64 := (z ^^^ (z >>> 33)) * c

theorem mixRound_bijective {c d : BitVec 64} (h : c * d = 1) : Function.Bijective (mixRound c) :=
  (mul_bijective h).comp (xorShift_involutive (by decide)).bijective

theorem slotBits_spreads : SpreadsEvenly slotBits (2 ^ 52) := by
  have hFirst : Function.Bijective (mixRound 0xff51afd7ed558ccd#64) :=
    mixRound_bijective (d := 0x4f74430c22a54005#64) (by decide)
  have hSecond : Function.Bijective (mixRound 0xc4ceb9fe1a85ec53#64) :=
    mixRound_bijective (d := 0x9cb4b2f8129337db#64) (by decide)
  have hTop : SpreadsEvenly (fun z : BitVec (32 + 32) => (z >>> 32).setWidth 32) (2 ^ 32) := top_spreads
  have hLow : SpreadsEvenly (fun z : BitVec (20 + 12) => z.abs.setWidth 12) (2 ^ 20) := lowAbs_spreads (by decide)
  exact (hLow.comp hTop).comp (.of_bijective (hSecond.comp hFirst))

theorem slot_eq_iff {self l : BitVec 64} {i : Fin nrEntries} :
    slot self l = i ↔ slotBits (self + l) = BitVec.ofNat 12 i := by
  have hBits : (slot self l).val = (slotBits (self + l)).toNat := by
    rw [← Int.natCast_inj, ← toInt_eq_slot, toInt_bravoHash]
  have hIndex : (BitVec.ofNat 12 i).toNat = i := Nat.mod_eq_of_lt i.isLt
  rw [Fin.ext_iff, ← BitVec.toNat_inj, hBits, hIndex]

theorem spreads_of_sum {f : BitVec 64 → Fin nrEntries} {g : BitVec 64 → BitVec 64} (hg : Function.Bijective g)
    (h : ∀ v i, f v = i ↔ slotBits (g v) = BitVec.ofNat 12 i.val) : SpreadsEvenly f (2 ^ 52) := by
  intro i
  rw [Nat.card_congr (Equiv.subtypeEquivRight fun v => h v i)]
  exact slotBits_spreads.comp (.of_bijective hg) (BitVec.ofNat 12 i)

/-- Of all threads, each slot of the table is given to exactly as many for a lock as any
other; and of all locks, to as many for a thread. -/
theorem slots_spread : (∀ self l, (bravoHash self l).toInt = slot self l) ∧
    (∀ l, SpreadsEvenly (fun self => slot self l) (2 ^ 52)) ∧ ∀ self, SpreadsEvenly (slot self) (2 ^ 52) := by
  refine ⟨toInt_eq_slot, ?_, ?_⟩
  · intro l
    exact spreads_of_sum (AddGroup.addRight_bijective l) fun _ _ => slot_eq_iff
  · intro self
    exact spreads_of_sum (AddGroup.addLeft_bijective self) fun _ _ => slot_eq_iff

/-! ## Threads and locks on slots of their own -/

namespace State

variable {T L : Type} [DecidableEq T] [DecidableEq L] {bravoHash : T → L → Fin nrEntries} {s s' : State T L}
  {as : List (T × Act L)}

theorem Accounted.ownSlot (h : Accounted bravoHash s)
    (hDistinct : ∀ t u l m, bravoHash t l = bravoHash u m → t = u ∧ l = m) (a : T × Act L) :
    OwnSlot bravoHash s a := by
  obtain ⟨t, call | clock⟩ := a
  · trivial
  · intro l _
    cases hSlot : s.visibleReaders (bravoHash t l) with
    | none => exact .inl rfl
    | some c =>
      obtain ⟨m, u⟩ := c
      obtain ⟨rfl, rfl⟩ := hDistinct u t m l (h.slots _ _ _ hSlot)
      exact .inr rfl

theorem Accounted.run_guarded (h : Accounted bravoHash s)
    (hDistinct : ∀ t u l m, bravoHash t l = bravoHash u m → t = u ∧ l = m) (hRun : Run (Step bravoHash) s as s') :
    Run (Guarded (OwnSlot bravoHash) (Step bravoHash)) s as s' := by
  induction hRun with
  | nil s => exact .nil s
  | @cons s s₁ s' a as hHead _ ih =>
    have hGuarded : Guarded (OwnSlot bravoHash) (Step bravoHash) s a s₁ := ⟨h.ownSlot hDistinct a, hHead⟩
    obtain ⟨t, l, b, hAccessed⟩ := step_accessed h hGuarded
    exact .cons hGuarded (ih (h.accessed hAccessed))

/-- Threads and locks whose words are hashed to slots of their own see correct locks in every run. -/
theorem refines_of_distinctSlots {selves : T → BitVec 64} {words : L → BitVec 64}
    (hDistinct : ∀ t u l m, slot (selves t) (words l) = slot (selves u) (words m) → t = u ∧ l = m)
    (hRun : Run (Step fun t l => slot (selves t) (words l)) init as s) :
    ∃ locks, LockRun (fun _ => .free) (init.seenOf (fun t l => slot (selves t) (words l)) as) locks ∧
      Represents locks s :=
  Represents.run ⟨fun _ _ => rfl, fun _ _ => rfl⟩ (init_accounted _) (init_excluding _)
    ((init_accounted _).run_guarded hDistinct hRun)

end State

end Libnvmmio.Bravo

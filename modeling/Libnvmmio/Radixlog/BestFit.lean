import Libnvmmio.Radixlog.LogSize

/-!
# The class that `set_log_size` chooses

The loop halves the number of pages of the request, less one, until nothing is
left of it. The class it reaches is the least one whose block holds the request
together with the part of the first page before it.
-/

namespace Libnvmmio

set_option autoImplicit false

theorem growLogSize_fits (room n : Nat) :
    n < 2 ^ growLogSize room n ∨ growLogSize room n = room := by
  induction room generalizing n with
  | zero => exact Or.inr rfl
  | succ room ih =>
    rw [growLogSize]
    split
    · rename_i hn
      left
      simp [hn]
    · cases ih (n / 2) with
      | inl hFits =>
        left
        rw [Nat.pow_succ]
        omega
      | inr hRoom => exact Or.inr (congrArg Nat.succ hRoom)

theorem pow_le_of_lt_growLogSize {room n k : Nat} (h : k < growLogSize room n) : 2 ^ k ≤ n := by
  induction room generalizing n k with
  | zero => simp [growLogSize] at h
  | succ room ih =>
    rw [growLogSize] at h
    split at h
    · simp at h
    · rename_i hn
      cases k with
      | zero => exact Nat.one_le_iff_ne_zero.mpr hn
      | succ k =>
        have hHalf : 2 ^ k ≤ n / 2 := ih (by omega)
        rw [Nat.pow_succ]
        omega

theorem growLogSize_mono (room : Nat) {n n' : Nat} (h : n ≤ n') :
    growLogSize room n ≤ growLogSize room n' := by
  cases growLogSize_fits room n' with
  | inr hRoom =>
    rw [hRoom]
    exact growLogSize_le room n
  | inl hFits =>
    apply Nat.le_of_not_lt
    intro hLt
    have hSmall : 2 ^ growLogSize room n' ≤ n := pow_le_of_lt_growLogSize hLt
    omega

/-- The bytes that one block must hold: the request and its start within the first page. -/
def paddedLen (offset len : Nat) : Nat := offset % 2 ^ pageShift + len

theorem paddedLen_mono (offset : Nat) {len len' : Nat} (h : len ≤ len') :
    paddedLen offset len ≤ paddedLen offset len' := Nat.add_le_add_left h _

/-- A request of at least one byte below `2 ^ 63` wraps in neither addition. -/
theorem setLogSize_val {offset len : Nat} (hLen : 1 ≤ len) (hMax : len < 2 ^ 63) :
    (setLogSize offset len).val =
      growLogSize (nrLogSizes - 1) ((paddedLen offset len - 1) / 2 ^ pageShift) := by
  have hShift : LogSize.log4K.shift = pageShift := by decide
  have hSize : LogSize.log4K.size = 2 ^ pageShift := congrArg (2 ^ ·) hShift
  have hPadded : 1 ≤ paddedLen offset len ∧ paddedLen offset len < 2 ^ 64 := by
    simp only [paddedLen, pageShift]
    omega
  have hSum : (len + offset % 2 ^ pageShift) % 2 ^ 64 = paddedLen offset len := by
    rw [Nat.add_comm]
    exact Nat.mod_eq_of_lt hPadded.2
  have hMinus : (paddedLen offset len + ulongMax) % 2 ^ 64 = paddedLen offset len - 1 := by
    simp only [ulongMax]
    omega
  simp only [setLogSize, hSize, hSum, hMinus, hShift]

theorem pages_lt_iff {n : Nat} (k : Nat) (h : 1 ≤ n) :
    (n - 1) / 2 ^ pageShift < 2 ^ k ↔ n ≤ 2 ^ (12 + k) := by
  rw [Nat.div_lt_iff_lt_mul (Nat.pow_pos (by decide)), ← Nat.pow_add, pageShift, Nat.add_comm k]
  omega

/-- The least class that holds the padded request, or the largest class when none does. -/
def BestFit (n : Nat) (s : LogSize) : Prop :=
  (∀ s' < s, s'.size < n) ∧ (n ≤ s.size ∨ s.val = nrLogSizes - 1)

theorem setLogSize_bestFit {offset len : Nat} (hLen : 1 ≤ len) (hMax : len < 2 ^ 63) :
    BestFit (paddedLen offset len) (setLogSize offset len) := by
  have hPos : 1 ≤ paddedLen offset len := Nat.le_add_left_of_le hLen
  have hVal : (setLogSize offset len).val =
      growLogSize (nrLogSizes - 1) ((paddedLen offset len - 1) / 2 ^ pageShift) := setLogSize_val hLen hMax
  constructor
  · intro s' hLt
    have hPages : 2 ^ s'.val ≤ (paddedLen offset len - 1) / 2 ^ pageShift := by
      apply pow_le_of_lt_growLogSize
      rw [← hVal]
      exact hLt
    have hNot : ¬ paddedLen offset len ≤ 2 ^ (12 + s'.val) := by
      rw [← pages_lt_iff s'.val hPos]
      exact Nat.not_lt.mpr hPages
    rw [LogSize.size, LogSize.shift_eq]
    exact Nat.lt_of_not_le hNot
  · rw [LogSize.size, LogSize.shift_eq, ← pages_lt_iff _ hPos, hVal]
    exact growLogSize_fits _ _

theorem setLogSize_mono {offset len len' : Nat} (hLen : 1 ≤ len) (hLe : len ≤ len')
    (hMax : len' < 2 ^ 63) : setLogSize offset len ≤ setLogSize offset len' := by
  rw [Fin.le_def, setLogSize_val hLen (Nat.lt_of_le_of_lt hLe hMax),
    setLogSize_val (Nat.le_trans hLen hLe) hMax]
  apply growLogSize_mono
  apply Nat.div_le_div_right
  exact Nat.sub_le_sub_right (paddedLen_mono offset hLe) 1

/-- The bytes of an aligned request that fits the class lie in one block of one table. -/
theorem block_of_aligned {s : LogSize} {offset len a : Nat} (hAligned : s.size ∣ offset)
    (hFits : len ≤ s.size) (hFrom : offset ≤ a) (hTo : a < offset + len) :
    a / 2 ^ lmdShift = offset / 2 ^ lmdShift ∧ tableIndex s a = tableIndex s offset := by
  have hBlock : a / s.size = offset / s.size := by
    obtain ⟨k, rfl⟩ := hAligned
    rw [Nat.mul_div_cancel_left k s.size_pos, Nat.div_eq_iff s.size_pos]
    rw [Nat.mul_comm s.size k] at hFrom hTo
    omega
  have hRegion := region_eq_of_block_eq s hBlock
  exact ⟨hRegion, (tableIndex_eq_iff s hRegion).mpr hBlock⟩

/-- The result is the least class that fits, or the largest one; it grows with
the length; and an aligned request that fits it lies in one block of its table. -/
theorem setLogSize_spec (offset len : Nat) (hLen : 1 ≤ len) (hMax : len < 2 ^ 63) :
    BestFit (paddedLen offset len) (setLogSize offset len) ∧
      (∀ len', len ≤ len' → len' < 2 ^ 63 → setLogSize offset len ≤ setLogSize offset len') ∧
      ((setLogSize offset len).size ∣ offset → len ≤ (setLogSize offset len).size →
        ∀ a, offset ≤ a → a < offset + len → a / 2 ^ lmdShift = offset / 2 ^ lmdShift ∧
          tableIndex (setLogSize offset len) a = tableIndex (setLogSize offset len) offset) := by
  refine ⟨setLogSize_bestFit hLen hMax, ?_, ?_⟩
  · intro len' hLe hMax'
    exact setLogSize_mono hLen hLe hMax'
  · intro hAligned hFits a hFrom hTo
    exact block_of_aligned hAligned hFits hFrom hTo

/-- A page and one byte at 8192 take the class of two pages, and one block. -/
theorem setLogSize_spec_page_and_byte :
    (setLogSize 8192 4097).size = 8192 ∧ BestFit (paddedLen 8192 4097) (setLogSize 8192 4097) ∧
      setLogSize 8192 4097 ≤ setLogSize 8192 8193 ∧
      tableIndex (setLogSize 8192 4097) 12288 = tableIndex (setLogSize 8192 4097) 8192 := by
  have h := setLogSize_spec 8192 4097 (by decide) (by decide)
  refine ⟨by decide, h.1, h.2.1 8193 (by decide) (by decide), ?_⟩
  exact (h.2.2 (by decide) (by decide) 12288 (by decide) (by decide)).2

end Libnvmmio

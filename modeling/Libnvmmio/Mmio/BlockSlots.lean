import Libnvmmio.Mmio.Requests

/-! # One slot for each log block

`init_radixlog` chooses the lookup depth from the length at open, and
`expend_mmio` does not revise it. A mapping that has grown past the span of
that depth maps blocks of different regions to one slot.
-/

namespace Libnvmmio.Mmio

open RangeCopy RadixLog Outcome GuardedRun

set_option autoImplicit false

/-- In every reachable state the slots are those of the blocks exactly as long
as the mapping has not outgrown the depth chosen at open. -/
theorem slotPerBlock_iff_mapLen_le {m₀ m : Mmio} {requests : List Request} (hOpen : m₀.Opened)
    (hRun : Requests m₀ requests m) :
    m.radixlog.SlotPerBlock m.mapLen ↔
      m.mapLen ≤ (getDeepestTableType (m₀.mapLen - 1)).span := by
  obtain ⟨hSound, hExt⟩ := hRun.extends hOpen.sound
  have hType := hExt.skipType hOpen.sound.wellFormed.shape
  rw [slotPerBlock_iff hSound.wellFormed, hType, hOpen.skipType]

/-- The first growth of a short mapping ends at `BASIC_MMAP_SIZE`. -/
theorem grownLen_small {currentLen target : Nat} (hShort : currentLen < basicMmapSize)
    (h : currentLen < target) (h' : target ≤ basicMmapSize) :
    grownLen currentLen target = basicMmapSize := by
  have hNew : newLen currentLen = basicMmapSize := by
    rw [newLen, if_neg (by omega)]
  rw [grownLen, if_pos h, hNew, grownLen, if_neg (by omega)]

def twoRegionFile : Mmio := firstOpen .undo (2 ^ 21) ⟨2 ^ 21 + 1, fun _ => 0⟩

theorem twoRegionFile_opened : twoRegionFile.Opened := firstOpen_opened (Nat.succ_pos _)

/-- A write inside the file and one that grows it to 64 MiB, under a lookup that tells 1 GiB apart. -/
theorem slotPerBlock_after_growth_in_span :
    ∃ m, Requests twoRegionFile [.write true (fun _ => 2 ^ 21) 0 (fun _ => 1) 1,
        .write true (fun _ => 2 ^ 21) (2 ^ 21 + 1) (fun _ => 1) 1] m ∧
      m.mapLen = basicMmapSize ∧ m.radixlog.SlotPerBlock m.mapLen := by
  have hTidy := twoRegionFile_opened.tidy
  have hStart : twoRegionFile.InBlock 0 1 := inBlock_of_le_page _ (by decide)
  obtain ⟨m₁, _, _, _, _, _, m, hFirst, hStages⟩ := mmioWrite_stages (fun _ => 2 ^ 21) (fun _ => 1)
    hTidy (fun hRedo => absurd hRedo (by decide)) hStart
    (fun hRedo => absurd hRedo (by decide)) Nat.zero_lt_one
  have hFrame := hStages.writeFrame hTidy
  have hType : m.radixlog.skipType = .lmd := hFrame.skipType.trans twoRegionFile_opened.skipType
  have hUndo : m.policy = .undo := hFrame.policy
  have hNotRedo : m.policy ≠ .redo := by
    rw [hUndo]
    decide
  have hBlock : m.InBlock (2 ^ 21 + 1) 1 := inBlock_one (by rw [hType]; decide)
  obtain ⟨_, _, _, _, _, _, m', hSecond, hStages'⟩ := mmioWrite_stages (fun _ => 2 ^ 21) (fun _ => 1)
    (hStages.tidy hTidy) (fun hRedo => absurd hRedo hNotRedo) hBlock
    (fun hRedo => absurd hRedo hNotRedo) Nat.zero_lt_one
  have hFrame' := hStages'.writeFrame (hStages.tidy hTidy)
  have hRun : Requests twoRegionFile [.write true (fun _ => 2 ^ 21) 0 (fun _ => 1) 1,
      .write true (fun _ => 2 ^ 21) (2 ^ 21 + 1) (fun _ => 1) 1] m' :=
    .cons ⟨.wrote 1, by rw [perform, hFirst, ok_bind]⟩
      (.cons ⟨.wrote 1, by rw [perform, hSecond, ok_bind]⟩ (.nil m'))
  have hBefore : m.mapLen = 2 ^ 21 + 1 := by
    rw [hFrame.mapLen, grownLen, if_neg (by decide)]
    rfl
  have hLen : m'.mapLen = basicMmapSize := by
    rw [hFrame'.mapLen, hBefore]
    exact grownLen_small (by decide) (by decide) (by decide)
  refine ⟨m', hRun, hLen, (slotPerBlock_iff_mapLen_le twoRegionFile_opened hRun).mpr ?_⟩
  rw [hLen]
  decide

/-- One byte appended to a file of one byte grows the mapping to 64 MiB under a
lookup that tells 2 MiB apart. -/
theorem slotPerBlock_fails_after_append :
    ∃ m, Requests oneByteFile [.write true (fun _ => 2 ^ 21) 1 (fun _ => 0) 1] m ∧
      ¬ m.radixlog.SlotPerBlock m.mapLen := by
  have hTidy := oneByteFile_opened.tidy
  have hType : oneByteFile.radixlog.skipType = .table := oneByteFile_opened.skipType
  have hBlock : oneByteFile.InBlock 1 1 := inBlock_of_le_page _ (by decide)
  obtain ⟨m₁, slot, s, bytes, e₁, e, m, hOk, hStages⟩ :=
    mmioWrite_stages (fun _ => 2 ^ 21) (fun _ => 0) hTidy
      (fun hRedo => absurd hRedo (by decide)) hBlock (fun hRedo => absurd hRedo (by decide))
      Nat.zero_lt_one
  have hStep : oneByteFile.perform (.write true (fun _ => 2 ^ 21) 1 (fun _ => 0) 1) =
      .ok (m, .wrote 1) := by
    rw [perform, hOk, ok_bind]
  have hRun : Requests oneByteFile [.write true (fun _ => 2 ^ 21) 1 (fun _ => 0) 1] m :=
    .cons ⟨_, hStep⟩ (.nil m)
  refine ⟨m, hRun, ?_⟩
  have hLen : m.mapLen = basicMmapSize := by
    obtain ⟨r, k, hFrame⟩ := hStages.frame
    rw [hStages.result, hFrame]
    exact grownLen_small (by decide) (by decide) (by decide)
  obtain ⟨hSound, hExt⟩ := hRun.extends oneByteFile_opened.sound
  rw [slotPerBlock_iff hSound.wellFormed, hLen, hExt.skipType hTidy.sound.wellFormed.shape, hType]
  decide

end Libnvmmio.Mmio

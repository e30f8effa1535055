import Libnvmmio.Mmio.SettledRuns

/-! # Destinations of log entries

`entry->dst` is computed by masking a virtual address with the log size, and
kept while `mremap` may move the mapping. It is the address of the block as
long as the base is aligned to the log size and stays where it is while
entries hold data.
-/

namespace Libnvmmio.Mmio

open RangeCopy RadixLog Outcome GuardedRun

set_option autoImplicit false

/-- Every entry with data points to its block, and the two code paths that
copy a REDO log copy its byte `i` to position `i` of the block and nowhere else. -/
structure CopiesHome (m : Mmio) : Prop where
  dst : ∀ slot s b e, m.radixlog.SlotOf slot s b → m.radixlog.entryAt slot = some e → 0 < e.len →
    e.dst = m.start + s.blockStart b
  entry : ∀ slot s b e m' e', m.radixlog.SlotOf slot s b → m.radixlog.entryAt slot = some e →
    0 < e.len → m.checkpointEntry e = .ok (m', e') → ∀ j, m'.disk.bytes j =
      if e.policy = .redo ∧ j / s.size = b / s.size ∧ e.extent.Covers (j % s.size) then
        e.log (j % s.size)
      else m.disk.bytes j
  copied : ∀ m' slot s b e i, m.checkpointMmio = .ok m' → m.radixlog.SlotOf slot s b →
    m.radixlog.entryAt slot = some e → e.epoch < m.epoch → e.policy = .redo → e.extent.Covers i →
    m'.disk.bytes (s.blockStart b + i) = e.log i
  nowhere_else : ∀ m' j, m.checkpointMmio = .ok m' → m'.disk.bytes j = m.disk.bytes j ∨
    ∃ slot s b e i, m.radixlog.SlotOf slot s b ∧ m.radixlog.entryAt slot = some e ∧
      e.epoch < m.epoch ∧ e.policy = .redo ∧ e.extent.Covers i ∧ j = s.blockStart b + i ∧
      m'.disk.bytes j = e.log i

section Settled

variable {m : Mmio} (h : m.Settled True)

include h

theorem Settled.dst_eq {slot : Slot} {s : LogSize} {b : Nat} {e : IdxEntry}
    (hSlot : m.radixlog.SlotOf slot s b) (hEntry : m.radixlog.entryAt slot = some e)
    (hLen : 0 < e.len) : e.logSize = s ∧ e.dst = m.start + s.blockStart b := by
  have hOf : m.radixlog.entryOf b = some e := hSlot.entryOf.trans hEntry
  have hs := h.tidy.sound.entryOf_size hOf hSlot.find hSlot.size
  refine ⟨hs, ?_⟩
  rw [← hs]
  exact h.at_home trivial b e hSlot.in_span hOf hLen

theorem Settled.checkpointEntry_home {slot : Slot} {s : LogSize} {b : Nat} {e e' : IdxEntry}
    {m' : Mmio} (hSlot : m.radixlog.SlotOf slot s b) (hEntry : m.radixlog.entryAt slot = some e)
    (hLen : 0 < e.len) (hOk : m.checkpointEntry e = .ok (m', e')) (j : Nat) :
    m'.disk.bytes j =
      if e.policy = .redo ∧ j / s.size = b / s.size ∧ e.extent.Covers (j % s.size) then
        e.log (j % s.size)
      else m.disk.bytes j := by
  obtain ⟨hs, hDst⟩ := h.dst_eq hSlot hEntry hLen
  have hOf : m.radixlog.entryOf b = some e := hSlot.entryOf.trans hEntry
  obtain ⟨bytes, hStore, hBytes⟩ :=
    storeRedo_home (h.tidy.lodged b e hSlot.in_span hOf) fun _ _ => by rw [hs]; exact hDst
  rw [checkpointEntry, hStore, ok_bind] at hOk
  cases hOk
  rw [← hs]
  exact hBytes j

theorem Settled.checkpoint_copied {slot : Slot} {s : LogSize} {b i : Nat} {e : IdxEntry} {m' : Mmio}
    (hOk : m.checkpointMmio = .ok m') (hSlot : m.radixlog.SlotOf slot s b)
    (hEntry : m.radixlog.entryAt slot = some e) (hStale : e.epoch < m.epoch)
    (hRedo : e.policy = .redo) (hCovers : e.extent.Covers i) :
    m'.disk.bytes (s.blockStart b + i) = e.log i := by
  have hDone := checkpointMmio_eq_ok h.tidy h.homeForRedo hOk
  obtain ⟨hs, hIn, hOf, hPos⟩ := h.tidy.entryOf_covered hSlot hEntry hCovers
  rw [hDone.bytes _ hIn, drained, through_some hOf, hs, hPos, if_pos ⟨⟨hRedo, hStale⟩, hCovers⟩]

theorem Settled.checkpoint_nowhere_else {m' : Mmio} (hOk : m.checkpointMmio = .ok m') (j : Nat) :
    m'.disk.bytes j = m.disk.bytes j ∨
      ∃ slot s b e i, m.radixlog.SlotOf slot s b ∧ m.radixlog.entryAt slot = some e ∧
        e.epoch < m.epoch ∧ e.policy = .redo ∧ e.extent.Covers i ∧ j = s.blockStart b + i ∧
        m'.disk.bytes j = e.log i := by
  have hDone := checkpointMmio_eq_ok h.tidy h.homeForRedo hOk
  rcases Nat.lt_or_ge j m.radixlog.skipType.span with hIn | hOut
  · rw [hDone.bytes j hIn]
    cases hOf : m.radixlog.entryOf j with
    | none => exact .inl (through_none hOf)
    | some e =>
      rw [drained, through_some hOf]
      split
      · rename_i hCond
        obtain ⟨⟨hRedo, hStale⟩, hCovers⟩ := hCond
        obtain ⟨slot, s, hSlot, hEntry⟩ := exists_slotOf hIn hOf
        obtain ⟨hs, _⟩ := h.dst_eq hSlot hEntry hCovers.len_pos
        rw [hs] at hCovers
        refine .inr ⟨slot, s, j, e, j % s.size, hSlot, hEntry, hStale, hRedo, hCovers, ?_, by rw [hs]⟩
        exact (s.blockStart_add_mod j).symm
      · exact .inl rfl
  · exact .inl (hDone.beyond j hOut)

theorem Settled.copiesHome : m.CopiesHome where
  dst _ _ _ _ hSlot hEntry hLen := (h.dst_eq hSlot hEntry hLen).2
  entry _ _ _ _ _ _ hSlot hEntry hLen hOk j := h.checkpointEntry_home hSlot hEntry hLen hOk j
  copied _ _ _ _ _ _ hOk hSlot hEntry hStale hRedo hCovers :=
    h.checkpoint_copied hOk hSlot hEntry hStale hRedo hCovers
  nowhere_else _ j hOk := h.checkpoint_nowhere_else hOk j

end Settled

/-- In every state of a run whose writes stay in one block over a steady,
aligned base, every log is at home and copied home. -/
theorem copiesHome_of_safeRun {m₀ m : Mmio} {requests : List Request} (hOpen : m₀.Opened)
    (hRun : SafeRun True m₀ requests m) : m.CopiesHome :=
  (SafeRun.settled hRun (hOpen.settled fun _ => trivial)).copiesHome

theorem copiesHome_oneByteFile : ∃ m, SafeRun True oneByteFile
    [.write true (fun _ => 2 ^ 21) 0 (fun _ => 1) 1] m ∧ m.CopiesHome := by
  have hOpen := oneByteFile_opened
  have hBlock : oneByteFile.InBlock 0 1 := inBlock_of_le_page _ (by decide)
  have hSteady : oneByteFile.SteadyBase (fun _ => 2 ^ 21) 0 1 :=
    ⟨Nat.mod_eq_zero_of_dvd (LogSize.size_dvd _), .inl rfl⟩
  obtain ⟨m, hOk⟩ := (hOpen.settled fun _ => trivial).exists_write (fun _ => 2 ^ 21) (fun _ => 1)
    hBlock fun _ => hSteady
  have hRun : SafeRun True oneByteFile [.write true (fun _ => 2 ^ 21) 0 (fun _ => 1) 1] m :=
    .cons ⟨⟨hBlock, fun _ => hSteady⟩, _, hOk⟩ (.nil m)
  exact ⟨m, hRun, copiesHome_of_safeRun hOpen hRun⟩

def unalignedFile : Mmio := firstOpen .redo 4096 ⟨16384, fun _ => 0⟩

theorem unalignedFile_opened : unalignedFile.Opened := firstOpen_opened (by decide)

/-- The log of the first 8 KiB is destined for address 0, a page before the file. -/
theorem copiesHome_fails_unaligned : ∃ m, Requests unalignedFile
    [.write true (fun _ => 4096) 0 (fun _ => 1) 8192] m ∧ ¬ m.CopiesHome := by
  have hOpen := unalignedFile_opened
  have hSize : (unalignedFile.radixlog.locate 0 8192).2.1 = ⟨1, by decide⟩ := by decide
  have hBlock : unalignedFile.InBlock 0 8192 := by
    refine ⟨.inr ?_, ?_⟩
    · rw [hSize]
      decide
    · have hSpan := unalignedFile.radixlog.skipType.region_le_span
      rw [lmdShift] at hSpan
      omega
  obtain ⟨m₁, slot, s, bytes, e₁, e, m, hOk, hStages⟩ := mmioWrite_stages (fun _ => 4096) (fun _ => 1)
    hOpen.tidy (fun _ => hOpen.atHome) hBlock (fun _ => .inl rfl) (by decide)
  have hRun : Requests unalignedFile [.write true (fun _ => 4096) 0 (fun _ => 1) 8192] m :=
    .cons ⟨.wrote 8192, by rw [perform, hOk, ok_bind]⟩ (.nil m)
  refine ⟨m, hRun, fun hHome => ?_⟩
  obtain ⟨hEmpty, hExtent⟩ := hOpen.first_entry hStages (by decide)
  have hLen : 0 < e.extent.len := by
    rw [hExtent]
    exact Nat.zero_lt_succ 8191
  have hStart : m₁.start = 4096 := by
    obtain ⟨r, k, hFrame⟩ := hStages.frame
    rw [hFrame]
    rfl
  have hDst : e.dst = 0 := by
    have hMasked := hStages.stored.dst_masked hEmpty
    rw [hStages.prepared.size, hStages.size_eq, hSize] at hMasked
    dsimp only at hMasked
    rw [hStart] at hMasked
    exact hMasked
  have hWrong := hHome.dst slot s 0 e (by rw [hStages.result]; exact hStages.slot_of.setEntry _ _)
    (by rw [hStages.result]; exact entryAt_setEntry_self _ _ _) hLen
  rw [hDst, hStages.result] at hWrong
  dsimp only at hWrong
  omega

end Libnvmmio.Mmio

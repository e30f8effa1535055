import Libnvmmio.Mmio.ReportedCount
import Libnvmmio.Persistence.Durable

/-! # What survives a commit

Runs of requests with the status of every persistent location. At the return of
`commit_mmio` all that it answers for is durable, but for `mmio->fsize`: no call
flushes it, so it is durable exactly where no call has stored it.
-/

namespace Libnvmmio.Persistence

open PersistentMemory RangeCopy RadixLog Mmio Outcome GuardedRun

set_option autoImplicit false

/-! ## `mmio->fsize` -/

section Size

variable {m m' m₁ m₂ : Mmio} {ids : Slot → Nat} {status : Loc → Status}

theorem AllUsual.fsize_dirty_iff {events : List MemoryEvent} (h : AllUsual events) :
    statusAfter events status .fsize = .dirty ↔ status .fsize = .dirty := by
  constructor
  · intro hAfter
    by_contra hBefore
    exact not_dirty_of_spares (fun event hEvent => (h event hEvent).spares_fsize) hBefore hAfter
  · exact dirty_of_leaves fun event hEvent => (h event hEvent).leaves_fsize

theorem sizeStore_dirty_iff (m : Mmio) (length : Nat) :
    statusAfter (sizeStore m length) status .fsize = .dirty ↔ status .fsize = .dirty ∨ ¬ length ≤ m.fsize := by
  unfold sizeStore
  split
  · rename_i hLonger
    have hDirty : statusAfter [.store (storeAt .fsize length)] status .fsize = .dirty := by
      rw [statusAfter_cons, statusAfter_nil, Event.status, storeAt_data_self]
      rfl
    exact ⟨fun _ => .inr (Nat.not_le.mpr hLonger), fun _ => hDirty⟩
  · rename_i hShorter
    exact ⟨.inl, fun h => h.resolve_right fun hNot => hNot (Nat.le_of_not_lt hShorter)⟩

/-- The pieces of a write, as the log blocks of its range cut them, end inside the file. -/
def KeepsSize (m : Mmio) : Request → Prop
  | .write _ _ offset _ len => offset + m.reportedCount offset (toInt len).toNat ≤ m.fsize
  | _ => True

theorem grownWrite_fsize_dirty_iff {offset len : Nat} {n : Int} {buf : Nat → UInt8} {head : List Slot} {c : Cursor}
    (hSound : m.radixlog.Sound) (hLock : lockEntries .wr m n offset [] = .ok (m₁, head))
    (hWrite : m₁.writeEntries buf head ⟨n.toNat, offset, m₁.start + offset, 0, 0⟩ = .ok (m₂, c)) :
    statusAfter (grownWriteEvents m ids offset buf len n).1 status .fsize = .dirty ↔
      status .fsize = .dirty ∨ ¬ offset + c.ret ≤ m.fsize := by
  obtain ⟨events, hUsual, hEvents⟩ := grownWrite_usual ids len hSound hLock hWrite
  rw [hEvents, statusAfter_append, sizeStore_dirty_iff, hUsual.fsize_dirty_iff]

theorem mmioWrite_fsize_dirty_iff (hSound : m.radixlog.Sound) {fdWritable : Bool} {remap : Nat → Nat}
    {offset len n : Nat} {buf : Nat → UInt8} (hOk : mmioWrite fdWritable remap m offset buf len = .ok (m', n)) :
    statusAfter (mmioWriteEvents fdWritable remap m ids offset buf len).1 status .fsize = .dirty ↔
      status .fsize = .dirty ∨ ¬ offset + n ≤ m.fsize := by
  obtain ⟨m₀, m₁, head, m₂, c, hGrow, hLock, hWrite, _, rfl⟩ := mmioWrite_phases hOk
  rw [mmioWriteEvents_eq hGrow]
  have hGrown := ensureMapped_eq_ok hGrow
  subst hGrown
  exact grownWrite_fsize_dirty_iff (m := m.grown remap (offset + len)) hSound hLock hWrite

/-- Exactly the writes that raise `mmio->fsize` leave it dirty, and no call cleans it. -/
theorem perform_fsize_dirty_iff {request : Request} {reply : Reply} (hSound : m.radixlog.Sound)
    (hOk : m.perform request = .ok (m', reply)) :
    statusAfter (performEvents m ids request).1 status .fsize = .dirty ↔
      status .fsize = .dirty ∨ ¬ KeepsSize m request := by
  cases request with
  | write fdWritable remap offset buf len =>
    obtain ⟨⟨m₁, n⟩, hWrite, _⟩ := bind_eq_ok hOk
    rw [KeepsSize, ← mmioWrite_ret hSound hWrite]
    exact mmioWrite_fsize_dirty_iff hSound hWrite
  | read offset buf len =>
    obtain ⟨⟨m₁, n, buf'⟩, hRead, _⟩ := bind_eq_ok hOk
    obtain ⟨⟨m₁, head⟩, hLock, _⟩ := bind_eq_ok hRead
    have hUsual : AllUsual (performEvents m ids (.read offset buf len)).1 := allUsual_lockEntries hSound hLock
    exact hUsual.fsize_dirty_iff.trans (or_iff_left fun hNot => hNot trivial).symm
  | commit => exact (allUsual_commitMmio m ids).fsize_dirty_iff.trans (or_iff_left fun hNot => hNot trivial).symm
  | checkpoint =>
    obtain ⟨m₁, hCheckpoint, _⟩ := bind_eq_ok hOk
    have hUsual : AllUsual (performEvents m ids .checkpoint).1 :=
      checkpointFrom_keeps (P := fun events _ => AllUsual events)
        (fun _ m _ slot _ h => h.append (allUsual_checkpointSlot _ m ids slot)) hCheckpoint allUsual_nil
    exact hUsual.fsize_dirty_iff.trans (or_iff_left fun hNot => hNot trivial).symm

end Size

/-! ## Runs -/

structure Persisted where
  mmio : Mmio
  ids : Slot → Nat
  status : Loc → Status

namespace Persisted

def Step (o : Persisted) (request : Request) (o' : Persisted) : Prop :=
  ∃ reply, o.mmio.perform request = .ok (o'.mmio, reply) ∧
    o'.ids = (performEvents o.mmio o.ids request).2 ∧
    o'.status = statusAfter (performEvents o.mmio o.ids request).1 o.status

/-- After `get_new_mmio`: nothing is on its way to the file. -/
structure Opened (o : Persisted) : Prop where
  mmio : o.mmio.Opened
  file : ∀ i, o.status (.byte .file i) ≠ .dirty

structure EntryDurable (status : Loc → Status) (k : Nat) (e : IdxEntry) : Prop where
  header : status (.header k) = .durable
  log : status (.log k) = .durable
  dst : status (.dst k) = .durable
  bytes : ∀ i, e.extent.Covers i → status (.byte (.log k) i) = .durable

/-- What has to be durable at the return of `commit_mmio`. -/
structure DurableAtCommit (o : Persisted) : Prop where
  file : ∀ i, o.status (.byte .file i) = .durable
  entries : ∀ slot e, o.mmio.radixlog.entryAt slot = some e → 0 < e.len →
    EntryDurable o.status (o.ids slot) e
  epoch : o.status .epoch = .durable
  fsize : o.status .fsize = .durable

structure Steady (o : Persisted) : Prop where
  sound : o.mmio.radixlog.Sound
  clean : Clean o.status o.mmio o.ids

variable {o o' : Persisted} {request : Request} {requests : List Request}

theorem Opened.steady (h : o.Opened) : o.Steady where
  sound := h.mmio.sound
  clean := clean_of_no_entry h.mmio.no_entry o.ids h.file

theorem Steady.step (h : o.Steady) (hStep : Step o request o') : o'.Steady := by
  obtain ⟨reply, hOk, hIds, hStatus⟩ := hStep
  refine ⟨(perform_extends h.sound hOk).1, ?_⟩
  rw [hIds, hStatus]
  exact perform_clean h.sound h.clean hOk

theorem step_fsize_dirty_iff (h : o.Steady) (hStep : Step o request o') :
    o'.status .fsize = .dirty ↔ o.status .fsize = .dirty ∨ ¬ KeepsSize o.mmio request := by
  obtain ⟨reply, hOk, _, hStatus⟩ := hStep
  rw [hStatus]
  exact perform_fsize_dirty_iff h.sound hOk

abbrev SizeKept : Persisted → Request → Persisted → Prop := Guarded (fun o request => KeepsSize o.mmio request) Step

theorem fsize_of_sizeKept (h : o.Steady) (hRun : Run SizeKept o requests o') (hSize : o.status .fsize ≠ .dirty) :
    o'.status .fsize ≠ .dirty := by
  refine (hRun.invariant (fun o => o.Steady ∧ o.status .fsize ≠ .dirty) ?_ ⟨h, hSize⟩).2
  intro o request o' hInv hStep
  refine ⟨hInv.1.step hStep.2, fun hDirty => ?_⟩
  rcases (step_fsize_dirty_iff hInv.1 hStep.2).mp hDirty with hBefore | hStored
  · exact hInv.2 hBefore
  · exact hStored hStep.1

theorem sizeKept_of_fsize (h : o.Steady) (hRun : Run Step o requests o') (hSize : o'.status .fsize ≠ .dirty) :
    o.status .fsize ≠ .dirty ∧ Run SizeKept o requests o' := by
  induction hRun with
  | nil o => exact ⟨hSize, .nil o⟩
  | cons hStep _ ih =>
    obtain ⟨hAfter, hRest⟩ := ih (h.step hStep) hSize
    have hNot := mt (step_fsize_dirty_iff h hStep).mpr hAfter
    rw [not_or, not_not] at hNot
    exact ⟨hNot.1, .cons ⟨hNot.2, hStep⟩ hRest⟩

theorem commit_durable {l : Loc} (hl : l ≠ .epoch) (hStep : Step o .commit o') (hStatus : o.status l ≠ .dirty) :
    o'.status l = .durable := by
  obtain ⟨reply, _, _, hAfter⟩ := hStep
  have hEvents : (performEvents o.mmio o.ids .commit).1 =
      [.store (storeAt .epoch ((o.mmio.epoch + 1) % 2 ^ 64)), .flush fun l => l = .epoch] ++ [.fence] :=
    commitMmioEvents_eq o.mmio o.ids
  rw [hAfter, hEvents, statusAfter_fence, if_neg]
  refine not_dirty_of_spares (fun event hEvent => ?_) hStatus
  rcases List.mem_cons.mp hEvent with rfl | hFlush
  · exact storeAt_data_of_ne hl _
  · rw [List.mem_singleton.mp hFlush]
    trivial

theorem commit_epoch_durable (hStep : Step o .commit o') : o'.status .epoch = .durable := by
  obtain ⟨reply, _, _, hAfter⟩ := hStep
  have hEvents : (performEvents o.mmio o.ids .commit).1 =
      ([.store (storeAt .epoch ((o.mmio.epoch + 1) % 2 ^ 64))] ++ [.flush fun l => l = .epoch]) ++ [.fence] :=
    commitMmioEvents_eq o.mmio o.ids
  rw [hAfter, hEvents, statusAfter_fence, if_neg]
  refine not_dirty_of_flush _ ?_ o.status
  exact decide_eq_true rfl

theorem commit_sameEntries (hStep : Step o .commit o') :
    o'.mmio.radixlog = o.mmio.radixlog ∧ o'.ids = o.ids := by
  obtain ⟨reply, hOk, hIds, _⟩ := hStep
  rw [perform, commitMmio_spec, ok_bind] at hOk
  have hState := congrArg Prod.fst (Except.ok.inj hOk)
  exact ⟨(congrArg Mmio.radixlog hState).symm, hIds⟩

theorem Steady.commit (h : o.Steady) (hStep : Step o .commit o') (hSize : o.status .fsize ≠ .dirty) :
    o'.DurableAtCommit := by
  obtain ⟨hRadix, hIds⟩ := commit_sameEntries hStep
  refine ⟨fun i => commit_durable nofun hStep (h.clean.file i), fun slot e he hLen => ?_, commit_epoch_durable hStep,
    commit_durable nofun hStep hSize⟩
  rw [hRadix] at he
  rw [hIds]
  have hKept := h.clean.kept slot e he hLen
  exact ⟨commit_durable nofun hStep hKept.header, commit_durable nofun hStep hKept.log,
    commit_durable nofun hStep hKept.dst, fun i hi => commit_durable nofun hStep (hKept.bytes i hi)⟩

/-- A commit leaves everything durable exactly where no call has stored `mmio->fsize`. -/
theorem durableAtCommit_iff (hOpen : o.Opened) (hRun : Run Step o (requests ++ [.commit]) o') :
    o'.DurableAtCommit ↔ o.status .fsize ≠ .dirty ∧ Run SizeKept o (requests ++ [.commit]) o' := by
  constructor
  · intro hDurable
    refine sizeKept_of_fsize hOpen.steady hRun ?_
    rw [hDurable.fsize]
    nofun
  · rintro ⟨hSize, hKept⟩
    obtain ⟨mid, hFirst, hLast⟩ := hKept.of_snoc
    have hSteady : mid.Steady :=
      hFirst.invariant Steady (fun _ _ _ h hStep => h.step hStep.2) hOpen.steady
    exact hSteady.commit hLast.2 (fsize_of_sizeKept hOpen.steady hFirst hSize)

theorem step_of_ok {m' : Mmio} {reply : Reply} (hOk : o.mmio.perform request = .ok (m', reply)) :
    Step o request ⟨m', (performEvents o.mmio o.ids request).2,
      statusAfter (performEvents o.mmio o.ids request).1 o.status⟩ := ⟨reply, hOk, rfl, rfl⟩

def oneByte : Persisted := ⟨oneByteFile, fun _ => 0, fun _ => .durable⟩

theorem oneByte_opened : oneByte.Opened := ⟨oneByteFile_opened, fun _ => nofun⟩

theorem exists_commit (o : Persisted) : ∃ o', Step o .commit o' := by
  have hOk := commitMmio_spec o.mmio
  exact ⟨_, step_of_ok (by rw [perform, hOk, ok_bind])⟩

/-- A write of one byte at an offset of the one-byte file. -/
theorem exists_write_byte {off : Nat} (h : off + 1 ≤ 2 ^ pageShift) : ∃ m' slot e,
    mmioWrite true (fun _ => 2 ^ 21) oneByte.mmio off (fun _ => 1) 1 = .ok (m', 1) ∧
      oneByte.mmio.perform (.write true (fun _ => 2 ^ 21) off (fun _ => 1) 1) = .ok (m', .wrote 1) ∧
      m'.radixlog.entryAt slot = some e ∧ 0 < e.len := by
  have hNotRedo : oneByteFile.policy ≠ .redo := by decide
  obtain ⟨_, slot, s, _, e₁, e, m', hWrite, hStages⟩ := mmioWrite_stages (fun _ => 2 ^ 21) (fun _ => 1)
    oneByteFile_opened.tidy (fun hRedo => absurd hRedo hNotRedo) (inBlock_of_le_page oneByteFile h)
    (fun hRedo => absurd hRedo hNotRedo) Nat.zero_lt_one
  refine ⟨m', slot, e, hWrite, ?_, ?_, ?_⟩
  · rw [perform, show oneByte.mmio = oneByteFile from rfl, hWrite]
    rfl
  · rw [hStages.result]
    exact entryAt_setEntry_self _ _ _
  · have hExtent := (oneByteFile_opened.first_entry hStages Nat.zero_lt_one).2
    have hLen : e.len = 1 := congrArg Extent.len hExtent
    omega

/-- A write inside the file, then `fsync`. -/
theorem durableAtCommit_oneByte : ∃ o' slot e,
    Run Step oneByte ([.write true (fun _ => 2 ^ 21) 0 (fun _ => 1) 1] ++ [.commit]) o' ∧
      o'.mmio.radixlog.entryAt slot = some e ∧ 0 < e.len ∧ o'.DurableAtCommit := by
  obtain ⟨m', slot, e, hWrite, hOk, hEntry, hLen⟩ := exists_write_byte (show 0 + 1 ≤ 2 ^ pageShift by decide)
  have hFirst := step_of_ok hOk
  obtain ⟨o', hCommit⟩ := exists_commit ⟨m', _, _⟩
  have hKeeps : KeepsSize oneByte.mmio (.write true (fun _ => 2 ^ 21) 0 (fun _ => 1) 1) := by
    rw [KeepsSize, ← mmioWrite_ret oneByte_opened.steady.sound hWrite]
    decide
  have hRun : Run Step oneByte ([.write true (fun _ => 2 ^ 21) 0 (fun _ => 1) 1] ++ [.commit]) o' :=
    .cons hFirst (.cons hCommit (.nil o'))
  refine ⟨o', slot, e, hRun, ?_, hLen, (durableAtCommit_iff oneByte_opened hRun).mpr ⟨nofun, ?_⟩⟩
  · rw [(commit_sameEntries hCommit).1]
    exact hEntry
  · exact .cons ⟨hKeeps, hFirst⟩ (.cons ⟨trivial, hCommit⟩ (.nil o'))

/-- A write that lengthens the file, then `fsync`. -/
theorem durableAtCommit_fails_after_growth : ∃ o',
    Run Step oneByte ([.write true (fun _ => 2 ^ 21) 1 (fun _ => 1) 1] ++ [.commit]) o' ∧ ¬ o'.DurableAtCommit := by
  obtain ⟨m', _, _, hWrite, hOk, _, _⟩ := exists_write_byte (show 1 + 1 ≤ 2 ^ pageShift by decide)
  have hFirst := step_of_ok hOk
  have hGrows : ¬ KeepsSize oneByte.mmio (.write true (fun _ => 2 ^ 21) 1 (fun _ => 1) 1) := by
    rw [KeepsSize, ← mmioWrite_ret oneByte_opened.steady.sound hWrite]
    decide
  have hDirty := (step_fsize_dirty_iff oneByte_opened.steady hFirst).mpr (.inr hGrows)
  obtain ⟨o', hCommit⟩ := exists_commit ⟨m', _, _⟩
  refine ⟨o', .cons hFirst (.cons hCommit (.nil _)), fun hDurable => ?_⟩
  have hStill := (step_fsize_dirty_iff (oneByte_opened.steady.step hFirst) hCommit).mpr (.inl hDirty)
  rw [hDurable.fsize] at hStill
  cases hStill

end Persisted

end Libnvmmio.Persistence

import Libnvmmio.Persistence.Durable

/-! # What a crash leaves of a write

The log of a piece and the header that covers it are stored without a fence
between them. So a crash may leave the new header over a log that has not
arrived, whichever block is written and whatever its entry was before.
-/

namespace Libnvmmio.Persistence

open PersistentMemory RangeCopy RadixLog Mmio Outcome GuardedRun

set_option autoImplicit false

/-! ## No fence in an iteration -/

def Unfenced (events : List MemoryEvent) : Prop := ∀ event ∈ events, event ≠ .fence

theorem unfenced_storePiece (m : Mmio) (buf : Nat → UInt8) (k : Nat) (e : IdxEntry) (c : Cursor) :
    Unfenced (storePieceEvents m buf k e c) := by
  intro event hEvent hFence
  cases hFence ▸ pieceEvents_storePiece m buf k e c event hEvent

/-! ## The crash after an iteration -/

abbrev PendingStores := Pending Loc.Val Loc.word

/-- The header words keep all that is pending, the bytes of the logs nothing. -/
def headersOnly (p : PendingStores) : Loc → Nat
  | .byte _ _ => 0
  | _ => p.stores.length

/-- The surviving header of entry `k` covers a byte whose latest store is lost. -/
def HeaderAhead (p : PendingStores) (keep : Loc → Nat) (k i : Nat) : Prop :=
  (p.survive keep (.header k)).extent.Covers i ∧ ¬ p.LatestSurvives keep (.byte (.log k) i)

section Crash

variable {m m' m₁ m₂ : Mmio} {ids : Slot → Nat} {slot : Slot} {e : IdxEntry} {buf : Nat → UInt8} {c c' : Cursor}
  {p : PendingStores}

/-- After the iteration on a slot a crash may keep the header and lose the piece. -/
theorem writeEntry_headerAhead (hMem : Reflects p.current m ids)
    (hFits : ∀ e, m.radixlog.entryAt slot = some e → Fits e) (hPos : 0 < c.n)
    (hOk : m.writeEntry buf slot c = .ok (m', c')) :
    ∃ keep i, HeaderAhead (Pending.after (writeEntryEvents m buf (ids slot) slot c) p) keep (ids slot) i := by
  have hAfter := writeEntry_reflects hMem hOk
  generalize hEvents : writeEntryEvents m buf (ids slot) slot c = events at hAfter ⊢
  obtain ⟨e, m₁, e₁, e₂, hEntry, hRetire, hPiece, rfl⟩ := writeEntry_parts hOk
  rw [writeEntryEvents_eq hEntry hRetire] at hEvents
  have hHeader := storePiece_header hPiece (retireStale_fits hRetire (hFits e hEntry)) (ids slot)
  obtain ⟨hLow, _⟩ := pieceLen_fits e₁ c
  have hLen : 0 < pieceLen e₁ c := by
    rw [pieceLen]
    split
    · omega
    · exact hPos
  have hCovers : (⟨c.off % e₁.logSize.size, pieceLen e₁ c⟩ : Extent).Covers (c.off % e₁.logSize.size) :=
    ⟨Nat.le_refl _, Nat.lt_add_of_pos_right hLen⟩
  refine ⟨headersOnly (Pending.after events p), c.off % e₁.logSize.size, ?_, ?_⟩
  · -- all stores to the header are kept, so it is the header of the new entry
    have hLatest : (Pending.after events p).LatestSurvives (headersOnly (Pending.after events p))
        (.header (ids slot)) := Pending.latestSurvives_of_le (Nat.le_refl _)
    rw [Pending.survive_eq_current hLatest, Pending.current_after,
      (hAfter.entries slot e₂ (entryAt_setEntry_self _ _ _)).header]
    exact hHeader.piece _ hCovers
  · -- the piece is pending, since the last fence came before it
    obtain ⟨s, hMemS, hData⟩ := (logPiece_logs m₁ buf (ids slot) c.dst c.src _ _ hCovers).left.left
    have hPending : s ∈ (Pending.after events p).stores := by
      rw [← hEvents, Pending.after_append]
      exact Pending.mem_stores_after (unfenced_storePiece m₁ buf (ids slot) e₁ c) (.inr ⟨_, hMemS, rfl⟩)
    exact Pending.not_latestSurvives_of_zero hPending hData rfl

theorem lockEntries_ne_nil {type : LockType} {n : Int} {off : Nat} {head : List Slot} (hSound : m.radixlog.Sound)
    (hPos : 0 < n) (hLock : lockEntries type m n off [] = .ok (m₁, head)) : head ≠ [] := by
  rw [lockEntries_eq, if_pos hPos, if_neg (List.not_mem_nil)] at hLock
  obtain ⟨new, rfl, _⟩ := (lockEntries_run (lockStep hSound off n.toNat).acquires.sound hLock).pushed
  exact List.append_ne_nil_of_right_ne_nil _ (List.cons_ne_nil _ _)

/-- A write that touches a block can be cut so that a header is ahead of its log. -/
theorem grownWrite_headerAhead (hSound : m.radixlog.Sound) (hMem : Reflects p.current m ids)
    (hFits : ∀ slot e, m.radixlog.entryAt slot = some e → Fits e) {offset : Nat} (len : Nat) {n : Int}
    {head : List Slot} (hPos : 0 < n) (hLock : lockEntries .wr m n offset [] = .ok (m₁, head))
    (hWrite : m₁.writeEntries buf head ⟨n.toNat, offset, m₁.start + offset, 0, 0⟩ = .ok (m₂, c)) :
    ∃ before rest keep i, ∃ slot ∈ head, (grownWriteEvents m ids offset buf len n).1 = before ++ rest ∧
      HeaderAhead (Pending.after before p) keep ((grownWriteEvents m ids offset buf len n).2 slot) i := by
  have hClean : Clean (fun _ => .durable) m ids :=
    ⟨hMem.toNumbered, fun _ => nofun, hFits, fun _ _ _ _ => ⟨nofun, nofun, nofun, fun _ _ => nofun⟩⟩
  have hLocked := lockEntries_clean hSound hClean hLock
  have hReflects := lockEntries_reflects hSound hMem hLock
  rw [grownWriteEvents_eq hLock]
  dsimp only
  generalize lockEntriesEvents m ids n offset [] = locking at hLocked hReflects ⊢
  cases head with
  | nil => exact absurd rfl (lockEntries_ne_nil hSound hPos hLock)
  | cons slot slots =>
    obtain ⟨⟨m₃, c₃⟩, hHead, _⟩ := bind_eq_ok hWrite
    rw [← Pending.current_after] at hReflects
    obtain ⟨keep, i, hAhead⟩ := writeEntry_headerAhead hReflects (hLocked.fits slot) (by dsimp only; omega) hHead
    rw [← Pending.after_append] at hAhead
    obtain ⟨rest, hSplit⟩ : ∃ rest, lockedWriteEvents m₁ locking.2 (slot :: slots) offset buf len
        ⟨n.toNat, offset, m₁.start + offset, 0, 0⟩ = writeEntryEvents m₁ buf (locking.2 slot) slot
          ⟨n.toNat, offset, m₁.start + offset, 0, 0⟩ ++ rest :=
      ⟨_, by rw [lockedWriteEvents, writeEntriesEvents, List.append_assoc]⟩
    refine ⟨_, rest, keep, i, slot, List.mem_cons_self, ?_, hAhead⟩
    rw [hSplit, List.append_assoc]

end Crash

/-! ## Every crash point of a call -/

/-- In every image that a crash during the write can leave, the header of each entry that the
call touches covers only log bytes whose latest store has survived, and it covers what it
covered in the durable memory before the call. -/
structure LogBeforeIndex (p : PendingStores) (m : Mmio) (ids : Slot → Nat) (fdWritable : Bool)
    (remap : Nat → Nat) (offset : Nat) (buf : Nat → UInt8) (len : Nat) : Prop where
  logged : ∀ before rest keep i, ∀ slot ∈ m.writtenSlots remap offset len,
    (mmioWriteEvents fdWritable remap m ids offset buf len).1 = before ++ rest →
      ((Pending.after before p).survive keep
        (.header ((mmioWriteEvents fdWritable remap m ids offset buf len).2 slot))).extent.Covers i →
      (Pending.after before p).LatestSurvives keep
        (.byte (.log ((mmioWriteEvents fdWritable remap m ids offset buf len).2 slot)) i)
  kept : ∀ before rest keep i e, ∀ slot ∈ m.writtenSlots remap offset len,
    (mmioWriteEvents fdWritable remap m ids offset buf len).1 = before ++ rest →
      m.radixlog.entryAt slot = some e → (p.base (.header (ids slot))).extent.Covers i →
        ((Pending.after before p).survive keep (.header (ids slot))).extent.Covers i

section Calls

variable {m₀ m m' : Mmio} {history : List Request} {p : PendingStores} {ids : Slot → Nat} {fdWritable : Bool}
  {remap : Nat → Nat} {offset len n : Nat} {buf : Nat → UInt8}

theorem fits_of_run (hOpen : m₀.Opened) (hRun : Requests m₀ history m) :
    m.radixlog.Sound ∧ ∀ slot e, m.radixlog.entryAt slot = some e → Fits e := by
  have hFirst : Clean (fun _ => .durable) m₀ (fun _ => 0) := clean_of_no_entry hOpen.no_entry _ fun _ => nofun
  have hInv := hRun.invariant (fun m => m.radixlog.Sound ∧ ∃ status ids, Clean status m ids) (by
    rintro m request m' ⟨hSound, status, ids, hClean⟩ ⟨reply, hOk⟩
    exact ⟨(perform_extends hSound hOk).1, _, _, perform_clean hSound hClean hOk⟩) ⟨hOpen.sound, _, _, hFirst⟩
  obtain ⟨hSound, _, _, hClean⟩ := hInv
  exact ⟨hSound, hClean.fits⟩

/-- A write that touches a block has a crash point at which a header is ahead of its log. -/
theorem mmioWrite_headerAhead (hSound : m.radixlog.Sound) (hMem : Reflects p.current m ids)
    (hFits : ∀ slot e, m.radixlog.entryAt slot = some e → Fits e) (hPos : 0 < toInt len)
    (hOk : mmioWrite fdWritable remap m offset buf len = .ok (m', n)) :
    ∃ before rest keep i, ∃ slot ∈ m.writtenSlots remap offset len,
      (mmioWriteEvents fdWritable remap m ids offset buf len).1 = before ++ rest ∧
      HeaderAhead (Pending.after before p) keep
        ((mmioWriteEvents fdWritable remap m ids offset buf len).2 slot) i := by
  obtain ⟨m₀, m₁, head, m₂, c, hGrow, hLock, hWrite, _, rfl⟩ := mmioWrite_phases hOk
  rw [mmioWriteEvents_eq hGrow]
  have hGrown := ensureMapped_eq_ok hGrow
  subst hGrown
  have hSlots : m.writtenSlots remap offset len = head := congrArg heldSlots hLock
  have hMem₀ : Reflects p.current (m.grown remap (offset + len)) ids :=
    hMem.same ⟨grown_bytes m remap _, rfl, rfl, fun _ => rfl, rfl, rfl⟩
  rw [hSlots]
  exact grownWrite_headerAhead (m := m.grown remap (offset + len)) hSound hMem₀ hFits len hPos hLock hWrite

theorem writtenSlots_of_not_pos (m : Mmio) (remap : Nat → Nat) (offset : Nat) (hNot : ¬ 0 < toInt len) :
    m.writtenSlots remap offset len = [] := by
  rw [writtenSlots, lockEntries_eq, if_neg hNot]
  rfl

theorem not_logBeforeIndex_of_headerAhead (h : ∃ before rest keep i, ∃ slot ∈ m.writtenSlots remap offset len,
      (mmioWriteEvents fdWritable remap m ids offset buf len).1 = before ++ rest ∧
      HeaderAhead (Pending.after before p) keep
        ((mmioWriteEvents fdWritable remap m ids offset buf len).2 slot) i) :
    ¬ LogBeforeIndex p m ids fdWritable remap offset buf len := by
  obtain ⟨before, rest, keep, i, slot, hSlot, hEvents, hCovers, hLost⟩ := h
  intro hSafe
  exact hLost (hSafe.logged before rest keep i slot hSlot hEvents hCovers)

/-- The log is before the index only for a write that touches no block. -/
theorem logBeforeIndex_iff (hOpen : m₀.Opened) (hRun : Requests m₀ history m) (hMem : Reflects p.current m ids)
    (hOk : mmioWrite fdWritable remap m offset buf len = .ok (m', n)) :
    LogBeforeIndex p m ids fdWritable remap offset buf len ↔ toInt len ≤ 0 := by
  obtain ⟨hSound, hFits⟩ := fits_of_run hOpen hRun
  constructor
  · intro hSafe
    by_contra hPos
    exact not_logBeforeIndex_of_headerAhead (mmioWrite_headerAhead hSound hMem hFits (Int.not_le.mp hPos) hOk) hSafe
  · intro hNot
    have hNone := writtenSlots_of_not_pos m remap offset (Int.not_lt.mpr hNot)
    refine ⟨fun _ _ _ _ slot hSlot => ?_, fun _ _ _ _ _ slot hSlot => ?_⟩
    · rw [hNone] at hSlot
      cases hSlot
    · rw [hNone] at hSlot
      cases hSlot

def openedMemory (m : Mmio) : Memory
  | .byte .file i => m.disk.bytes i
  | .byte (.log k) i => m.logPool k i
  | .header _ => Header.zero
  | .log _ => none
  | .dst _ => (0 : Nat)
  | .logSize _ => LogSize.log4K
  | .epoch => m.epoch
  | .fsize => m.fsize

theorem openedMemory_reflects (hOpen : m.Opened) (ids : Slot → Nat) : Reflects (openedMemory m) m ids := by
  refine ⟨numbered_of_no_entry hOpen.no_entry ids, fun _ => rfl, rfl, rfl, fun slot e he => ?_,
    fun k _ => ⟨rfl, rfl, fun _ => rfl⟩⟩
  rw [hOpen.no_entry] at he
  cases he

def oneByteOpened : PendingStores := ⟨openedMemory oneByteFile, []⟩

theorem oneByteOpened_reflects : Reflects oneByteOpened.current oneByteFile (fun _ => 0) :=
  openedMemory_reflects oneByteFile_opened _

theorem exists_write_oneByte :
    ∃ m' n, mmioWrite true (fun _ => 2 ^ 21) oneByteFile 0 (fun _ => 1) 1 = .ok (m', n) := by
  have hNotRedo : oneByteFile.policy ≠ .redo := by decide
  obtain ⟨_, _, _, _, _, _, m', hOk, _⟩ := mmioWrite_stages (fun _ => 2 ^ 21) (fun _ => 1)
    oneByteFile_opened.tidy (fun hRedo => absurd hRedo hNotRedo)
    (inBlock_of_le_page oneByteFile (show 0 + 1 ≤ 2 ^ pageShift by decide))
    (fun hRedo => absurd hRedo hNotRedo) Nat.zero_lt_one
  exact ⟨m', 1, hOk⟩

/-- The write of no byte meets the condition, and the write of one byte does not. -/
theorem logBeforeIndex_emptyWrite :
    (∃ m' n, mmioWrite true (fun _ => 2 ^ 21) oneByteFile 0 (fun _ => 1) 0 = .ok (m', n) ∧
      LogBeforeIndex oneByteOpened oneByteFile (fun _ => 0) true (fun _ => 2 ^ 21) 0 (fun _ => 1) 0) ∧
    ∃ m' n, mmioWrite true (fun _ => 2 ^ 21) oneByteFile 0 (fun _ => 1) 1 = .ok (m', n) ∧
      (LogBeforeIndex oneByteOpened oneByteFile (fun _ => 0) true (fun _ => 2 ^ 21) 0 (fun _ => 1) 1 ↔
        toInt 1 ≤ 0) := by
  constructor
  · have hOk := mmioWrite_zero oneByteFile (fun _ => 2 ^ 21) 0 (fun _ => 1)
    refine ⟨_, _, hOk, ?_⟩
    exact (logBeforeIndex_iff oneByteFile_opened (.nil _) oneByteOpened_reflects hOk).mpr (by decide)
  · obtain ⟨m', n, hOk⟩ := exists_write_oneByte
    exact ⟨m', n, hOk, logBeforeIndex_iff oneByteFile_opened (.nil _) oneByteOpened_reflects hOk⟩

/-- The first write of one byte to a file. -/
theorem logBeforeIndex_fails_oneByte :
    ∃ m' n, mmioWrite true (fun _ => 2 ^ 21) oneByteFile 0 (fun _ => 1) 1 = .ok (m', n) ∧
      ¬ LogBeforeIndex oneByteOpened oneByteFile (fun _ => 0) true (fun _ => 2 ^ 21) 0 (fun _ => 1) 1 := by
  obtain ⟨m', n, hOk⟩ := exists_write_oneByte
  obtain ⟨hSound, hFits⟩ := fits_of_run oneByteFile_opened (.nil _)
  have hPos : 0 < toInt 1 := by decide
  exact ⟨m', n, hOk, not_logBeforeIndex_of_headerAhead
    (mmioWrite_headerAhead hSound oneByteOpened_reflects hFits hPos hOk)⟩

end Calls

end Libnvmmio.Persistence

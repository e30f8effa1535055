import Libnvmmio.Persistence.PieceStores

/-! # What is durable when `commit_mmio` returns

Plain stores go to fields only, and each field that a commit answers for is
flushed by the call that stores it, except `mmio->fsize`. The fence of the commit
makes durable whatever is not dirty by then.
-/

namespace Libnvmmio.Persistence

open PersistentMemory RangeCopy RadixLog Mmio Outcome GuardedRun

set_option autoImplicit false

/-! ## The kinds of events -/

inductive Usual : MemoryEvent → Prop where
  | field (l : Loc) (v : l.Val) (hByte : ∀ r i, l ≠ .byte r i) (hSize : l ≠ .fsize) : Usual (.store (storeAt l v))
  | range (r : Region) (pos : Nat) (src : Nat → UInt8) (srcPos n : Nat) : Usual (.ntstore (storeRange r pos src srcPos n))
  | flushEntry (k : Nat) : Usual (flushEntry k)
  | flushEpoch : Usual (.flush fun l => l = .epoch)
  | fence : Usual .fence

theorem Usual.spares_byte {event : MemoryEvent} (h : Usual event) (r : Region) (i : Nat) :
    event.Spares (.byte r i) := by
  cases h with
  | field l v hByte _ => exact storeAt_data_of_ne (hByte r i).symm v
  | _ => trivial

theorem Usual.spares_fsize {event : MemoryEvent} (h : Usual event) : event.Spares .fsize := by
  cases h with
  | field l v _ hSize => exact storeAt_data_of_ne hSize.symm v
  | _ => trivial

theorem Usual.leaves_fsize {event : MemoryEvent} (h : Usual event) : event.Leaves .fsize := by
  cases h with
  | flushEntry k => exact rfl
  | flushEpoch => exact rfl
  | _ => trivial

def AllUsual (events : List MemoryEvent) : Prop := ∀ event ∈ events, Usual event

section Usual

variable {events events' : List MemoryEvent} {m : Mmio}

theorem allUsual_nil : AllUsual [] := fun _ h => by cases h

theorem AllUsual.append (h : AllUsual events) (h' : AllUsual events') : AllUsual (events ++ events') :=
  fun event hEvent => (List.mem_append.mp hEvent).elim (h event) (h' event)

theorem AllUsual.cons {event : MemoryEvent} (hEvent : Usual event) (h : AllUsual events) :
    AllUsual (event :: events) := fun _ hMem => (List.mem_cons.mp hMem).elim (fun hEq => hEq ▸ hEvent) (h _)

theorem allUsual_field (l : Loc) (v : l.Val) (hByte : ∀ r i, l ≠ .byte r i) (hSize : l ≠ .fsize) :
    AllUsual [.store (storeAt l v)] := allUsual_nil.cons (.field l v hByte hSize)

theorem allUsual_headerStores (k : Nat) (es : List IdxEntry) : AllUsual (headerStores k es) := by
  induction es with
  | nil => exact allUsual_nil
  | cons e es ih => exact ih.cons (.field (.header k) (IdxEntry.header e) nofun nofun)

theorem allUsual_takeEntry (m : Mmio) (ids : Slot → Nat) (slot : Slot) (s : LogSize) :
    AllUsual (takeEntryEvents m ids slot s).1 := by
  unfold takeEntryEvents
  split
  · exact allUsual_field (.logSize (ids slot)) s nofun nofun
  · have hLog := allUsual_field (.log m.nextLog) (some m.nextLog) nofun nofun
    exact (hLog.append (allUsual_headerStores _ _)).append (allUsual_field (.logSize m.nextLog) s nofun nofun)

theorem allUsual_lockEntries {m' : Mmio} {ids : Slot → Nat} (hSound : m.radixlog.Sound) {type : LockType}
    {n : Int} {off : Nat} {head head' : List Slot} (hRun : lockEntries type m n off head = .ok (m', head')) :
    AllUsual (lockEntriesEvents m ids n off head).1 :=
  lockEntries_keeps (P := fun events _ _ => AllUsual events) (fun _ _ _ _ _ h => h)
    (fun _ m ids slot s _ _ h => h.append (allUsual_takeEntry m ids slot s)) hSound allUsual_nil hRun

theorem allUsual_storeRedo (m : Mmio) (e : IdxEntry) : AllUsual (storeRedoEvents m e) := by
  unfold storeRedoEvents
  cases e.policy with
  | undo => exact allUsual_nil
  | redo => exact (allUsual_nil.cons .fence).cons (.range ..)

theorem allUsual_retireStale (m : Mmio) (k : Nat) (e : IdxEntry) : AllUsual (retireStaleEvents m k e) := by
  unfold retireStaleEvents
  split
  · refine ((allUsual_storeRedo m e).append (allUsual_headerStores k _)).append ?_
    exact (allUsual_nil.cons .fence).cons (.flushEntry k)
  · exact allUsual_nil

theorem PieceEvent.usual {k : Nat} {event : MemoryEvent} (h : PieceEvent k event) : Usual event := by
  cases h with
  | header e => exact .field (.header k) (IdxEntry.header e) nofun nofun
  | dst v => exact .field (.dst k) v nofun nofun
  | log pos src srcPos n => exact .range ..
  | flush => exact .flushEntry k

theorem allUsual_storePiece (m : Mmio) (buf : Nat → UInt8) (k : Nat) (e : IdxEntry) (c : Cursor) :
    AllUsual (storePieceEvents m buf k e c) :=
  fun event hEvent => (pieceEvents_storePiece m buf k e c event hEvent).usual

theorem allUsual_writeEntry (m : Mmio) (buf : Nat → UInt8) (k : Nat) (slot : Slot) (c : Cursor) :
    AllUsual (writeEntryEvents m buf k slot c) := by
  unfold writeEntryEvents
  split
  · exact allUsual_nil
  · refine (allUsual_retireStale m k _).append ?_
    split
    · exact allUsual_storePiece _ _ _ _ _
    · exact allUsual_nil

theorem allUsual_writeEntries (buf : Nat → UInt8) (ids : Slot → Nat) (slots : List Slot) :
    ∀ (m : Mmio) (c : Cursor), AllUsual (writeEntriesEvents m buf ids slots c) := by
  induction slots with
  | nil => exact fun _ _ => allUsual_nil
  | cons slot slots ih =>
    intro m c
    refine (allUsual_writeEntry m buf (ids slot) slot c).append ?_
    split
    · exact ih _ _
    · exact allUsual_nil

theorem allUsual_updateFile (m : Mmio) (offset : Nat) (buf : Nat → UInt8) (len : Nat) :
    AllUsual (updateFileEvents m offset buf len) := by
  unfold updateFileEvents
  cases m.policy with
  | undo => exact (allUsual_nil.cons .fence).cons (.range ..)
  | redo => exact allUsual_nil

theorem allUsual_checkpointSlot (currentEpoch : Nat) (m : Mmio) (ids : Slot → Nat) (slot : Slot) :
    AllUsual (checkpointSlotEvents currentEpoch m ids slot) := by
  unfold checkpointSlotEvents
  split
  · exact allUsual_nil
  · split
    · have hLog := allUsual_field (.log (ids slot)) none nofun nofun
      have hHeader := allUsual_field (.header (ids slot)) Header.zero nofun nofun
      have hDst := allUsual_field (.dst (ids slot)) (0 : Nat) nofun nofun
      exact (allUsual_storeRedo m _).append (hLog.append (hHeader.append hDst))
    · exact allUsual_nil

theorem allUsual_commitMmio (m : Mmio) (ids : Slot → Nat) : AllUsual (commitMmioEvents m ids) := by
  rw [commitMmioEvents_eq]
  exact ((allUsual_nil.cons .fence).cons .flushEpoch).cons (.field .epoch _ nofun nofun)

def sizeStore (m : Mmio) (length : Nat) : List MemoryEvent :=
  if m.fsize < length then [.store (storeAt .fsize length)] else []

theorem grownWrite_usual {m₁ m₂ : Mmio} (ids : Slot → Nat) {offset : Nat} (len : Nat) {n : Int} {buf : Nat → UInt8}
    {head : List Slot} {c : Cursor} (hSound : m.radixlog.Sound)
    (hLock : lockEntries .wr m n offset [] = .ok (m₁, head))
    (hWrite : m₁.writeEntries buf head ⟨n.toNat, offset, m₁.start + offset, 0, 0⟩ = .ok (m₂, c)) :
    ∃ events, AllUsual events ∧
      (grownWriteEvents m ids offset buf len n).1 = events ++ sizeStore m (offset + c.ret) := by
  have hSize : m₂.fsize = m.fsize := by
    obtain ⟨r, k, rfl⟩ := (lockEntries_run hSound hLock).frame
    obtain ⟨r', bytes, rfl⟩ := (writeEntries_written (lockEntries_run hSound hLock).acquires.sound hWrite).frame
    rfl
  refine ⟨(lockEntriesEvents m ids n offset []).1 ++ (writeEntriesEvents m₁ buf
    (lockEntriesEvents m ids n offset []).2 head ⟨n.toNat, offset, m₁.start + offset, 0, 0⟩ ++
      .fence :: updateFileEvents m₂ offset buf len), ?_, ?_⟩
  · exact (allUsual_lockEntries hSound hLock).append
      ((allUsual_writeEntries _ _ _ _ _).append ((allUsual_updateFile _ _ _ _).cons .fence))
  · rw [grownWriteEvents_eq hLock, lockedWriteEvents, hWrite]
    dsimp only
    rw [finishWriteEvents, sizeStore, hSize, List.append_assoc, List.append_assoc]

end Usual

/-! ## Nothing that a commit answers for is dirty -/

/-- What a commit answers for of an entry that holds data is not dirty. -/
structure Kept (status : Loc → Status) (k : Nat) (e : IdxEntry) : Prop where
  header : status (.header k) ≠ .dirty
  log : status (.log k) ≠ .dirty
  dst : status (.dst k) ≠ .dirty
  bytes : ∀ i, e.extent.Covers i → status (.byte (.log k) i) ≠ .dirty

/-- The same for the file and for all entries; `mmio->epoch` and `mmio->fsize` are left out. -/
structure Clean (status : Loc → Status) (m : Mmio) (ids : Slot → Nat) : Prop extends Numbered m ids where
  file : ∀ i, status (.byte .file i) ≠ .dirty
  fits : ∀ slot e, m.radixlog.entryAt slot = some e → Fits e
  kept : ∀ slot e, m.radixlog.entryAt slot = some e → 0 < e.len → Kept status (ids slot) e

theorem clean_of_no_entry {status : Loc → Status} {m : Mmio} (hNone : ∀ slot, m.radixlog.entryAt slot = none)
    (ids : Slot → Nat) (hFile : ∀ i, status (.byte .file i) ≠ .dirty) : Clean status m ids := by
  refine ⟨numbered_of_no_entry hNone ids, hFile, fun slot e he => ?_, fun slot e he => ?_⟩
  · rw [hNone] at he
    cases he
  · rw [hNone] at he
    cases he

section Entry

variable {status status' : Loc → Status} {k : Nat} {e e' : IdxEntry} {m m' : Mmio} {ids : Slot → Nat} {slot : Slot}
  {buf : Nat → UInt8} {c c' : Cursor}

theorem Kept.transfer (h : Kept status k e)
    (hStatus : ∀ l : Loc, l.object = some k → status l ≠ .dirty → status' l ≠ .dirty) : Kept status' k e where
  header := hStatus _ rfl h.header
  log := hStatus _ rfl h.log
  dst := hStatus _ rfl h.dst
  bytes i hi := hStatus _ rfl (h.bytes i hi)

theorem AllUsual.byte_not_dirty {events : List MemoryEvent} (h : AllUsual events) {r : Region} {i : Nat}
    (hStatus : status (.byte r i) ≠ .dirty) : statusAfter events status (.byte r i) ≠ .dirty :=
  not_dirty_of_spares (fun event hEvent => (h event hEvent).spares_byte r i) hStatus

theorem Logs.not_dirty {events : List MemoryEvent} {i : Nat} (hLogs : Logs events k i) (h : AllUsual events)
    (status : Loc → Status) : statusAfter events status (.byte (.log k) i) ≠ .dirty := by
  obtain ⟨s, hMem, hData⟩ := hLogs
  exact not_dirty_of_ntstore hMem hData (fun event hEvent => (h event hEvent).spares_byte _ i) status

theorem flushEntry_not_dirty (events : List MemoryEvent) {l : Loc}
    (hl : l = .header k ∨ l = .log k ∨ l = .dst k ∨ l = .logSize k) (status : Loc → Status) :
    statusAfter (events ++ [flushEntry k]) status l ≠ .dirty :=
  not_dirty_of_flush events (decide_eq_true hl) status

/-- After an iteration the header is flushed and all that it covers was stored or was clean. -/
theorem storePiece_kept (h : m.storePiece buf e c = .ok (e', c')) (hFits : Fits e)
    (hBytes : ∀ i, e.extent.Covers i → status (.byte (.log k) i) ≠ .dirty) :
    Fits e' ∧ Kept (statusAfter (storePieceEvents m buf k e c) status) k e' := by
  have hHeader := storePiece_header h hFits k
  have hUsual := allUsual_storePiece m buf k e c
  refine ⟨hHeader.fits, ?_, ?_, ?_, fun i hi => ?_⟩
  · exact flushEntry_not_dirty _ (.inl rfl) status
  · exact flushEntry_not_dirty _ (.inr (.inl rfl)) status
  · exact flushEntry_not_dirty _ (.inr (.inr (.inl rfl))) status
  · rcases hHeader.covered i hi with hPiece | hOld | hGap
    · exact ((logPiece_logs m buf k c.dst c.src _ _ hPiece).left.left).not_dirty hUsual status
    · exact hUsual.byte_not_dirty (hBytes i hOld)
    · exact (hGap.right.left).not_dirty hUsual status

theorem Within.not_dirty {events : List MemoryEvent} (h : Within k events) {l : Loc} (hl : l.object ≠ some k)
    (hStatus : status l ≠ .dirty) : statusAfter events status l ≠ .dirty :=
  not_dirty_of_spares (fun event hEvent => (h l hl event hEvent).spares) hStatus

theorem storeRedo_not_dirty (m : Mmio) (e : IdxEntry) {l : Loc} (hStatus : status l ≠ .dirty) :
    statusAfter (storeRedoEvents m e) status l ≠ .dirty := by
  refine not_dirty_of_spares (fun event hEvent => ?_) hStatus
  unfold storeRedoEvents at hEvent
  cases hPolicy : e.policy with
  | undo =>
    rw [hPolicy] at hEvent
    cases hEvent
  | redo =>
    rw [hPolicy] at hEvent
    rcases List.mem_cons.mp hEvent with rfl | hFence
    · trivial
    · rw [List.mem_singleton.mp hFence]
      trivial

theorem Clean.same (h : Clean status m ids) (hEntries : ∀ slot, m'.radixlog.entryAt slot = m.radixlog.entryAt slot)
    (hNext : m'.nextLog = m.nextLog) : Clean status m' ids where
  toNumbered := h.toNumbered.same hEntries hNext
  file := h.file
  fits slot e he := h.fits slot e ((hEntries slot).symm.trans he)
  kept slot e he := h.kept slot e ((hEntries slot).symm.trans he)

/-- The status changes only where a commit is answerable for nothing, or for the better. -/
theorem Clean.transfer (h : Clean status m ids)
    (hStatus : ∀ l, l ≠ .epoch → l ≠ .fsize → status l ≠ .dirty → status' l ≠ .dirty) : Clean status' m ids where
  toNumbered := h.toNumbered
  file i := hStatus _ nofun nofun (h.file i)
  fits := h.fits
  kept slot e he hLen := (h.kept slot e he hLen).transfer fun l hl => by
    refine hStatus l ?_ ?_
    · rintro rfl
      cases hl
    · rintro rfl
      cases hl

theorem Clean.setEntry (h : Clean status m ids) (hEntry : m.radixlog.entryAt slot = some e) (hFits : Fits e')
    (hKept : 0 < e'.len → Kept status' (ids slot) e')
    (hOther : ∀ l : Loc, l.object ≠ some (ids slot) → status l ≠ .dirty → status' l ≠ .dirty) :
    Clean status' { m with radixlog := m.radixlog.setEntry slot (some e') } ids where
  toNumbered := h.toNumbered.setEntry hEntry e'
  file i := hOther _ nofun (h.file i)
  fits p x hx := by
    dsimp only at hx
    rw [entryAt_setEntry] at hx
    split at hx
    · cases hx
      exact hFits
    · exact h.fits p x hx
  kept p x hx hLen := by
    dsimp only at hx
    rw [entryAt_setEntry] at hx
    split at hx
    · rename_i hp
      cases hx
      rw [hp]
      exact hKept hLen
    · rename_i hp
      have hne : ids p ≠ ids slot := fun hEq => hp (h.distinct p slot x e hx hEntry hEq)
      refine (h.kept p x hx hLen).transfer fun l hl => hOther l ?_
      rw [hl]
      exact fun hEq => hne (Option.some.inj hEq)

theorem Clean.clear (h : Clean status m ids) (hEntry : m.radixlog.entryAt slot = some e)
    (hOther : ∀ l : Loc, l.object ≠ some (ids slot) → status l ≠ .dirty → status' l ≠ .dirty) :
    Clean status' { m with radixlog := m.radixlog.setEntry slot none } ids where
  toNumbered := h.toNumbered.clear slot
  file i := hOther _ nofun (h.file i)
  fits p x hx := h.fits p x (entryAt_cleared hx).2
  kept p x hx hLen := by
    obtain ⟨hp, hx'⟩ := entryAt_cleared hx
    have hne : ids p ≠ ids slot := fun hEq => hp (h.distinct p slot x e hx' hEntry hEq)
    refine (h.kept p x hx' hLen).transfer fun l hl => hOther l ?_
    rw [hl]
    exact fun hEq => hne (Option.some.inj hEq)

theorem Clean.install (h : Clean status m ids) (slot : Slot) (hEmpty : e.len = 0) (hFits : Fits e)
    (hOther : ∀ l : Loc, l.object ≠ some m.nextLog → status l ≠ .dirty → status' l ≠ .dirty) :
    Clean status' { m with radixlog := m.radixlog.setEntry slot (some e), nextLog := m.nextLog + 1 }
      (Function.update ids slot m.nextLog) where
  toNumbered := h.toNumbered.install slot e
  file i := hOther _ nofun (h.file i)
  fits p x hx := by
    dsimp only at hx
    rw [entryAt_setEntry] at hx
    split at hx
    · cases hx
      exact hFits
    · exact h.fits p x hx
  kept p x hx hLen := by
    dsimp only at hx
    rw [entryAt_setEntry] at hx
    split at hx
    · cases hx
      omega
    · rename_i hp
      rw [Function.update_of_ne hp]
      refine (h.kept p x hx hLen).transfer fun l hl => hOther l ?_
      rw [hl]
      exact fun hEq => Nat.ne_of_lt (h.lt p x hx) (Option.some.inj hEq)

end Entry

/-! ## The functions -/

section Functions

variable {status : Loc → Status} {m m' : Mmio} {ids : Slot → Nat} {slot : Slot} {e e' : IdxEntry}
  {buf : Nat → UInt8} {c c' : Cursor}

/-- A stale entry is emptied, any other stays as it was. -/
theorem retireStale_cases (h : m.retireStale e = .ok (m', e')) (k : Nat) :
    (∃ bytes, m' = { m with disk := { m.disk with bytes := bytes } }) ∧
      (e' = e ∧ retireStaleEvents m k e = [] ∨ e' = m.emptied e) := by
  unfold retireStale at h
  unfold retireStaleEvents
  split at h
  · obtain ⟨hFrame, hEmptied⟩ := checkpointEntry_eq_ok h
    exact ⟨hFrame, .inr hEmptied⟩
  · rename_i hCurrent
    cases h
    rw [if_neg hCurrent]
    exact ⟨⟨m.disk.bytes, rfl⟩, .inl ⟨rfl, rfl⟩⟩

theorem retireStale_fits (h : m.retireStale e = .ok (m', e')) (hFits : Fits e) : Fits e' := by
  obtain ⟨_, ⟨rfl, _⟩ | rfl⟩ := retireStale_cases h 0
  · exact hFits
  · rw [Fits]
    exact Nat.zero_le _

theorem retireStale_bytes {k : Nat} (h : m.retireStale e = .ok (m', e'))
    (hBytes : ∀ i, e.extent.Covers i → status (.byte (.log k) i) ≠ .dirty) :
    ∀ i, e'.extent.Covers i → statusAfter (retireStaleEvents m k e) status (.byte (.log k) i) ≠ .dirty := by
  obtain ⟨_, ⟨rfl, hNone⟩ | rfl⟩ := retireStale_cases h k
  · rw [hNone]
    exact hBytes
  · intro i hi
    obtain ⟨hLow, hHigh⟩ := hi
    exact absurd (Nat.lt_of_le_of_lt hLow hHigh) (Nat.lt_irrefl 0)

theorem retireStale_not_dirty (m : Mmio) {k : Nat} (e : IdxEntry) {l : Loc} (hl : l.object ≠ some k)
    (hStatus : status l ≠ .dirty) : statusAfter (retireStaleEvents m k e) status l ≠ .dirty := by
  unfold retireStaleEvents
  split
  · have hStores : Within k (emptiedStores m k e ++ [flushEntry k, .fence]) :=
      (within_headerStores k _).append ((within_flushEntry k).append (within_fence k))
    rw [checkpointEntryEvents, List.append_assoc, statusAfter_append]
    exact hStores.not_dirty hl (storeRedo_not_dirty m e hStatus)
  · exact hStatus

theorem Clean.extent_bytes (h : Clean status m ids) (hEntry : m.radixlog.entryAt slot = some e) {i : Nat}
    (hi : e.extent.Covers i) : status (.byte (.log (ids slot)) i) ≠ .dirty := by
  have hLen : 0 < e.len := by
    obtain ⟨hLow, hHigh⟩ := hi
    dsimp only [IdxEntry.extent] at hLow hHigh
    omega
  exact (h.kept slot e hEntry hLen).bytes i hi

theorem writeEntry_clean (h : Clean status m ids) (hOk : m.writeEntry buf slot c = .ok (m', c')) :
    Clean (statusAfter (writeEntryEvents m buf (ids slot) slot c) status) m' ids := by
  obtain ⟨e, m₁, e₁, e₂, hEntry, hRetire, hPiece, rfl⟩ := writeEntry_parts hOk
  rw [writeEntryEvents_eq hEntry hRetire, statusAfter_append]
  have hFits := retireStale_fits hRetire (h.fits slot e hEntry)
  have hBytes := retireStale_bytes hRetire (fun i hi => h.extent_bytes hEntry hi)
  obtain ⟨hFits', hKept⟩ := storePiece_kept hPiece hFits hBytes
  obtain ⟨⟨bytes, rfl⟩, _⟩ := retireStale_cases hRetire (ids slot)
  have hFile : Clean status { m with disk := { m.disk with bytes := bytes } } ids := h.same (fun _ => rfl) rfl
  refine hFile.setEntry hEntry hFits' (fun _ => hKept) fun l hl hStatus => ?_
  exact (within_storePiece _ buf _ e₁ c).not_dirty hl (retireStale_not_dirty m e hl hStatus)

theorem writeEntries_clean {slots : List Slot} : ∀ {status : Loc → Status} {m : Mmio} {c c' : Cursor},
    Clean status m ids → m.writeEntries buf slots c = .ok (m', c') →
      Clean (statusAfter (writeEntriesEvents m buf ids slots c) status) m' ids := by
  induction slots with
  | nil =>
    intro status m c c' h hOk
    cases hOk
    exact h
  | cons slot slots ih =>
    intro status m c c' h hOk
    obtain ⟨⟨m₁, c₁⟩, hHead, hRest⟩ := bind_eq_ok hOk
    rw [writeEntriesEvents, hHead, statusAfter_append]
    exact ih (writeEntry_clean h hHead) hRest

theorem takeEntry_clean (h : Clean status m ids) (hSound : m.radixlog.Sound) {s : LogSize}
    (hSize : (m.radixlog.tables slot.table).logSize = some s) :
    Clean (statusAfter (takeEntryEvents m ids slot s).1 status) (takeEntry m slot s)
      (takeEntryEvents m ids slot s).2 := by
  have hWithin : ∀ k, Within k [.store (storeAt (.logSize k) s)] := fun k =>
    @within_storeAt k (.logSize k) rfl s
  cases hEntry : m.radixlog.entryAt slot with
  | some e =>
    simp only [takeEntry, getLogEntry, takeEntryEvents, hEntry]
    have hSame : e.logSize = s := by
      have hOld := hSound.sizes slot e hEntry
      rw [hSize] at hOld
      exact (Option.some.inj hOld).symm
    have hSpares : ∀ l : Loc, l ≠ .logSize (ids slot) → status l ≠ .dirty →
        statusAfter [.store (storeAt (.logSize (ids slot)) s)] status l ≠ .dirty := by
      intro l hl hStatus
      refine not_dirty_of_spares (fun event hEvent => ?_) hStatus
      rw [List.mem_singleton.mp hEvent]
      exact storeAt_data_of_ne hl s
    have hFits : Fits { e with logSize := s } := hSame ▸ h.fits slot e hEntry
    refine h.setEntry hEntry hFits (fun hLen => ?_) fun l hl => (hWithin _).not_dirty hl
    have hKept := h.kept slot e hEntry hLen
    refine ⟨hSpares _ ?_ hKept.header, hSpares _ ?_ hKept.log, hSpares _ ?_ hKept.dst,
      fun i hi => hSpares _ ?_ (hKept.bytes i hi)⟩ <;> rintro ⟨⟩
  | none =>
    simp only [takeEntry, getLogEntry, takeEntryEvents, hEntry, setEntry_setEntry]
    have hEvents : Within m.nextLog ([.store (storeAt (.log m.nextLog) (some m.nextLog))] ++
        headerStores m.nextLog [(IdxEntry.alloc (m.logPool m.nextLog)).setEpoch m.epoch] ++
        [.store (storeAt (.logSize m.nextLog) s)]) :=
      ((within_storeAt rfl _).append (within_headerStores _ _)).append (hWithin _)
    have hFits : Fits { (IdxEntry.alloc (m.logPool m.nextLog)).setEpoch m.epoch with logSize := s } :=
      Nat.zero_le _
    exact h.install slot rfl hFits fun l hl => hEvents.not_dirty hl

theorem lockEntries_clean (hSound : m.radixlog.Sound) (h : Clean status m ids) {type : LockType} {n : Int}
    {off : Nat} {head head' : List Slot} (hRun : lockEntries type m n off head = .ok (m', head')) :
    Clean (statusAfter (lockEntriesEvents m ids n off head).1 status) m' (lockEntriesEvents m ids n off head).2 := by
  have hNone : Clean (statusAfter ([] : List MemoryEvent) status) m ids := h
  refine lockEntries_keeps (P := fun events m ids => Clean (statusAfter events status) m ids) ?_ ?_ hSound hNone hRun
  · intro events m m' ids hSame hClean
    exact hClean.same hSame.entries hSame.next
  · intro events m ids slot s hSound' hSize hClean
    rw [statusAfter_append]
    exact takeEntry_clean hClean hSound' hSize

theorem finishWrite_clean (h : Clean status m ids) {offset len ret : Nat}
    (hOk : m.finishWrite offset buf len ret = .ok m') :
    Clean (statusAfter (finishWriteEvents m offset buf len ret) status) m' ids := by
  obtain ⟨bytes, rfl⟩ := finishWrite_eq_ok hOk
  refine Clean.same (m := m) (h.transfer fun l _ hl hStatus => ?_) (fun _ => rfl) rfl
  refine not_dirty_of_spares (fun event hEvent => ?_) hStatus
  rw [finishWriteEvents, List.cons_append] at hEvent
  rcases List.mem_cons.mp hEvent with rfl | hEvent
  · trivial
  rcases List.mem_append.mp hEvent with hEvent | hEvent
  · unfold updateFileEvents at hEvent
    cases hPolicy : m.policy with
    | undo =>
      rw [hPolicy] at hEvent
      rcases List.mem_cons.mp hEvent with rfl | hFence
      · trivial
      · rw [List.mem_singleton.mp hFence]
        trivial
    | redo =>
      rw [hPolicy] at hEvent
      cases hEvent
  · split at hEvent
    · rw [List.mem_singleton.mp hEvent]
      exact storeAt_data_of_ne hl _
    · cases hEvent

theorem checkpointSlot_clean (h : Clean status m ids) {currentEpoch : Nat}
    (hOk : checkpointSlot currentEpoch m slot = .ok m') :
    Clean (statusAfter (checkpointSlotEvents currentEpoch m ids slot) status) m' ids := by
  rcases checkpointSlotEvents_cases ids hOk with ⟨rfl, hNothing⟩ | ⟨e, bytes, hEntry, hStore, rfl, hEvents⟩
  · rw [hNothing]
    exact h
  · have hFile : Clean status { m with disk := { m.disk with bytes := bytes } } ids := h.same (fun _ => rfl) rfl
    rw [hEvents, statusAfter_append]
    refine hFile.clear hEntry fun l hl hStatus => ?_
    exact (within_freeIdxEntry _).not_dirty hl (storeRedo_not_dirty m e hStatus)

theorem grownWrite_clean (hSound : m.radixlog.Sound) (h : Clean status m ids) {offset len : Nat} {n : Int}
    {m₁ m₂ : Mmio} {head : List Slot} (hLock : lockEntries .wr m n offset [] = .ok (m₁, head))
    (hWrite : m₁.writeEntries buf head ⟨n.toNat, offset, m₁.start + offset, 0, 0⟩ = .ok (m₂, c))
    (hFinish : m₂.finishWrite offset buf len c.ret = .ok m') :
    Clean (statusAfter (grownWriteEvents m ids offset buf len n).1 status) m'
      (grownWriteEvents m ids offset buf len n).2 := by
  have hLocked := lockEntries_clean hSound h hLock
  rw [grownWriteEvents_eq hLock, statusAfter_append, lockedWriteEvents, hWrite, statusAfter_append]
  exact finishWrite_clean (writeEntries_clean hLocked hWrite) hFinish

theorem mmioWrite_clean (hSound : m.radixlog.Sound) (h : Clean status m ids) {fdWritable : Bool}
    {remap : Nat → Nat} {offset len n : Nat} (hOk : mmioWrite fdWritable remap m offset buf len = .ok (m', n)) :
    Clean (statusAfter (mmioWriteEvents fdWritable remap m ids offset buf len).1 status) m'
      (mmioWriteEvents fdWritable remap m ids offset buf len).2 := by
  obtain ⟨m₀, m₁, head, m₂, c, hGrow, hLock, hWrite, hFinish, rfl⟩ := mmioWrite_phases hOk
  rw [mmioWriteEvents_eq hGrow]
  have hGrown := ensureMapped_eq_ok hGrow
  subst hGrown
  have hMapped : Clean status (m.grown remap (offset + len)) ids := h.same (fun _ => rfl) rfl
  exact grownWrite_clean (m := m.grown remap (offset + len)) hSound hMapped hLock hWrite hFinish

theorem commitMmio_clean (h : Clean status m ids) (hOk : m.commitMmio = .ok m') :
    Clean (statusAfter (commitMmioEvents m ids) status) m' ids := by
  rw [commitMmio_spec] at hOk
  cases hOk
  rw [commitMmioEvents_eq]
  refine Clean.same (m := m) (h.transfer fun l hl _ hStatus => ?_) (fun _ => rfl) rfl
  refine not_dirty_of_spares (fun event hEvent => ?_) hStatus
  rcases List.mem_cons.mp hEvent with rfl | hEvent
  · exact storeAt_data_of_ne hl _
  rcases List.mem_cons.mp hEvent with rfl | hEvent
  · trivial
  · rw [List.mem_singleton.mp hEvent]
    trivial

theorem perform_clean {request : Request} {reply : Reply} (hSound : m.radixlog.Sound) (h : Clean status m ids)
    (hOk : m.perform request = .ok (m', reply)) :
    Clean (statusAfter (performEvents m ids request).1 status) m' (performEvents m ids request).2 := by
  cases request with
  | write fdWritable remap offset buf len =>
    obtain ⟨⟨m₁, n⟩, hWrite, hDone⟩ := bind_eq_ok hOk
    cases hDone
    exact mmioWrite_clean hSound h hWrite
  | read offset buf len =>
    obtain ⟨⟨m₁, n, buf'⟩, hRead, hDone⟩ := bind_eq_ok hOk
    cases hDone
    obtain ⟨m₁, head, hLock, rfl⟩ := mmioRead_phases hRead
    exact (lockEntries_clean hSound h hLock).same (fun _ => rfl) rfl
  | commit =>
    obtain ⟨m₁, hCommit, hDone⟩ := bind_eq_ok hOk
    cases hDone
    exact commitMmio_clean h hCommit
  | checkpoint =>
    obtain ⟨m₁, hCheckpoint, hDone⟩ := bind_eq_ok hOk
    cases hDone
    have hNone : Clean (statusAfter ([] : List MemoryEvent) status) m ids := h
    refine checkpointFrom_keeps (P := fun events m => Clean (statusAfter events status) m ids) ?_ hCheckpoint hNone
    intro events m m' slot hSlot hClean
    rw [statusAfter_append]
    exact checkpointSlot_clean hClean hSlot

end Functions

end Libnvmmio.Persistence

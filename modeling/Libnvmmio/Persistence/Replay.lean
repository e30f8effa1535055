import Libnvmmio.Persistence.Stores

/-! # The traces are those of the functions

The memory after the trace of a call is the one that the state after the call
stands for.
-/

namespace Libnvmmio.Persistence

open PersistentMemory RangeCopy RadixLog Mmio Outcome GuardedRun

set_option autoImplicit false

section Stores

variable {mem : Memory} {l : Loc}

theorem storeAt_data_of_ne {l' : Loc} (hl : l ≠ l') (v : l'.Val) : (storeAt l' v).data l = none := by
  dsimp only [storeAt]
  rw [Function.update_of_ne hl]

theorem storeAt_data_self (l : Loc) (v : l.Val) : (storeAt l v).data l = some v := by
  dsimp only [storeAt]
  rw [Function.update_self]

theorem storeAt_apply (l : Loc) (v : l.Val) (mem : Memory) :
    (storeAt l v).apply mem = Function.update mem l v := by
  funext l'
  by_cases hl : l' = l
  · subst hl
    rw [Function.update_self, Store.apply, storeAt_data_self]
    rfl
  · rw [Function.update_of_ne hl]
    exact Store.apply_of_none (storeAt_data_of_ne hl v) mem

theorem storeRange_apply (r : Region) (pos : Nat) (src : Nat → UInt8) (srcPos n : Nat) (mem : Memory) (i : Nat) :
    (storeRange r pos src srcPos n).apply mem (.byte r i) = blit (fun i => mem (.byte r i)) pos src srcPos n i := by
  unfold blit
  split
  · rename_i hIn
    have hData : (storeRange r pos src srcPos n).data (.byte r i) = some (src (srcPos + (i - pos))) :=
      if_pos ⟨rfl, hIn⟩
    rw [Store.apply, hData]
    rfl
  · rename_i hOut
    exact Store.apply_of_none (if_neg fun h => hOut h.2) mem

theorem storeRange_data_of_ne {r : Region} (hl : ∀ i, l ≠ .byte r i) (pos : Nat) (src : Nat → UInt8)
    (srcPos n : Nat) : (storeRange r pos src srcPos n).data l = none := by
  cases l with
  | byte r' i =>
    refine if_neg fun h => hl i ?_
    rw [h.1]
  | _ => rfl

end Stores

/-! ## One entry -/

structure Holds (mem : Memory) (k : Nat) (e : IdxEntry) : Prop where
  header : mem (.header k) = IdxEntry.header e
  log : mem (.log k) = some k
  dst : mem (.dst k) = e.dst
  logSize : mem (.logSize k) = e.logSize
  bytes : ∀ i, mem (.byte (.log k) i) = e.log i

section Entry

variable {mem mem' : Memory} {k : Nat} {e e' : IdxEntry} {m : Mmio}

theorem Holds.congr (h : Holds mem k e) (hMem : ∀ l, l.object = some k → mem' l = mem l) : Holds mem' k e where
  header := (hMem _ rfl).trans h.header
  log := (hMem _ rfl).trans h.log
  dst := (hMem _ rfl).trans h.dst
  logSize := (hMem _ rfl).trans h.logSize
  bytes i := (hMem _ rfl).trans (h.bytes i)

theorem Holds.setHeader (h : Holds mem k e) {header : Header} (hHeader : header = IdxEntry.header e')
    (hDst : e'.dst = e.dst) (hSize : e'.logSize = e.logSize) (hLog : e'.log = e.log) :
    Holds (Function.update mem (.header k) header) k e' where
  header := (Function.update_self ..).trans hHeader
  log := (Function.update_of_ne (by nofun) ..).trans h.log
  dst := (Function.update_of_ne (by nofun) ..).trans (h.dst.trans hDst.symm)
  logSize := (Function.update_of_ne (by nofun) ..).trans (h.logSize.trans hSize.symm)
  bytes i := (Function.update_of_ne (by nofun) ..).trans ((h.bytes i).trans (congrFun hLog.symm i))

theorem Holds.setLog (h : Holds mem k e) (pos : Nat) (src : Nat → UInt8) (srcPos n : Nat) :
    Holds ((storeRange (.log k) pos src srcPos n).apply mem) k { e with log := blit e.log pos src srcPos n } where
  header := (Store.apply_of_none (storeRange_data_of_ne (by nofun) ..) mem).trans h.header
  log := (Store.apply_of_none (storeRange_data_of_ne (by nofun) ..) mem).trans h.log
  dst := (Store.apply_of_none (storeRange_data_of_ne (by nofun) ..) mem).trans h.dst
  logSize := (Store.apply_of_none (storeRange_data_of_ne (by nofun) ..) mem).trans h.logSize
  bytes i := by
    rw [storeRange_apply]
    exact congrFun (congrArg (blit · pos src srcPos n) (funext h.bytes)) i

theorem replay_headerStores_two (k : Nat) (a b : IdxEntry) (mem : Memory) :
    replay (headerStores k [a, b]) mem = Function.update mem (.header k) (IdxEntry.header b) := by
  simp only [headerStores, List.map_cons, List.map_nil, replay_store, replay_nil, storeAt_apply, Function.update_idem]

theorem replay_headerStores_one (k : Nat) (a : IdxEntry) (mem : Memory) :
    replay (headerStores k [a]) mem = Function.update mem (.header k) (IdxEntry.header a) := by
  simp only [headerStores, List.map_cons, List.map_nil, replay_store, replay_nil, storeAt_apply]

theorem mergeEntry_holds {dst logOffset n : Nat} (h : m.mergeEntry e dst logOffset n = .ok e')
    (hHolds : Holds mem k e) : Holds (replay (mergeEntryEvents m k e dst logOffset n) mem) k e' := by
  unfold mergeEntry at h
  unfold mergeEntryEvents
  dsimp only at h ⊢
  generalize checkLog logOffset (logOffset + n) e.offset (e.offset + e.len) = overlap at h ⊢
  cases overlap with
  | before =>
    obtain ⟨data, hLoad, hDone⟩ := bind_eq_ok h
    obtain ⟨_, rfl⟩ := load_eq_ok hLoad
    cases hDone
    rw [replay_ntstore, replay_headerStores_two]
    exact Holds.setHeader (hHolds.setLog _ _ _ _) rfl rfl rfl rfl
  | overHead =>
    cases h
    rw [replay_headerStores_two]
    exact hHolds.setHeader rfl rfl rfl rfl
  | covers =>
    cases h
    rw [replay_headerStores_two]
    exact hHolds.setHeader rfl rfl rfl rfl
  | inside =>
    cases h
    exact hHolds
  | overTail =>
    cases h
    rw [replay_headerStores_one]
    exact hHolds.setHeader rfl rfl rfl rfl
  | after =>
    obtain ⟨data, hLoad, hDone⟩ := bind_eq_ok h
    obtain ⟨_, rfl⟩ := load_eq_ok hLoad
    cases hDone
    rw [replay_ntstore, replay_headerStores_one]
    exact Holds.setHeader (hHolds.setLog _ _ _ _) rfl rfl rfl rfl

theorem Holds.setDst (h : Holds mem k e) (dst : Nat) :
    Holds (Function.update mem (.dst k) dst) k { e with dst := dst } where
  header := (Function.update_of_ne (by nofun) ..).trans h.header
  log := (Function.update_of_ne (by nofun) ..).trans h.log
  dst := Function.update_self ..
  logSize := (Function.update_of_ne (by nofun) ..).trans h.logSize
  bytes i := (Function.update_of_ne (by nofun) ..).trans (h.bytes i)

theorem updateHeader_holds {dst logOffset n : Nat} (h : m.updateHeader e dst logOffset n = .ok e')
    (hHolds : Holds mem k e) : Holds (replay (updateHeaderEvents m k e dst logOffset n) mem) k e' := by
  unfold updateHeader at h
  unfold updateHeaderEvents
  split at h
  · rename_i hMerge
    rw [if_pos hMerge]
    exact mergeEntry_holds h hHolds
  · rename_i hFresh
    cases h
    rw [if_neg hFresh, freshEntryEvents, replay_append, replay_append, replay_headerStores_two,
      replay_headerStores_one, replay_store, replay_nil, storeAt_apply]
    have hTwo : Holds (Function.update mem (.header k) (IdxEntry.header ((e.setOffset logOffset).setLen n))) k
        ((e.setOffset logOffset).setLen n) := hHolds.setHeader rfl rfl rfl rfl
    exact (hTwo.setDst (dst - dst % e.logSize.size)).setHeader rfl rfl rfl rfl

theorem logPiece_holds {buf : Nat → UInt8} {dst src logOffset n : Nat}
    (h : m.logPiece buf e dst src logOffset n = .ok e') (hHolds : Holds mem k e) :
    Holds (replay (logPieceEvents m buf k dst src logOffset n) mem) k e' := by
  unfold logPiece at h
  unfold logPieceEvents
  generalize m.policy = policy at h ⊢
  cases policy with
  | undo =>
    obtain ⟨data, hLoad, hDone⟩ := bind_eq_ok h
    obtain ⟨_, rfl⟩ := load_eq_ok hLoad
    cases hDone
    exact hHolds.setLog _ _ _ _
  | redo =>
    cases h
    exact hHolds.setLog _ _ _ _

theorem storePiece_holds {buf : Nat → UInt8} {c c' : Cursor} (h : m.storePiece buf e c = .ok (e', c'))
    (hHolds : Holds mem k e) : Holds (replay (storePieceEvents m buf k e c) mem) k e' := by
  obtain ⟨e₁, hPiece, hRest⟩ := bind_eq_ok h
  obtain ⟨e₂, hHeader, hDone⟩ := bind_eq_ok hRest
  cases hDone
  have hLogged := logPiece_holds hPiece hHolds
  obtain ⟨log, rfl⟩ := logPiece_eq_ok hPiece
  have hSame : updateHeaderEvents m k e c.dst (c.off % e.logSize.size) (pieceLen e c) =
      updateHeaderEvents m k { e with log := log } c.dst (c.off % e.logSize.size) (pieceLen e c) := rfl
  rw [storePieceEvents, replay_append, replay_append, hSame]
  exact updateHeader_holds hHeader hLogged

theorem emptied_holds (hHolds : Holds mem k e) : Holds (replay (emptiedStores m k e) mem) k (m.emptied e) := by
  simp only [emptiedStores, headerStores, List.map_cons, List.map_nil, replay_store, replay_nil, storeAt_apply,
    Function.update_idem]
  exact hHolds.setHeader rfl rfl rfl rfl

end Entry

/-! ## Where the events of an entry store -/

inductive PieceEvent (k : Nat) : MemoryEvent → Prop where
  | header (e : IdxEntry) : PieceEvent k (.store (storeAt (.header k) (IdxEntry.header e)))
  | dst (v : Nat) : PieceEvent k (.store (storeAt (.dst k) v))
  | log (pos : Nat) (src : Nat → UInt8) (srcPos n : Nat) :
      PieceEvent k (.ntstore (storeRange (.log k) pos src srcPos n))
  | flush : PieceEvent k (flushEntry k)

theorem PieceEvent.avoids {k : Nat} {event : MemoryEvent} (h : PieceEvent k event) {l : Loc}
    (hl : l.object ≠ some k) : event.Avoids l := by
  cases h with
  | header e =>
    have hne : l ≠ .header k := fun hEq => hl (hEq ▸ rfl)
    exact storeAt_data_of_ne hne (IdxEntry.header e)
  | dst v =>
    have hne : l ≠ .dst k := fun hEq => hl (hEq ▸ rfl)
    exact storeAt_data_of_ne hne v
  | log pos src srcPos n => exact storeRange_data_of_ne (fun i hEq => hl (by rw [hEq]; rfl)) pos src srcPos n
  | flush => trivial

theorem pieceEvents_headerStores (k : Nat) (es : List IdxEntry) : ∀ event ∈ headerStores k es, PieceEvent k event :=
  List.forall_mem_map.mpr fun e _ => .header e

theorem pieceEvents_mergeEntry (m : Mmio) (k : Nat) (e : IdxEntry) (dst logOffset n : Nat) :
    ∀ event ∈ mergeEntryEvents m k e dst logOffset n, PieceEvent k event := by
  unfold mergeEntryEvents
  dsimp only
  generalize checkLog logOffset (logOffset + n) e.offset (e.offset + e.len) = overlap
  cases overlap with
  | before => exact List.forall_mem_cons.mpr ⟨.log .., pieceEvents_headerStores k _⟩
  | inside => exact fun _ hNone => (List.not_mem_nil hNone).elim
  | after => exact List.forall_mem_cons.mpr ⟨.log .., pieceEvents_headerStores k _⟩
  | _ => exact pieceEvents_headerStores k _

theorem pieceEvents_storePiece (m : Mmio) (buf : Nat → UInt8) (k : Nat) (e : IdxEntry) (c : Cursor) :
    ∀ event ∈ storePieceEvents m buf k e c, PieceEvent k event := by
  have hPiece : ∀ event ∈ logPieceEvents m buf k c.dst c.src (c.off % e.logSize.size) (pieceLen e c),
      PieceEvent k event := by
    unfold logPieceEvents
    cases m.policy with
    | undo => exact List.forall_mem_singleton.mpr (.log ..)
    | redo => exact List.forall_mem_singleton.mpr (.log ..)
  have hHeader : ∀ event ∈ updateHeaderEvents m k e c.dst (c.off % e.logSize.size) (pieceLen e c),
      PieceEvent k event := by
    unfold updateHeaderEvents
    split
    · exact pieceEvents_mergeEntry m k e _ _ _
    · refine List.forall_mem_append.mpr ⟨List.forall_mem_append.mpr ⟨pieceEvents_headerStores k _, ?_⟩,
        pieceEvents_headerStores k _⟩
      exact List.forall_mem_singleton.mpr (.dst _)
  exact List.forall_mem_append.mpr ⟨List.forall_mem_append.mpr ⟨hPiece, hHeader⟩, List.forall_mem_singleton.mpr .flush⟩

def Within (k : Nat) (events : List MemoryEvent) : Prop :=
  ∀ l : Loc, l.object ≠ some k → ∀ event ∈ events, event.Avoids l

section Within

variable {k : Nat} {events events' : List MemoryEvent}

theorem within_nil (k : Nat) : Within k [] := by
  intro l _ event hEvent
  cases hEvent

theorem Within.append (h : Within k events) (h' : Within k events') : Within k (events ++ events') := by
  intro l hl event hEvent
  rcases List.mem_append.mp hEvent with hEvent | hEvent
  · exact h l hl event hEvent
  · exact h' l hl event hEvent

theorem Within.cons {event : MemoryEvent} (hEvent : ∀ l : Loc, l.object ≠ some k → event.Avoids l)
    (h : Within k events) : Within k (event :: events) := by
  intro l hl event' hMem
  rcases List.mem_cons.mp hMem with rfl | hMem
  · exact hEvent l hl
  · exact h l hl event' hMem

theorem within_storeAt {l : Loc} (hl : l.object = some k) (v : l.Val) : Within k [.store (storeAt l v)] :=
  (within_nil k).cons fun l' hl' => storeAt_data_of_ne (fun hEq => hl' (by rw [hEq, hl])) v

theorem within_headerStores (k : Nat) (es : List IdxEntry) : Within k (headerStores k es) :=
  fun _ hl event hEvent => (pieceEvents_headerStores k es event hEvent).avoids hl

theorem within_flushEntry (k : Nat) : Within k [flushEntry k] := (within_nil k).cons fun _ _ => trivial

theorem within_fence (k : Nat) : Within k [.fence] := by
  intro l _ event hEvent
  rw [List.mem_singleton.mp hEvent]
  trivial

theorem within_storePiece (m : Mmio) (buf : Nat → UInt8) (k : Nat) (e : IdxEntry) (c : Cursor) :
    Within k (storePieceEvents m buf k e c) :=
  fun _ hl event hEvent => (pieceEvents_storePiece m buf k e c event hEvent).avoids hl

theorem Within.replay (h : Within k events) (mem : Memory) {l : Loc} (hl : l.object ≠ some k) :
    replay events mem l = mem l := replay_of_avoids (h l hl) mem

end Within

/-! ## The whole state -/

/-- `ids` names the entries that are installed, each once, by numbers that were given out. -/
structure Numbered (m : Mmio) (ids : Slot → Nat) : Prop where
  lt : ∀ slot e, m.radixlog.entryAt slot = some e → ids slot < m.nextLog
  distinct : ∀ slot slot' e e', m.radixlog.entryAt slot = some e → m.radixlog.entryAt slot' = some e' →
    ids slot = ids slot' → slot = slot'

theorem numbered_of_no_entry {m : Mmio} (hNone : ∀ slot, m.radixlog.entryAt slot = none) (ids : Slot → Nat) :
    Numbered m ids := by
  refine ⟨fun slot e he => ?_, fun slot slot' e e' he => ?_⟩
  · rw [hNone] at he
    cases he
  · rw [hNone] at he
    cases he

structure Reflects (mem : Memory) (m : Mmio) (ids : Slot → Nat) : Prop extends Numbered m ids where
  file : ∀ i, mem (.byte .file i) = m.disk.bytes i
  epoch : mem .epoch = m.epoch
  fsize : mem .fsize = m.fsize
  entries : ∀ slot e, m.radixlog.entryAt slot = some e → Holds mem (ids slot) e
  pool : ∀ k, m.nextLog ≤ k → mem (.header k) = Header.zero ∧ mem (.dst k) = 0 ∧
    ∀ i, mem (.byte (.log k) i) = m.logPool k i

section State

variable {mem mem' : Memory} {m m' : Mmio} {ids : Slot → Nat} {slot : Slot} {e e' : IdxEntry}

structure SameMemory (m m' : Mmio) : Prop where
  bytes : m'.disk.bytes = m.disk.bytes
  epoch : m'.epoch = m.epoch
  fsize : m'.fsize = m.fsize
  entries : ∀ slot, m'.radixlog.entryAt slot = m.radixlog.entryAt slot
  next : m'.nextLog = m.nextLog
  pool : m'.logPool = m.logPool

theorem Numbered.same (h : Numbered m ids) (hEntries : ∀ slot, m'.radixlog.entryAt slot = m.radixlog.entryAt slot)
    (hNext : m'.nextLog = m.nextLog) : Numbered m' ids where
  lt slot e he := by
    rw [hEntries] at he
    rw [hNext]
    exact h.lt slot e he
  distinct slot slot' e e' he he' := by
    rw [hEntries] at he he'
    exact h.distinct slot slot' e e' he he'

theorem Reflects.same (h : Reflects mem m ids) (hSame : SameMemory m m') : Reflects mem m' ids where
  toNumbered := h.toNumbered.same hSame.entries hSame.next
  file i := (h.file i).trans (congrFun hSame.bytes.symm i)
  epoch := h.epoch.trans hSame.epoch.symm
  fsize := h.fsize.trans hSame.fsize.symm
  entries slot e he := h.entries slot e ((hSame.entries slot).symm.trans he)
  pool k hk := by
    rw [hSame.next] at hk
    rw [hSame.pool]
    exact h.pool k hk

theorem Numbered.setEntry (h : Numbered m ids) (hEntry : m.radixlog.entryAt slot = some e) (e' : IdxEntry) :
    Numbered { m with radixlog := m.radixlog.setEntry slot (some e') } ids := by
  have hOld : ∀ p x, (m.radixlog.setEntry slot (some e')).entryAt p = some x →
      ∃ y, m.radixlog.entryAt p = some y := by
    intro p x hx
    rw [entryAt_setEntry] at hx
    split at hx
    · rename_i hp
      exact ⟨e, hp ▸ hEntry⟩
    · exact ⟨x, hx⟩
  refine ⟨fun p x hx => ?_, fun p q x y hx hy hEq => ?_⟩
  · obtain ⟨x', hx'⟩ := hOld p x hx
    exact h.lt p x' hx'
  · obtain ⟨x', hx'⟩ := hOld p x hx
    obtain ⟨y', hy'⟩ := hOld q y hy
    exact h.distinct p q x' y' hx' hy' hEq

theorem Reflects.setEntry (h : Reflects mem m ids) (hEntry : m.radixlog.entryAt slot = some e)
    (hHolds : Holds mem' (ids slot) e') (hOther : ∀ l : Loc, l.object ≠ some (ids slot) → mem' l = mem l) :
    Reflects mem' { m with radixlog := m.radixlog.setEntry slot (some e') } ids where
  toNumbered := h.toNumbered.setEntry hEntry e'
  file i := (hOther _ (by nofun)).trans (h.file i)
  epoch := (hOther _ (by nofun)).trans h.epoch
  fsize := (hOther _ (by nofun)).trans h.fsize
  entries p x hx := by
    dsimp only at hx
    rw [entryAt_setEntry] at hx
    split at hx
    · rename_i hp
      cases hx
      rw [hp]
      exact hHolds
    · rename_i hp
      have hne : ids p ≠ ids slot := fun hEq => hp (h.distinct p slot x e hx hEntry hEq)
      exact (h.entries p x hx).congr fun l hl => hOther l (by rw [hl]; simpa using hne)
  pool k hk := by
    have hne : ∀ l : Loc, l.object = some k → l.object ≠ some (ids slot) := by
      intro l hl hEq
      rw [hl] at hEq
      have hLt := h.lt slot e hEntry
      cases hEq
      exact absurd hLt (Nat.not_lt.mpr hk)
    obtain ⟨hHeader, hDst, hBytes⟩ := h.pool k hk
    exact ⟨(hOther _ (hne _ rfl)).trans hHeader, (hOther _ (hne _ rfl)).trans hDst,
      fun i => (hOther _ (hne _ rfl)).trans (hBytes i)⟩

theorem Reflects.storeFile (h : Reflects mem m ids) (pos : Nat) (src : Nat → UInt8) (srcPos n : Nat) :
    Reflects ((storeRange .file pos src srcPos n).apply mem)
      { m with disk := { m.disk with bytes := blit m.disk.bytes pos src srcPos n } } ids := by
  have hOther : ∀ l : Loc, (∀ i, l ≠ .byte .file i) → (storeRange .file pos src srcPos n).apply mem l = mem l :=
    fun l hl => Store.apply_of_none (storeRange_data_of_ne hl ..) mem
  refine ⟨h.toNumbered.same (fun _ => rfl) rfl, fun i => ?_, ?_, ?_, fun p x hx => ?_, fun k hk => ?_⟩
  · rw [storeRange_apply]
    exact congrFun (congrArg (blit · pos src srcPos n) (funext h.file)) i
  · exact (hOther _ (by nofun)).trans h.epoch
  · exact (hOther _ (by nofun)).trans h.fsize
  · refine (h.entries p x hx).congr fun l hl => hOther l ?_
    rintro i rfl
    cases hl
  · obtain ⟨hHeader, hDst, hBytes⟩ := h.pool k hk
    exact ⟨(hOther _ (by nofun)).trans hHeader, (hOther _ (by nofun)).trans hDst,
      fun i => (hOther _ (by nofun)).trans (hBytes i)⟩

theorem storeRedo_reflects (h : Reflects mem m ids) (hStore : m.storeRedo e = .ok m') :
    Reflects (replay (storeRedoEvents m e) mem) m' ids := by
  unfold storeRedo at hStore
  unfold storeRedoEvents
  generalize e.policy = policy at hStore ⊢
  cases policy with
  | undo =>
    cases hStore
    exact h
  | redo =>
    obtain ⟨_, rfl⟩ := ntstore_eq_ok hStore
    exact h.storeFile ..

/-- The entry may be retired before the piece is stored; the file may change with it. -/
theorem retireStale_reflects (h : Reflects mem m ids) (hEntry : m.radixlog.entryAt slot = some e)
    (hOk : m.retireStale e = .ok (m', e')) : ∃ mem₁, Reflects mem₁ m' ids ∧
      m'.radixlog = m.radixlog ∧ Holds (replay (retireStaleEvents m (ids slot) e) mem) (ids slot) e' ∧
      ∀ l : Loc, l.object ≠ some (ids slot) → replay (retireStaleEvents m (ids slot) e) mem l = mem₁ l := by
  unfold retireStale at hOk
  unfold retireStaleEvents
  split at hOk
  · rename_i hStale
    rw [if_pos hStale, checkpointEntryEvents, replay_append, replay_append]
    obtain ⟨m₁, hStore, hDone⟩ := bind_eq_ok hOk
    cases hDone
    have hFile := storeRedo_reflects h hStore
    obtain ⟨bytes, rfl⟩ := storeRedo_eq_ok hStore
    have hWithin : Within (ids slot) (emptiedStores m (ids slot) e) := within_headerStores _ _
    exact ⟨_, hFile, rfl, emptied_holds (hFile.entries slot e hEntry), fun l hl => hWithin.replay _ hl⟩
  · rename_i hCurrent
    rw [if_neg hCurrent]
    cases hOk
    exact ⟨mem, h, rfl, h.entries slot e hEntry, fun _ _ => rfl⟩

theorem writeEntry_reflects (h : Reflects mem m ids) {buf : Nat → UInt8} {c c' : Cursor}
    (hOk : m.writeEntry buf slot c = .ok (m', c')) :
    Reflects (replay (writeEntryEvents m buf (ids slot) slot c) mem) m' ids := by
  obtain ⟨e, m₁, e₁, e₂, hEntry, hRetire, hPiece, rfl⟩ := writeEntry_parts hOk
  obtain ⟨mem₁, hFile, hRadix, hHolds, hOther⟩ := retireStale_reflects h hEntry hRetire
  rw [writeEntryEvents_eq hEntry hRetire, replay_append]
  refine hFile.setEntry (hRadix ▸ hEntry) (storePiece_holds hPiece hHolds) fun l hl => ?_
  exact ((within_storePiece m₁ buf _ e₁ c).replay _ hl).trans (hOther l hl)

theorem writeEntries_reflects {buf : Nat → UInt8} {slots : List Slot} : ∀ {mem : Memory} {m : Mmio} {c c' : Cursor},
    Reflects mem m ids → m.writeEntries buf slots c = .ok (m', c') →
      Reflects (replay (writeEntriesEvents m buf ids slots c) mem) m' ids := by
  induction slots with
  | nil =>
    intro mem m c c' h hOk
    cases hOk
    exact h
  | cons slot slots ih =>
    intro mem m c c' h hOk
    obtain ⟨⟨m₁, c₁⟩, hHead, hRest⟩ := bind_eq_ok hOk
    rw [writeEntriesEvents, hHead, replay_append]
    exact ih (writeEntry_reflects h hHead) hRest

theorem updateFile_reflects (h : Reflects mem m ids) {buf : Nat → UInt8} {offset len : Nat}
    (hOk : m.updateFile offset buf len = .ok m') :
    Reflects (replay (updateFileEvents m offset buf len) mem) m' ids ∧ m'.fsize = m.fsize := by
  unfold updateFile at hOk
  unfold updateFileEvents
  generalize m.policy = policy at hOk ⊢
  cases policy with
  | undo =>
    obtain ⟨_, rfl⟩ := ntstore_eq_ok hOk
    exact ⟨h.storeFile .., rfl⟩
  | redo =>
    cases hOk
    exact ⟨h, rfl⟩

theorem finishWrite_reflects (h : Reflects mem m ids) {buf : Nat → UInt8} {offset len ret : Nat}
    (hOk : m.finishWrite offset buf len ret = .ok m') :
    Reflects (replay (finishWriteEvents m offset buf len ret) mem) m' ids := by
  obtain ⟨m₁, hFile, hDone⟩ := bind_eq_ok hOk
  have hCounted : Reflects mem { m with write := m.write + 1 } ids :=
    h.same ⟨rfl, rfl, rfl, fun _ => rfl, rfl, rfl⟩
  have hUpdated : Reflects (replay (updateFileEvents m offset buf len) mem) m₁ ids ∧ m₁.fsize = m.fsize :=
    updateFile_reflects hCounted hFile
  rw [finishWriteEvents, replay_append, replay_fence]
  obtain ⟨hUpdated, hSize⟩ := hUpdated
  generalize replay (updateFileEvents m offset buf len) mem = mem₁ at hUpdated ⊢
  rw [hSize] at hDone
  split at hDone
  · rename_i hLonger
    cases hDone
    rw [if_pos hLonger, replay_store, storeAt_apply, replay_nil]
    have hOther : ∀ l : Loc, l ≠ .fsize → Function.update mem₁ .fsize (offset + ret) l = mem₁ l :=
      fun l hl => Function.update_of_ne hl ..
    refine ⟨hUpdated.toNumbered.same (fun _ => rfl) rfl, fun i => (hOther _ (by nofun)).trans (hUpdated.file i),
      (hOther _ (by nofun)).trans hUpdated.epoch, Function.update_self .., fun p x hx => ?_, fun k hk => ?_⟩
    · refine (hUpdated.entries p x hx).congr fun l hl => hOther l ?_
      rintro rfl
      cases hl
    · obtain ⟨hHeader, hDst, hBytes⟩ := hUpdated.pool k hk
      exact ⟨(hOther _ (by nofun)).trans hHeader, (hOther _ (by nofun)).trans hDst,
        fun i => (hOther _ (by nofun)).trans (hBytes i)⟩
  · rename_i hShorter
    cases hDone
    rw [if_neg hShorter]
    exact hUpdated

/-! ## Locking -/

theorem Numbered.install (h : Numbered m ids) (slot : Slot) (e : IdxEntry) :
    Numbered { m with radixlog := m.radixlog.setEntry slot (some e), nextLog := m.nextLog + 1 }
      (Function.update ids slot m.nextLog) := by
  have hOld : ∀ p x, p ≠ slot → (m.radixlog.setEntry slot (some e)).entryAt p = some x →
      m.radixlog.entryAt p = some x ∧ Function.update ids slot m.nextLog p = ids p := by
    intro p x hp hx
    rw [entryAt_setEntry_of_ne _ hp] at hx
    exact ⟨hx, Function.update_of_ne hp ..⟩
  have hNew : Function.update ids slot m.nextLog slot = m.nextLog := Function.update_self ..
  refine ⟨fun p x hx => ?_, fun p q x y hx hy hEq => ?_⟩
  · by_cases hp : p = slot
    · rw [hp, hNew]
      exact Nat.lt_succ_self _
    · obtain ⟨hx', hSame⟩ := hOld p x hp hx
      rw [hSame]
      exact Nat.lt_succ_of_lt (h.lt p x hx')
  · by_cases hp : p = slot
    · by_cases hq : q = slot
      · rw [hp, hq]
      · obtain ⟨hy', hSame⟩ := hOld q y hq hy
        rw [hp, hNew, hSame] at hEq
        exact absurd (h.lt q y hy') (Nat.not_lt.mpr (Nat.le_of_eq hEq))
    · obtain ⟨hx', hSame⟩ := hOld p x hp hx
      by_cases hq : q = slot
      · rw [hq, hNew, hSame] at hEq
        exact absurd (h.lt p x hx') (Nat.not_lt.mpr (Nat.le_of_eq hEq.symm))
      · obtain ⟨hy', hSame'⟩ := hOld q y hq hy
        rw [hSame, hSame'] at hEq
        exact h.distinct p q x y hx' hy' hEq

theorem Reflects.install (h : Reflects mem m ids) (slot : Slot) (hHolds : Holds mem' m.nextLog e)
    (hOther : ∀ l : Loc, l.object ≠ some m.nextLog → mem' l = mem l) :
    Reflects mem' { m with radixlog := m.radixlog.setEntry slot (some e), nextLog := m.nextLog + 1 }
      (Function.update ids slot m.nextLog) := by
  refine ⟨h.toNumbered.install slot e, fun i => (hOther _ (by nofun)).trans (h.file i),
    (hOther _ (by nofun)).trans h.epoch, (hOther _ (by nofun)).trans h.fsize, fun p x hx => ?_, fun k hk => ?_⟩
  · by_cases hp : p = slot
    · subst hp
      dsimp only at hx
      rw [entryAt_setEntry_self] at hx
      cases hx
      rw [Function.update_self]
      exact hHolds
    · dsimp only at hx
      rw [entryAt_setEntry_of_ne _ hp] at hx
      rw [Function.update_of_ne hp]
      refine (h.entries p x hx).congr fun l hl => hOther l ?_
      rw [hl]
      intro hEq
      exact Nat.ne_of_lt (h.lt p x hx) (Option.some.inj hEq)
  · have hne : ∀ l : Loc, l.object = some k → l.object ≠ some m.nextLog := by
      intro l hl hEq
      rw [hl] at hEq
      cases hEq
      exact Nat.not_succ_le_self _ hk
    obtain ⟨hHeader, hDst, hBytes⟩ := h.pool k (Nat.le_of_succ_le hk)
    exact ⟨(hOther _ (hne _ rfl)).trans hHeader, (hOther _ (hne _ rfl)).trans hDst,
      fun i => (hOther _ (hne _ rfl)).trans (hBytes i)⟩

theorem takeEntry_reflects (h : Reflects mem m ids) (slot : Slot) (s : LogSize) :
    Reflects (replay (takeEntryEvents m ids slot s).1 mem) (takeEntry m slot s) (takeEntryEvents m ids slot s).2 := by
  cases hEntry : m.radixlog.entryAt slot with
  | some e =>
    simp only [takeEntry, getLogEntry, takeEntryEvents, hEntry, replay_store, replay_nil, storeAt_apply]
    have hHolds := h.entries slot e hEntry
    refine h.setEntry hEntry ⟨?_, ?_, ?_, Function.update_self .., fun i => ?_⟩ fun l hl => ?_
    · exact (Function.update_of_ne (by rintro ⟨⟩) ..).trans hHolds.header
    · exact (Function.update_of_ne (by rintro ⟨⟩) ..).trans hHolds.log
    · exact (Function.update_of_ne (by rintro ⟨⟩) ..).trans hHolds.dst
    · exact (Function.update_of_ne (by rintro ⟨⟩) ..).trans (hHolds.bytes i)
    · refine Function.update_of_ne ?_ ..
      rintro rfl
      exact hl rfl
  | none =>
    obtain ⟨_, hDst, hBytes⟩ := h.pool m.nextLog (Nat.le_refl _)
    simp only [takeEntry, getLogEntry, takeEntryEvents, hEntry, headerStores, List.map_cons, List.map_nil,
      replay_append, replay_store, replay_nil, storeAt_apply, setEntry_setEntry]
    refine h.install slot ⟨?_, ?_, ?_, Function.update_self .., fun i => ?_⟩ fun l hl => ?_
    · rw [Function.update_of_ne (by rintro ⟨⟩), Function.update_self]
      rfl
    · rw [Function.update_of_ne (by rintro ⟨⟩), Function.update_of_ne (by rintro ⟨⟩), Function.update_self]
    · rw [Function.update_of_ne (by rintro ⟨⟩), Function.update_of_ne (by rintro ⟨⟩), Function.update_of_ne (by rintro ⟨⟩)]
      exact hDst
    · rw [Function.update_of_ne (by rintro ⟨⟩), Function.update_of_ne (by rintro ⟨⟩), Function.update_of_ne (by rintro ⟨⟩)]
      exact hBytes i
    · have hne : ∀ l' : Loc, l'.object = some m.nextLog → l ≠ l' := fun l' hl' hEq => hl (hEq ▸ hl')
      rw [Function.update_of_ne (hne _ rfl), Function.update_of_ne (hne _ rfl), Function.update_of_ne (hne _ rfl)]

/-- What finding a table and taking an entry keep, the locking of a request keeps. -/
theorem lockEntries_keeps {P : List MemoryEvent → Mmio → (Slot → Nat) → Prop}
    (hSame : ∀ events m m' ids, SameMemory m m' → P events m ids → P events m' ids)
    (hTake : ∀ events m ids slot s, m.radixlog.Sound → (m.radixlog.tables slot.table).logSize = some s →
      P events m ids → P (events ++ (takeEntryEvents m ids slot s).1) (takeEntry m slot s)
        (takeEntryEvents m ids slot s).2)
    {type : LockType} {m m' : Mmio} {ids : Slot → Nat} {n : Int} {off : Nat} {head head' : List Slot}
    {events : List MemoryEvent} (hSound : m.radixlog.Sound) (h : P events m ids)
    (hRun : lockEntries type m n off head = .ok (m', head')) :
    P (events ++ (lockEntriesEvents m ids n off head).1) m' (lockEntriesEvents m ids n off head).2 := by
  -- as for `lockEntries_run`, each block takes at least one byte off `n`
  induction hn : n.toNat using Nat.strongRecOn generalizing m ids n off head events with
  | ind k ih =>
    rw [lockEntries_eq] at hRun
    rw [lockEntriesEvents]
    split at hRun
    · rename_i hPos
      rw [if_pos hPos]
      split at hRun
      · cases hRun
      · rename_i hNew
        dsimp only
        rw [if_neg hNew]
        have hLoc := locate_spec hSound.wellFormed off n.toNat
        have hStep := lockStep hSound off n.toNat
        generalize m.radixlog.locate off n.toNat = found at *
        obtain ⟨slot, s, r⟩ := found
        dsimp only at hLoc hStep hRun ⊢
        obtain ⟨hSound', hEntries, _⟩ := hSound.locate hLoc
        have hFound := hSame events m { m with radixlog := r } ids ⟨rfl, rfl, rfl, hEntries, rfl, rfl⟩ h
        have hTaken := hTake events { m with radixlog := r } ids slot s hSound' hLoc.size hFound
        have hLen := Nat.mod_lt off s.size_pos
        have hRest := ih _ (by omega) hStep.acquires.sound hTaken hRun rfl
        rw [List.append_assoc] at hRest
        exact hRest
    · rename_i hDone
      rw [if_neg hDone, List.append_nil]
      cases hRun
      exact h

theorem lockEntries_reflects (hSound : m.radixlog.Sound) (h : Reflects mem m ids) {type : LockType} {n : Int}
    {off : Nat} {head head' : List Slot} (hRun : lockEntries type m n off head = .ok (m', head')) :
    Reflects (replay (lockEntriesEvents m ids n off head).1 mem) m' (lockEntriesEvents m ids n off head).2 := by
  have hNone : Reflects (replay ([] : List MemoryEvent) mem) m ids := h
  refine lockEntries_keeps (P := fun events m ids => Reflects (replay events mem) m ids) ?_ ?_ hSound hNone hRun
  · intro events m m' ids hSame hReflects
    exact hReflects.same hSame
  · intro events m ids slot s _ _ hReflects
    rw [replay_append]
    exact takeEntry_reflects hReflects slot s

theorem grownWriteEvents_eq {m₁ : Mmio} {offset : Nat} {n : Int} {head : List Slot}
    (hLock : lockEntries .wr m n offset [] = .ok (m₁, head)) (buf : Nat → UInt8) (len : Nat) :
    grownWriteEvents m ids offset buf len n =
      ((lockEntriesEvents m ids n offset []).1 ++
        lockedWriteEvents m₁ (lockEntriesEvents m ids n offset []).2 head offset buf len
          ⟨n.toNat, offset, m₁.start + offset, 0, 0⟩, (lockEntriesEvents m ids n offset []).2) := by
  rw [grownWriteEvents, hLock]

theorem mmioWriteEvents_eq {m₀ : Mmio} {fdWritable : Bool} {remap : Nat → Nat} {offset len : Nat}
    (hGrow : ensureMapped fdWritable remap m offset len = .ok m₀) (buf : Nat → UInt8) :
    mmioWriteEvents fdWritable remap m ids offset buf len = grownWriteEvents m₀ ids offset buf len (toInt len) := by
  rw [mmioWriteEvents, hGrow]

theorem lockedWrite_reflects (h : Reflects mem m ids) {head : List Slot} {offset len : Nat} {buf : Nat → UInt8}
    {c c' : Cursor} {m₁ : Mmio} (hWrite : m.writeEntries buf head c = .ok (m₁, c'))
    (hFinish : m₁.finishWrite offset buf len c'.ret = .ok m') :
    Reflects (replay (lockedWriteEvents m ids head offset buf len c) mem) m' ids := by
  rw [lockedWriteEvents, hWrite, replay_append]
  exact finishWrite_reflects (writeEntries_reflects h hWrite) hFinish

theorem grownWrite_reflects (hSound : m.radixlog.Sound) (h : Reflects mem m ids) {offset len : Nat} {n : Int}
    {buf : Nat → UInt8} {m₁ m₂ : Mmio} {head : List Slot} {c : Cursor}
    (hLock : lockEntries .wr m n offset [] = .ok (m₁, head))
    (hWrite : m₁.writeEntries buf head ⟨n.toNat, offset, m₁.start + offset, 0, 0⟩ = .ok (m₂, c))
    (hFinish : m₂.finishWrite offset buf len c.ret = .ok m') :
    Reflects (replay (grownWriteEvents m ids offset buf len n).1 mem) m'
      (grownWriteEvents m ids offset buf len n).2 := by
  rw [grownWriteEvents_eq hLock, replay_append]
  exact lockedWrite_reflects (lockEntries_reflects hSound h hLock) hWrite hFinish

theorem mmioWrite_reflects (hSound : m.radixlog.Sound) (h : Reflects mem m ids) {fdWritable : Bool}
    {remap : Nat → Nat} {offset len n : Nat} {buf : Nat → UInt8}
    (hOk : mmioWrite fdWritable remap m offset buf len = .ok (m', n)) :
    Reflects (replay (mmioWriteEvents fdWritable remap m ids offset buf len).1 mem) m'
      (mmioWriteEvents fdWritable remap m ids offset buf len).2 := by
  obtain ⟨m₀, m₁, head, m₂, c, hGrow, hLock, hWrite, hFinish, rfl⟩ := mmioWrite_phases hOk
  rw [mmioWriteEvents_eq hGrow]
  have hGrown := ensureMapped_eq_ok hGrow
  subst hGrown
  exact grownWrite_reflects (m := m.grown remap (offset + len)) hSound
    (h.same ⟨grown_bytes m remap _, rfl, rfl, fun _ => rfl, rfl, rfl⟩) hLock hWrite hFinish

/-! ## `checkpoint_mmio` and `commit_mmio` -/

theorem within_freeIdxEntry (k : Nat) : Within k (freeIdxEntryEvents k) := by
  have hLog := @within_storeAt k (.log k) rfl none
  have hHeader := @within_storeAt k (.header k) rfl Header.zero
  have hDst := @within_storeAt k (.dst k) rfl (0 : Nat)
  exact hLog.append (hHeader.append hDst)

theorem entryAt_cleared {r : RadixLog} {p : Slot} {x : IdxEntry}
    (hx : (r.setEntry slot none).entryAt p = some x) : p ≠ slot ∧ r.entryAt p = some x := by
  rw [entryAt_setEntry] at hx
  split at hx
  · cases hx
  · exact ⟨‹_›, hx⟩

theorem Numbered.clear (h : Numbered m ids) (slot : Slot) :
    Numbered { m with radixlog := m.radixlog.setEntry slot none } ids where
  lt p x hx := h.lt p x (entryAt_cleared hx).2
  distinct p q x y hx hy hEq := h.distinct p q x y (entryAt_cleared hx).2 (entryAt_cleared hy).2 hEq

/-- A slot is cleared; the memory of its entry does not matter any more. -/
theorem Reflects.clear (h : Reflects mem m ids) (hEntry : m.radixlog.entryAt slot = some e)
    (hOther : ∀ l : Loc, l.object ≠ some (ids slot) → mem' l = mem l) :
    Reflects mem' { m with radixlog := m.radixlog.setEntry slot none } ids := by
  refine ⟨h.toNumbered.clear slot, fun i => (hOther _ (by nofun)).trans (h.file i),
    (hOther _ (by nofun)).trans h.epoch, (hOther _ (by nofun)).trans h.fsize, fun p x hx => ?_, fun k hk => ?_⟩
  · obtain ⟨hp, hx'⟩ := entryAt_cleared hx
    have hne : ids p ≠ ids slot := fun hEq => hp (h.distinct p slot x e hx' hEntry hEq)
    exact (h.entries p x hx').congr fun l hl => hOther l (by rw [hl]; simpa using hne)
  · have hne : ∀ l : Loc, l.object = some k → l.object ≠ some (ids slot) := by
      intro l hl hEq
      rw [hl] at hEq
      exact Nat.not_lt.mpr hk (Option.some.inj hEq ▸ h.lt slot e hEntry)
    obtain ⟨hHeader, hDst, hBytes⟩ := h.pool k hk
    exact ⟨(hOther _ (hne _ rfl)).trans hHeader, (hOther _ (hne _ rfl)).trans hDst,
      fun i => (hOther _ (hne _ rfl)).trans (hBytes i)⟩

theorem checkpointSlotEvents_cases {currentEpoch : Nat} (ids : Slot → Nat)
    (hOk : checkpointSlot currentEpoch m slot = .ok m') :
    (m' = m ∧ checkpointSlotEvents currentEpoch m ids slot = []) ∨
    ∃ e bytes, m.radixlog.entryAt slot = some e ∧
      m.storeRedo e = .ok { m with disk := { m.disk with bytes := bytes } } ∧
      m' = { m with
        radixlog := m.radixlog.setEntry slot none, disk := { m.disk with bytes := bytes } } ∧
      checkpointSlotEvents currentEpoch m ids slot = storeRedoEvents m e ++ freeIdxEntryEvents (ids slot) := by
  rw [checkpointSlotEvents]
  rcases checkpointSlot_cases hOk with ⟨rfl, hCurrent⟩ | ⟨e, bytes, hEntry, hStale, hStore, rfl⟩
  · refine .inl ⟨rfl, ?_⟩
    cases hEntry : m'.radixlog.entryAt slot with
    | none => rfl
    | some e => exact if_neg (hCurrent e hEntry)
  · refine .inr ⟨e, bytes, hEntry, hStore, rfl, ?_⟩
    rw [hEntry]
    exact if_pos hStale

theorem checkpointSlot_reflects (h : Reflects mem m ids) {currentEpoch : Nat}
    (hOk : checkpointSlot currentEpoch m slot = .ok m') :
    Reflects (replay (checkpointSlotEvents currentEpoch m ids slot) mem) m' ids := by
  rcases checkpointSlotEvents_cases ids hOk with ⟨rfl, hNothing⟩ | ⟨e, bytes, hEntry, hStore, rfl, hEvents⟩
  · rw [hNothing]
    exact h
  · have hFile := storeRedo_reflects h hStore
    rw [hEvents, replay_append]
    exact hFile.clear hEntry fun l hl => (within_freeIdxEntry _).replay _ hl

/-- What the step on a slot keeps, `checkpoint_mmio` keeps. -/
theorem checkpointFrom_keeps {P : List MemoryEvent → Mmio → Prop} {currentEpoch endoff : Nat} {ids : Slot → Nat}
    (hSlot : ∀ events m m' slot, checkpointSlot currentEpoch m slot = .ok m' → P events m →
      P (events ++ checkpointSlotEvents currentEpoch m ids slot) m') {m m' : Mmio} {offset : Nat}
    (hOk : checkpointFrom currentEpoch endoff m offset = .ok m') {events : List MemoryEvent} (h : P events m) :
    P (events ++ checkpointFromEvents currentEpoch endoff ids m offset) m' := by
  have hSlots : ∀ (slots : List Slot) (events : List MemoryEvent) (m m' : Mmio),
      slots.foldlM (checkpointSlot currentEpoch) m = .ok m' → P events m →
        P (events ++ checkpointSlotsEvents currentEpoch m ids slots) m' := by
    intro slots
    induction slots with
    | nil =>
      intro events m m' hFold hP
      cases hFold
      rw [checkpointSlotsEvents, List.append_nil]
      exact hP
    | cons slot slots ih =>
      intro events m m' hFold hP
      rw [List.foldlM_cons] at hFold
      obtain ⟨m₁, hHead, hRest⟩ := bind_eq_ok hFold
      rw [checkpointSlotsEvents, hHead, ← List.append_assoc]
      exact ih _ m₁ m' hRest (hSlot events m m₁ slot hHead hP)
  induction m, offset using regions_induction endoff generalizing events with
  | skip m offset hMore hSkip ih =>
    rw [checkpointFrom_skip hMore hSkip] at hOk
    rw [checkpointFromEvents_skip hMore hSkip]
    exact ih hOk h
  | unsized m offset table hMore hUnlocked hFind hSize =>
    rw [checkpointFrom_unsized hMore hUnlocked hFind hSize] at hOk
    cases hOk
  | sized m offset table s hMore hUnlocked hFind hSize ih =>
    rw [checkpointFrom_sized hMore hUnlocked hFind hSize] at hOk
    obtain ⟨m₁, hTable, hRest⟩ := bind_eq_ok hOk
    rw [checkpointFromEvents_sized hMore hUnlocked hFind hSize hTable, ← List.append_assoc]
    exact ih m₁ hRest (hSlots _ _ m m₁ hTable h)
  | done m offset hDone =>
    rw [checkpointFrom_done hDone] at hOk
    rw [checkpointFromEvents_done hDone, List.append_nil]
    cases hOk
    exact h

theorem checkpointFromEvents_locked (currentEpoch endoff : Nat) (ids : Slot → Nat) {m : Mmio} {offset : Nat}
    (hLocked : m.wrlocked = true) : checkpointFromEvents currentEpoch endoff ids m offset = [] := by
  induction m, offset using regions_induction endoff with
  | skip m offset hMore hSkip ih =>
    rw [checkpointFromEvents_skip hMore hSkip]
    exact ih hLocked
  | unsized m offset table hMore hUnlocked hFind hSize => exact absurd hLocked (Bool.eq_false_iff.mp hUnlocked)
  | sized m offset table s hMore hUnlocked hFind hSize ih => exact absurd hLocked (Bool.eq_false_iff.mp hUnlocked)
  | done m offset hDone => rw [checkpointFromEvents_done hDone]

theorem commitMmioEvents_eq (m : Mmio) (ids : Slot → Nat) : commitMmioEvents m ids =
    [.store (storeAt .epoch ((m.epoch + 1) % 2 ^ 64)), .flush fun l => l = .epoch, .fence] := by
  have hNothing : determinePolicyEvents { m with wrlocked := true, epoch := (m.epoch + 1) % 2 ^ 64 } ids = [] := by
    have hLocked : checkpointMmioEvents { m with
        wrlocked := true, epoch := (m.epoch + 1) % 2 ^ 64, read := 0, write := 0 } ids = [] :=
      checkpointFromEvents_locked _ _ ids rfl
    rw [determinePolicyEvents]
    dsimp only
    rw [hLocked, ite_self, ite_self]
  rw [commitMmioEvents, hNothing, List.append_nil]

theorem commitMmio_reflects (h : Reflects mem m ids) (hOk : m.commitMmio = .ok m') :
    Reflects (replay (commitMmioEvents m ids) mem) m' ids := by
  rw [commitMmio_spec] at hOk
  cases hOk
  rw [commitMmioEvents_eq, replay_store, replay_flush, replay_fence, replay_nil, storeAt_apply]
  have hOther : ∀ l : Loc, l ≠ .epoch → Function.update mem .epoch ((m.epoch + 1) % 2 ^ 64) l = mem l :=
    fun l hl => Function.update_of_ne hl ..
  refine ⟨h.toNumbered.same (fun _ => rfl) rfl, fun i => (hOther _ (by nofun)).trans (h.file i),
    Function.update_self .., (hOther _ (by nofun)).trans h.fsize, fun p x hx => ?_, fun k hk => ?_⟩
  · refine (h.entries p x hx).congr fun l hl => hOther l ?_
    rintro rfl
    cases hl
  · obtain ⟨hHeader, hDst, hBytes⟩ := h.pool k hk
    exact ⟨(hOther _ (by nofun)).trans hHeader, (hOther _ (by nofun)).trans hDst,
      fun i => (hOther _ (by nofun)).trans (hBytes i)⟩

/-- The trace of a request leads from memory to memory as the request leads from state to state. -/
theorem perform_reflects {request : Request} {reply : Reply} (hSound : m.radixlog.Sound) (h : Reflects mem m ids)
    (hOk : m.perform request = .ok (m', reply)) :
    Reflects (replay (performEvents m ids request).1 mem) m' (performEvents m ids request).2 := by
  cases request with
  | write fdWritable remap offset buf len =>
    obtain ⟨⟨m₁, n⟩, hWrite, hDone⟩ := bind_eq_ok hOk
    cases hDone
    exact mmioWrite_reflects hSound h hWrite
  | read offset buf len =>
    obtain ⟨⟨m₁, n, buf'⟩, hRead, hDone⟩ := bind_eq_ok hOk
    cases hDone
    obtain ⟨m₁, head, hLock, rfl⟩ := mmioRead_phases hRead
    exact (lockEntries_reflects hSound h hLock).same ⟨rfl, rfl, rfl, fun _ => rfl, rfl, rfl⟩
  | commit =>
    obtain ⟨m₁, hCommit, hDone⟩ := bind_eq_ok hOk
    cases hDone
    exact commitMmio_reflects h hCommit
  | checkpoint =>
    obtain ⟨m₁, hCheckpoint, hDone⟩ := bind_eq_ok hOk
    cases hDone
    have hNone : Reflects (replay ([] : List MemoryEvent) mem) m ids := h
    refine checkpointFrom_keeps (P := fun events m => Reflects (replay events mem) m ids) ?_ hCheckpoint hNone
    intro events m m' slot hSlot hReflects
    rw [replay_append]
    exact checkpointSlot_reflects hReflects hSlot

end State

end Libnvmmio.Persistence

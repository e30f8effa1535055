import Libnvmmio.Mmio.WriteOverlay
import Libnvmmio.Mmio.VisitOrder

/-! # The pieces of a write

`mmio_write` stores one piece in each iteration. The length of the piece is cut
down from the length of the piece before it, and the block size it is cut to is
that of the entry visited.
-/

namespace Libnvmmio.Mmio

open RangeCopy RadixLog Outcome

set_option autoImplicit false

def writePieces (m : Mmio) (buf : Nat → UInt8) : List Slot → Cursor → List (Nat × Nat)
  | [], _ => []
  | slot :: slots, c =>
    match m.writeEntry buf slot c with
    | .error _ => []
    | .ok (m', c') => (c.off, c'.n) :: writePieces m' buf slots c'

def loopPieces (fdWritable : Bool) (remap : Nat → Nat) (m : Mmio) (offset : Nat)
    (buf : Nat → UInt8) (len : Nat) : Except Failure (List (Nat × Nat)) := do
  let m ← ensureMapped fdWritable remap m offset len
  let (m, head) ← lockEntries .wr m (toInt len) offset []
  .ok (m.writePieces buf head ⟨(toInt len).toNat, offset, m.start + offset, 0, 0⟩)

/-- The copies of an iteration apart from that of the piece: a stale REDO log
goes home, and a gap between the old log and the piece is filled from the file. -/
def CopiesMapped (m : Mmio) (e : IdxEntry) (off n : Nat) : Prop :=
  let lo := off % e.logSize.size
  if e.epoch < m.epoch then e.policy = .redo → m.Accessible (e.dst + e.offset) e.len
  else 0 < e.len → n ≠ e.logSize.size →
    (lo + n < e.offset → m.Accessible (m.start + off + n) (e.offset - (lo + n))) ∧
      (e.offset + e.len < lo →
        m.Accessible (m.start + off - (lo - (e.offset + e.len))) (lo - (e.offset + e.len)))

/-- The first part is as long as the request cut to the first size, and each
further one as long as the part before it cut to the next size. -/
def Carried : Nat → List BlockPart → List LogSize → Prop
  | _, [], _ => True
  | _, _ :: _, [] => False
  | n, b :: parts, s :: sizes =>
    b.len = min n (s.size - b.off % s.size) ∧ Carried b.len parts sizes

section Iteration

variable {m : Mmio} {buf : Nat → UInt8}

theorem load_isOk (m : Mmio) (addr n : Nat) : (∃ data, m.load addr n = .ok data) ↔ m.Accessible addr n := by
  rw [load]
  split
  · rename_i hAccess
    exact ⟨fun _ => hAccess, fun _ => ⟨_, rfl⟩⟩
  · rename_i hFault
    constructor
    · rintro ⟨_, h⟩
      cases h
    · intro h
      exact absurd h hFault

theorem bind_isOk {α β : Type} {x : Except Failure α} {f : α → β} :
    (∃ b, (x >>= fun a => (.ok (f a) : Except Failure β)) = .ok b) ↔ ∃ a, x = .ok a := by
  cases x with
  | error err => exact ⟨fun ⟨_, h⟩ => (by cases h), fun ⟨_, h⟩ => (by cases h)⟩
  | ok a => exact ⟨fun _ => ⟨a, rfl⟩, fun _ => ⟨f a, rfl⟩⟩

theorem mergeEntry_isOk (e : IdxEntry) {off n : Nat} (hPos : 0 < n) (hLen : 0 < e.len) :
    (∃ e', m.mergeEntry e (m.start + off) (off % e.logSize.size) n = .ok e') ↔
      (off % e.logSize.size + n < e.offset →
        m.Accessible (m.start + off + n) (e.offset - (off % e.logSize.size + n))) ∧
      (e.offset + e.len < off % e.logSize.size →
        m.Accessible (m.start + off - (off % e.logSize.size - (e.offset + e.len)))
          (off % e.logSize.size - (e.offset + e.len))) := by
  unfold mergeEntry
  dsimp only
  generalize off % e.logSize.size = lo
  rcases checkLog_cases lo (lo + n) e.offset (e.offset + e.len) with
    ⟨hCase, _, _⟩ | ⟨hCase, _, _, _⟩ | ⟨hCase, _, _, _⟩ | ⟨hCase, _, _⟩ | ⟨hCase, _, _, _⟩ |
    ⟨hCase, _, _, _⟩ <;> rw [hCase] <;> dsimp only
  · rw [bind_isOk, load_isOk]
    exact ⟨fun h => ⟨fun _ => h, fun hAfter => by omega⟩, fun h => h.1 (by omega)⟩
  · exact ⟨fun _ => ⟨fun hBefore => by omega, fun hAfter => by omega⟩, fun _ => ⟨_, rfl⟩⟩
  · exact ⟨fun _ => ⟨fun hBefore => by omega, fun hAfter => by omega⟩, fun _ => ⟨_, rfl⟩⟩
  · exact ⟨fun _ => ⟨fun hBefore => by omega, fun hAfter => by omega⟩, fun _ => ⟨_, rfl⟩⟩
  · exact ⟨fun _ => ⟨fun hBefore => by omega, fun hAfter => by omega⟩, fun _ => ⟨_, rfl⟩⟩
  · rw [bind_isOk, load_isOk]
    exact ⟨fun h => ⟨fun hBefore => by omega, fun _ => h⟩, fun h => h.2 (by omega)⟩

theorem storePiece_cursor {e e' : IdxEntry} {c c' : Cursor}
    (h : m.storePiece buf e c = .ok (e', c')) : c' = c.advance (c.pieceLen e) := by
  unfold storePiece at h
  dsimp only at h
  rw [Cursor.clip_eq_pieceLen] at h
  obtain ⟨e₁, _, hRest⟩ := bind_eq_ok h
  obtain ⟨e₂, _, hDone⟩ := bind_eq_ok hRest
  cases hDone
  rfl

theorem storePiece_isOk (e : IdxEntry) (c : Cursor) (hDst : c.dst = m.start + c.off)
    (hPos : 0 < c.pieceLen e) (hMapped : c.off + c.pieceLen e ≤ m.mapLen) :
    (∃ r, m.storePiece buf e c = .ok r) ↔
      (0 < e.len → c.pieceLen e ≠ e.logSize.size →
        (c.off % e.logSize.size + c.pieceLen e < e.offset → m.Accessible
          (m.start + c.off + c.pieceLen e) (e.offset - (c.off % e.logSize.size + c.pieceLen e))) ∧
        (e.offset + e.len < c.off % e.logSize.size → m.Accessible
          (m.start + c.off - (c.off % e.logSize.size - (e.offset + e.len)))
          (c.off % e.logSize.size - (e.offset + e.len)))) := by
  obtain ⟨log, hLog, _⟩ := logPiece_spec (c.rest buf) e hMapped
  rw [← hDst] at hLog
  have hStore : (∃ r, m.storePiece buf e c = .ok r) ↔
      ∃ e', m.updateHeader { e with log := log } c.dst (c.off % e.logSize.size) (c.pieceLen e) =
        .ok e' := by
    unfold storePiece
    dsimp only
    rw [Cursor.clip_eq_pieceLen, logPiece_rest, hLog, ok_bind, bind_isOk]
  rw [hStore]
  unfold updateHeader
  dsimp only
  by_cases hMerge : 0 < e.len ∧ c.pieceLen e ≠ e.logSize.size
  · rw [if_pos hMerge, hDst, mergeEntry_isOk { e with log := log } hPos hMerge.1]
    exact ⟨fun h _ _ => h, fun h => h hMerge.1 hMerge.2⟩
  · rw [if_neg hMerge]
    exact ⟨fun _ hLen hPart => absurd ⟨hLen, hPart⟩ hMerge, fun _ => ⟨_, rfl⟩⟩

theorem storeRedo_isOk (e : IdxEntry) :
    (∃ m', m.storeRedo e = .ok m') ↔ (e.policy = .redo → m.Accessible (e.dst + e.offset) e.len) := by
  unfold storeRedo
  cases hPolicy : e.policy with
  | undo => exact ⟨fun _ h => (by cases h), fun _ => ⟨m, rfl⟩⟩
  | redo =>
    dsimp only
    rw [ntstore]
    split
    · rename_i hAccess
      exact ⟨fun _ _ => hAccess, fun _ => ⟨_, rfl⟩⟩
    · rename_i hFault
      constructor
      · rintro ⟨_, h⟩
        cases h
      · intro h
        exact absurd (h rfl) hFault

/-- What an iteration that returns has done, as far as the others are concerned. -/
theorem writeEntry_advance {slot : Slot} {e : IdxEntry} {c c' : Cursor} {m' : Mmio}
    (hEntry : m.radixlog.entryAt slot = some e) (h : m.writeEntry buf slot c = .ok (m', c')) :
    c' = c.advance (c.pieceLen e) ∧ ∃ e' bytes, m' = { m with
      radixlog := m.radixlog.setEntry slot (some e'), disk := { m.disk with bytes := bytes } } := by
  obtain ⟨_, e', bytes, _, _, hFrame⟩ := writeEntry_eq_ok h
  refine ⟨?_, e', bytes, hFrame⟩
  obtain ⟨_, m₁, e₁, e₂, hEntry', hRetire, hStore, _⟩ := writeEntry_parts h
  rw [hEntry, Option.some.injEq] at hEntry'
  subst hEntry'
  have hSize : e₁.logSize = e.logSize := by
    unfold retireStale at hRetire
    split at hRetire
    · obtain ⟨_, rfl⟩ := checkpointEntry_eq_ok hRetire
      rfl
    · cases hRetire
      rfl
  rw [storePiece_cursor hStore, Cursor.pieceLen, Cursor.pieceLen, hSize]

theorem writeEntry_isOk {slot : Slot} {e : IdxEntry} {c : Cursor}
    (hEntry : m.radixlog.entryAt slot = some e) (hDst : c.dst = m.start + c.off)
    (hPos : 0 < c.pieceLen e) (hMapped : c.off + c.pieceLen e ≤ m.mapLen) :
    (∃ r, m.writeEntry buf slot c = .ok r) ↔ m.CopiesMapped e c.off (c.pieceLen e) := by
  have hWrite : (∃ r, m.writeEntry buf slot c = .ok r) ↔
      ∃ m₁ e₁, m.retireStale e = .ok (m₁, e₁) ∧ ∃ r, m₁.storePiece buf e₁ c = .ok r := by
    unfold writeEntry
    rw [hEntry]
    dsimp only
    cases hRetire : m.retireStale e with
    | error err => exact ⟨fun ⟨_, h⟩ => (by cases h), fun ⟨_, _, h, _⟩ => (by cases h)⟩
    | ok p =>
      obtain ⟨m₁, e₁⟩ := p
      rw [ok_bind]
      dsimp only
      rw [bind_isOk]
      exact ⟨fun h => ⟨m₁, e₁, rfl, h⟩, fun ⟨_, _, hSame, h⟩ => by cases hSame; exact h⟩
  rw [hWrite]
  unfold CopiesMapped retireStale
  by_cases hStale : e.epoch < m.epoch
  · rw [if_pos hStale, if_pos hStale, ← storeRedo_isOk]
    constructor
    · rintro ⟨m₁, e₁, hRetire, _⟩
      obtain ⟨m₂, hHome, _⟩ := bind_eq_ok hRetire
      exact ⟨m₂, hHome⟩
    · rintro ⟨m₂, hHome⟩
      obtain ⟨bytes, rfl⟩ := storeRedo_eq_ok hHome
      refine ⟨_, m.emptied e, by rw [checkpointEntry, hHome, ok_bind]; rfl, ?_⟩
      -- the entry is empty now, so the piece meets no old log
      exact (storePiece_isOk (m := { m with disk := { m.disk with bytes := bytes } }) (m.emptied e) c
        hDst hPos hMapped).mpr fun hLen => absurd hLen (Nat.lt_irrefl 0)
  · rw [if_neg hStale, if_neg hStale, ← storePiece_isOk e c hDst hPos hMapped]
    constructor
    · rintro ⟨_, _, hSame, h⟩
      cases hSame
      exact h
    · exact fun h => ⟨m, e, rfl, h⟩

end Iteration

section Loop

variable {m m' : Mmio} {buf : Nat → UInt8}

/-- The loop stores the parts of the request exactly if the carried length
yields them and every iteration stays in the mapping. The first component of a
visit is the block at the running offset, the second the block visited. -/
theorem writePieces_eq_iff (visits : List (BlockPart × BlockPart)) {n : Nat} {c : Cursor}
    (hTiles : Tiles c.off n (visits.map Prod.fst)) (hNodup : (visits.map fun v => v.2.slot).Nodup)
    (hEntries : ∀ v ∈ visits, ∃ e, m.radixlog.entryAt v.2.slot = some e ∧ e.logSize = v.2.size)
    (hDst : c.dst = m.start + c.off) (hMapped : c.off + n ≤ m.mapLen) :
    ((∃ r, m.writeEntries buf (visits.map fun v => v.2.slot) c = .ok r) ∧
        m.writePieces buf (visits.map fun v => v.2.slot) c =
          visits.map fun v => (v.1.off, v.1.len)) ↔
      Carried c.n (visits.map Prod.fst) (visits.map fun v => v.2.size) ∧
        ∀ v ∈ visits, ∀ e, m.radixlog.entryAt v.2.slot = some e → m.CopiesMapped e v.1.off v.1.len := by
  induction visits generalizing m c n with
  | nil => exact ⟨fun _ => ⟨trivial, fun _ h => by cases h⟩, fun _ => ⟨⟨_, rfl⟩, rfl⟩⟩
  | cons v visits ih =>
    have hPartPos := hTiles.len_pos
    obtain ⟨_, hOff, hLen, hRest⟩ := hTiles
    obtain ⟨e, hEntry, hSize⟩ := hEntries v List.mem_cons_self
    rw [List.map_cons, List.nodup_cons] at hNodup
    have hCut : c.pieceLen e = min c.n (v.2.size.size - v.1.off % v.2.size.size) := by
      rw [Cursor.pieceLen, hSize, hOff]
    -- the later iterations see the entries as they are now
    have hNext : ∀ m₁ c₁, m.writeEntry buf v.2.slot c = .ok (m₁, c₁) → c.pieceLen e = v.1.len →
        (((∃ r, m₁.writeEntries buf (visits.map fun v => v.2.slot) c₁ = .ok r) ∧
          m₁.writePieces buf (visits.map fun v => v.2.slot) c₁ =
            visits.map fun v => (v.1.off, v.1.len)) ↔
        Carried v.1.len (visits.map Prod.fst) (visits.map fun v => v.2.size) ∧
          ∀ w ∈ visits, ∀ e, m.radixlog.entryAt w.2.slot = some e →
            m.CopiesMapped e w.1.off w.1.len) := by
      intro m₁ c₁ hHead hPiece
      obtain ⟨rfl, e', bytes, rfl⟩ := writeEntry_advance hEntry hHead
      rw [hPiece]
      have hOther : ∀ w ∈ visits, (m.radixlog.setEntry v.2.slot (some e')).entryAt w.2.slot =
          m.radixlog.entryAt w.2.slot := by
        intro w hw
        apply entryAt_setEntry_of_ne
        intro hSame
        exact hNodup.1 (List.mem_map.mpr ⟨w, hw, hSame⟩)
      have hLater := ih (m := { m with
          radixlog := m.radixlog.setEntry v.2.slot (some e'), disk := { m.disk with bytes := bytes } })
        (c := c.advance v.1.len) hRest hNodup.2
        (fun w hw => by
          obtain ⟨e, hw', hs⟩ := hEntries w (List.mem_cons_of_mem _ hw)
          exact ⟨e, (hOther w hw).trans hw', hs⟩)
        (by dsimp only [Cursor.advance]; omega) (by dsimp only [Cursor.advance]; omega)
      rw [hLater]
      refine and_congr Iff.rfl (forall₂_congr fun w hw => ?_)
      rw [hOther w hw]
      exact Iff.rfl
    have hHeadOk (hPos : 0 < c.pieceLen e) (hMapped : c.off + c.pieceLen e ≤ m.mapLen) :
        (∃ r, m.writeEntry buf v.2.slot c = .ok r) ↔ m.CopiesMapped e c.off (c.pieceLen e) :=
      writeEntry_isOk hEntry hDst hPos hMapped
    constructor
    · rintro ⟨⟨r, hOk⟩, hPieces⟩
      obtain ⟨⟨m₁, c₁⟩, hHead, hTail⟩ := bind_eq_ok hOk
      rw [List.map_cons, writePieces, hHead, List.map_cons, List.cons.injEq] at hPieces
      obtain ⟨hFirst, hPieces⟩ := hPieces
      have hPiece : c.pieceLen e = v.1.len := by
        have hCursor := (writeEntry_advance hEntry hHead).1
        rw [Prod.mk.injEq, hCursor] at hFirst
        exact hFirst.2
      obtain ⟨hCarried, hCopies⟩ := (hNext m₁ c₁ hHead hPiece).mp ⟨⟨r, hTail⟩, hPieces⟩
      have hCopy := (hHeadOk (by omega) (by omega)).mp ⟨_, hHead⟩
      rw [hPiece, ← hOff] at hCopy
      refine ⟨⟨hPiece.symm.trans hCut, hCarried⟩, fun w hw e₁ hw' => ?_⟩
      rcases List.mem_cons.mp hw with rfl | hw
      · rw [hEntry] at hw'
        cases hw'
        exact hCopy
      · exact hCopies w hw e₁ hw'
    · rintro ⟨⟨hFirst, hCarried⟩, hCopies⟩
      have hPiece : c.pieceLen e = v.1.len := hCut.trans hFirst.symm
      have hCopy := hCopies v List.mem_cons_self e hEntry
      rw [← hPiece, hOff] at hCopy
      obtain ⟨⟨m₁, c₁⟩, hHead⟩ := (hHeadOk (by omega) (by omega)).mpr hCopy
      obtain ⟨⟨r, hTail⟩, hPieces⟩ := (hNext m₁ c₁ hHead hPiece).mpr
        ⟨hCarried, fun w hw => hCopies w (List.mem_cons_of_mem _ hw)⟩
      have hCursor := (writeEntry_advance hEntry hHead).1
      refine ⟨⟨r, ?_⟩, ?_⟩
      · rw [List.map_cons, writeEntries, hHead, ok_bind]
        exact hTail
      · rw [List.map_cons, writePieces, hHead, List.map_cons]
        dsimp only
        rw [hPieces, hCursor, hOff, ← hPiece]
        rfl

theorem writeEntries_counts {slots : List Slot} {c c' : Cursor}
    (h : m.writeEntries buf slots c = .ok (m', c')) :
    c'.src = c.src + ((m.writePieces buf slots c).map Prod.snd).sum ∧
      c'.ret = c.ret + ((m.writePieces buf slots c).map Prod.snd).sum ∧
      (m.writePieces buf slots c).length = slots.length := by
  induction slots generalizing m c with
  | nil =>
    cases h
    exact ⟨rfl, rfl, rfl⟩
  | cons slot slots ih =>
    obtain ⟨⟨m₁, c₁⟩, hHead, hTail⟩ := bind_eq_ok h
    obtain ⟨e, _, _, hEntry, _⟩ := writeEntry_eq_ok hHead
    obtain ⟨hSrc, hRet, hCount⟩ := ih hTail
    have hCursor := (writeEntry_advance hEntry hHead).1
    rw [writePieces, hHead]
    dsimp only
    rw [List.map_cons, List.sum_cons, hSrc, hRet, List.length_cons, List.length_cons, hCount, hCursor]
    dsimp only [Cursor.advance]
    omega

def Chained : Nat → List (Nat × Nat) → Prop
  | _, [] => True
  | off, p :: pieces => p.1 = off ∧ Chained (off + p.2) pieces

theorem writePieces_chained (m : Mmio) (buf : Nat → UInt8) (slots : List Slot) (c : Cursor) :
    Chained c.off (m.writePieces buf slots c) := by
  induction slots generalizing m c with
  | nil => trivial
  | cons slot slots ih =>
    rw [writePieces]
    cases hHead : m.writeEntry buf slot c with
    | error err => trivial
    | ok r =>
      obtain ⟨e, _, _, hEntry, _⟩ := writeEntry_eq_ok hHead
      have hCursor := (writeEntry_advance hEntry hHead).1
      have hTail := ih r.1 r.2
      refine ⟨rfl, ?_⟩
      have hOff : r.2.off = c.off + r.2.n := by
        rw [hCursor]
        rfl
      rw [← hOff]
      exact hTail

theorem writeEntry_congr {buf' : Nat → UInt8} {slot : Slot} {e : IdxEntry} {c : Cursor}
    (hEntry : m.radixlog.entryAt slot = some e)
    (hSame : ∀ i, i < c.pieceLen e → buf' (c.src + i) = buf (c.src + i)) :
    m.writeEntry buf' slot c = m.writeEntry buf slot c := by
  have hLog : ∀ (m₁ : Mmio) (e₁ : IdxEntry) (lo : Nat),
      m₁.logPiece buf' e₁ c.dst c.src lo (c.pieceLen e) =
        m₁.logPiece buf e₁ c.dst c.src lo (c.pieceLen e) := by
    intro m₁ e₁ lo
    unfold logPiece
    cases m₁.policy with
    | undo => rfl
    | redo =>
      dsimp only
      rw [blit_congr hSame]
  have hStore : ∀ (m₁ : Mmio) (e₁ : IdxEntry), e₁.logSize = e.logSize →
      m₁.storePiece buf' e₁ c = m₁.storePiece buf e₁ c := by
    intro m₁ e₁ hSize
    unfold storePiece
    rw [hSize]
    dsimp only
    rw [Cursor.clip_eq_pieceLen, hLog]
  unfold writeEntry
  rw [hEntry]
  dsimp only
  unfold retireStale
  split
  · rw [checkpointEntry]
    cases m.storeRedo e with
    | error err => rfl
    | ok m₁ =>
      rw [ok_bind, ok_bind, ok_bind]
      dsimp only
      rw [hStore m₁ (m₁.emptied e) rfl]
  · rw [ok_bind, ok_bind]
    dsimp only
    rw [hStore m e rfl]

/-- The iterations look at the buffer only where their pieces come from. -/
theorem writeEntries_congr {buf' : Nat → UInt8} {slots : List Slot} {c c' : Cursor} {len : Nat}
    (h : m.writeEntries buf slots c = .ok (m', c')) (hEnd : c'.src ≤ len)
    (hSame : ∀ i, i < len → buf' i = buf i) : m.writeEntries buf' slots c = .ok (m', c') := by
  induction slots generalizing m c with
  | nil => exact h
  | cons slot slots ih =>
    obtain ⟨⟨m₁, c₁⟩, hHead, hTail⟩ := bind_eq_ok h
    obtain ⟨e, _, _, hEntry, _⟩ := writeEntry_eq_ok hHead
    have hCursor := (writeEntry_advance hEntry hHead).1
    have hSrc := (writeEntries_counts hTail).1
    have hRead : c.src + c.pieceLen e ≤ len := by
      rw [hCursor] at hSrc
      dsimp only [Cursor.advance] at hSrc
      omega
    have hPiece : m.writeEntry buf' slot c = m.writeEntry buf slot c :=
      writeEntry_congr hEntry fun i hi => hSame _ (by omega)
    rw [writeEntries, hPiece, hHead, ok_bind]
    exact ih hTail

theorem finishWrite_congr {buf' : Nat → UInt8} {off len ret : Nat}
    (hSame : ∀ i, i < len → buf' i = buf i) :
    m.finishWrite off buf' len ret = m.finishWrite off buf len ret := by
  unfold finishWrite updateFile
  dsimp only
  cases m.policy with
  | redo => rfl
  | undo =>
    have hBlit (dst : Nat → UInt8) (pos : Nat) : blit dst pos buf' 0 len = blit dst pos buf 0 len := by
      apply blit_congr
      intro i hi
      rw [Nat.zero_add]
      exact hSame i hi
    dsimp only
    unfold ntstore
    rw [hBlit]

end Loop

end Libnvmmio.Mmio

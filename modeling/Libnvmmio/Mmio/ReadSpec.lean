import Libnvmmio.Mmio.Read
import Libnvmmio.Mmio.Merge
import Libnvmmio.Mmio.WriteSpec

/-! # What `mmio_read` delivers

Under UNDO the file is copied. Under REDO the copies of one iteration follow
one another and together deliver the contents of the block, unless the log
lies inside the request: then the last copy starts too far in the file.
-/

namespace Libnvmmio.Mmio

open RangeCopy RadixLog Outcome

set_option autoImplicit false

structure Copied (view : Nat → UInt8) (c c' : ReadCursor) (n : Nat) : Prop where
  buf : c'.buf = blit c.buf c.dst (fun i => view (c.offset + i)) 0 n
  dst : c'.dst = c.dst + n
  offset : c'.offset = c.offset + n

theorem Copied.refl (view : Nat → UInt8) (c : ReadCursor) : Copied view c c 0 :=
  ⟨(blit_zero _ _ _ _).symm, rfl, rfl⟩

theorem Copied.trans {view : Nat → UInt8} {c c' c'' : ReadCursor} {n k : Nat}
    (h : Copied view c c' n) (h' : Copied view c' c'' k) : Copied view c c'' (n + k) where
  buf := by
    rw [h'.buf, h.buf, h.dst, h.offset]
    funext i
    simp only [blit, Nat.zero_add]
    split_ifs <;> first | rfl | omega | (congr 1; omega)
  dst := by rw [h'.dst, h.dst, Nat.add_assoc]
  offset := by rw [h'.offset, h.offset, Nat.add_assoc]

theorem copied_of_copy {view : Nat → UInt8} (c : ReadCursor) {src : Nat → UInt8} {srcPos n : Nat}
    (h : ∀ i, i < n → src (srcPos + i) = view (c.offset + i)) : Copied view c (c.copy src srcPos n) n where
  buf := by
    rw [ReadCursor.copy]
    funext i
    simp only [blit, Nat.zero_add]
    split
    · exact h _ (by omega)
    · rfl
  dst := rfl
  offset := rfl

theorem copied_of_copyFile {m : Mmio} {view : Nat → UInt8} (c : ReadCursor) {n : Nat}
    (hMapped : c.offset + n ≤ m.mapLen)
    (h : ∀ i, i < n → m.disk.bytes (c.offset + i) = view (c.offset + i)) :
    ∃ c', m.copyFile c (m.start + c.offset) n = .ok c' ∧ Copied view c c' n := by
  refine ⟨c.copy (fun i => m.disk.bytes (c.offset + i)) 0 n, ?_, copied_of_copy c ?_⟩
  · rw [copyFile, load_file hMapped, ok_bind]
  · intro i hi
    rw [Nat.zero_add]
    exact h i hi

theorem copyFile_zero (m : Mmio) (c : ReadCursor) (src : Nat) :
    ∃ c', m.copyFile c src 0 = .ok c' ∧ ∀ view, Copied view c c' 0 := by
  refine ⟨_, by rw [copyFile, load, if_pos (.inl rfl), ok_bind], fun view => ?_⟩
  apply copied_of_copy
  intro i hi
  omega

/-- The log of the entry ends before the request does, and starts within it:
the case (3) of `read_redolog` that has a tail to copy. -/
def LogInside (e : IdxEntry) (off n : Nat) : Prop :=
  0 < e.len ∧ off % e.logSize.size ≤ e.offset ∧ e.offset + e.len < off % e.logSize.size + n

/-- The view over a block whose position `lo` is the offset of the cursor: the
log of the entry over the bytes of the file. -/
structure BlockView (m : Mmio) (e : IdxEntry) (lo : Nat) (c : ReadCursor) (view : Nat → UInt8) :
    Prop where
  mapped : c.offset + c.len ≤ m.mapLen
  logged : ∀ i, i < c.len → e.extent.Covers (lo + i) → e.log (lo + i) = view (c.offset + i)
  stored : ∀ i, i < c.len → ¬ e.extent.Covers (lo + i) → m.disk.bytes (c.offset + i) = view (c.offset + i)

section BlockView

variable {m : Mmio} {e : IdxEntry} {lo : Nat} {c : ReadCursor} {view : Nat → UInt8}

theorem BlockView.copy_log (h : BlockView m e lo c view) {c₁ : ReadCursor} {n : Nat}
    (hDone : Copied view c c₁ n) (srcPos k total : Nat) (hPos : srcPos = lo + n) (hTotal : n + k = total)
    (hEnd : total ≤ c.len) (hLog : e.offset ≤ lo + n ∧ lo + total ≤ e.offset + e.len) :
    Copied view c (c₁.copy e.log srcPos k) total := by
  subst hPos hTotal
  apply hDone.trans
  apply copied_of_copy
  intro i hi
  rw [hDone.offset, Nat.add_assoc, Nat.add_assoc]
  apply h.logged _ (by omega)
  constructor <;> dsimp only [IdxEntry.extent] <;> omega

theorem BlockView.copy_file (h : BlockView m e lo c view) {c₁ : ReadCursor} {n : Nat}
    (hDone : Copied view c c₁ n) (k total : Nat) (hTotal : n + k = total) (hEnd : total ≤ c.len)
    (hFile : e.len = 0 ∨ lo + total ≤ e.offset ∨ e.offset + e.len ≤ lo + n) :
    ∃ c₂, m.copyFile c₁ (m.start + c₁.offset) k = .ok c₂ ∧ Copied view c c₂ total := by
  subst hTotal
  have hMapped := h.mapped
  have hPart : ∃ c₂, m.copyFile c₁ (m.start + c₁.offset) k = .ok c₂ ∧ Copied view c₁ c₂ k := by
    apply copied_of_copyFile
    · rw [hDone.offset]
      omega
    · intro i hi
      rw [hDone.offset, Nat.add_assoc]
      apply h.stored _ (by omega)
      rintro ⟨hLow, hHigh⟩
      dsimp only [IdxEntry.extent] at hLow hHigh
      omega
  obtain ⟨c₂, hOk, hPart⟩ := hPart
  exact ⟨c₂, hOk, hDone.trans hPart⟩

theorem readEntry_delivers {n : Nat}
    (hPart : n = min c.len (e.logSize.size - c.offset % e.logSize.size))
    (h : BlockView m e (c.offset % e.logSize.size) { c with len := n } view)
    (hInside : ¬ LogInside e c.offset n) : ∃ c', m.readEntry e c = .ok c' ∧ Copied view c c' n := by
  have hStart : Copied view { c with len := n } c 0 := ⟨(blit_zero _ _ _ _).symm, rfl, rfl⟩
  have hClip : (if e.logSize.size - c.offset % e.logSize.size < c.len then
      e.logSize.size - c.offset % e.logSize.size else c.len) = n := by
    split <;> omega
  suffices hCopied : ∃ c', m.readEntry e c = .ok c' ∧ Copied view { c with len := n } c' n by
    obtain ⟨c', hOk, hCopied⟩ := hCopied
    exact ⟨c', hOk, hCopied.buf, hCopied.dst, hCopied.offset⟩
  unfold LogInside at hInside
  unfold readEntry
  dsimp only
  rw [hClip]
  clear hClip hPart
  generalize c.offset % e.logSize.size = lo at *
  by_cases hLen : 0 < e.len
  · rw [if_pos hLen]
    rcases checkLog_cases lo (lo + n) e.offset (e.offset + e.len) with
      ⟨hCase, _, _⟩ | ⟨hCase, _, _, _⟩ | ⟨hCase, _, _, _⟩ | ⟨hCase, _, _⟩ | ⟨hCase, _, _, _⟩ |
      ⟨hCase, _, _, _⟩ <;> rw [hCase] <;> dsimp only
    · exact h.copy_file hStart _ _ (by omega) (Nat.le_refl _) (by omega)
    · obtain ⟨c₁, hOk, hHead⟩ := h.copy_file hStart (e.offset - lo) (e.offset - lo) (by omega)
        (by dsimp only; omega) (by omega)
      rw [hOk, ok_bind]
      exact ⟨_, rfl, h.copy_log hHead _ _ _ (by omega) (by omega) (Nat.le_refl _) (by omega)⟩
    · -- the request and the log end together, so the misplaced tail is empty
      obtain ⟨c₁, hOk, hHead⟩ := h.copy_file hStart (e.offset - lo) (e.offset - lo) (by omega)
        (by dsimp only; omega) (by omega)
      have hLog := h.copy_log hHead e.offset (e.offset + e.len - e.offset) n (by omega)
        (by omega) (Nat.le_refl _) (by omega)
      have hTail : lo + n - (e.offset + e.len) = 0 := by omega
      rw [hOk, ok_bind, hTail]
      obtain ⟨c₂, hOk', hEmpty⟩ := copyFile_zero m
        (c₁.copy e.log e.offset (e.offset + e.len - e.offset)) _
      exact ⟨c₂, hOk', hLog.trans (hEmpty view)⟩
    · exact ⟨_, rfl, h.copy_log hStart _ _ _ (by omega) (by omega) (Nat.le_refl _) (by omega)⟩
    · have hHead := h.copy_log hStart lo (e.offset + e.len - lo) (e.offset + e.len - lo) (by omega)
        (by omega) (by dsimp only; omega) (by omega)
      exact h.copy_file hHead _ _ (by omega) (Nat.le_refl _) (by omega)
    · exact h.copy_file hStart _ _ (by omega) (Nat.le_refl _) (by omega)
  · rw [if_neg hLen]
    exact h.copy_file hStart _ _ (by omega) (Nat.le_refl _) (by omega)

theorem readEntry_spec (hPiece : c.offset % e.logSize.size + c.len ≤ e.logSize.size)
    (h : BlockView m e (c.offset % e.logSize.size) c view) (hInside : ¬ LogInside e c.offset c.len) :
    ∃ c', m.readEntry e c = .ok c' ∧ Copied view c c' c.len :=
  readEntry_delivers (by omega) h hInside

end BlockView

/-- When the log ends inside the request, what follows it is read from the file
as far behind its place as the log ends behind the start of the request. -/
theorem readEntry_logInside {m : Mmio} {e : IdxEntry} {c : ReadCursor}
    (hPiece : c.offset % e.logSize.size + c.len ≤ e.logSize.size) (hInside : LogInside e c.offset c.len)
    (hMapped : c.offset + c.len + (e.offset + e.len - c.offset % e.logSize.size) ≤ m.mapLen) :
    ∃ c', m.readEntry e c = .ok c' ∧ ∀ i, e.offset + e.len ≤ c.offset % e.logSize.size + i →
      i < c.len → c'.buf (c.dst + i) =
        m.disk.bytes (c.offset + i + (e.offset + e.len - c.offset % e.logSize.size)) := by
  obtain ⟨hLen, hLow, hHigh⟩ := hInside
  have hWhole : ¬ e.logSize.size - c.offset % e.logSize.size < c.len := by omega
  unfold readEntry
  dsimp only
  rw [if_neg hWhole, if_pos hLen]
  generalize c.offset % e.logSize.size = lo at *
  have hCase : checkLog lo (lo + c.len) e.offset (e.offset + e.len) = .covers := by
    rw [checkLog, if_pos hLow, if_pos (by omega), if_neg (by omega)]
  rw [hCase]
  dsimp only
  rw [copyFile, load_file (by omega), ok_bind, ok_bind, copyFile]
  dsimp only [ReadCursor.copy]
  rw [Nat.add_assoc m.start, load_file (by omega), ok_bind]
  refine ⟨_, rfl, fun i hFrom hTo => ?_⟩
  dsimp only
  rw [blit_inside (by omega) (by omega)]
  congr 1
  omega

def readLen (m : Mmio) (off len : Nat) : Nat := min len (m.fsize - off)

theorem clipLen_eq {m : Mmio} {off len : Nat} (hOff : off ≤ m.fsize) (hRange : off + len < 2 ^ 63) :
    m.clipLen off len = m.readLen off len := by
  unfold clipLen checkFsize readLen
  rw [toOffT_of_lt hRange]
  split
  · rename_i hPast
    rw [decide_eq_true_eq] at hPast
    split <;> omega
  · rename_i hWithin
    rw [decide_eq_true_eq] at hWithin
    omega

/-- The requests that `mmio_read` serves as it means to. -/
structure ReadGuard (m : Mmio) (off len : Nat) : Prop where
  in_span : off + len ≤ m.radixlog.skipType.span
  one_block : m.policy = .redo → m.OneBlock off len
  not_inside : m.policy = .redo → ∀ e, m.radixlog.entryOf off = some e →
    ¬ LogInside e off (m.readLen off len)

structure ReadDone (m : Mmio) (off : Nat) (buf : Nat → UInt8) (len : Nat) (m' : Mmio)
    (buf' : Nat → UInt8) : Prop where
  buf_eq : buf' = blit buf 0 (fun i => m.contents (off + i)) 0 (m.readLen off len)
  locked : ∃ m₁ head, LockRun m [] m₁ head ∧ m' = { m₁ with read := m₁.read + 1 }

theorem deliver_undo {m : Mmio} {head : List Slot} {off len : Nat} {buf : Nat → UInt8}
    (hTidy : m.Tidy) (hUndo : m.policy = .undo) (hMapped : off + len ≤ m.mapLen)
    (hSpan : off + len ≤ m.radixlog.skipType.span) :
    m.deliver head off buf len = .ok (blit buf 0 (fun i => m.contents (off + i)) 0 len) := by
  rw [deliver, hUndo]
  dsimp only
  rw [load_file hMapped, ok_bind]
  congr 1
  apply blit_congr
  intro i hi
  rw [Nat.zero_add, contents_of_undo hTidy hUndo (by omega)]

theorem deliver_redo {m : Mmio} {slot : Slot} {s : LogSize} {off len : Nat} {buf : Nat → UInt8}
    (hTidy : m.Tidy) (hSlot : m.radixlog.SlotOf slot s off) (hRedo : m.policy = .redo)
    (hInstalled : ∃ e, m.radixlog.entryAt slot = some e) (hFits : off % s.size + len ≤ s.size)
    (hMapped : off + len ≤ m.mapLen)
    (hInside : ∀ e, m.radixlog.entryOf off = some e → ¬ LogInside e off len) :
    m.deliver [slot] off buf len = .ok (blit buf 0 (fun i => m.contents (off + i)) 0 len) := by
  obtain ⟨e, hEntry⟩ := hInstalled
  have hOf : m.radixlog.entryOf off = some e := hSlot.entryOf.trans hEntry
  have hs : e.logSize = s := hTidy.sound.entryOf_size hOf hSlot.find hSlot.size
  have hSplit := s.blockStart_add_mod off
  have hContents : ∀ i, i < len → m.contents (off + i) =
      if e.extent.Covers (off % s.size + i) then e.log (off % s.size + i)
      else m.disk.bytes (off + i) := by
    intro i hi
    have hBlock : (off + i) / s.size = off / s.size := by
      rw [s.block_eq_iff]
      omega
    have hOf' : m.radixlog.entryOf (off + i) = some e :=
      hTidy.sound.entryOf_congr_block hOf (by rw [hs]; exact hBlock.symm)
    have hPos : (off + i) % s.size = off % s.size + i := by
      have hMod := LogSize.mod_eq_sub hBlock
      omega
    rw [Mmio.contents, through_some hOf', hs, hPos]
    by_cases hCovers : e.extent.Covers (off % s.size + i)
    · have hPolicy := (hTidy.lodged off e hSlot.in_span hOf hCovers.len_pos).policy_eq
      rw [if_pos ⟨hPolicy.trans hRedo, hCovers⟩, if_pos hCovers]
    · rw [if_neg (fun h => hCovers h.2), if_neg hCovers]
  have hView : BlockView m e (off % e.logSize.size) ⟨buf, 0, off, len⟩ m.contents := by
    rw [hs]
    refine ⟨hMapped, fun i hi hCovers => ?_, fun i hi hCovers => ?_⟩
    · rw [hContents i hi, if_pos hCovers]
    · rw [hContents i hi, if_neg hCovers]
  obtain ⟨c', hOk, hCopied⟩ := readEntry_spec (c := ⟨buf, 0, off, len⟩)
    (by rw [hs]; exact hFits) hView (hInside e hOf)
  unfold deliver
  rw [hRedo]
  dsimp only [readRedolog]
  rw [hEntry]
  dsimp only
  rw [hOk, ok_bind, ok_bind, hCopied.buf]

theorem deliver_logInside {m : Mmio} {slot : Slot} {e : IdxEntry} {off len : Nat}
    (buf : Nat → UInt8) (hRedo : m.policy = .redo) (hEntry : m.radixlog.entryAt slot = some e)
    (hPiece : off % e.logSize.size + len ≤ e.logSize.size) (hInside : LogInside e off len)
    (hMapped : off + len + (e.offset + e.len - off % e.logSize.size) ≤ m.mapLen) :
    ∃ buf', m.deliver [slot] off buf len = .ok buf' ∧
      ∀ i, e.offset + e.len ≤ off % e.logSize.size + i → i < len →
        buf' i = m.disk.bytes (off + i + (e.offset + e.len - off % e.logSize.size)) := by
  obtain ⟨c, hOk, hTail⟩ := readEntry_logInside (c := ⟨buf, 0, off, len⟩) hPiece hInside hMapped
  refine ⟨c.buf, ?_, fun i hFrom hTo => ?_⟩
  · rw [deliver, hRedo]
    dsimp only [readRedolog]
    rw [hEntry]
    dsimp only
    rw [hOk, ok_bind, ok_bind]
  · have hByte := hTail i hFrom hTo
    dsimp only at hByte
    rw [Nat.zero_add] at hByte
    exact hByte

def Delivers (m : Mmio) (off : Nat) (buf : Nat → UInt8) (len n : Nat) : Prop :=
  ∃ m₁ head, lockEntries .rd m (toInt len) off [] = .ok (m₁, head) ∧ LockRun m [] m₁ head ∧
    m₁.deliver head off buf n = .ok (blit buf 0 (fun i => m₁.contents (off + i)) 0 n)

theorem delivers_undo {m : Mmio} {off len n : Nat} (buf : Nat → UInt8) (hTidy : m.Tidy)
    (hUndo : m.policy = .undo) (hMapped : off + n ≤ m.mapLen)
    (hSpan : off + len ≤ m.radixlog.skipType.span) (hShort : n ≤ len) : m.Delivers off buf len n := by
  have hInt := toInt_le len
  have hHeld : m.HeldBefore off [] := fun slot hMem => by cases hMem
  obtain ⟨m₁, head, hLock⟩ := lockEntries_succeeds (n := toInt len) .rd hTidy.sound (by omega) hHeld
  have hLocked := lockEntries_run hTidy.sound hLock
  refine ⟨m₁, head, hLock, hLocked, ?_⟩
  have hAcq := hLocked.acquires
  have hTidy₁ := hLocked.tidy hTidy
  obtain ⟨⟨r, k, rfl⟩, _, _⟩ := hLocked
  apply deliver_undo hTidy₁ hUndo hMapped
  rw [hAcq.skipType hTidy.sound]
  omega

theorem delivers_redo {m : Mmio} {off len n : Nat} (buf : Nat → UInt8) (hTidy : m.Tidy)
    (hRedo : m.policy = .redo) (hMapped : off + n ≤ m.mapLen)
    (hSpan : off + len ≤ m.radixlog.skipType.span) (hShort : n ≤ len) (hBlock : m.OneBlock off len)
    (hInside : ∀ e, m.radixlog.entryOf off = some e → ¬ LogInside e off n) :
    m.Delivers off buf len n := by
  rcases Nat.eq_zero_or_pos len with hZero | hPos
  · subst hZero
    have hNone : n = 0 := by omega
    have hLock := lockEntries_zero .rd m off
    refine ⟨m, [], hLock, lockEntries_run hTidy.sound hLock, ?_⟩
    rw [hNone, blit_zero, deliver, hRedo]
    rfl
  · obtain ⟨slot, s, m₁, hLock, hStep, _, hFits⟩ := lockEntries_oneBlock .rd hTidy.sound hPos hBlock
    have hSize := s.size_le
    rw [lmdShift] at hSize
    have hInt : toInt len = len := toInt_of_lt (by omega)
    have hLocked := lockEntries_run hTidy.sound hLock
    have hSlot := hStep.slotOf hTidy.sound (by omega)
    have hTidy₁ := hLocked.tidy hTidy
    have hAcq := hStep.acquires
    have hInside₁ : ∀ e, m₁.radixlog.entryOf off = some e → ¬ LogInside e off n := by
      intro e hEntry hIn
      exact hInside e (hAcq.entryOf_of_len hTidy.sound hEntry hIn.1) hIn
    refine ⟨m₁, [slot], by rw [hInt, hLock], hLocked, ?_⟩
    have hInstalled := hStep.installed
    obtain ⟨r, k, rfl⟩ := hStep.frame
    exact deliver_redo hTidy₁ hSlot hRedo hInstalled (by omega) hMapped hInside₁

theorem mmioRead_spec {m : Mmio} {off len : Nat} (buf : Nat → UInt8) (hTidy : m.Tidy)
    (hOff : off ≤ m.fsize) (hMapped : m.fsize ≤ m.mapLen) (hGuard : m.ReadGuard off len) :
    ∃ m' buf', m.mmioRead off buf len = .ok (m', m.readLen off len, buf') ∧
      m.ReadDone off buf len m' buf' := by
  have hSpanLe := m.radixlog.skipType.span_le
  have hSpan := hGuard.in_span
  have hEnd : off + m.readLen off len ≤ m.mapLen := by
    rw [readLen]
    omega
  have hShort : m.readLen off len ≤ len := Nat.min_le_left _ _
  have hDelivers : m.Delivers off buf len (m.readLen off len) := by
    cases hPolicy : m.policy with
    | undo => exact delivers_undo buf hTidy hPolicy hEnd hSpan hShort
    | redo =>
      exact delivers_redo buf hTidy hPolicy hEnd hSpan hShort (hGuard.one_block hPolicy)
        (hGuard.not_inside hPolicy)
  obtain ⟨m₁, head, hLock, hLocked, hDeliver⟩ := hDelivers
  have hSame : (fun i => m₁.contents (off + i)) = fun i => m.contents (off + i) :=
    funext fun i => hLocked.contents hTidy.sound _
  have hClip : m₁.clipLen off len = m.readLen off len := by
    obtain ⟨⟨r, k, rfl⟩, _, _⟩ := hLocked
    exact clipLen_eq hOff (by omega)
  rw [hSame] at hDeliver
  refine ⟨{ m₁ with read := m₁.read + 1 }, _, ?_, rfl, m₁, head, hLocked, rfl⟩
  rw [mmioRead, hLock, ok_bind]
  dsimp only
  rw [hClip, hDeliver, ok_bind]

/-- What `mmio_read` delivers behind a log that lies inside the request. -/
theorem mmioRead_logInside {m : Mmio} {e : IdxEntry} {off len : Nat} (buf : Nat → UInt8)
    (hTidy : m.Tidy) (hRedo : m.policy = .redo) (hOff : off ≤ m.fsize) (hPos : 0 < len)
    (hBlock : m.OneBlock off len) (hSpan : off + len ≤ m.radixlog.skipType.span)
    (hEntry : m.radixlog.entryOf off = some e) (hInside : LogInside e off (m.readLen off len))
    (hMapped : off + m.readLen off len + (e.offset + e.len - off % e.logSize.size) ≤ m.mapLen) :
    ∃ m' buf', m.mmioRead off buf len = .ok (m', m.readLen off len, buf') ∧
      ∀ i, e.offset + e.len ≤ off % e.logSize.size + i → i < m.readLen off len →
        buf' i = m.disk.bytes (off + i + (e.offset + e.len - off % e.logSize.size)) := by
  obtain ⟨slot, s, m₁, hLock, hStep, _, hFits⟩ := lockEntries_oneBlock .rd hTidy.sound hPos hBlock
  have hSpanLe := m.radixlog.skipType.span_le
  have hShort : m.readLen off len ≤ len := Nat.min_le_left _ _
  have hInt : toInt len = len := by
    apply toInt_of_lt
    have hSize := s.size_le
    rw [lmdShift] at hSize
    omega
  have hSlot := hStep.slotOf hTidy.sound (by omega)
  have hOf : m₁.radixlog.entryOf off = some e := by
    rcases hStep.acquires.entryOf hTidy.sound off with hSame | ⟨hNone, _⟩
    · exact hSame.trans hEntry
    · rw [hEntry] at hNone
      cases hNone
  have hSize : e.logSize = s := hStep.acquires.sound.entryOf_size hOf hSlot.find hSlot.size
  obtain ⟨r, k, hFrame⟩ := hStep.frame
  have hClip : m₁.clipLen off len = m.readLen off len := by
    rw [hFrame]
    exact clipLen_eq hOff (by omega)
  have hFile : m₁.disk = m.disk ∧ m₁.mapLen = m.mapLen ∧ m₁.policy = m.policy := by
    rw [hFrame]
    exact ⟨rfl, rfl, rfl⟩
  obtain ⟨hDisk, hMapLen, hPolicy⟩ := hFile
  obtain ⟨buf', hDeliver, hTail⟩ := deliver_logInside buf (hPolicy.trans hRedo)
    (hSlot.entryOf.symm.trans hOf) (by rw [hSize]; omega) hInside (by rw [hMapLen]; exact hMapped)
  rw [hDisk] at hTail
  refine ⟨{ m₁ with read := m₁.read + 1 }, buf', ?_, hTail⟩
  rw [mmioRead, hInt, hLock, ok_bind]
  dsimp only
  rw [hClip, hDeliver, ok_bind]

end Libnvmmio.Mmio

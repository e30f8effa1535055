import Libnvmmio.Mmio.SettledRuns

/-! # An object behaves as a plain file

The abstract file is a length and bytes. Requests that stay in one block, over
a steady base under REDO, are answered as the abstract file answers them, and
commits and checkpoints go unnoticed.
-/

namespace Libnvmmio

open RangeCopy RadixLog Outcome GuardedRun Mmio

set_option autoImplicit false

structure PlainFile where
  size : Nat
  bytes : Nat → UInt8

namespace PlainFile

def serve (f : PlainFile) : Request → PlainFile × Reply
  | .write _ _ off buf len =>
    (⟨if len = 0 then f.size else max f.size (off + len), blit f.bytes off buf 0 len⟩, .wrote len)
  | .read off buf len =>
    (f, .delivered (min len (f.size - off)) (blit buf 0 f.bytes off (min len (f.size - off))))
  | .commit => (f, .done)
  | .checkpoint => (f, .done)

def ofOpened (m : Mmio) : PlainFile := ⟨m.fsize, m.disk.bytes⟩

end PlainFile

namespace Mmio

def Servable (home : Prop) (m : Mmio) : Request → Prop
  | .write fdWritable remap off buf len =>
    fdWritable = true ∧ off ≤ m.fsize ∧ SafeRequest home m (.write fdWritable remap off buf len)
  | .read off _ len => off ≤ m.fsize ∧ m.ReadGuard off len
  | .commit => True
  | .checkpoint => m.radixlog.SkipSized

structure Represents (home : Prop) (m : Mmio) (f : PlainFile) : Prop where
  settled : m.Settled home
  fsize_le : m.fsize ≤ m.mapLen
  size : m.fsize = f.size
  contents : ∀ i, i < m.fsize → i < m.radixlog.skipType.span → m.contents i = f.bytes i

section Steps

variable {home : Prop} {m : Mmio} {f : PlainFile}

theorem Represents.write_zero (h : Represents home m f) {remap : Nat → Nat} {off : Nat}
    (buf : Nat → UInt8) (hOff : off ≤ m.fsize) :
    ∃ m', m.perform (.write true remap off buf 0) = .ok (m', .wrote 0) ∧
      Represents home m' (f.serve (.write true remap off buf 0)).1 := by
  have hGrown : m.grown remap off = m := grown_of_le remap (Nat.le_trans hOff h.fsize_le)
  have hSize : max m.fsize off = m.fsize := Nat.max_eq_left hOff
  refine ⟨_, by rw [perform, mmioWrite_zero, ok_bind], ?_⟩
  rw [hGrown, hSize]
  obtain ⟨⟨hSound, hLodged, hUnlocked, hMapped⟩, hWatched, hHome⟩ := h.settled
  refine ⟨⟨⟨hSound, hLodged, hUnlocked, hMapped⟩, hWatched, hHome⟩, h.fsize_le, h.size, fun i hi hSpan => ?_⟩
  dsimp only [PlainFile.serve]
  rw [blit_zero]
  exact h.contents i hi hSpan

theorem Represents.write (h : Represents home m f) {remap : Nat → Nat} {off len : Nat}
    (buf : Nat → UInt8) (hOff : off ≤ m.fsize)
    (hSafe : SafeRequest home m (.write true remap off buf len)) (hPos : 0 < len) :
    ∃ m', m.perform (.write true remap off buf len) = .ok (m', .wrote len) ∧
      Represents home m' (f.serve (.write true remap off buf len)).1 := by
  obtain ⟨hBlock, hSteady⟩ := hSafe
  obtain ⟨m₁, slot, s, bytes, e₁, e, m', hOk, hStages⟩ := mmioWrite_stages remap buf h.settled.tidy
    h.settled.homeForRedo hBlock (fun hRedo => (hSteady (h.settled.watched hRedo)).still) hPos
  have hFrame := hStages.writeFrame h.settled.tidy
  have hGrown := le_grownLen m.mapLen (off + len)
  have hFsize := h.fsize_le
  refine ⟨m', by rw [perform, hOk, ok_bind], h.settled.write hBlock hSteady hOk, ?_, ?_, ?_⟩
  · rw [hFrame.fsize, hFrame.mapLen]
    omega
  · dsimp only [PlainFile.serve]
    rw [hFrame.fsize, if_neg (by omega), h.size]
  · intro i hi hSpan
    rw [hFrame.fsize] at hi
    rw [hFrame.skipType] at hSpan
    dsimp only [PlainFile.serve]
    rw [hStages.contents h.settled.tidy hSpan, blit]
    split
    · rw [Nat.zero_add]
    · exact h.contents i (by omega) hSpan

theorem Represents.read (h : Represents home m f) {off len : Nat} (buf : Nat → UInt8)
    (hOff : off ≤ m.fsize) (hGuard : m.ReadGuard off len) :
    ∃ m', m.perform (.read off buf len) = .ok (m', (f.serve (.read off buf len)).2) ∧
      Represents home m' f := by
  obtain ⟨m', buf', hOk, hBuf, m₁, head, hLocked, hEq⟩ :=
    mmioRead_spec buf h.settled.tidy hOff h.fsize_le hGuard
  have hSpan := hGuard.in_span
  have hReply : buf' = blit buf 0 f.bytes off (min len (f.size - off)) := by
    rw [hBuf, readLen, ← h.size]
    apply blit_congr
    intro i hi
    rw [Nat.zero_add]
    exact h.contents (off + i) (by omega) (by omega)
  refine ⟨m', ?_, ?_⟩
  · rw [perform, hOk, ok_bind, hReply, readLen, h.size]
    rfl
  · have hSettled := h.settled.locked hLocked
    have hContents := hLocked.contents h.settled.tidy.sound
    have hType := hLocked.acquires.skipType h.settled.tidy.sound
    subst hEq
    obtain ⟨⟨r, k, rfl⟩, _, _⟩ := hLocked
    obtain ⟨⟨hSound, hLodged, hUnlocked, hMapped⟩, hWatched, hHome⟩ := hSettled
    refine ⟨⟨⟨hSound, hLodged, hUnlocked, hMapped⟩, hWatched, hHome⟩, h.fsize_le, h.size, fun i hi hIn => ?_⟩
    exact (hContents i).trans (h.contents i hi (hType ▸ hIn))

theorem Represents.commit (h : Represents home m f) :
    ∃ m', m.perform .commit = .ok (m', .done) ∧ Represents home m' f :=
  ⟨_, by rw [perform, commitMmio_spec, ok_bind], h.settled.commit, h.fsize_le, h.size, h.contents⟩

theorem Represents.checkpoint (h : Represents home m f) (hSkip : m.radixlog.SkipSized) :
    ∃ m', m.perform .checkpoint = .ok (m', .done) ∧ Represents home m' f := by
  obtain ⟨m', hOk, hDone⟩ := checkpointMmio_spec h.settled.tidy h.settled.homeForRedo hSkip
  have hSame : m'.fsize = m.fsize ∧ m'.mapLen = m.mapLen := by
    obtain ⟨r, bytes, rfl⟩ := hDone.checkpointed.frame
    exact ⟨rfl, rfl⟩
  refine ⟨m', by rw [perform, hOk, ok_bind], h.settled.checkpoint hDone, ?_, hSame.1.trans h.size, ?_⟩
  · rw [hSame.1, hSame.2]
    exact h.fsize_le
  · intro i hi hIn
    rw [hSame.1] at hi
    rw [hDone.checkpointed.same.skipType] at hIn
    exact (hDone.contents i hIn).trans (h.contents i hi hIn)

/-- One request: the reply of the abstract file, and the representation of its next state. -/
theorem Represents.step (h : Represents home m f) {request : Request}
    (hServable : m.Servable home request) :
    ∃ m', m.perform request = .ok (m', (f.serve request).2) ∧
      Represents home m' (f.serve request).1 := by
  cases request with
  | write fdWritable remap off buf len =>
    obtain ⟨rfl, hOff, hSafe⟩ := hServable
    rcases Nat.eq_zero_or_pos len with hZero | hPos
    · subst hZero
      exact h.write_zero buf hOff
    · exact h.write buf hOff hSafe hPos
  | read off buf len => exact h.read buf hServable.1 hServable.2
  | commit => exact h.commit
  | checkpoint => exact h.checkpoint hServable

end Steps

theorem Opened.represents {m : Mmio} {home : Prop} (h : m.Opened) (hWatched : m.policy = .redo → home) :
    Represents home m (PlainFile.ofOpened m) where
  settled := h.settled hWatched
  fsize_le := h.fsize_le
  size := rfl
  contents i _ _ := through_none (h.entryOf i)

def fiveByteFile : Mmio := firstOpen .redo (2 ^ 21) ⟨5, fun i => UInt8.ofNat i⟩

theorem fiveByteFile_opened : fiveByteFile.Opened := firstOpen_opened (by decide)

theorem fiveByteFile_safe : SafeRequest (fiveByteFile.policy = .redo) fiveByteFile
    (.write true (fun _ => 2 ^ 21) 1 (fun _ => 9) 1) :=
  ⟨inBlock_of_le_page _ (by decide), fun _ => ⟨Nat.mod_eq_zero_of_dvd (LogSize.size_dvd _), .inl rfl⟩⟩

/-- A read of one byte cannot start before a log and end behind it. -/
theorem readGuard_one {m : Mmio} {off : Nat} (h : off + 1 ≤ 2 ^ pageShift) : m.ReadGuard off 1 where
  in_span := (inBlock_of_le_page m h).in_span
  one_block _ := (inBlock_of_le_page m h).one_block
  not_inside _ e _ hInside := by
    obtain ⟨hLen, hLow, hHigh⟩ := hInside
    have hShort : m.readLen off 1 ≤ 1 := Nat.min_le_left _ _
    omega

end Mmio

end Libnvmmio

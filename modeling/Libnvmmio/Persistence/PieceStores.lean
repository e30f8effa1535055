import Libnvmmio.Persistence.Replay

/-! # What the store of a piece covers

The extent of the header after an iteration of `mmio_write` is the hull of the
piece and of the old extent, or the piece alone. Every byte of it is stored to
the log by the iteration unless the old extent covered it.
-/

namespace Libnvmmio.Persistence

open PersistentMemory RangeCopy RadixLog Mmio Outcome

set_option autoImplicit false

def Fits (e : IdxEntry) : Prop := e.offset + e.len ≤ e.logSize.size

def Logs (events : List MemoryEvent) (k i : Nat) : Prop :=
  ∃ s : MemoryStore, .ntstore s ∈ events ∧ s.data (.byte (.log k) i) ≠ none

section Logs

variable {events events' : List MemoryEvent} {k i : Nat}

theorem Logs.left (h : Logs events k i) : Logs (events ++ events') k i := by
  obtain ⟨s, hMem, hData⟩ := h
  exact ⟨s, List.mem_append_left _ hMem, hData⟩

theorem Logs.right (h : Logs events' k i) : Logs (events ++ events') k i := by
  obtain ⟨s, hMem, hData⟩ := h
  exact ⟨s, List.mem_append_right _ hMem, hData⟩

theorem logs_storeRange {pos n : Nat} (hLow : pos ≤ i) (hHigh : i < pos + n) (src : Nat → UInt8) (srcPos : Nat)
    (events : List MemoryEvent) :
    Logs (.ntstore (storeRange (.log k) pos src srcPos n) :: events) k i := by
  refine ⟨_, List.mem_cons_self, ?_⟩
  have hData : (storeRange (.log k) pos src srcPos n).data (.byte (.log k) i) = some (src (srcPos + (i - pos))) :=
    if_pos ⟨rfl, hLow, hHigh⟩
  rw [hData]
  nofun

end Logs

structure PieceHeader (events : List MemoryEvent) (k lo n : Nat) (e e' : IdxEntry) : Prop where
  fits : Fits e'
  piece : ∀ i, (⟨lo, n⟩ : Extent).Covers i → e'.extent.Covers i
  covered : ∀ i, e'.extent.Covers i → (⟨lo, n⟩ : Extent).Covers i ∨ e.extent.Covers i ∨ Logs events k i

section Header

variable {m : Mmio} {e e' : IdxEntry} {events : List MemoryEvent} {dst lo n k : Nat}

theorem PieceHeader.of_hull (hFits : Fits e) (hPiece : lo + n ≤ e.logSize.size) (hSize : e'.logSize = e.logSize)
    (hOffset : e'.offset = min e.offset lo) (hEnd : e'.offset + e'.len = max (e.offset + e.len) (lo + n))
    (hGap : ∀ i, lo + n ≤ i ∧ i < e.offset ∨ e.offset + e.len ≤ i ∧ i < lo → Logs events k i) :
    PieceHeader events k lo n e e' where
  fits := by
    rw [Fits, hEnd, hSize]
    exact Nat.max_le.mpr ⟨hFits, hPiece⟩
  piece i hi := by
    obtain ⟨hLow, hHigh⟩ := hi
    dsimp only at hLow hHigh
    constructor <;> dsimp only [IdxEntry.extent] <;> omega
  covered i hi := by
    obtain ⟨hLow, hHigh⟩ := hi
    dsimp only [IdxEntry.extent] at hLow hHigh
    by_cases hPiece : (⟨lo, n⟩ : Extent).Covers i
    · exact .inl hPiece
    · by_cases hOld : e.extent.Covers i
      · exact .inr (.inl hOld)
      · refine .inr (.inr (hGap i ?_))
        simp only [Extent.Covers, IdxEntry.extent] at hPiece hOld
        omega

theorem mergeEntry_header (h : m.mergeEntry e dst lo n = .ok e') (hFits : Fits e) (hLow : lo < e.logSize.size)
    (hPiece : lo + n ≤ e.logSize.size) : PieceHeader (mergeEntryEvents m k e dst lo n) k lo n e e' := by
  have hSize := e.logSize.size_le
  have hSame := (mergeEntry_sameTag h).logSize
  have hFits' := hFits
  rw [Fits] at hFits'
  have hCases := checkLog_cases lo (lo + n) e.offset (e.offset + e.len)
  unfold mergeEntry at h
  unfold mergeEntryEvents
  dsimp only at h ⊢
  generalize checkLog lo (lo + n) e.offset (e.offset + e.len) = overlap at h hCases ⊢
  cases overlap with
  | before =>
    obtain ⟨data, _, hDone⟩ := bind_eq_ok h
    simp only [reduceCtorEq, false_and, or_false, true_and] at hCases
    rw [setLen_eq (by omega), setOffset_eq (by omega)] at hDone
    cases hDone
    refine .of_hull hFits hPiece hSame (by dsimp only; omega) (by dsimp only; omega) fun i hi => ?_
    exact logs_storeRange (by omega) (by omega) _ _ _
  | overHead =>
    dsimp only at h
    simp only [reduceCtorEq, false_and, or_false, false_or, true_and] at hCases
    rw [setLen_eq (by omega), setOffset_eq (by omega)] at h
    cases h
    exact .of_hull hFits hPiece hSame (by dsimp only; omega) (by dsimp only; omega) fun i hi => by omega
  | covers =>
    dsimp only at h
    simp only [reduceCtorEq, false_and, or_false, false_or, true_and] at hCases
    rw [setLen_eq (by omega), setOffset_eq (by omega)] at h
    cases h
    exact .of_hull hFits hPiece hSame (by dsimp only; omega) (by dsimp only; omega) fun i hi => by omega
  | inside =>
    simp only [reduceCtorEq, false_and, or_false, false_or, true_and] at hCases
    cases h
    exact .of_hull hFits hPiece rfl (by omega) (by omega) fun i hi => by omega
  | overTail =>
    dsimp only at h
    simp only [reduceCtorEq, false_and, or_false, false_or, true_and] at hCases
    rw [setLen_eq (by omega)] at h
    cases h
    exact .of_hull hFits hPiece hSame (by dsimp only; omega) (by dsimp only; omega) fun i hi => by omega
  | after =>
    obtain ⟨data, _, hDone⟩ := bind_eq_ok h
    simp only [reduceCtorEq, false_and, false_or, true_and] at hCases
    rw [setLen_eq (by omega)] at hDone
    cases hDone
    refine .of_hull hFits hPiece hSame (by dsimp only; omega) (by dsimp only; omega) fun i hi => ?_
    exact logs_storeRange (by omega) (by omega) _ _ _

theorem updateHeader_header (h : m.updateHeader e dst lo n = .ok e') (hFits : Fits e) (hLow : lo < e.logSize.size)
    (hPiece : lo + n ≤ e.logSize.size) : PieceHeader (updateHeaderEvents m k e dst lo n) k lo n e e' := by
  unfold updateHeader at h
  unfold updateHeaderEvents
  split at h
  · rename_i hMerge
    rw [if_pos hMerge]
    exact mergeEntry_header h hFits hLow hPiece
  · rename_i hFresh
    have hSize := e.logSize.size_le
    rw [if_neg hFresh]
    rw [freshEntry, setLen_eq (by omega), setOffset_eq (by omega)] at h
    cases h
    exact ⟨hPiece, fun i hi => hi, fun i hi => .inl hi⟩

end Header

section Piece

variable {m : Mmio} {buf : Nat → UInt8} {e e' : IdxEntry} {c c' : Cursor}

theorem pieceLen_fits (e : IdxEntry) (c : Cursor) :
    c.off % e.logSize.size < e.logSize.size ∧ c.off % e.logSize.size + pieceLen e c ≤ e.logSize.size := by
  have hLow := Nat.mod_lt c.off e.logSize.size_pos
  rw [pieceLen]
  split
  · omega
  · omega

theorem logPiece_logs (m : Mmio) (buf : Nat → UInt8) (k dst src lo n : Nat) {i : Nat}
    (hi : (⟨lo, n⟩ : Extent).Covers i) : Logs (logPieceEvents m buf k dst src lo n) k i := by
  unfold logPieceEvents
  obtain ⟨hLow, hHigh⟩ := hi
  cases m.policy with
  | undo => exact logs_storeRange hLow hHigh _ _ _
  | redo => exact logs_storeRange hLow hHigh _ _ _

theorem storePiece_header (h : m.storePiece buf e c = .ok (e', c')) (hFits : Fits e) (k : Nat) :
    PieceHeader (updateHeaderEvents m k e c.dst (c.off % e.logSize.size) (pieceLen e c)) k
      (c.off % e.logSize.size) (pieceLen e c) e e' := by
  obtain ⟨e₁, hPiece, hRest⟩ := bind_eq_ok h
  obtain ⟨e₂, hHeader, hDone⟩ := bind_eq_ok hRest
  cases hDone
  obtain ⟨log, rfl⟩ := logPiece_eq_ok hPiece
  obtain ⟨hLow, hEnd⟩ := pieceLen_fits e c
  have hLogged : Fits { e with log := log } := hFits
  have hExtent := updateHeader_header (k := k) hHeader hLogged hLow hEnd
  exact ⟨hExtent.fits, hExtent.piece, hExtent.covered⟩

end Piece

end Libnvmmio.Persistence

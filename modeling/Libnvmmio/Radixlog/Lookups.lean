import Libnvmmio.Radixlog.Init

/-! # The lookups of a sequence of calls

`get_log_table` against the walk alone and against `find_log_table`: the
one-entry cache changes no result, and the two walks read one finite map from
the regions of the file to tables.
-/

namespace Libnvmmio.RadixLog

open IndexTrie

set_option autoImplicit false

def getLogTables (r : RadixLog) : List Nat → List Nat × RadixLog
  | [] => ([], r)
  | offset :: offsets =>
    let (table, r) := r.getLogTable offset
    let (tables, r) := getLogTables r offsets
    (table :: tables, r)

/-- Some calls of `get_log_table` in a row, without the one-entry cache. -/
def walkLogTables (r : RadixLog) : List Nat → List Nat × RadixLog
  | [] => ([], r)
  | offset :: offsets =>
    let (table, r) := r.walkLogTable offset
    let (tables, r) := walkLogTables r offsets
    (table :: tables, r)

/-- What `get_log_table` keeps: the shape, and a cache that agrees with the walk. -/
structure Cached (r : RadixLog) : Prop where
  shape : r.Shape
  cache : ∀ offset, checkPrevTable r.prevTableIndex offset = true →
    r.findLogTable offset = some r.prevTable

theorem initRadixlog_cached (filesize : Nat) : (initRadixlog filesize).Cached :=
  ⟨(initRadixlog_wellFormed filesize).shape, (initRadixlog_wellFormed filesize).cache⟩

section OneCall

variable {r : RadixLog} (h : r.Cached) (offset : Nat)

include h

theorem Cached.getLogTable : (r.getLogTable offset).2.Cached := by
  obtain ⟨hWalked, _, hCache⟩ := getLogTable_walked h.shape h.cache offset
  exact ⟨hWalked.shape, hCache⟩

theorem Cached.walked : Walked r (r.getLogTable offset).1 (r.getLogTable offset).2 :=
  (getLogTable_walked h.shape h.cache offset).1

theorem Cached.find_self :
    (r.getLogTable offset).2.findLogTable offset = some (r.getLogTable offset).1 :=
  (getLogTable_walked h.shape h.cache offset).2.1

theorem Cached.skipType : (r.getLogTable offset).2.skipType = r.skipType :=
  (h.walked offset).grows.toExtended.skipType h.shape

/-- A table is installed for the region of the call only. -/
theorem Cached.find_other {o : Nat} (hOffset : offset < r.skipType.span) (ho : o < r.skipType.span)
    (hRegion : o / 2 ^ lmdShift ≠ offset / 2 ^ lmdShift) :
    (r.getLogTable offset).2.findLogTable o = r.findLogTable o := by
  have hWalked := h.walked offset
  cases hBefore : r.findLogTable o with
  | some table => exact hWalked.grows.toExtended.find h.shape hBefore
  | none =>
    cases hAfter : (r.getLogTable offset).2.findLogTable o with
    | none => rfl
    | some table =>
      rcases hWalked.grows.toExtended.find_fresh h.shape hAfter with hOld | hFresh
      · rw [hBefore] at hOld
        cases hOld
      · -- A fresh `TABLE` is the result of the call, which belongs to the other region.
        have hResult : table = (r.getLogTable offset).1 :=
          hWalked.fresh_table table hFresh (hWalked.shape.find_lt hAfter)
            (hWalked.shape.find_type hAfter)
        have hSelf := h.find_self offset
        rw [← hResult] at hSelf
        rw [← h.skipType offset] at hOffset ho
        exact absurd (hWalked.shape.region_eq_of_find_eq ho hOffset hAfter hSelf) hRegion

end OneCall

/-- The walk that creates the missing tables ends where the walk that only reads does. -/
theorem walkLogTable_of_find {r : RadixLog} {offset table : Nat}
    (hFind : r.findLogTable offset = some table) : r.walkLogTable offset = (table, r) := by
  unfold findLogTable at hFind
  unfold walkLogTable getChild
  cases hType : (r.tables r.skip).type with
  | table =>
    simp only [hType, Option.some.injEq] at hFind
    simp only [hFind]
  | lmd =>
    simp only [hType] at hFind
    simp only [hFind]
  | lud =>
    simp only [hType] at hFind
    cases hLmd : (r.tables r.skip).children (ludIndex offset) with
    | none => simp [hLmd] at hFind
    | some lmd =>
      simp only [hLmd] at hFind
      simp only [hFind]
  | lgd =>
    simp only [hType] at hFind
    cases hLud : (r.tables r.skip).children (lgdIndex offset) with
    | none => simp [hLud] at hFind
    | some lud =>
      simp only [hLud] at hFind
      cases hLmd : (r.tables lud).children (ludIndex offset) with
      | none => simp [hLmd] at hFind
      | some lmd =>
        simp only [hLmd] at hFind
        simp only [hLmd, hFind]

def withPrev (r : RadixLog) (table index : Nat) : RadixLog :=
  { r with prevTable := table, prevTableIndex := index }

theorem getChild_withPrev (r : RadixLog) (table index : Nat) (type : TableType) (parent i : Nat) :
    (r.withPrev table index).getChild type parent i =
      ((r.getChild type parent i).1, (r.getChild type parent i).2.withPrev table index) := by
  rw [getChild, getChild]
  have hChildren : ((r.withPrev table index).tables parent).children i = (r.tables parent).children i := rfl
  rw [hChildren]
  cases (r.tables parent).children i <;> rfl

theorem walkLogTable_withPrev (r : RadixLog) (table index offset : Nat) :
    (r.withPrev table index).walkLogTable offset =
      ((r.walkLogTable offset).1, (r.walkLogTable offset).2.withPrev table index) := by
  unfold walkLogTable
  have hSkip : ((r.withPrev table index).tables (r.withPrev table index).skip).type =
      (r.tables r.skip).type := rfl
  rw [hSkip]
  cases (r.tables r.skip).type with
  | table => rfl
  | lmd => exact getChild_withPrev r table index _ _ _
  | lud =>
    dsimp only
    rw [getChild_withPrev]
    exact getChild_withPrev _ table index _ _ _
  | lgd =>
    dsimp only
    rw [getChild_withPrev]
    dsimp only
    rw [getChild_withPrev]
    exact getChild_withPrev _ table index _ _ _

/-- One call with the cache is one walk, up to the content of the cache. -/
theorem Cached.getLogTable_eq_walk {r : RadixLog} (h : r.Cached) (offset : Nat) :
    ∃ table index, r.getLogTable offset =
      ((r.walkLogTable offset).1, (r.walkLogTable offset).2.withPrev table index) := by
  by_cases hHit : checkPrevTable r.prevTableIndex offset = true
  · rw [walkLogTable_of_find (h.cache offset hHit), RadixLog.getLogTable, if_pos hHit]
    exact ⟨r.prevTable, r.prevTableIndex, rfl⟩
  · rw [RadixLog.getLogTable, if_neg hHit]
    exact ⟨(r.walkLogTable offset).1, offset / 2 ^ lmdShift % tableMask, rfl⟩

theorem Cached.fst_getLogTable {r : RadixLog} (h : r.Cached) (offset : Nat) :
    (r.getLogTable offset).1 = (r.walkLogTable offset).1 := by
  obtain ⟨_, _, hCall⟩ := h.getLogTable_eq_walk offset
  rw [hCall]

section Calls

theorem Cached.getLogTables {r : RadixLog} (h : r.Cached) (offsets : List Nat) :
    (r.getLogTables offsets).2.Cached := by
  induction offsets generalizing r with
  | nil => exact h
  | cons offset offsets ih => exact ih (h.getLogTable offset)

/-- A whole sequence of calls returns what the walks alone return. -/
theorem Cached.fst_getLogTables (r : RadixLog) (offsets : List Nat) (table index : Nat)
    (h : (r.withPrev table index).Cached) :
    ((r.withPrev table index).getLogTables offsets).1 = (r.walkLogTables offsets).1 := by
  induction offsets generalizing r table index with
  | nil => rfl
  | cons offset offsets ih =>
    have hNext := h.getLogTable offset
    obtain ⟨table', index', hCall⟩ := h.getLogTable_eq_walk offset
    rw [walkLogTable_withPrev] at hCall
    have hWalk : (r.withPrev table index).getLogTable offset =
        ((r.walkLogTable offset).1, (r.walkLogTable offset).2.withPrev table' index') := hCall
    rw [hWalk] at hNext
    rw [RadixLog.getLogTables, walkLogTables, hWalk]
    exact congrArg ((r.walkLogTable offset).1 :: ·) (ih _ _ _ hNext)

variable {r : RadixLog} (h : r.Cached)

include h

theorem Cached.skipType_getLogTables (offsets : List Nat) :
    (r.getLogTables offsets).2.skipType = r.skipType := by
  induction offsets generalizing r with
  | nil => rfl
  | cons offset offsets ih => exact (ih (h.getLogTable offset)).trans (h.skipType offset)

theorem Cached.find_kept {offset table : Nat} (hFind : r.findLogTable offset = some table)
    (offsets : List Nat) : (r.getLogTables offsets).2.findLogTable offset = some table := by
  induction offsets generalizing r with
  | nil => exact hFind
  | cons o offsets ih =>
    exact ih (h.getLogTable o) ((h.walked o).grows.toExtended.find h.shape hFind)

/-- Every call of the sequence installed its result for its region. -/
theorem Cached.find_called (offsets : List Nat) {k offset table : Nat}
    (hOffset : offsets[k]? = some offset) (hTable : (r.getLogTables offsets).1[k]? = some table) :
    (r.getLogTables offsets).2.findLogTable offset = some table := by
  induction offsets generalizing r k with
  | nil => simp at hOffset
  | cons o offsets ih =>
    cases k with
    | zero =>
      cases hOffset
      cases hTable
      exact (h.getLogTable offset).find_kept (h.find_self offset) offsets
    | succ k => exact ih (h.getLogTable o) hOffset hTable

theorem Cached.find_uncalled {o : Nat} (ho : o < r.skipType.span) (offsets : List Nat)
    (hOffsets : ∀ offset ∈ offsets, offset < r.skipType.span)
    (hUncalled : ∀ offset ∈ offsets, offset / 2 ^ lmdShift ≠ o / 2 ^ lmdShift) :
    (r.getLogTables offsets).2.findLogTable o = r.findLogTable o := by
  induction offsets generalizing r with
  | nil => rfl
  | cons offset offsets ih =>
    have hOther := h.find_other offset (hOffsets _ List.mem_cons_self) ho
      (hUncalled _ List.mem_cons_self).symm
    have hRest := ih (h.getLogTable offset) (by rw [h.skipType]; exact ho)
      (fun x hx => by rw [h.skipType]; exact hOffsets x (List.mem_cons_of_mem _ hx))
      (fun x hx => hUncalled x (List.mem_cons_of_mem _ hx))
    exact hRest.trans hOther

end Calls

@[simp] theorem length_getLogTables (r : RadixLog) (offsets : List Nat) :
    (r.getLogTables offsets).1.length = offsets.length := by
  induction offsets generalizing r with
  | nil => rfl
  | cons offset offsets ih => exact congrArg (· + 1) (ih (r.getLogTable offset).2)

theorem getDeepestTableType_eq_table {maxoff : Nat} (h : maxoff < 2 ^ lmdShift) :
    getDeepestTableType maxoff = .table := by
  rw [getDeepestTableType, if_neg]
  exact fun hRegion => hRegion (Nat.div_eq_of_lt h)

theorem getDeepestTableType_ne_table {maxoff : Nat} (h : 2 ^ lmdShift ≤ maxoff) :
    getDeepestTableType maxoff ≠ .table := by
  have hRegion : maxoff / 2 ^ lmdShift ≠ 0 :=
    Nat.pos_iff_ne_zero.mp (Nat.div_pos h (Nat.pow_pos (by decide)))
  rw [getDeepestTableType, if_pos hRegion]
  split_ifs <;> decide

/-- `init_radixlog` installs a `TABLE` when the file fits in one region, and no other. -/
theorem find_initRadixlog {filesize : Nat} (hPos : 1 ≤ filesize) (o : Nat) :
    (initRadixlog filesize).findLogTable o =
      if filesize ≤ 2 ^ lmdShift then some (initRadixlog filesize).skip else none := by
  have hChain := initRadixlog_chain filesize
  split
  · rename_i hSmall
    have hType : (initRadixlog filesize).skipType = .table := by
      rw [hChain.type, getDeepestTableType_eq_table (by omega)]
    rw [findLogTable_eq_follow, hType]
    rfl
  · rename_i hLarge
    cases hFind : (initRadixlog filesize).findLogTable o with
    | none => rfl
    | some table =>
      -- The directories of the chain are above `skip`, which is a directory here.
      have hTable := hChain.shape.find_type hFind
      have hLt := hChain.shape.find_lt hFind
      by_cases hSkip : table = (initRadixlog filesize).skip
      · rw [hSkip] at hTable
        have hDeepest := hChain.type.symm.trans hTable
        exact absurd hDeepest (getDeepestTableType_ne_table (by omega))
      · exact absurd hTable (hChain.directories table hLt hSkip)

/-- The two walks and the cache over any calls below the length given to
`init_radixlog`. -/
theorem lookups_agree (filesize : Nat) (hPos : 1 ≤ filesize) (hMax : filesize ≤ 2 ^ 48)
    (offsets : List Nat) (hOffsets : ∀ offset ∈ offsets, offset < filesize) :
    let tables := ((initRadixlog filesize).getLogTables offsets).1
    let root := ((initRadixlog filesize).getLogTables offsets).2
    tables.length = offsets.length ∧
      tables = ((initRadixlog filesize).walkLogTables offsets).1 ∧
      (∀ offset, (root.getLogTable offset).1 = (root.walkLogTable offset).1) ∧
      (∀ (k offset table o : Nat), offsets[k]? = some offset → tables[k]? = some table →
        o / 2 ^ lmdShift = offset / 2 ^ lmdShift → root.findLogTable o = some table) ∧
      (∀ o, o < filesize → (∀ offset ∈ offsets, offset / 2 ^ lmdShift ≠ o / 2 ^ lmdShift) →
        root.findLogTable o =
          if filesize ≤ 2 ^ lmdShift then some (initRadixlog filesize).skip else none) ∧
      ∀ offset o, offset < filesize → o < filesize →
        o / 2 ^ lmdShift ≠ offset / 2 ^ lmdShift →
        (root.getLogTable offset).2.findLogTable o = root.findLogTable o := by
  intro tables root
  have hInit := initRadixlog_cached filesize
  have hRoot : root.Cached := hInit.getLogTables offsets
  have hSpan : ∀ o, o < filesize → o < (initRadixlog filesize).skipType.span := by
    intro o ho
    have hLt : filesize - 1 < (getDeepestTableType (filesize - 1)).span :=
      lt_span_getDeepestTableType (by omega)
    rw [(initRadixlog_chain filesize).type]
    omega
  have hRootSpan : ∀ o, o < filesize → o < root.skipType.span := by
    intro o ho
    rw [hInit.skipType_getLogTables offsets]
    exact hSpan o ho
  refine ⟨length_getLogTables _ offsets, ?_, hRoot.fst_getLogTable, ?_, ?_, ?_⟩
  · exact Cached.fst_getLogTables (initRadixlog filesize) offsets
      (initRadixlog filesize).prevTable (initRadixlog filesize).prevTableIndex hInit
  · intro k offset table o hOffset hTable hRegion
    rw [root.findLogTable_congr_region hRegion]
    exact hInit.find_called offsets hOffset hTable
  · intro o ho hUncalled
    rw [hInit.find_uncalled (hSpan o ho) offsets (fun x hx => hSpan x (hOffsets x hx)) hUncalled]
    exact find_initRadixlog hPos o
  · intro offset o hOffset ho hRegion
    exact hRoot.find_other offset (hRootSpan offset hOffset) (hRootSpan o ho) hRegion

/-- Three calls on a file of two regions, the last of them in the first region again. -/
theorem lookups_agree_twoRegions :
    ((initRadixlog (2 ^ 22)).getLogTables [4096, 2 ^ 21, 0]).1 =
      ((initRadixlog (2 ^ 22)).walkLogTables [4096, 2 ^ 21, 0]).1 :=
  (lookups_agree (2 ^ 22) (by decide) (by decide) [4096, 2 ^ 21, 0] (by decide)).2.1

end Libnvmmio.RadixLog

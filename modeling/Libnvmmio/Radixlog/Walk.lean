import Libnvmmio.Radixlog.Lookup

/-! # What the radix functions do to the tables

One specification for each of `ALLOC_TABLE`, one level of the walk and
`get_log_table`. The callers cite these and never unfold a walk.
-/

namespace Libnvmmio.RadixLog

open IndexTrie

set_option autoImplicit false

section AllocTable

variable {r : RadixLog} {type : TableType} {parent index : Nat}

theorem allocTable_tables_of_ne {t : Nat} (hParent : t ≠ parent) (hFresh : t ≠ r.nextTable) :
    (r.allocTable type parent index).2.tables t = r.tables t := by
  change ((r.allocLogTable type).2.setChild parent index r.nextTable).tables t = _
  rw [setChild, setTable_of_ne _ hParent]
  exact setTable_of_ne r hFresh _

theorem allocTable_tables_parent (hParent : parent < r.nextTable) :
    (r.allocTable type parent index).2.tables parent =
      { r.tables parent with
        children := fun i => if i = index then some r.nextTable else (r.tables parent).children i } := by
  have hne : parent ≠ r.nextTable := Nat.ne_of_lt hParent
  change ((r.allocLogTable type).2.setChild parent index r.nextTable).tables parent = _
  have hKept : (r.allocLogTable type).2.tables parent = r.tables parent := setTable_of_ne r hne _
  rw [setChild, setTable_self, hKept]

theorem allocTable_tables_fresh (hParent : parent < r.nextTable) :
    (r.allocTable type parent index).2.tables r.nextTable =
      ⟨none, type, fun _ => none, fun _ => none⟩ := by
  change ((r.allocLogTable type).2.setChild parent index r.nextTable).tables r.nextTable = _
  rw [setChild, setTable_of_ne _ (Nat.ne_of_gt hParent)]
  exact setTable_self r r.nextTable _

theorem allocTable_links (hForest : Forest r.links r.nextTable) (hParent : parent < r.nextTable) :
    (r.allocTable type parent index).2.links = link r.links parent index r.nextTable := by
  funext n i
  rw [links, link]
  by_cases hn : n = parent
  · subst hn
    rw [allocTable_tables_parent hParent]
    simp [links]
  · rw [if_neg (fun h => hn h.1)]
    by_cases hFresh : n = r.nextTable
    · subst hFresh
      rw [allocTable_tables_fresh hParent]
      cases hLink : r.links r.nextTable i with
      | none => rfl
      | some c => exact absurd (hForest.parent_lt _ _ _ hLink) (Nat.lt_irrefl _)
    · rw [allocTable_tables_of_ne hn hFresh]
      rfl

theorem allocTable_typeOf {t : Nat} (ht : t < r.nextTable) (hParent : parent < r.nextTable) :
    (r.allocTable type parent index).2.typeOf t = r.typeOf t := by
  rw [typeOf, typeOf]
  by_cases hn : t = parent
  · rw [hn, allocTable_tables_parent hParent]
  · rw [allocTable_tables_of_ne hn (Nat.ne_of_lt ht)]

theorem allocTable_typeOf_fresh (hParent : parent < r.nextTable) :
    (r.allocTable type parent index).2.typeOf r.nextTable = type := by
  rw [typeOf, allocTable_tables_fresh hParent]

theorem allocTable_grows (hForest : Forest r.links r.nextTable) (hParent : parent < r.nextTable)
    (hEmpty : r.links parent index = none) : Grows r (r.allocTable type parent index).2 where
  lgd := rfl
  skip := rfl
  next_le := Nat.le_succ _
  extends_links := by
    rw [allocTable_links hForest hParent]
    exact extends_link hEmpty r.nextTable
  type_kept t ht := allocTable_typeOf ht hParent
  size_kept t s ht hs := by
    by_cases hn : t = parent
    · rw [hn, allocTable_tables_parent hParent]
      rwa [hn] at hs
    · rwa [allocTable_tables_of_ne hn (Nat.ne_of_lt ht)]
  entries_kept t ht := by
    by_cases hn : t = parent
    · rw [hn, allocTable_tables_parent hParent]
    · rw [allocTable_tables_of_ne hn (Nat.ne_of_lt ht)]
  entries_fresh t i hLow hHigh := by
    have hNext : t = r.nextTable := by
      change t < r.nextTable + 1 at hHigh
      omega
    rw [hNext, allocTable_tables_fresh hParent]
  entries_beyond t ht := by
    change r.nextTable + 1 ≤ t at ht
    rw [allocTable_tables_of_ne (by omega) (by omega)]

theorem allocTable_shape (h : r.Shape) (hParent : parent < r.nextTable)
    (hType : type.depth + 1 = (r.typeOf parent).depth) : (r.allocTable type parent index).2.Shape where
  forest := by
    rw [allocTable_links h.forest hParent]
    exact h.forest.link hParent
  skip_lt := Nat.lt_succ_of_lt h.skip_lt
  typed n i c hc := by
    rw [allocTable_links h.forest hParent, link] at hc
    split at hc
    · rename_i hSlot
      obtain ⟨rfl, rfl⟩ := hSlot
      cases hc
      rw [allocTable_typeOf_fresh hParent, allocTable_typeOf hParent hParent, hType]
    · have hn := h.forest.parent_lt n i c hc
      have hcLt := h.forest.child_lt n i c hc
      rw [allocTable_typeOf hcLt hParent, allocTable_typeOf hn hParent]
      exact h.typed n i c hc

end AllocTable

structure Walked (r : RadixLog) (t : Nat) (r' : RadixLog) : Prop where
  shape : r'.Shape
  grows : Grows r r'
  fresh_table : ∀ u, r.nextTable ≤ u → u < r'.nextTable → r'.typeOf u = .table → u = t

theorem Walked.refl {r : RadixLog} (h : r.Shape) (t : Nat) : Walked r t r :=
  ⟨h, Grows.refl r, fun u hLow hHigh _ => by omega⟩

/-- Two walks in a row, the first of which ended in a directory. -/
theorem Walked.trans {r r' r'' : RadixLog} {d t : Nat} (h : Walked r d r') (h' : Walked r' t r'')
    (hDir : r'.typeOf d ≠ .table) : Walked r t r'' where
  shape := h'.shape
  grows := h.grows.trans h'.grows
  fresh_table u hLow hHigh hType := by
    by_cases hu : u < r'.nextTable
    · rw [h'.grows.type_kept u hu] at hType
      have hud := h.fresh_table u hLow hu hType
      rw [hud] at hType
      exact absurd hType hDir
    · exact h'.fresh_table u (by omega) hHigh hType

theorem getChild_spec {r : RadixLog} (h : r.Shape) {type : TableType} {parent : Nat} (index : Nat)
    (hParent : parent < r.nextTable) (hType : type.depth + 1 = (r.typeOf parent).depth) :
    Walked r (r.getChild type parent index).1 (r.getChild type parent index).2 ∧
      (r.getChild type parent index).2.links parent index = some (r.getChild type parent index).1 := by
  rw [getChild]
  cases hSlot : (r.tables parent).children index with
  | some table => exact ⟨Walked.refl h table, hSlot⟩
  | none =>
    refine ⟨⟨allocTable_shape h hParent hType, allocTable_grows h.forest hParent hSlot, ?_⟩, ?_⟩
    · intro u hLow hHigh _
      change u < r.nextTable + 1 at hHigh
      change u = r.nextTable
      omega
    · dsimp only
      rw [allocTable_links h.forest hParent, link_self]
      rfl

theorem depth_injective {a b : TableType} (h : a.depth = b.depth) : a = b := by
  cases a <;> cases b <;> first | rfl | cases h

theorem getChild_typeOf {r : RadixLog} (h : r.Shape) {type : TableType} {parent : Nat} (index : Nat)
    (hParent : parent < r.nextTable) (hType : type.depth + 1 = (r.typeOf parent).depth) :
    (r.getChild type parent index).2.typeOf (r.getChild type parent index).1 = type := by
  obtain ⟨hWalked, hLink⟩ := getChild_spec h index hParent hType
  have hDepth := hWalked.shape.typed _ _ _ hLink
  rw [hWalked.grows.type_kept parent hParent, ← hType] at hDepth
  exact depth_injective (by omega)

theorem getChild_lt {r : RadixLog} (h : r.Shape) {type : TableType} {parent : Nat} (index : Nat)
    (hParent : parent < r.nextTable) (hType : type.depth + 1 = (r.typeOf parent).depth) :
    (r.getChild type parent index).1 < (r.getChild type parent index).2.nextTable := by
  obtain ⟨hWalked, hLink⟩ := getChild_spec h index hParent hType
  exact hWalked.shape.forest.child_lt _ _ _ hLink

theorem walkLogTable_spec {r : RadixLog} (h : r.Shape) (offset : Nat) :
    Walked r (r.walkLogTable offset).1 (r.walkLogTable offset).2 ∧
      (r.walkLogTable offset).2.findLogTable offset = some (r.walkLogTable offset).1 := by
  have hSkip : (r.tables r.skip).type = r.skipType := rfl
  suffices hFollow : Walked r (r.walkLogTable offset).1 (r.walkLogTable offset).2 ∧
      follow (r.walkLogTable offset).2.links r.skip (path r.skipType offset) =
        some (r.walkLogTable offset).1 by
    obtain ⟨hWalked, hFollow⟩ := hFollow
    refine ⟨hWalked, ?_⟩
    rw [findLogTable_eq_follow, hWalked.grows.skipType h, hWalked.grows.skip]
    exact hFollow
  rw [walkLogTable, hSkip]
  cases hType : r.skipType with
  | table => exact ⟨Walked.refl h r.skip, rfl⟩
  | lmd =>
    have hDepth : TableType.table.depth + 1 = (r.typeOf r.skip).depth := by
      rw [← skipType, hType]; rfl
    obtain ⟨hWalked, hLink⟩ := getChild_spec h (lmdIndex offset) h.skip_lt hDepth
    refine ⟨hWalked, ?_⟩
    rw [path_lmd]
    simp only [follow, hLink, Option.bind_some]
  | lud =>
    have hDepth : TableType.lmd.depth + 1 = (r.typeOf r.skip).depth := by
      rw [← skipType, hType]; rfl
    obtain ⟨hWalked, hLink⟩ := getChild_spec h (ludIndex offset) h.skip_lt hDepth
    have hDir := getChild_typeOf h (ludIndex offset) h.skip_lt hDepth
    have hLt := getChild_lt h (ludIndex offset) h.skip_lt hDepth
    dsimp only
    generalize r.getChild .lmd r.skip (ludIndex offset) = lmd at *
    have hDepth' : TableType.table.depth + 1 = (lmd.2.typeOf lmd.1).depth := by rw [hDir]; rfl
    obtain ⟨hWalked', hLink'⟩ := getChild_spec hWalked.shape (lmdIndex offset) hLt hDepth'
    refine ⟨hWalked.trans hWalked' (by rw [hDir]; decide), ?_⟩
    rw [path_lud]
    simp only [follow, hWalked'.grows.extends_links.kept _ _ _ hLink, hLink', Option.bind_some]
  | lgd =>
    have hDepth : TableType.lud.depth + 1 = (r.typeOf r.skip).depth := by
      rw [← skipType, hType]; rfl
    obtain ⟨hWalked, hLink⟩ := getChild_spec h (lgdIndex offset) h.skip_lt hDepth
    have hDir := getChild_typeOf h (lgdIndex offset) h.skip_lt hDepth
    have hLt := getChild_lt h (lgdIndex offset) h.skip_lt hDepth
    dsimp only
    generalize r.getChild .lud r.skip (lgdIndex offset) = lud at *
    have hDepth' : TableType.lmd.depth + 1 = (lud.2.typeOf lud.1).depth := by rw [hDir]; rfl
    obtain ⟨hWalked', hLink'⟩ := getChild_spec hWalked.shape (ludIndex offset) hLt hDepth'
    have hDir' := getChild_typeOf hWalked.shape (ludIndex offset) hLt hDepth'
    have hLt' := getChild_lt hWalked.shape (ludIndex offset) hLt hDepth'
    generalize lud.2.getChild .lmd lud.1 (ludIndex offset) = lmd at *
    have hDepth'' : TableType.table.depth + 1 = (lmd.2.typeOf lmd.1).depth := by rw [hDir']; rfl
    obtain ⟨hWalked'', hLink''⟩ :=
      getChild_spec hWalked'.shape (lmdIndex offset) hLt' hDepth''
    refine ⟨(hWalked.trans hWalked' (by rw [hDir]; decide)).trans hWalked''
      (by rw [hDir']; decide), ?_⟩
    rw [path_lgd]
    simp only [follow, hWalked''.grows.extends_links.kept _ _ _
      (hWalked'.grows.extends_links.kept _ _ _ hLink),
      hWalked''.grows.extends_links.kept _ _ _ hLink', hLink'', Option.bind_some]

/-- The invariant of a radix root between two requests. A `TABLE` other than
`skip` gets its log size in the request that installs it. -/
structure WellFormed (r : RadixLog) : Prop where
  shape : r.Shape
  cache : ∀ offset, checkPrevTable r.prevTableIndex offset = true →
    r.findLogTable offset = some r.prevTable
  sized : ∀ t, t < r.nextTable → r.typeOf t = .table → t ≠ r.skip → (r.tables t).logSize ≠ none

theorem findLogTable_setPrev (r : RadixLog) (t index offset : Nat) :
    ({ r with prevTable := t, prevTableIndex := index } : RadixLog).findLogTable offset =
      r.findLogTable offset := rfl

theorem path_eq_of_masked_eq (type : TableType) {a b : Nat}
    (h : a / 2 ^ lmdShift % tableMask = b / 2 ^ lmdShift % tableMask) : path type a = path type b := by
  rw [path_eq_iff]
  have hDvd : ptrsPerTable ^ type.depth ∣ tableMask := by cases type <;> decide
  rw [← Nat.mod_mod_of_dvd (a / _) hDvd, h, Nat.mod_mod_of_dvd _ hDvd]

/-- `get_log_table` needs no more than the shape and a cache that tells the truth. -/
theorem getLogTable_walked {r : RadixLog} (hShape : r.Shape)
    (hCache : ∀ o, checkPrevTable r.prevTableIndex o = true → r.findLogTable o = some r.prevTable)
    (offset : Nat) :
    Walked r (r.getLogTable offset).1 (r.getLogTable offset).2 ∧
      (r.getLogTable offset).2.findLogTable offset = some (r.getLogTable offset).1 ∧
      ∀ o, checkPrevTable (r.getLogTable offset).2.prevTableIndex o = true →
        (r.getLogTable offset).2.findLogTable o = some (r.getLogTable offset).2.prevTable := by
  rw [getLogTable]
  split
  · rename_i hHit
    exact ⟨Walked.refl hShape r.prevTable, hCache offset hHit, hCache⟩
  · obtain ⟨hWalked, hFind⟩ := walkLogTable_spec hShape offset
    refine ⟨⟨⟨hWalked.shape.forest, hWalked.shape.skip_lt, hWalked.shape.typed⟩,
      ⟨⟨hWalked.grows.lgd, hWalked.grows.skip, hWalked.grows.next_le, hWalked.grows.extends_links,
        hWalked.grows.type_kept, hWalked.grows.size_kept⟩, hWalked.grows.entries_kept,
        hWalked.grows.entries_fresh, hWalked.grows.entries_beyond⟩, hWalked.fresh_table⟩, hFind, ?_⟩
    intro o ho
    rw [findLogTable_setPrev]
    dsimp only at ho ⊢
    rw [← hFind]
    rw [checkPrevTable, decide_eq_true_eq] at ho
    exact findLogTable_congr_path _ (path_eq_of_masked_eq _ ho.symm)

theorem getLogTable_spec {r : RadixLog} (h : r.WellFormed) (offset : Nat) :
    Walked r (r.getLogTable offset).1 (r.getLogTable offset).2 ∧
      (r.getLogTable offset).2.findLogTable offset = some (r.getLogTable offset).1 ∧
      ∀ o, checkPrevTable (r.getLogTable offset).2.prevTableIndex o = true →
        (r.getLogTable offset).2.findLogTable o = some (r.getLogTable offset).2.prevTable :=
  getLogTable_walked h.shape h.cache offset

end Libnvmmio.RadixLog

import Libnvmmio.File.SharedMmio

/-! # Runs of opens and closes

Each step of a call keeps the references of the mmios counted, as long as no
inode is put into the hash that is there already. When all calls have returned,
the references are those of the descriptors.
-/

namespace Libnvmmio.FileHash

open GuardedRun

set_option autoImplicit false

variable {T M : Type}

namespace State

section Facts

variable [DecidableEq M] {s : State T M} {t : T} {fd : Fd} {p : Point M} {m : M} {ino : Nat}

omit [DecidableEq M] in
theorem Owns.isOpen (h : s.Owns p) (hFd : p.fd? = some fd) : s.isOpen fd = true := by
  cases p with
  | idle => cases hFd
  | get x ino =>
    cases hFd
    exact Reserved.isOpen h
  | new x ino =>
    cases hFd
    exact Reserved.isOpen h
  | put x ino m =>
    cases hFd
    exact h.1.isOpen
  | file x ino m =>
    cases hFd
    exact h.1
  | delete x file =>
    cases hFd
    exact h.1
  | clear x =>
    cases hFd
    exact h.1

omit [DecidableEq M] in
theorem Owns.closing (h : s.Owns p) (hFd : p.fd? = some fd) (hFile : s.fdTable fd ≠ none) :
    (∃ file, p = .delete fd file) ∨ p = .clear fd := by
  cases p with
  | idle => cases hFd
  | get x ino =>
    cases hFd
    exact absurd (Reserved.table h) hFile
  | new x ino =>
    cases hFd
    exact absurd (Reserved.table h) hFile
  | put x ino m =>
    cases hFd
    exact absurd h.1.table hFile
  | file x ino m =>
    cases hFd
    exact absurd h.2.1 hFile
  | delete x file =>
    cases hFd
    exact .inl ⟨file, rfl⟩
  | clear x =>
    cases hFd
    exact .inr rfl

theorem Inv.free (h : s.Inv) (hFd : (s.calls t).fd? = some fd) : ∀ u, u ≠ t → (s.calls u).fd? ≠ some fd :=
  fun u hu hSame => hu (h.distinct u t fd hSame hFd)

theorem Inv.own_taken (h : s.Inv) (hOwn : (s.calls t).own? = some m) :
    s.objects.pooled m = false ∧ ∀ i, m ∉ s.hash i := by
  have hOwns := h.owns t
  cases hPoint : s.calls t with
  | put x ino m' =>
    rw [hPoint] at hOwn hOwns
    cases hOwn
    exact ⟨hOwns.2.taken, hOwns.2.unhashed⟩
  | idle | get | new | file | delete | clear =>
    rw [hPoint] at hOwn
    cases hOwn

theorem Inv.owns_at (h : s.Inv) (hCall : s.calls t = p) : s.Owns p := by
  have hOwns := h.owns t
  rw [hCall] at hOwns
  exact hOwns

theorem Inv.taken_other (h : s.Inv) (hNone : (s.calls t).own? = none) (hTaken : s.objects.pooled m = false) :
    (∃ i, m ∈ s.hash i) ∨ p.own? = some m ∨ ∃ u, u ≠ t ∧ (s.calls u).own? = some m := by
  rcases h.taken m hTaken with hHash | ⟨u, hu⟩
  · exact .inl hHash
  · refine .inr (.inr ⟨u, ?_, hu⟩)
    rintro rfl
    rw [hNone] at hu
    cases hu

omit [DecidableEq M] in
theorem find_eq_some (hFind : s.find ino = some m) : m ∈ s.hash (hashIndex ino) ∧ s.objects.ino m = ino := by
  have hIno := List.find?_some hFind
  exact ⟨List.mem_of_find?_eq_some hFind, (of_decide_eq_true hIno).symm⟩

omit [DecidableEq M] in
theorem find_eq_none (hFind : s.find ino = none) : ∀ m ∈ s.hash (hashIndex ino), s.objects.ino m ≠ ino := by
  intro m hMem hIno
  have hNot := List.find?_eq_none.mp hFind m hMem
  exact hNot (decide_eq_true hIno.symm)

end Facts

/-! ## The steps -/

section Steps

variable [DecidableEq T] [DecidableEq M] {s s' : State T M} {t : T} {fd : Fd} {p : Point M} {m : M} {ino : Nat}

theorem Inv.goto (h : s.Inv) (hNone : (s.calls t).own? = none) (hBefore : ∀ x, (s.calls t).fd? = some x → x = fd)
    (hFd : p.fd? = some fd) (hOwn : p.own? = none) (hFree : ∀ u, u ≠ t → (s.calls u).fd? ≠ some fd)
    (hOwns : (s.goto t p).Owns p) : (s.goto t p).Inv := by
  have hSame : Apartness s (s.goto t p) fd :=
    ⟨fun _ _ => rfl, fun _ _ => rfl, fun _ _ => rfl, fun _ _ _ _ => rfl⟩
  have hAfter : ∀ x, p.fd? = some x → x = fd := fun x hx => Option.some.inj (hx.symm.trans hFd)
  refine h.stepOn ⟨rfl, hBefore, hAfter, hFree, hSame, fun _ _ _ _ _ hFresh => ⟨hFresh.1, hFresh.2, hFresh.3⟩⟩
    h.stored hOwns ?_ ?_ (h.files fd) ?_
  · intro u x _ hx
    rw [hOwn] at hx
    cases hx
  · intro hIdle
    rw [hFd] at hIdle
    cases hIdle
  · intro x hx
    exact h.taken_other hNone hx

theorem Inv.open (h : s.Inv) (hIdle : s.calls t = .idle) (hOpen : s.isOpen fd = false) :
    Inv { s.goto t (.get fd ino) with isOpen := Function.update s.isOpen fd true } := by
  have hFree : ∀ u, (s.calls u).fd? ≠ some fd := by
    intro u hu
    have hTrue := (h.owns u).isOpen hu
    rw [hOpen] at hTrue
    cases hTrue
  obtain ⟨hCounted, hTable⟩ := h.rest fd hFree
  have hNone : s.fdTable fd = none := by
    by_contra hSome
    have hTrue := hTable hSome
    rw [hOpen] at hTrue
    cases hTrue
  rw [hNone] at hCounted
  have hNoFd : (s.calls t).fd? = none := by rw [hIdle]; rfl
  have hNoOwn : (s.calls t).own? = none := by rw [hIdle]; rfl
  have hSame : Apartness s { s.goto t (.get fd ino) with isOpen := Function.update s.isOpen fd true } fd :=
    ⟨fun x hx => Function.update_of_ne hx .., fun _ _ => rfl, fun _ _ => rfl, fun _ _ _ _ => rfl⟩
  refine h.stepOn (p := .get fd ino) ⟨rfl, ?_, ?_, fun u _ => hFree u, hSame, ?_⟩ h.stored ⟨?_, hNone, hCounted⟩
    nofun nofun (h.files fd) ?_
  · intro x hx
    rw [hNoFd] at hx
    cases hx
  · rintro x hx
    cases hx
    rfl
  · exact fun _ _ _ _ _ hFresh => ⟨hFresh.1, hFresh.2, hFresh.3⟩
  · exact Function.update_self ..
  · intro x hx
    exact h.taken_other hNoOwn hx

theorem Inv.getMmioHash (h : s.Inv) (hCall : s.calls t = .get fd ino) : (s.getMmioHash t fd ino).Inv := by
  have hReserved : s.Reserved fd := h.owns_at hCall
  have hFd : (s.calls t).fd? = some fd := by rw [hCall]; rfl
  have hNoOwn : (s.calls t).own? = none := by rw [hCall]; rfl
  have hBefore : ∀ x, (s.calls t).fd? = some x → x = fd := fun x hx => Option.some.inj (hx.symm.trans hFd)
  cases hFind : s.find ino with
  | none =>
    rw [State.getMmioHash, hFind]
    exact h.goto hNoOwn hBefore rfl rfl (h.free hFd) ⟨hReserved.1, hReserved.2, hReserved.3⟩
  | some m =>
    rw [State.getMmioHash, hFind]
    obtain ⟨hMem, hIno⟩ := find_eq_some hFind
    have hSame : Apartness s ((s.count fd m).goto t (.file fd ino m)) fd :=
      ⟨fun _ _ => rfl, fun _ _ => rfl, fun x hx => Function.update_of_ne hx .., fun _ _ _ _ => rfl⟩
    refine h.stepOn (p := .file fd ino m) ⟨rfl, hBefore, ?_, h.free hFd, hSame, ?_⟩
      (h.stored.count hReserved.counted ⟨_, hMem⟩) ⟨hReserved.isOpen, hReserved.table, Function.update_self .., hIno⟩
      nofun nofun ?_ ?_
    · rintro x hx
      cases hx
      rfl
    · exact fun _ _ _ _ _ hFresh => ⟨hFresh.1, hFresh.2, hFresh.3⟩
    · exact fun file hFile => absurd hFile (hReserved.table_ne_some file)
    · intro x hx
      exact h.taken_other hNoOwn hx

theorem Inv.getNewMmio (h : s.Inv) (hCall : s.calls t = .new fd ino) (hPooled : s.objects.pooled m = true) :
    (s.getNewMmio t fd ino m).Inv := by
  have hReserved : s.Reserved fd := h.owns_at hCall
  have hFd : (s.calls t).fd? = some fd := by rw [hCall]; rfl
  have hNoOwn : (s.calls t).own? = none := by rw [hCall]; rfl
  have hBefore : ∀ x, (s.calls t).fd? = some x → x = fd := fun x hx => Option.some.inj (hx.symm.trans hFd)
  have hne : ∀ x, s.objects.pooled x = false → x ≠ m := by
    rintro x hx rfl
    rw [hPooled] at hx
    cases hx
  have hUnhashed : ∀ i, m ∉ s.hash i := fun i hMem => hne m (h.stored.taken i m hMem) rfl
  have hSame : Apartness s (s.getNewMmio t fd ino m) fd := by
    refine ⟨fun _ _ => rfl, fun _ _ => rfl, fun _ _ => rfl, fun x m' _ hCount => ?_⟩
    obtain ⟨i, hMem⟩ := h.stored.hashed x m' hCount
    exact Function.update_of_ne (hne m' (h.stored.taken i m' hMem)) ..
  refine h.stepOn (p := .put fd ino m) ⟨rfl, hBefore, ?_, h.free hFd, hSame, ?_⟩ (h.stored.take hPooled ino)
    ⟨⟨hReserved.1, hReserved.2, hReserved.3⟩, Function.update_self .., Function.update_self .., hUnhashed⟩
    ?_ nofun ?_ ?_
  · rintro x hx
    cases hx
    rfl
  · intro u m' ino' _ _ hFresh
    have hx := hne m' hFresh.taken
    exact ⟨(Function.update_of_ne hx ..).trans hFresh.ino, (Function.update_of_ne hx ..).trans hFresh.taken,
      hFresh.unhashed⟩
  · intro u m' _ hOwn hTheirs
    cases hOwn
    exact hne m (h.own_taken hTheirs).1 rfl
  · exact fun file hFile => absurd hFile (hReserved.table_ne_some file)
  · intro x hx
    by_cases hEq : x = m
    · exact .inr (.inl (hEq ▸ rfl))
    · have hOld : s.objects.pooled x = false := (Function.update_of_ne hEq ..).symm.trans hx
      exact h.taken_other hNoOwn hOld

theorem Inv.putMmioHash (h : s.Inv) (hCall : s.calls t = .put fd ino m) (hFind : s.find ino = none) :
    (s.putMmioHash t fd ino m).Inv := by
  obtain ⟨hReserved, hFresh⟩ : s.Reserved fd ∧ s.Fresh m ino := h.owns_at hCall
  have hFd : (s.calls t).fd? = some fd := by rw [hCall]; rfl
  have hMine : (s.calls t).own? = some m := by rw [hCall]; rfl
  have hBefore : ∀ x, (s.calls t).fd? = some x → x = fd := fun x hx => Option.some.inj (hx.symm.trans hFd)
  obtain rfl := hFresh.ino
  rw [State.putMmioHash, hFind]
  have hSame : Apartness s (((s.count fd m).addNode (s.objects.ino m) m).goto t (.file fd (s.objects.ino m) m)) fd :=
    ⟨fun _ _ => rfl, fun _ _ => rfl, fun x hx => Function.update_of_ne hx .., fun _ _ _ _ => rfl⟩
  have hHash : ∀ i x, x ≠ m → (x ∈ Function.update s.hash (hashIndex (s.objects.ino m))
      (m :: s.hash (hashIndex (s.objects.ino m))) i ↔ x ∈ s.hash i) := by
    intro i x hx
    by_cases hi : i = hashIndex (s.objects.ino m)
    · rw [hi, Function.update_self, List.mem_cons, or_iff_right hx]
    · rw [Function.update_of_ne hi]
  refine h.stepOn (p := .file fd (s.objects.ino m) m) ⟨rfl, hBefore, ?_, h.free hFd, hSame, ?_⟩
    (h.stored.add hReserved.counted hFresh.taken hFresh.unhashed (find_eq_none hFind))
    ⟨hReserved.isOpen, hReserved.table, Function.update_self .., rfl⟩ nofun nofun ?_ ?_
  · rintro x hx
    cases hx
    rfl
  · intro u x ino' hu hTheirs hFresh'
    have hx : x ≠ m := by
      rintro rfl
      exact hu (h.apart u t x hTheirs hMine)
    exact ⟨hFresh'.ino, hFresh'.taken, fun i hMem => hFresh'.unhashed i ((hHash i x hx).mp hMem)⟩
  · exact fun file hFile => absurd hFile (hReserved.table_ne_some file)
  · intro x hx
    by_cases hEq : x = m
    · refine .inl ⟨hashIndex (s.objects.ino m), ?_⟩
      change x ∈ Function.update s.hash (hashIndex (s.objects.ino m)) (m :: s.hash (hashIndex (s.objects.ino m)))
        (hashIndex (s.objects.ino m))
      rw [Function.update_self, hEq]
      exact List.mem_cons_self
    · rcases h.taken x hx with ⟨i, hMem⟩ | ⟨u, hu⟩
      · exact .inl ⟨i, (hHash i x hEq).mpr hMem⟩
      · refine .inr (.inr ⟨u, ?_, hu⟩)
        rintro rfl
        exact hEq (Option.some.inj (hu.symm.trans hMine))

theorem Inv.file (h : s.Inv) (hCall : s.calls t = .file fd ino m) :
    Inv { s.goto t .idle with fdTable := Function.update s.fdTable fd (some ⟨m, ino⟩) } := by
  obtain ⟨hOpen, _, hCounted, hIno⟩ :
      s.isOpen fd = true ∧ s.fdTable fd = none ∧ s.counted fd = some m ∧ s.objects.ino m = ino := h.owns_at hCall
  have hFd : (s.calls t).fd? = some fd := by rw [hCall]; rfl
  have hNoOwn : (s.calls t).own? = none := by rw [hCall]; rfl
  have hBefore : ∀ x, (s.calls t).fd? = some x → x = fd := fun x hx => Option.some.inj (hx.symm.trans hFd)
  have hEntry : Function.update s.fdTable fd (some ⟨m, ino⟩) fd = some ⟨m, ino⟩ := Function.update_self ..
  have hSame : Apartness s { s.goto t .idle with fdTable := Function.update s.fdTable fd (some ⟨m, ino⟩) } fd :=
    ⟨fun _ _ => rfl, fun x hx => Function.update_of_ne hx .., fun _ _ => rfl, fun _ _ _ _ => rfl⟩
  refine h.stepOn (p := .idle) ⟨rfl, hBefore, nofun, h.free hFd, hSame, ?_⟩ h.stored trivial nofun ?_ ?_ ?_
  · exact fun _ _ _ _ _ hFresh => ⟨hFresh.1, hFresh.2, hFresh.3⟩
  · intro _
    dsimp only
    rw [hEntry]
    exact ⟨hCounted, fun _ => hOpen⟩
  · intro file hFile _
    obtain rfl := Option.some.inj (hEntry.symm.trans hFile)
    exact hIno
  · intro x hx
    exact h.taken_other hNoOwn hx

theorem Inv.close {file : FileT M} (h : s.Inv) (hIdle : s.calls t = .idle) (hFile : s.fdTable fd = some file)
    (hApart : ∀ u, (∀ file, s.calls u ≠ .delete fd file) ∧ s.calls u ≠ .clear fd) :
    (s.goto t (.delete fd file)).Inv := by
  have hSome : s.fdTable fd ≠ none := by
    rw [hFile]
    nofun
  have hFree : ∀ u, (s.calls u).fd? ≠ some fd := by
    intro u hu
    rcases (h.owns u).closing hu hSome with ⟨file', hDelete⟩ | hClear
    · exact (hApart u).1 file' hDelete
    · exact (hApart u).2 hClear
  obtain ⟨hCounted, hOpen⟩ := h.rest fd hFree
  rw [hFile] at hCounted
  have hNoOwn : (s.calls t).own? = none := by rw [hIdle]; rfl
  have hBefore : ∀ x, (s.calls t).fd? = some x → x = fd := by
    intro x hx
    rw [hIdle] at hx
    cases hx
  exact h.goto hNoOwn hBefore rfl rfl (fun u _ => hFree u) ⟨hOpen hSome, hFile, hCounted⟩

theorem Inv.deleteMmioHash {file : FileT M} (h : s.Inv) (hCall : s.calls t = .delete fd file) :
    (s.deleteMmioHash t fd file).Inv := by
  obtain ⟨hOpen, hFile, hCounted⟩ :
      s.isOpen fd = true ∧ s.fdTable fd = some file ∧ s.counted fd = some file.mmio := h.owns_at hCall
  have hFd : (s.calls t).fd? = some fd := by rw [hCall]; rfl
  have hNoOwn : (s.calls t).own? = none := by rw [hCall]; rfl
  have hBefore : ∀ x, (s.calls t).fd? = some x → x = fd := fun x hx => Option.some.inj (hx.symm.trans hFd)
  have hIno := h.files fd file hFile hCounted
  rw [State.deleteMmioHash, ← hIno]
  cases hDelete : deleteNodes (s.objects.ino file.mmio) (s.hash (hashIndex (s.objects.ino file.mmio))) s.objects with
  | mk nodes o =>
  obtain ⟨hStored, hDeleted⟩ := h.stored.delete hCounted hDelete
  have hNone : Function.update s.counted fd none fd = none := Function.update_self ..
  dsimp only
  refine h.stepOn (p := .clear fd) ⟨rfl, hBefore, ?_, h.free hFd, ?_, ?_⟩ hStored ⟨hOpen, hNone⟩
    nofun nofun ?_ ?_
  · rintro x hx
    cases hx
    rfl
  · refine ⟨fun _ _ => rfl, fun _ _ => rfl, fun x hx => Function.update_of_ne hx .., fun x m' hx hCount => ?_⟩
    by_cases hEq : m' = file.mmio
    · rw [hEq] at hCount ⊢
      exact hDeleted.still x hx hCount
    · exact hDeleted.ino m' hEq
  · intro u m' ino' _ hTheirs hFresh
    have hEq : m' ≠ file.mmio := by
      rintro rfl
      obtain ⟨i, hMem⟩ := h.stored.hashed fd file.mmio hCounted
      exact hFresh.unhashed i hMem
    exact ⟨(hDeleted.ino m' hEq).trans hFresh.ino, (hDeleted.pooled m' hEq).trans hFresh.taken,
      fun i hMem => hFresh.unhashed i (hDeleted.sub i m' hMem)⟩
  · intro file' _ hCount
    cases hNone.symm.trans hCount
  · intro x hx
    by_cases hEq : x = file.mmio
    · rw [hEq] at hx ⊢
      exact .inl (hDeleted.gone hx)
    · have hOld : s.objects.pooled x = false := (hDeleted.pooled x hEq).symm.trans hx
      rcases h.taken_other hNoOwn hOld with ⟨i, hMem⟩ | hElse
      · exact .inl ⟨i, hDeleted.kept i x hEq hMem⟩
      · exact .inr hElse

theorem Inv.clear (h : s.Inv) (hCall : s.calls t = .clear fd) :
    Inv { s.goto t .idle with
      fdTable := Function.update s.fdTable fd none, isOpen := Function.update s.isOpen fd false } := by
  have hCounted : s.counted fd = none := (h.owns_at hCall).2
  have hFd : (s.calls t).fd? = some fd := by rw [hCall]; rfl
  have hNoOwn : (s.calls t).own? = none := by rw [hCall]; rfl
  have hBefore : ∀ x, (s.calls t).fd? = some x → x = fd := fun x hx => Option.some.inj (hx.symm.trans hFd)
  have hEntry : Function.update s.fdTable fd none fd = none := Function.update_self ..
  have hSame : Apartness s { s.goto t .idle with
      fdTable := Function.update s.fdTable fd none, isOpen := Function.update s.isOpen fd false } fd :=
    ⟨fun x hx => Function.update_of_ne hx .., fun x hx => Function.update_of_ne hx .., fun _ _ => rfl,
      fun _ _ _ _ => rfl⟩
  refine h.stepOn (p := .idle) ⟨rfl, hBefore, nofun, h.free hFd, hSame, ?_⟩ h.stored trivial nofun ?_ ?_ ?_
  · exact fun _ _ _ _ _ hFresh => ⟨hFresh.1, hFresh.2, hFresh.3⟩
  · intro _
    dsimp only
    rw [hEntry]
    exact ⟨hCounted, fun hSome => absurd rfl hSome⟩
  · intro file hFile
    cases hEntry.symm.trans hFile
  · intro x hx
    exact h.taken_other hNoOwn hx

theorem Inv.step {a : T × Act M} (h : s.Inv) (hStep : Guarded Apart Step s a s') : s'.Inv := by
  obtain ⟨hApart, hNext⟩ := hStep
  obtain ⟨t, a⟩ := a
  rw [Step, next.eq_def] at hNext
  cases a with
  | «open» fd ino =>
    dsimp only at hNext
    split at hNext
    · rename_i hIdle
      split at hNext
      · cases hNext
      · rename_i hOpen
        cases hNext
        exact h.open hIdle (Bool.eq_false_iff.mpr hOpen)
    · cases hNext
  | close fd =>
    dsimp only at hNext
    split at hNext
    · rename_i file hIdle hFile
      cases hNext
      exact h.close hIdle hFile hApart
    · cases hNext
  | provide m =>
    dsimp only at hNext
    split at hNext
    · rename_i fd ino hCall
      split at hNext
      · rename_i hPooled
        cases hNext
        exact h.getNewMmio hCall hPooled
      · cases hNext
    · cases hNext
  | step =>
    dsimp only at hNext
    cases hCall : s.calls t with
    | idle | new =>
      rw [hCall] at hNext
      cases hNext
    | get fd ino =>
      rw [hCall] at hNext
      cases hNext
      exact h.getMmioHash hCall
    | put fd ino m =>
      rw [hCall] at hNext
      cases hNext
      exact h.putMmioHash hCall (hApart fd ino m hCall)
    | file fd ino m =>
      rw [hCall] at hNext
      cases hNext
      exact h.file hCall
    | delete fd file =>
      rw [hCall] at hNext
      cases hNext
      exact h.deleteMmioHash hCall
    | clear fd =>
      rw [hCall] at hNext
      cases hNext
      exact h.clear hCall

omit [DecidableEq T] in
theorem inv_init : (init : State T M).Inv where
  stored := by
    refine ⟨nofun, fun _ => List.nodup_nil, nofun, nofun, fun m => ?_, nofun, nofun⟩
    have hNone : holders (fun _ : Fd => (none : Option M)) m = ∅ := holders_eq_empty_iff.mpr nofun
    change (0 : Int) = (holders (fun _ : Fd => (none : Option M)) m).card
    rw [hNone, Finset.card_empty]
    rfl
  owns _ := trivial
  distinct := nofun
  apart := nofun
  rest _ _ := ⟨rfl, fun hSome => absurd rfl hSome⟩
  files := nofun
  taken := nofun

omit [DecidableEq T] in
/-- When no call is in progress, the descriptors that are counted are those of the table. -/
theorem Inv.settled (h : s.Inv) (hQuiet : s.Quiet) : s.Settled := by
  have hFree : ∀ fd t, (s.calls t).fd? ≠ some fd := by
    intro fd t hFd
    rw [hQuiet t] at hFd
    cases hFd
  have hCounted : s.counted = fun fd => (s.fdTable fd).map FileT.mmio := funext fun fd => (h.rest fd (hFree fd)).1
  refine ⟨fun i m _ => ?_, fun fd file hFile => ?_, fun i j m hMem m' hMem' hIno => ?_, h.stored.nodup, fun m hTaken => ?_⟩
  · rw [← hCounted]
    exact h.stored.refs m
  · have hSome : s.counted fd = some file.mmio := by
      rw [hCounted]
      dsimp only
      rw [hFile]
      rfl
    obtain ⟨i, hMem⟩ := h.stored.hashed fd file.mmio hSome
    exact h.stored.taken i file.mmio hMem
  · have hBucket : i = j := by
      rw [h.stored.bucket i m hMem, h.stored.bucket j m' hMem', hIno]
    subst hBucket
    exact ⟨rfl, h.stored.unique i m hMem m' hMem' hIno⟩
  · rcases h.taken m hTaken with hHash | ⟨t, hOwn⟩
    · exact hHash
    · rw [hQuiet t] at hOwn
      cases hOwn

end Steps

/-! ## The references of a run -/

/-- In a run that never puts an inode into the hash that is there, every state without a
call in progress is settled. -/
theorem settled_of_run [DecidableEq T] [DecidableEq M] {acts : List (T × Act M)} {s : State T M}
    (hRun : Run (Guarded Apart Step) init acts s) (hQuiet : s.Quiet) : s.Settled :=
  (hRun.invariant Inv (fun _ _ _ h hStep => h.step hStep) inv_init).settled hQuiet

/-- Two descriptors of inode 7, opened one after the other, and the first closed. -/
theorem settled_twoOpens : ∃ s : State Bool Nat, Run (Guarded Apart Step) init
    [(false, .open 3 7), (false, .step), (false, .provide 0), (false, .step), (false, .step),
      (true, .open 4 7), (true, .step), (true, .step),
      (false, .close 3), (false, .step), (false, .step)] s ∧ s.Quiet ∧ s.Settled := by
  have hRun : ∃ s : State Bool Nat, Run (Guarded Apart Step) init
      [(false, .open 3 7), (false, .step), (false, .provide 0), (false, .step), (false, .step),
        (true, .open 4 7), (true, .step), (true, .step),
        (false, .close 3), (false, .step), (false, .step)] s ∧ s.Quiet := by
    refine ⟨_, .cons ⟨trivial, rfl⟩ (.cons ⟨nofun, rfl⟩ (.cons ⟨trivial, rfl⟩ (.cons ⟨?_, rfl⟩ (.cons ⟨nofun, rfl⟩
      (.cons ⟨trivial, rfl⟩ (.cons ⟨nofun, rfl⟩ (.cons ⟨nofun, rfl⟩
      (.cons ⟨?_, rfl⟩ (.cons ⟨nofun, rfl⟩ (.cons ⟨nofun, rfl⟩ (.nil _))))))))))), ?_⟩
    · intro fd ino m hCall
      cases hCall
      rfl
    · intro u
      cases u
      · exact ⟨nofun, nofun⟩
      · exact ⟨nofun, nofun⟩
    · intro t
      cases t
      · rfl
      · rfl
  obtain ⟨s, hRun, hQuiet⟩ := hRun
  exact ⟨s, hRun, hQuiet, settled_of_run hRun hQuiet⟩

/-- Both opens of inode 7 find no node before either puts one. The second is given the mmio
of the first and not counted, so the close of descriptor 3 releases what descriptor 4 points to. -/
theorem settled_fails_racingOpens : ∃ s : State Bool Nat, Run Step init
    [(false, .open 3 7), (false, .step), (true, .open 4 7), (true, .step),
      (false, .provide 0), (true, .provide 1), (false, .step), (true, .step), (false, .step), (true, .step),
      (false, .close 3), (false, .step), (false, .step)] s ∧ s.Quiet ∧ ¬ s.Settled := by
  refine ⟨_, .cons rfl (.cons rfl (.cons rfl (.cons rfl (.cons rfl (.cons rfl (.cons rfl (.cons rfl (.cons rfl
    (.cons rfl (.cons rfl (.cons rfl (.cons rfl (.nil _))))))))))))), ?_, ?_⟩
  · intro t
    cases t
    · rfl
    · rfl
  · intro hSettled
    have hLive := hSettled.live 4 ⟨0, 7⟩ rfl
    cases hLive

end State

end Libnvmmio.FileHash

import Libnvmmio.File.Process

/-! # A process uses its files as POSIX files

Each inode of the process is the inode of the model for one inode, whatever the
others do. So over mappings that may be read and written, the calls of the
process are answered as a family of abstract files answers them.
-/

namespace Libnvmmio

open FileHash (Fd)
open Mmio Outcome GuardedRun

set_option autoImplicit false
set_option linter.unusedSectionVars false

/-- The file of each inode, and the inode of each open descriptor. -/
structure PosixFiles where
  files : Nat → PosixFile
  inode : Fd → Option Nat

def FileCall.closes : FileCall → Bool
  | .close => true
  | _ => false

namespace PosixFiles

def ofDisks (disks : Nat → Disk) : PosixFiles := ⟨fun ino => .ofDisk (disks ino), fun _ => none⟩

def serve {M : Type} (a : PosixFiles) : ProcessFiles.Event M → PosixFiles × Option Result
  | .open fd ino _ _ =>
    (⟨Function.update a.files ino ((a.files ino).move fd (some 0)), Function.update a.inode fd (some ino)⟩,
      some .success)
  | .onFile fd c =>
    match a.inode fd with
    | none => (a, some .posix)
    | some ino =>
      let (file, answer) := (a.files ino).serve (.call (.onFile fd c))
      (⟨Function.update a.files ino file, if c.closes then Function.update a.inode fd none else a.inode⟩, answer)
  | .wakeup _ => (a, none)

end PosixFiles

namespace Inode

/-- A call other than `close` depends on its descriptor and the object alone. -/
theorem callFile_local {n n' : Inode} {fd : Nat} {file : FileT} {m : Mmio} {ref : Int} {c : FileCall}
    {result : Result} (hOpen : c.closes = false) (hFile : n.files.lookup fd = some file)
    (hOk : n.callFile fd file m ref c = .ok (n', result)) :
    ∃ file' m', (∀ x, n'.files.lookup x = if x = fd then some file' else n.files.lookup x) ∧
      n'.backing = .hashed m' ref ∧
      ∃ n₁, (⟨[(fd, file)], .hashed m ref⟩ : Inode).callFile fd file m ref c = .ok (n₁, result) ∧
        n₁.files.lookup fd = some file' ∧ n₁.backing = .hashed m' ref := by
  have hSet : ∀ (n : Inode) (file' : FileT), n.files.lookup fd = some file →
      ∀ x, (n.setFile fd file').lookup x = if x = fd then some file' else n.files.lookup x := by
    intro n file' hFile x
    rw [lookup_setFile, hFile]
    rfl
  have hOne : ∀ file', (setFile ⟨[(fd, file)], .hashed m ref⟩ fd file').lookup fd = some file' := by
    intro file'
    rw [hSet _ file' List.lookup_cons_self, if_pos rfl]
  cases c with
  | read buf len =>
    obtain ⟨off, m', count, buf', hOff, hRead, rfl⟩ := read_eq_ok hOk
    refine ⟨{ file with pos := addOff file.pos (toInt count) }, m', hSet n _ hFile, rfl,
      advance ⟨[(fd, file)], .hashed m ref⟩ fd file ref m' count, ?_, hOne _, rfl⟩
    change n.read fd file m ref buf len = _ at hOk
    change Inode.read _ fd file m ref buf len = _
    unfold Inode.read at hOk ⊢
    rw [hOff] at hOk ⊢
    change (m.mmioRead off buf len >>= _) = _ at hOk
    change (m.mmioRead off buf len >>= _) = _
    rw [hRead, ok_bind] at hOk ⊢
    cases hOk
    rfl
  | write remap buf len =>
    obtain ⟨off, m', count, hOff, hWrite, rfl⟩ := write_eq_ok hOk
    refine ⟨{ file with pos := addOff file.pos (toInt count) }, m', hSet n _ hFile, rfl,
      advance ⟨[(fd, file)], .hashed m ref⟩ fd file ref m' count, ?_, hOne _, rfl⟩
    change n.write fd file m ref remap buf len = _ at hOk
    change Inode.write _ fd file m ref remap buf len = _
    unfold Inode.write at hOk ⊢
    rw [hOff] at hOk ⊢
    change (mmioWrite file.flags.writable remap m off buf len >>= _) = _ at hOk
    change (mmioWrite file.flags.writable remap m off buf len >>= _) = _
    rw [hWrite, ok_bind] at hOk ⊢
    cases hOk
    rfl
  | lseek offset whence =>
    obtain ⟨pos, hSeek, hDone⟩ := bind_eq_ok hOk
    cases hDone
    refine ⟨{ file with pos := pos }, m, hSet n _ hFile, rfl,
      ⟨setFile ⟨[(fd, file)], .hashed m ref⟩ fd { file with pos := pos }, .hashed m ref⟩, ?_, hOne _, rfl⟩
    change Inode.lseek _ fd file m ref offset whence = _
    unfold Inode.lseek
    rw [hSeek]
    rfl
  | fsync =>
    obtain ⟨m', hCommit, hDone⟩ := bind_eq_ok hOk
    cases hDone
    refine ⟨file, m', fun x => ?_, rfl, ⟨[(fd, file)], .hashed m' ref⟩, ?_, List.lookup_cons_self, rfl⟩
    · dsimp only
      split
      · rename_i hx
        rw [hx, hFile]
      · rfl
    · change Inode.fsync _ m ref = _
      unfold Inode.fsync
      rw [hCommit]
      rfl
  | close => cases hOpen

end Inode

namespace ProcessFiles

variable {M : Type} [DecidableEq M]

structure Stands (policy : Policy) (p : ProcessFiles M) (a : PosixFiles) : Prop where
  inv : p.Inv
  inode : ∀ fd, a.inode fd = (p.fdTable fd).map OpenFile.ino
  stands : ∀ ino, ∃ n, p.Projects ino n ∧ n.Stands policy (a.files ino)

section Steps

variable {policy : Policy} {p p' : ProcessFiles M} {a : PosixFiles} {ino : Nat} {m : M} {fd : Fd} {f : OpenFile M}
  {n n' : Inode}

theorem Stands.followed (h : p.Stands policy a) (hFollows : p.Follows p' ino n') {file : PosixFile}
    (hStands : n'.Stands policy file) {inode : Fd → Option Nat}
    (hInode : ∀ fd, inode fd = (p'.fdTable fd).map OpenFile.ino) :
    p'.Stands policy ⟨Function.update a.files ino file, inode⟩ := by
  refine ⟨hFollows.inv, hInode, fun other => ?_⟩
  dsimp only
  rw [Function.update_apply]
  split
  · rename_i hHere
    rw [hHere]
    exact ⟨n', hFollows.here, hStands⟩
  · rename_i hne
    obtain ⟨n, hProjects, hOther⟩ := h.stands other
    exact ⟨n, (hFollows.elsewhere other hne).projects hProjects, hOther⟩

theorem Stands.open (h : p.Stands policy a) {flags : AccMode} {supply : Supply M}
    (hConforms : p.Conforms policy (.open fd ino flags supply)) :
    ∃ p', p.libnvmmioOpen policy fd ino flags supply = .ok p' ∧
      p'.Stands policy (a.serve (.open fd ino flags supply)).1 := by
  obtain ⟨hFree, hPooled, hMap⟩ := hConforms
  obtain ⟨n, hProjects, hStands⟩ := h.stands ino
  have hNone : n.files.lookup fd.val = none := by
    rw [hProjects.files fd, fileOf, hFree]
    rfl
  have hTable : ∀ (q : ProcessFiles M) (m : M), q.fdTable = Function.update p.fdTable fd (some ⟨m, ino, ⟨flags, 0⟩⟩) →
      ∀ x, Function.update a.inode fd (some ino) x = (q.fdTable x).map OpenFile.ino := by
    intro q m hq x
    rw [hq, Function.update_apply, Function.update_apply]
    split
    · rfl
    · exact h.inode x
  have hBacking := hProjects.backing
  cases hFind : p.find ino with
  | some m =>
    rw [backing, hFind] at hBacking
    have hInode : n.Conforms policy (.call (.open fd flags ⟨0, supply.logPool, supply.addr⟩)) := by
      refine ⟨hNone, fun disk hReleased => ?_⟩
      rw [hBacking] at hReleased
      cases hReleased
    obtain ⟨n', hOk, hNext⟩ := hStands.open hInode
    rw [Inode.libnvmmioOpen, hBacking] at hOk
    cases hOk
    refine ⟨_, by rw [libnvmmioOpen, hFind], ?_⟩
    exact h.followed (h.inv.openHit hFree hFind hProjects flags) hNext (hTable _ m rfl)
  | none =>
    rw [backing, hFind] at hBacking
    have hInode : n.Conforms policy
        (.call (.open fd flags ⟨(p.mmios supply.object).epoch, supply.logPool, supply.addr⟩)) := by
      refine ⟨hNone, fun disk hReleased => ?_⟩
      rw [hBacking] at hReleased
      cases hReleased
      exact hMap hFind
    obtain ⟨n', hOk, hNext⟩ := hStands.open hInode
    rw [Inode.libnvmmioOpen, hBacking] at hOk
    obtain ⟨mmio, hNew, hDone⟩ := bind_eq_ok hOk
    cases hDone
    refine ⟨_, h.inv.open_eq hPooled hFind hNew, ?_⟩
    exact h.followed (h.inv.openMiss hFree hPooled hFind hProjects flags mmio) hNext (hTable _ _ rfl)

theorem Stands.close (h : p.Stands policy a) (hFile : p.fdTable fd = some f) (hProjects : p.Projects f.ino n)
    {result : Result} {file : PosixFile}
    (hOk : n.close fd.val f.file (p.mmios f.mmio) (p.objects.ref f.mmio) = .ok (n', result))
    (hNext : n'.Stands policy file) :
    ∃ p', p.close fd f = .ok (p', result) ∧
      p'.Stands policy ⟨Function.update a.files f.ino file, Function.update a.inode fd none⟩ := by
  obtain ⟨p', hClose, hFollows, hTable⟩ := h.inv.close hFile hProjects hOk
  refine ⟨p', hClose, h.followed hFollows hNext fun x => ?_⟩
  rw [hTable, Function.update_apply, Function.update_apply]
  split
  · rfl
  · exact h.inode x

theorem Stands.onFile (h : p.Stands policy a) {c : FileCall} (hConforms : p.Conforms policy (.onFile fd c)) :
    ∃ p' result, p.onFile fd c = .ok (p', result) ∧ (a.serve (M := M) (.onFile fd c)).2 = some result ∧
      p'.Stands policy (a.serve (M := M) (.onFile fd c)).1 := by
  have hInode := h.inode fd
  cases hFile : p.fdTable fd with
  | none =>
    rw [hFile] at hInode
    refine ⟨p, .posix, by rw [ProcessFiles.onFile, hFile], ?_, ?_⟩
    · rw [PosixFiles.serve, hInode]
      rfl
    · rw [PosixFiles.serve, hInode]
      exact h
  | some f =>
    rw [hFile] at hInode
    obtain ⟨n, hProjects, hStands⟩ := h.stands f.ino
    have hEntry : n.files.lookup fd.val = some f.file := by
      rw [hProjects.files fd, fileOf_of_file hFile, if_pos rfl]
    have hBacking : n.backing = .hashed (p.mmios f.mmio) (p.objects.ref f.mmio) := by
      rw [hProjects.backing, backing, h.inv.find_file hFile]
    have hOffsets := hStands.offsets fd.val
    rw [hEntry] at hOffsets
    obtain ⟨off, hOff, _⟩ := Option.map_eq_some_iff.mp hOffsets.symm
    obtain ⟨n', hOk, hNext⟩ := hStands.callFile hEntry hBacking hOff (hConforms f hFile)
    have hServe : a.serve (M := M) (.onFile fd c) =
        (⟨Function.update a.files f.ino ((a.files f.ino).serveFile fd off c).1,
          if c.closes then Function.update a.inode fd none else a.inode⟩,
          some ((a.files f.ino).serveFile fd off c).2) := by
      rw [PosixFiles.serve, hInode]
      dsimp only [Option.map_some]
      rw [PosixFile.serve, hOff]
    rw [hServe]
    cases hCloses : c.closes with
    | true =>
      cases c with
      | close =>
        obtain ⟨p', hClose, hThere⟩ := h.close hFile hProjects hOk hNext
        refine ⟨p', _, ?_, rfl, hThere⟩
        rw [ProcessFiles.onFile, hFile]
        exact hClose
      | read | write | lseek | fsync => cases hCloses
    | false =>
      obtain ⟨file', m', hFiles, hThere, n₁, hOne, hOneFile, hOneBacking⟩ :=
        Inode.callFile_local hCloses hEntry hOk
      have hGive : p.giveBack fd f n₁ = { p with
          fdTable := Function.update p.fdTable fd (some { f with file := file' })
          mmios := Function.update p.mmios f.mmio m' } := by
        rw [giveBack, hOneFile, hOneBacking]
      refine ⟨p.giveBack fd f n₁, _, ?_, rfl, ?_⟩
      · rw [ProcessFiles.onFile, hFile]
        cases c with
        | close => cases hCloses
        | read | write | lseek | fsync =>
          dsimp only
          rw [borrow, hOne, ok_bind]
      · rw [hGive]
        refine h.followed (h.inv.moved hFile hProjects hFiles hThere) hNext fun x => ?_
        dsimp only
        rw [if_neg Bool.false_ne_true, h.inode, Function.update_apply]
        split
        · rename_i hx
          rw [hx, hFile]
          rfl
        · rfl

theorem Stands.wakeup (h : p.Stands policy a) (hConforms : p.Conforms policy (.wakeup m)) :
    ∃ p', p.wakeup m = .ok p' ∧ p'.Stands policy a := by
  obtain ⟨hTaken, hSized⟩ := hConforms
  obtain ⟨n, hProjects, hStands⟩ := h.stands (p.objects.ino m)
  have hBacking : n.backing = .hashed (p.mmios m) (p.objects.ref m) := by
    rw [hProjects.backing, backing, h.inv.find_live hTaken]
  have hInode : n.Conforms policy .wakeup := by
    intro m' ref hHashed
    rw [hBacking] at hHashed
    cases hHashed
    exact hSized
  obtain ⟨n', hOk, hNext⟩ := hStands.wakeup hInode
  rw [Inode.wakeup, hBacking] at hOk
  obtain ⟨mmio, hCheckpoint, hDone⟩ := bind_eq_ok hOk
  cases hDone
  refine ⟨_, by rw [ProcessFiles.wakeup, hCheckpoint, ok_bind], ?_⟩
  have hThere : ProcessFiles.Stands policy { p with mmios := Function.update p.mmios m mmio }
      ⟨Function.update a.files (p.objects.ino m) (a.files (p.objects.ino m)), a.inode⟩ :=
    h.followed (h.inv.woken hTaken hProjects mmio) hNext h.inode
  rw [Function.update_eq_self] at hThere
  exact hThere

theorem Stands.step (h : p.Stands policy a) {e : Event M} (hConforms : p.Conforms policy e) :
    ∃ p', p.next policy e = .ok (p', (a.serve e).2) ∧ p'.Stands policy (a.serve e).1 := by
  cases e with
  | «open» fd ino flags supply =>
    obtain ⟨p', hOk, hNext⟩ := h.open hConforms
    exact ⟨p', by rw [next, hOk, ok_bind]; rfl, hNext⟩
  | onFile fd c =>
    obtain ⟨p', result, hOk, hAnswer, hNext⟩ := h.onFile hConforms
    exact ⟨p', by rw [next, hOk, ok_bind, hAnswer], hNext⟩
  | wakeup m =>
    obtain ⟨p', hOk, hNext⟩ := h.wakeup hConforms
    exact ⟨p', by rw [next, hOk, ok_bind]; rfl, hNext⟩

end Steps

theorem started_stands (policy : Policy) (mmios : M → Mmio) (disks : Nat → Disk) :
    (started mmios disks).Stands policy (PosixFiles.ofDisks disks) := by
  have hNobody : ∀ m : M, holders (started mmios disks).counted m = ∅ := by
    intro m
    apply holders_eq_empty_iff.mpr
    intro x hx
    cases hx
  refine ⟨⟨⟨?_, fun _ => List.nodup_nil, ?_, ?_, fun m => ?_, ?_, ?_⟩, ?_, ?_⟩, fun _ => rfl, fun ino => ?_⟩
  · intro i m hMem
    cases hMem
  · intro i m hMem
    cases hMem
  · intro i m hMem
    cases hMem
  · rw [hNobody, Finset.card_empty]
    rfl
  · intro i m hMem
    cases hMem
  · intro fd m hCounted
    cases hCounted
  · intro fd f hFile
    cases hFile
  · intro m hTaken
    cases hTaken
  · exact ⟨Inode.closed (disks ino), ⟨fun _ => rfl, rfl⟩, Inode.closed_stands policy (disks ino)⟩

/-- An inode without descriptors has no object, and its file is on the disk. -/
theorem Stands.no_descriptor {policy : Policy} {p : ProcessFiles M} {a : PosixFiles} (h : p.Stands policy a) {ino : Nat}
    (hNone : ∀ fd, a.inode fd ≠ some ino) : p.find ino = none ∧ (p.disks ino).Holds (a.files ino).file := by
  have hFind : p.find ino = none := by
    by_contra hSome
    obtain ⟨m, hFound⟩ := Option.ne_none_iff_exists'.mp hSome
    obtain ⟨hMem, hIno⟩ := h.inv.find_eq_some_iff.mp hFound
    obtain ⟨fd, hCounted⟩ := h.inv.stored.referenced _ m hMem
    obtain ⟨f, hFile, hMmio⟩ := Option.map_eq_some_iff.mp hCounted
    apply hNone fd
    rw [h.inode, hFile, Option.map_some, ← h.inv.files fd f hFile, hMmio, hIno]
  obtain ⟨n, hProjects, hStands⟩ := h.stands ino
  have hBacking := hProjects.backing
  rw [backing, hFind] at hBacking
  exact ⟨hFind, hStands.released _ hBacking⟩

end ProcessFiles

end Libnvmmio

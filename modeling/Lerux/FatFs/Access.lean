import Lerux.FatFs.Contents
import Lerux.FatFs.Mounted

/-!
# Writes through a handle opened for reading

`OpenFile` does not record how the file was opened. `handle_write` refuses a handle on a nested file by its
`parent` field; a handle on a root file that `FILE_OPEN` gave for reading is written through like any other.
-/

namespace Lerux.FatFs

open SlotTable

/-- The entry of the file behind a handle, in the root or in its directory. -/
def fileEntry (s : Fs) (f : OpenFile) : Slot Name Meta :=
  if f.parent = 0 then rootTable s f.dirIndex else dirTable (clusterBytes s f.parent) f.dirIndex

/-- The file behind a handle has the size and the contents it had. -/
structure FileKept (s s' : Fs) (f : OpenFile) : Prop where
  handle : s'.file = some f
  entry : fileEntry s' f = fileEntry s f
  contents : slice (clusterBytes s' f.cluster) 0 f.size = slice (clusterBytes s f.cluster) 0 f.size

/-- The write stores what the file holds already. -/
structure SameBytes (s : Fs) (buf : Buffer) (f : OpenFile) : Prop where
  size : buf.size = f.size
  entry : resized buf.size (rootTable s f.dirIndex) = rootTable s f.dirIndex
  contents : slice s.share buf.offset buf.size = slice (clusterBytes s f.cluster) 0 buf.size

section kept

variable {s s' : Fs} {f : OpenFile} {fd offset : Nat} {buf : Buffer}

theorem FileKept.of_still (h : Still s s') (hopen : s.file = some f) : FileKept s s' f := by
  have hroot : rootTable s' = rootTable s := congrArg Volume.root h.volume
  have hdata : clusterBytes s' = clusterBytes s := congrArg Volume.data h.volume
  refine ⟨h.file.trans hopen, ?_, by rw [hdata]⟩
  unfold fileEntry
  rw [hroot, hdata]

/-- A refused write leaves every file alone, on any device. -/
theorem FileKept.of_refused (hopen : s.file = some f) (hnot : ¬WriteAccepted s fd offset buf f) (id : Nat) :
    FileKept s (serveOne id (.fileWrite fd offset buf) s).2 f := by
  have hnone : ∀ file, ¬WriteAccepted s fd offset buf file := by
    intro file hok
    have heq := hok.handle
    rw [hopen] at heq
    cases heq
    exact hnot hok
  have hanswer : ∃ status, handleWrite id fd offset buf s = complete id status .empty s :=
    handleWrite_refuses hnone
  obtain ⟨status, hrun⟩ := hanswer
  rw [serveOne, hrun]
  exact FileKept.of_still (complete_still s id status .empty) hopen

theorem fileKept_write_iff (hw : Working s) (hrange : HandleOk s)
    (hok : WriteAccepted s fd offset buf f) (id : Nat) :
    FileKept s (serveOne id (.fileWrite fd offset buf) s).2 f ↔ SameBytes s buf f := by
  obtain ⟨hindex, hc⟩ := hrange f hok.handle hok.parent
  have hwrites : ∃ s₁, handleWrite id fdFile 0 buf s =
        complete id .success (.write buf.size)
          { s₁ with file := some { f with size := buf.size } } ∧ Working s₁ ∧
      Becomes s s₁ (written (volume s) f buf.size (slice s.share buf.offset buf.size)) :=
    handleWrite_writes hw hok.handle hok.parent hindex hc hok.pos hok.le hok.bytes
  obtain ⟨s₁, hrun, -, hb⟩ := hwrites
  have hstill := complete_still { s₁ with file := some { f with size := buf.size } } id .success
    (.write buf.size)
  have hserve : (serveOne id (.fileWrite fd offset buf) s).2 =
      (complete id .success (.write buf.size) { s₁ with file := some { f with size := buf.size } }).2 := by
    rw [hok.fd, hok.offset, serveOne, hrun]
  rw [hserve]
  have hvolume := hstill.volume.trans hb.volume
  have hroot : rootTable (complete id .success (.write buf.size)
    { s₁ with file := some { f with size := buf.size } }).2
      f.dirIndex = resized buf.size (rootTable s f.dirIndex) := by
    rw [← volume_root, hvolume, written, Volume.setRoot_root, Function.update_self]
    rfl
  have hdata : clusterBytes (complete id .success (.write buf.size)
    { s₁ with file := some { f with size := buf.size } }).2
      f.cluster = window (copyAt 0 (slice s.share buf.offset buf.size)
        (clusterBytes s f.cluster)) 0 sectorBytes := by
    have h := congrFun (congrArg Volume.data hvolume) f.cluster
    rw [written, Volume.setRoot_data, Volume.setData_data, Function.update_self] at h
    exact h
  have hlen : (slice s.share buf.offset buf.size).length = buf.size := slice_length _ _ _
  have hbytes := slice_written (hlen.trans_le hok.le) (clusterBytes s f.cluster)
  rw [hlen] at hbytes
  constructor
  · rintro ⟨hhandle, hentry, hcontents⟩
    have hsize : buf.size = f.size := congrArg OpenFile.size
      (Option.some.inj (hstill.file.symm.trans hhandle))
    refine ⟨hsize, ?_, ?_⟩
    · unfold fileEntry at hentry
      rw [if_pos hok.parent, if_pos hok.parent, hroot] at hentry
      exact hentry
    · rw [hdata, ← hsize, hbytes] at hcontents
      exact hcontents
  · rintro ⟨hsize, hentry, hcontents⟩
    refine ⟨?_, ?_, ?_⟩
    · rw [hstill.file, hsize]
    · unfold fileEntry
      rw [if_pos hok.parent, if_pos hok.parent, hroot, hentry]
    · rw [hdata, ← hsize, hbytes, hcontents]

end kept

/-- In every state the server gets into, a file opened for reading keeps its size and its contents
over a `FILE_WRITE` that a check refuses, whatever the device does; and on a device that performs
its transfers, only over such a write and over one that stores what is there already. -/
theorem readOnly_kept_iff {s : Fs} (h : Mounted s (some openFlagsReadOnly)) {f : OpenFile}
    (hopen : s.file = some f)
    (id fd offset : Nat) (buf : Buffer) :
    (¬WriteAccepted s fd offset buf f → FileKept s (serveOne id (.fileWrite fd offset buf) s).2 f) ∧
    ((∀ k, s.performs k = true) → (FileKept s (serveOne id (.fileWrite fd offset buf) s).2 f ↔
      ¬WriteAccepted s fd offset buf f ∨ SameBytes s buf f)) := by
  refine ⟨fun hnot => FileKept.of_refused hopen hnot id, fun hperforms => ?_⟩
  by_cases hok : WriteAccepted s fd offset buf f
  · rw [fileKept_write_iff (h.working hperforms) h.handleOk hok id]
    simp [hok]
  · simp [hok, FileKept.of_refused hopen hok id]

/-! ### A file of one byte -/

/-- The file `f` made on a new volume, one byte written to it, closed and opened for reading. -/
def readOnlyOpened : Fs :=
  (serveOne 4 (.fileOpen ⟨0, 1⟩ openFlagsReadOnly)
    (serveOne 3 (.fileClose fdFile)
      (serveOne 2 (.fileWrite fdFile 0 ⟨0, 1⟩)
        (serveOne 1 (.fileOpen ⟨0, 1⟩ 5)
          { (prepare true blank).2 with
            share := renameShare, completions := (prepare true blank).2.completions.drop 0 }).2).2).2).2

theorem readOnlyOpened_mounted : Mounted readOnlyOpened (some openFlagsReadOnly) := by
  have hrun : (prepare true blank).1 = true := by decide +kernel
  have heta : ∀ p : Bool × Fs, p.1 = true → p = (true, p.2) := fun p h => by rw [← h]
  have hstart : Mounted (prepare true blank).2 none := .start rfl rfl rfl rfl (heta _ hrun)
  have hmounted := (((hstart.client renameShare 0).serve 1 (.fileOpen ⟨0, 1⟩ 5)).serve 2
    (.fileWrite fdFile 0 ⟨0, 1⟩)).serve 3
    (.fileClose fdFile) |>.serve 4 (.fileOpen ⟨0, 1⟩ openFlagsReadOnly)
  refine cast (congrArg (Mounted readOnlyOpened) ?_) hmounted
  decide +kernel

theorem readOnlyOpened_file : readOnlyOpened.file = some ⟨4, 1, 1, 0⟩ := by decide +kernel

/-- Writing the byte that is there leaves the file as it is. -/
theorem readOnly_kept_same : FileKept readOnlyOpened
    (serveOne 5 (.fileWrite fdFile 0 ⟨0, 1⟩) readOnlyOpened).2 ⟨4, 1, 1, 0⟩ := by
  have hblank : Working blank := ⟨fun _ => rfl, (fun h => by cases h), fun _ h => by cases h⟩
  have hclient : ∀ s, Working s → Working { s with share := renameShare, completions := s.completions.drop 0 } := fun s hw =>
    ⟨hw.performs, hw.valid_of_dirty, hw.coherent⟩
  have hprepared := hclient _ (prepare_preserves working_closed.cache formatVolume_keeps blank hblank)
  have hmade := serveOne_keeps 1 (.fileOpen ⟨0, 1⟩ 5) _ hprepared
  have hwritten := serveOne_keeps 2 (.fileWrite fdFile 0 ⟨0, 1⟩) _ hmade
  have hclosed := serveOne_keeps 3 (.fileClose fdFile) _ hwritten
  have hopened : Working readOnlyOpened := serveOne_keeps 4 (.fileOpen ⟨0, 1⟩ openFlagsReadOnly) _ hclosed
  have hperforms := hopened.performs
  refine ((readOnly_kept_iff readOnlyOpened_mounted readOnlyOpened_file 5 fdFile 0 ⟨0,
    1⟩).2 hperforms).mpr (Or.inr ?_)
  exact ⟨rfl, by decide +kernel, by decide +kernel⟩

/-- Writing two bytes through the handle that was opened for reading changes the file. -/
theorem readOnlyOpened_not_kept : Mounted readOnlyOpened (some openFlagsReadOnly) ∧
    readOnlyOpened.file = some ⟨4, 1, 1, 0⟩ ∧
    ¬FileKept readOnlyOpened (serveOne 5 (.fileWrite fdFile 0 ⟨0, 2⟩) readOnlyOpened).2 ⟨4, 1, 1, 0⟩ := by
  refine ⟨readOnlyOpened_mounted, readOnlyOpened_file, fun hkept => ?_⟩
  have hfile : (serveOne 5 (.fileWrite fdFile 0 ⟨0, 2⟩) readOnlyOpened).2.file =
    some ⟨4, 2, 1, 0⟩ := by decide +kernel
  have hsame := hfile.symm.trans hkept.handle
  cases hsame

end Lerux.FatFs

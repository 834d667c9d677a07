import Lerux.FatFs.Volume

/-!
# What a command does to the volume

`Effect` lists what one command can do to the volume and to the two handles, with what the handler had
found out before. `serveOne_effect` is the only place where the handlers are taken apart for this; the
properties of whole runs are proved by cases on `Effect`.
-/

namespace Lerux.FatFs

open SlotTable

/-- The cluster of a new directory: the entries for itself and its parent. -/
def emptyDirectory (cluster : Nat) : Bytes :=
  window ((fun _ => 0) |> putEntry 0 (dotName 1) cluster 0 attrDir |> putEntry dirEntry
    (dotName 2) 0 0 attrDir)
    0 sectorBytes

/-- The handle is on the root entry `slot`. -/
def OnRoot (slot : Nat) (file : OpenFile) : Prop := file.parent = 0 ∧ file.dirIndex = slot

instance (slot : Nat) (file : OpenFile) : Decidable (OnRoot slot file) :=
  inferInstanceAs (Decidable (_ ∧ _))

/-- The path of a `FILE_OPEN` as the server reads it. -/
def openPath (s : Fs) (path : Buffer) : Option (List UInt8) :=
  if path.size = 0 then some [] else copyShare s path.offset path.size

/-- The handles and the volume after a command, by what the command did. -/
inductive Effect (s : Fs) : Command → Volume → Option OpenFile → Option OpenDir → Prop
  | nothing (command : Command) : Effect s command (volume s) s.file s.dir
  | openRoot {path : Buffer} {flags slot : Nat} {raw : List UInt8} {name : Name} {m : Meta}
      (hraw : openPath s path = some raw) (hslash : slash ∉ raw) (hname : packName raw = some name)
      (closed : s.file = none) (found : lookup (volume s).root name rootEntries 0 = some (slot, m))
      (plain : m.attr &&& attrDir = 0) (hc : 2 ≤ m.cluster) :
      Effect s (.fileOpen path flags) (volume s) (some ⟨m.cluster, m.size, slot, 0⟩) s.dir
  | openNested {path : Buffer} {flags slot index : Nat} {dirName fileName : Name} {m m' : Meta}
      (closed : s.file = none)
      (parent : lookup (volume s).root dirName rootEntries 0 = some (slot, m))
        (isDir : m.attr &&& attrDir ≠ 0)
      (hp : 2 ≤ m.cluster)
      (found : lookup (dirTable ((volume s).data m.cluster)) fileName entriesPerSector 0 = some (index, m'))
      (plain : m'.attr &&& attrDir = 0) (hc : 2 ≤ m'.cluster) :
      Effect s (.fileOpen path flags) (volume s) (some ⟨m'.cluster, m'.size, index, m.cluster⟩) s.dir
  | close {fd : Nat} : Effect s (.fileClose fd) (volume s) none s.dir
  | create {path : Buffer} {flags slot cluster : Nat} {name : Name}
      (target : Command.target s (.fileOpen path flags) = some name) (hlen : name.length = 11)
      (hslash : slash ∉ name) (closed : s.file = none)
      (absent : lookup (volume s).root name rootEntries 0 = none)
      (free : firstFree (volume s).root rootEntries 0 = some slot)
      (alloc : firstCluster (volume s).fat1 (clusterScan - 2) 2 = some cluster) :
      Effect s (.fileOpen path flags)
        (((volume s).setFat cluster 0xFFFF).setRoot slot (slotFor name ⟨cluster, 0, attrArchive⟩))
        (some ⟨cluster, 0, slot, 0⟩) s.dir
  | mkdir {path : Buffer} {slot cluster : Nat} {name : Name} (target : readPackedName s path = some name)
      (hlen : name.length = 11) (absent : lookup (volume s).root name rootEntries 0 = none)
      (free : firstFree (volume s).root rootEntries 0 = some slot)
      (alloc : firstCluster (volume s).fat1 (clusterScan - 2) 2 = some cluster) :
      Effect s (.dirCreate path)
        ((((volume s).setFat cluster 0xFFFF).setData cluster (emptyDirectory cluster)).setRoot slot
          (slotFor name ⟨cluster, 0, attrDir⟩))
        s.file s.dir
  | write {fd offset : Nat} {buf : Buffer} {file : OpenFile} {bytes : List UInt8}
      (handle : s.file = some file)
      (inRoot : file.parent = 0) (hfd : fd = fdFile) (hoff : offset = 0)
        (hsize : 0 < buf.size ∧ buf.size ≤ sectorBytes)
      (hbytes : copyShare s buf.offset buf.size = some bytes) :
      Effect s (.fileWrite fd offset buf)
        (((volume s).setData file.cluster
            (window (copyAt 0 bytes ((volume s).data file.cluster)) 0 sectorBytes)).setRoot file.dirIndex
          (resized buf.size ((volume s).root file.dirIndex)))
        (some { file with size := buf.size }) s.dir
  | rename {oldPath newPath : Buffer} {slot : Nat} {old new : Name} {m : Meta}
      (source : readPackedName s oldPath = some old) (target : readPackedName s newPath = some new)
      (hlen : new.length = 11) (found : lookup (volume s).root old rootEntries 0 = some (slot, m))
      (absent : old = new ∨ lookup (volume s).root new rootEntries 0 = none) :
      Effect s (.rename oldPath newPath) ((volume s).setRoot slot (slotFor new m)) s.file s.dir
  | remove {path : Buffer} {slot : Nat} {name : Name} {m : Meta} (hname : readPackedName s path = some name)
      (found : lookup (volume s).root name rootEntries 0 = some (slot, m))
      (empty : m.attr &&& attrDir ≠ 0 →
        2 ≤ m.cluster ∧ emptyFrom (dirTable ((volume s).data m.cluster)) entriesPerSector 0 = true) :
      Effect s (.fileRemove path)
        ((if 2 ≤ m.cluster then (volume s).setFat m.cluster 0 else volume s).setRoot slot .deleted)
        (if s.file.any (OnRoot slot) then none else s.file) s.dir
  | dirOpenRoot {path : Buffer} (closed : s.dir = none) :
      Effect s (.dirOpen path) (volume s) s.file (some ⟨0, 0, rootEntries⟩)
  | dirOpen {path : Buffer} {slot : Nat} {name : Name} {m : Meta} (closed : s.dir = none)
      (found : lookup (volume s).root name rootEntries 0 = some (slot, m)) (isDir : m.attr &&& attrDir ≠ 0)
      (hc : 2 ≤ m.cluster) :
      Effect s (.dirOpen path) (volume s) s.file (some ⟨m.cluster, 0, entriesPerSector⟩)
  | dirMove {fd : Nat} {buf : Buffer} (index : Nat) :
      Effect s (.dirRead fd buf) (volume s) s.file (s.dir.map fun dir => { dir with index })
  | dirClose {fd : Nat} : Effect s (.dirClose fd) (volume s) s.file none

/-- The clusters of the root entries and the open root file are where the scans put them. -/
structure InRange (s : Fs) : Prop where
  root : ∀ i name m, (volume s).root i = .live name m → m.cluster < clusterScan
  file : ∀ file, s.file = some file → file.parent = 0 → file.dirIndex < rootEntries ∧ 2 ≤ file.cluster

/-- The command did one of the things `Effect` lists. -/
def Does (s : Fs) (command : Command) (s' : Fs) : Prop := Effect s command (volume s') s'.file s'.dir

/-- The volume and the handles are as they were. -/
structure Still (s s' : Fs) : Prop where
  volume : volume s' = volume s
  file : s'.file = s.file
  dir : s'.dir = s.dir

section still

variable {s s₁ s' : Fs} {command : Command}

theorem Same.still (h : Same s s') : Still s s' := ⟨h.volume, h.file, h.dir⟩

theorem Still.trans (h : Still s s₁) (h' : Still s₁ s') : Still s s' :=
  ⟨h'.volume.trans h.volume, h'.file.trans h.file, h'.dir.trans h.dir⟩

theorem complete_still (s : Fs) (id : Nat) (status : Status) (data : Completion) :
    Still s (complete id status data s).2 := by
  unfold complete
  split
  · exact ⟨rfl, rfl, rfl⟩
  · exact ⟨rfl, rfl, rfl⟩

theorem copyToShare_still (s : Fs) (offset : Nat) (src : List UInt8) :
    Still s (copyToShare offset src s).2 := by
  unfold copyToShare
  split
  · exact ⟨rfl, rfl, rfl⟩
  · exact ⟨rfl, rfl, rfl⟩

theorem Still.does (h : Still s s') : Does s command s' := by
  unfold Does
  rw [h.volume, h.file, h.dir]
  exact .nothing command

theorem Does.still (h : Does s command s₁) (h' : Still s₁ s') : Does s command s' := by
  unfold Does
  rw [h'.volume, h'.file, h'.dir]
  exact h

theorem Still.answer (h : Still s s₁) (id : Nat) (status : Status) (data : Completion) :
    Does s command (complete id status data s₁).2 := (h.trans (complete_still s₁ id status data)).does

theorem Still.refl (s : Fs) : Still s s := ⟨rfl, rfl, rfl⟩

end still

/-! ### The handlers -/

section handlers

variable {s : Fs} {id : Nat}

/-- The clusters `alloc_cluster` looks at have entries in the tables. -/
theorem firstCluster_fatEntry (s : Fs) :
    firstCluster (fatEntry s) (clusterScan - 2) 2 = firstCluster (volume s).fat1 (clusterScan - 2) 2 := by
  have hwalk : ∀ left cluster, cluster + left ≤ fatClusters →
      firstCluster (fatEntry s) left cluster = firstCluster (volume s).fat1 left cluster := by
    intro left
    induction left with
    | zero => exact fun _ _ => rfl
    | succ left ih =>
      intro cluster hle
      have heq : (volume s).fat1 cluster = fatEntry s cluster := if_pos (by omega)
      rw [firstCluster, firstCluster, heq, ih (cluster + 1) (by omega)]
  exact hwalk (clusterScan - 2) 2 (by decide)

theorem openHit_does {s₁ : Fs} {command : Command} {parent : Nat} {hit : DirHit} (hsame : Same s s₁)
    (h : hit.attr &&& attrDir = 0 → 2 ≤ hit.cluster →
      Effect s command (volume s) (some ⟨hit.cluster, hit.size, hit.index, parent⟩) s.dir) :
    Does s command (openHit id parent hit s₁).2 := by
  unfold openHit
  rw [ite_run]
  split
  · exact hsame.still.answer id _ _
  · next hplain =>
    rw [not_or, not_not, Nat.not_lt] at hplain
    have heffect := h hplain.1 hplain.2
    rw [← hsame.volume, ← hsame.dir] at heffect
    have hopen : Does s command { s₁ with file := some ⟨hit.cluster, hit.size, hit.index,
      parent⟩ } := heffect
    exact hopen.still (complete_still _ id _ _)

theorem openRead_does (hw : Working s) {path : Buffer} {flags : Nat} {raw : List UInt8} {name : Name}
    (hraw : openPath s path = some raw) (hslash : slash ∉ raw) (hname : packName raw = some name) :
    Does s (.fileOpen path flags) (openRead id name s).2 := by
  unfold openRead
  rw [get_bind, ite_run]
  split
  · exact (Still.refl s).answer id _ _
  next hclosed =>
  rw [Option.not_isSome_iff_eq_none] at hclosed
  obtain ⟨s₁, hfind, -, hsame⟩ := findName_spec hw name
  rw [bind_of_eq hfind]
  cases hlookup : lookup (rootTable s) name rootEntries 0 with
  | none => exact hsame.still.answer id _ _
  | some r =>
    obtain ⟨slot, m⟩ := r
    exact openHit_does hsame fun hplain hc => .openRoot hraw hslash hname hclosed hlookup hplain hc

theorem openNestedRead_does (hw : Working s) {path : Buffer} {flags : Nat} {dirName fileName : Name} :
    Does s (.fileOpen path flags) (openNestedRead id dirName fileName s).2 := by
  unfold openNestedRead
  rw [get_bind, ite_run]
  split
  · exact (Still.refl s).answer id _ _
  next hclosed =>
  rw [Option.not_isSome_iff_eq_none] at hclosed
  obtain ⟨s₁, hfind, hw₁, hsame₁⟩ := findName_spec hw dirName
  rw [bind_of_eq hfind]
  cases hlookup : lookup (rootTable s) dirName rootEntries 0 with
  | none => exact hsame₁.still.answer id _ _
  | some r =>
    obtain ⟨slot, m⟩ := r
    simp only [hitOf, ite_run]
    split
    swap
    · exact hsame₁.still.answer id _ _
    next hparent =>
    obtain ⟨s₂, hfile, -, hsame₂⟩ := findInCluster_spec hw₁ hparent.2 fileName
    rw [hsame₁.volume] at hfile
    rw [bind_of_eq hfile]
    have hsame := hsame₁.trans hsame₂
    cases hnested : lookup (dirTable ((volume s).data (DirHit.ofSlot (slot, m)).cluster)) fileName
      entriesPerSector 0 with
    | none => exact hsame.still.answer id _ _
    | some r' =>
      obtain ⟨index, m'⟩ := r'
      exact openHit_does hsame fun hplain hc =>
        .openNested hclosed hlookup hparent.1 hparent.2 hnested hplain hc

theorem reserveFile_does (hw : Working s) (id : Nat) (name : Name) :
    (∃ slot cluster s', reserveFile id name s = (.ok (slot, cluster), s') ∧ Working s' ∧ Same s s' ∧
      lookup (volume s).root name rootEntries 0 = none ∧
        firstFree (volume s).root rootEntries 0 = some slot ∧
      firstCluster (volume s).fat1 (clusterScan - 2) 2 = some cluster) ∨
    ∃ done s', reserveFile id name s = (.error done, s') ∧ Still s s' := by
  rcases reserveFile_spec hw id name with h | ⟨status, s₁, -, hsame, h⟩
  · rw [firstCluster_fatEntry] at h
    exact Or.inl h
  · exact Or.inr ⟨_, _, h, hsame.still.trans (complete_still _ _ _ _)⟩

theorem firstCluster_fat1_range {cluster : Nat}
    (h : firstCluster (volume s).fat1 (clusterScan - 2) 2 = some cluster) :
    2 ≤ cluster ∧ cluster < clusterScan := by
  have := firstCluster_range h
  simp only [clusterScan] at *
  omega

theorem lt_fatClusters {cluster : Nat} (h : cluster < clusterScan) : cluster < fatClusters :=
  h.trans (by decide)

theorem createFile_does (hw : Working s) {path : Buffer} {flags : Nat} {name : Name}
    (hlen : name.length = 11)
    (hslash : slash ∉ name) (htarget : Command.target s (.fileOpen path flags) = some name) :
    Does s (.fileOpen path flags) (createFile id name s).2 := by
  unfold createFile
  rw [get_bind, ite_run]
  split
  · exact (Still.refl s).answer id _ _
  next hclosed =>
  rw [Option.not_isSome_iff_eq_none] at hclosed
  rcases reserveFile_does hw id name with ⟨slot, cluster, s₁, hres, hw₁, hsame, habsent, hfree, halloc⟩ |
    ⟨done, s₁, hres, hstill⟩
  swap
  · rw [bind_of_eq hres]
    exact hstill.does
  obtain ⟨hlow, hhigh⟩ := firstCluster_fat1_range halloc
  have hword : cluster < 65536 := hhigh.trans (by decide)
  obtain ⟨s₂, hfat, hw₂, hb₂⟩ := setFat_becomes hw₁ (lt_fatClusters hhigh) 0xFFFF (by decide)
  obtain ⟨s₃, hdir, hw₃, hb₃⟩ := writeDir_becomes hw₂ (slot_lt hfree) hlen hword attrArchive
  obtain ⟨s₄, hflush, -, hb₄⟩ := flushBlock_becomes hw₃
  rw [bind_of_eq hres]
  simp only
  rw [bind_of_eq ((andThen_of_true hfat).trans ((andThen_of_true hdir).trans hflush))]
  simp only [ite_run, if_true, modify_bind]
  have hvolume : volume s₄ = ((volume s).setFat cluster 0xFFFF).setRoot slot
    (slotFor name ⟨cluster, 0, attrArchive⟩) := by
    rw [hb₄.volume, hb₃.volume, hb₂.volume, hsame.volume]
  have hdirs : s₄.dir = s.dir := hb₄.dir.trans (hb₃.dir.trans (hb₂.dir.trans hsame.dir))
  have hcreate : Does s (.fileOpen path flags) { s₄ with file := some ⟨cluster, 0, slot, 0⟩ } := by
    change Effect s _ (volume s₄) (some ⟨cluster, 0, slot, 0⟩) s₄.dir
    rw [hvolume, hdirs]
    exact .create htarget hlen hslash hclosed habsent hfree halloc
  exact hcreate.still (complete_still _ id _ _)

theorem handleMkdir_does (hw : Working s) {path : Buffer} :
    Does s (.dirCreate path) (handleMkdir id path s).2 := by
  unfold handleMkdir
  rw [get_bind]
  cases htarget : readPackedName s path with
  | none => exact (Still.refl s).answer id _ _
  | some name =>
  dsimp only
  have hlen := readPackedName_length htarget
  rcases reserveFile_does hw id name with ⟨slot, cluster, s₁, hres, hw₁, hsame, habsent, hfree, halloc⟩ |
    ⟨done, s₁, hres, hstill⟩
  swap
  · rw [bind_of_eq hres]
    exact hstill.does
  obtain ⟨hlow, hhigh⟩ := firstCluster_fat1_range halloc
  have hword : cluster < 65536 := hhigh.trans (by decide)
  obtain ⟨s₂, hfat, hw₂, hb₂⟩ := setFat_becomes hw₁ (lt_fatClusters hhigh) 0xFFFF (by decide)
  obtain ⟨s₃, hformat, hw₃, hb₃⟩ := editData_becomes hw₂ hlow fun _ =>
    (fun _ => 0) |> putEntry 0 (dotName 1) cluster 0 attrDir |> putEntry dirEntry (dotName 2) 0 0 attrDir
  obtain ⟨s₄, hdir, hw₄, hb₄⟩ := writeDir_becomes hw₃ (slot_lt hfree) hlen hword attrDir
  obtain ⟨s₅, hflush, -, hb₅⟩ := flushBlock_becomes hw₄
  have hformat : formatDirectory cluster s₂ = (true, s₃) := hformat
  rw [bind_of_eq hres]
  simp only
  rw [bind_of_eq ((andThen_of_true hfat).trans
    ((andThen_of_true hformat).trans ((andThen_of_true hdir).trans hflush)))]
  simp only [ite_run, if_true]
  have hvolume : volume s₅ = (((volume s).setFat cluster 0xFFFF).setData cluster
    (emptyDirectory cluster)).setRoot slot
      (slotFor name ⟨cluster, 0, attrDir⟩) := by
    rw [hb₅.volume, hb₄.volume, hb₃.volume, hb₂.volume, hsame.volume]
    rfl
  have hfiles : s₅.file = s.file := hb₅.file.trans
    (hb₄.file.trans (hb₃.file.trans (hb₂.file.trans hsame.file)))
  have hdirs : s₅.dir = s.dir := hb₅.dir.trans (hb₄.dir.trans (hb₃.dir.trans (hb₂.dir.trans hsame.dir)))
  have hmkdir : Does s (.dirCreate path) s₅ := by
    unfold Does
    rw [hvolume, hfiles, hdirs]
    exact .mkdir htarget hlen habsent hfree halloc
  exact hmkdir.still (complete_still _ id _ _)

theorem handleOpen_does (hw : Working s) {path : Buffer} {flags : Nat} :
    Does s (.fileOpen path flags) (handleOpen id path flags s).2 := by
  unfold handleOpen
  rw [get_bind, ite_run]
  split
  · exact (Still.refl s).answer id _ _
  cases hraw : (if path.size = 0 then some [] else copyShare s path.offset path.size) with
  | none => exact (Still.refl s).answer id _ _
  | some raw =>
  dsimp only
  rw [ite_run]
  split
  · rw [ite_run]
    split
    · exact (Still.refl s).answer id _ _
    cases twoComponents raw with
    | none => exact (Still.refl s).answer id _ _
    | some pair =>
    obtain ⟨dir, file⟩ := pair
    dsimp only
    cases packName dir with
    | none => exact (Still.refl s).answer id _ _
    | some dirName =>
    cases packName file with
    | none => exact (Still.refl s).answer id _ _
    | some fileName => exact openNestedRead_does hw
  next hslash =>
  rw [ite_run]
  split
  · exact (Still.refl s).answer id _ _
  cases hname : packName raw with
  | none => exact (Still.refl s).answer id _ _
  | some name =>
  dsimp only
  rw [ite_run]
  split
  · next hflags =>
    refine createFile_does hw (packName_length hname)
      (fun hin => hslash ((slash_mem_packName hname).mp hin)) ?_
    rw [Command.target, if_pos hflags, hraw, Option.bind_some, hname]
  rw [ite_run]
  split
  · exact openRead_does hw hraw hslash hname
  · exact (Still.refl s).answer id _ _

theorem handleClose_does {fd : Nat} : Does s (.fileClose fd) (handleClose id fd s).2 := by
  unfold handleClose
  rw [get_bind, ite_run]
  split
  · exact (Still.refl s).answer id _ _
  · have hclose : Does s (.fileClose fd) { s with file := none } := Effect.close
    exact hclose.still (complete_still _ id _ _)

/-- The volume after a write of these bytes through a handle on the root. -/
def written (v : Volume) (file : OpenFile) (size : Nat) (bytes : List UInt8) : Volume :=
  (v.setData file.cluster (window (copyAt 0 bytes (v.data file.cluster)) 0 sectorBytes)).setRoot
    file.dirIndex
    (resized size (v.root file.dirIndex))

/-- A write that passes every check. -/
theorem handleWrite_writes (hw : Working s) {file : OpenFile} (hfile : s.file = some file)
    (hparent : file.parent = 0)
    (hindex : file.dirIndex < rootEntries) (hc : 2 ≤ file.cluster) {buf : Buffer} (hpos : 0 < buf.size)
    (hle : buf.size ≤ sectorBytes) {bytes : List UInt8} (hbytes : copyShare s buf.offset buf.size =
      some bytes) :
    ∃ s', handleWrite id fdFile 0 buf s =
        complete id .success (.write buf.size)
          { s' with file := some { file with size := buf.size } } ∧ Working s' ∧
      Becomes s s' (written (volume s) file buf.size bytes) := by
  have hword : buf.size < 4294967296 := by
    simp only [sectorBytes] at hle
    omega
  obtain ⟨s₁, hdata, hw₁, hb₁⟩ := editData_becomes hw hc (copyAt 0 bytes)
  obtain ⟨s₂, hsize, hw₂, hb₂⟩ := updateSize_becomes hw₁ hindex hword
  obtain ⟨s₃, hflush, hw₃, hb₃⟩ := flushBlock_becomes hw₂
  rw [← hparent] at hsize
  have hall := hb₁.trans (hb₂.trans hb₃)
  have hvolume : volume s₃ = written (volume s) file buf.size bytes := by
    rw [hb₃.volume, hb₂.volume, hb₁.volume]
    rfl
  have hfiles : s₃.file = some file := hall.file.trans hfile
  refine ⟨s₃, ?_, hw₃, hvolume, hall.file, hall.dir, hall.share, hall.completions⟩
  unfold handleWrite
  rw [get_bind, hfile]
  dsimp only
  rw [ite_run, if_neg (by decide), ite_run, if_neg (by rw [not_not]; exact hparent), ite_run,
    if_neg (by omega), hbytes]
  dsimp only
  rw [bind_of_eq ((andThen_of_true hdata).trans ((andThen_of_true hsize).trans hflush))]
  simp only [ite_run, if_true, modify_bind, hfiles, Option.map_some]

/-- The checks of `handle_write`, on the handle `file`. -/
structure WriteAccepted (s : Fs) (fd offset : Nat) (buf : Buffer) (file : OpenFile) : Prop where
  handle : s.file = some file
  parent : file.parent = 0
  fd : fd = fdFile
  offset : offset = 0
  pos : 0 < buf.size
  le : buf.size ≤ sectorBytes
  inside : buf.offset + buf.size ≤ fsRegionSize

theorem WriteAccepted.bytes {fd offset : Nat} {buf : Buffer} {file : OpenFile}
    (h : WriteAccepted s fd offset buf file) :
    copyShare s buf.offset buf.size = some (slice s.share buf.offset buf.size) := by
  rw [copyShare, if_neg (Nat.not_lt.mpr h.inside)]

/-- A write that fails a check is answered, and nothing else. -/
theorem handleWrite_refuses {fd offset : Nat} {buf : Buffer}
    (h : ∀ file, ¬WriteAccepted s fd offset buf file) :
    ∃ status, handleWrite id fd offset buf s = complete id status .empty s := by
  unfold handleWrite
  rw [get_bind]
  cases hfile : s.file with
  | none => exact ⟨_, rfl⟩
  | some file =>
  dsimp only
  rw [ite_run]
  split
  · exact ⟨_, rfl⟩
  next hfd =>
  rw [ite_run]
  split
  · exact ⟨_, rfl⟩
  next hparent =>
  rw [ite_run]
  split
  · exact ⟨_, rfl⟩
  next hargs =>
  rw [not_not] at hfd hparent
  rw [not_or, not_or, not_not, Nat.not_lt] at hargs
  obtain ⟨hoff, hpos, hle⟩ := hargs
  have hout : fsRegionSize < buf.offset + buf.size := by
    by_contra hin
    exact h file ⟨hfile, hparent, hfd, hoff, Nat.pos_of_ne_zero hpos, hle, Nat.not_lt.mp hin⟩
  rw [copyShare, if_pos hout]
  exact ⟨_, rfl⟩

theorem handleWrite_does (hw : Working s) (hin : InRange s) {fd offset : Nat} {buf : Buffer} :
    Does s (.fileWrite fd offset buf) (handleWrite id fd offset buf s).2 := by
  by_cases hok : ∃ file, WriteAccepted s fd offset buf file
  swap
  · obtain ⟨status, hrun⟩ := handleWrite_refuses (not_exists.mp hok)
    rw [hrun]
    exact (Still.refl s).answer id _ _
  obtain ⟨file, hok⟩ := hok
  obtain ⟨hindex, hc⟩ := hin.file file hok.handle hok.parent
  obtain ⟨s', hrun, -, hb⟩ := handleWrite_writes hw hok.handle hok.parent hindex hc hok.pos hok.le hok.bytes
  have hwrite : Does s (.fileWrite fd offset buf)
    { s' with file := some { file with size := buf.size } } := by
    change Effect s _ (volume s') (some { file with size := buf.size }) s'.dir
    rw [hb.volume, hb.dir]
    exact .write hok.handle hok.parent hok.fd hok.offset ⟨hok.pos, hok.le⟩ hok.bytes
  rw [hok.fd, hok.offset] at hwrite ⊢
  rw [hrun]
  exact hwrite.still (complete_still _ id _ _)

theorem handleRead_still (hw : Working s) {fd offset : Nat} {buf : Buffer} :
    Still s (handleRead id fd offset buf s).2 := by
  unfold handleRead
  rw [get_bind]
  cases hfile : s.file with
  | none => exact complete_still _ _ _ _
  | some file =>
  dsimp only
  rw [ite_run]
  split
  · exact complete_still _ _ _ _
  rw [ite_run]
  split
  · exact complete_still _ _ _ _
  cases shareSpan buf with
  | none => exact complete_still _ _ _ _
  | some span =>
  obtain ⟨bufOff, bufLen⟩ := span
  dsimp only
  rw [ite_run]
  split
  · exact complete_still _ _ _ _
  by_cases hc : file.cluster < 2
  · have hstage : stageFileBytes id file bufOff (min bufLen file.size) s =
        (.error (complete id .error .empty s).1, (complete id .error .empty s).2) := by
      rw [stageFileBytes, if_pos hc]
      rfl
    rw [bind_of_eq hstage]
    exact complete_still _ _ _ _
  · obtain ⟨s₁, hload, -, hsame, -⟩ := loadBlock_spec hw (clusterLba file.cluster / sectorsPerTransfer)
    have hstage : stageFileBytes id file bufOff (min bufLen file.size) s = (.ok (), { s₁ with
        share := copyAt bufOff (slice s₁.block (sectorOffset (clusterLba file.cluster))
          (min bufLen file.size))
          s₁.share }) := by
      rw [stageFileBytes, if_neg hc, bind_of_eq hload]
      rfl
    rw [bind_of_eq hstage]
    have hcopied : Still s₁ { s₁ with
        share := copyAt bufOff (slice s₁.block (sectorOffset (clusterLba file.cluster))
          (min bufLen file.size))
          s₁.share } := ⟨rfl, rfl, rfl⟩
    exact hsame.still.trans (hcopied.trans (complete_still _ _ _ _))

theorem answerStat_still {buf : Buffer} {ino mode size : Nat} :
    Still s (answerStat id buf ino mode size s).2 := by
  have hwrite : Still s (writeShare buf (statBytes ino mode size) s).2 := by
    unfold writeShare
    rw [ite_run]
    split
    · exact Still.refl s
    · exact copyToShare_still _ _ _
  refine hwrite.trans ?_
  change Still _ ((if (writeShare buf (statBytes ino mode size) s).1 = true then _ else _ : M Bool) _).2
  rw [ite_run]
  split
  · exact complete_still _ _ _ _
  · exact complete_still _ _ _ _

theorem handleStat_still (hw : Working s) {path buf : Buffer} : Still s (handleStat id path buf s).2 := by
  unfold handleStat
  rw [get_bind, ite_run]
  split
  · exact complete_still _ _ _ _
  rw [ite_run]
  split
  · exact answerStat_still
  cases readPackedName s path with
  | none => exact complete_still _ _ _ _
  | some name =>
  dsimp only
  obtain ⟨s₁, hfind, -, hsame⟩ := findName_spec hw name
  rw [bind_of_eq hfind]
  cases hlookup : lookup (rootTable s) name rootEntries 0 with
  | none => exact hsame.still.trans (complete_still _ _ _ _)
  | some r => exact hsame.still.trans answerStat_still

/-- The end of `handle_rename`, after scans that left the volume as it was. -/
theorem renameHit_does {s₁ : Fs} (hw₁ : Working s₁) (hsame : Same s s₁) {oldPath newPath : Buffer}
    {slot : Nat}
    {old new : Name} {m : Meta} (hsource : readPackedName s oldPath = some old)
    (htarget : readPackedName s newPath = some new)
    (hfound : lookup (volume s).root old rootEntries 0 = some (slot, m))
    (habsent : old = new ∨ lookup (volume s).root new rootEntries 0 = none) :
    Does s (.rename oldPath newPath) (renameHit id (DirHit.ofSlot (slot, m)) new s₁).2 := by
  have hlen := readPackedName_length htarget
  obtain ⟨-, hlt, hat, -⟩ := (lookup_eq_some).mp hfound
  rw [← hsame.volume] at hat
  obtain ⟨s₂, hrename, hw₂, hb₂⟩ := renameEntry_becomes hw₁ (by omega) hlen hat
  obtain ⟨s₃, hflush, -, hb₃⟩ := flushBlock_becomes hw₂
  have hrename : renameEntry (DirHit.ofSlot (slot, m)).index new s₁ = (true, s₂) := hrename
  unfold renameHit
  rw [bind_of_eq ((andThen_of_true hrename).trans hflush)]
  simp only [ite_run, if_true]
  have hvolume : volume s₃ = (volume s).setRoot slot (slotFor new m) := by
    rw [hb₃.volume, hb₂.volume, hsame.volume]
  have hdoes : Does s (.rename oldPath newPath) s₃ := by
    unfold Does
    rw [hvolume, hb₃.file, hb₂.file, hsame.file, hb₃.dir, hb₂.dir, hsame.dir]
    exact .rename hsource htarget hlen hfound habsent
  exact hdoes.still (complete_still _ id _ _)

theorem handleRename_does (hw : Working s) {oldPath newPath : Buffer} :
    Does s (.rename oldPath newPath) (handleRename id oldPath newPath s).2 := by
  unfold handleRename
  rw [get_bind]
  cases hsource : readPackedName s oldPath with
  | none => exact (Still.refl s).answer id _ _
  | some old =>
  cases htarget : readPackedName s newPath with
  | none => exact (Still.refl s).answer id _ _
  | some new =>
  dsimp only
  obtain ⟨s₁, hfind, hw₁, hsame₁⟩ := findName_spec hw old
  rw [bind_of_eq hfind]
  cases hlookup : lookup (rootTable s) old rootEntries 0 with
  | none => exact hsame₁.still.answer id _ _
  | some r =>
  obtain ⟨slot, m⟩ := r
  simp only [hitOf, ite_run]
  split
  · next heq => exact renameHit_does hw₁ hsame₁ hsource htarget hlookup (Or.inl heq)
  obtain ⟨s₂, hfind₂, hw₂, hsame₂⟩ := findName_spec hw₁ new
  rw [hsame₁.rootTable] at hfind₂
  rw [bind_of_eq hfind₂]
  have hsame₂ := hsame₁.trans hsame₂
  cases hlookup₂ : lookup (rootTable s) new rootEntries 0 with
  | some r => exact hsame₂.still.answer id _ _
  | none => exact renameHit_does hw₂ hsame₂ hsource htarget hlookup (Or.inr hlookup₂)

theorem removeHit_does (hin : InRange s) {s₁ : Fs} (hw₁ : Working s₁) (hsame : Same s s₁)
    {path : Buffer} {slot : Nat}
    {name : Name} {m : Meta} (hname : readPackedName s path = some name)
    (hfound : lookup (volume s).root name rootEntries 0 = some (slot, m))
    (hempty : m.attr &&& attrDir ≠ 0 →
      2 ≤ m.cluster ∧ emptyFrom (dirTable ((volume s).data m.cluster)) entriesPerSector 0 = true) :
    Does s (.fileRemove path) (removeHit id (DirHit.ofSlot (slot, m)) s₁).2 := by
  obtain ⟨-, hlt, hat, -⟩ := (lookup_eq_some).mp hfound
  have hc := hin.root _ _ _ hat
  have hslot : slot < rootEntries := by omega
  -- the cluster is freed when the entry has one
  have hfree : ∃ s₂, (if 2 ≤ (DirHit.ofSlot (slot, m)).cluster then
    setFat (DirHit.ofSlot (slot, m)).cluster 0
      else pure true : M Bool) s₁ = (true, s₂) ∧ Working s₂ ∧
      Becomes s₁ s₂ (if 2 ≤ m.cluster then (volume s₁).setFat m.cluster 0 else volume s₁) := by
    by_cases h2 : 2 ≤ m.cluster
    · rw [if_pos h2, if_pos (show 2 ≤ (DirHit.ofSlot (slot, m)).cluster from h2)]
      exact setFat_becomes hw₁ (lt_fatClusters hc) 0 (by decide)
    · rw [if_neg h2, if_neg (show ¬2 ≤ (DirHit.ofSlot (slot, m)).cluster from h2)]
      exact ⟨s₁, rfl, hw₁, (Same.refl s₁).becomes⟩
  obtain ⟨s₂, hfat, hw₂, hb₂⟩ := hfree
  obtain ⟨s₃, hmark, hw₃, hb₃⟩ := markDeleted_becomes hw₂ hslot
  obtain ⟨s₄, hflush, -, hb₄⟩ := flushBlock_becomes hw₃
  have hmark : markDeleted (DirHit.ofSlot (slot, m)).index s₂ = (true, s₃) := hmark
  unfold removeHit
  rw [bind_of_eq ((andThen_of_true hfat).trans ((andThen_of_true hmark).trans hflush))]
  simp only [ite_run, if_true, modify_bind]
  have hvolume : volume s₄ =
      (if 2 ≤ m.cluster then (volume s).setFat m.cluster 0 else volume s).setRoot slot .deleted := by
    rw [hb₄.volume, hb₃.volume, hb₂.volume, hsame.volume]
  have hfiles : s₄.file = s.file := hb₄.file.trans (hb₃.file.trans (hb₂.file.trans hsame.file))
  have hdirs : s₄.dir = s.dir := hb₄.dir.trans (hb₃.dir.trans (hb₂.dir.trans hsame.dir))
  have heffect := Effect.remove hname hfound hempty
  rw [← hvolume, ← hfiles, ← hdirs] at heffect
  have hdoes : Does s (.fileRemove path) (if s₄.file.any (OnRoot slot) then { s₄ with file := none }
    else s₄) := by
    unfold Does
    split at heffect
    · next hdrop =>
      rw [if_pos hdrop]
      exact heffect
    · next hkeep =>
      rw [if_neg hkeep]
      exact heffect
  exact hdoes.still (complete_still _ id _ _)

theorem handleRemove_does (hw : Working s) (hin : InRange s) {path : Buffer} :
    Does s (.fileRemove path) (handleRemove id path s).2 := by
  unfold handleRemove
  rw [get_bind]
  cases hname : readPackedName s path with
  | none => exact (Still.refl s).answer id _ _
  | some name =>
  dsimp only
  obtain ⟨s₁, hfind, hw₁, hsame₁⟩ := findName_spec hw name
  rw [bind_of_eq hfind]
  cases hlookup : lookup (rootTable s) name rootEntries 0 with
  | none => exact hsame₁.still.answer id _ _
  | some r =>
  obtain ⟨slot, m⟩ := r
  simp only [hitOf, ite_run]
  split
  swap
  · next hplain => exact removeHit_does hin hw₁ hsame₁ hname hlookup fun hdir => (hplain hdir).elim
  by_cases h2 : m.cluster < 2
  · have hmissing : directoryEmpty (DirHit.ofSlot (slot, m)).cluster s₁ = (.missing, s₁) := by
      rw [directoryEmpty, if_pos (show (DirHit.ofSlot (slot, m)).cluster < 2 from h2)]
      rfl
    rw [bind_of_eq hmissing]
    exact hsame₁.still.answer id _ _
  rw [Nat.not_lt] at h2
  obtain ⟨s₂, hempty, hw₂, hsame₂⟩ := directoryEmpty_spec hw₁ (show 2 ≤
    (DirHit.ofSlot (slot, m)).cluster from h2)
  rw [bind_of_eq hempty, hsame₁.volume]
  have hsame₂ := hsame₁.trans hsame₂
  cases hall : emptyFrom (dirTable ((volume s).data (DirHit.ofSlot (slot, m)).cluster))
    entriesPerSector 0 with
  | false => exact hsame₂.still.answer id _ _
  | true => exact removeHit_does hin hw₂ hsame₂ hname hlookup fun _ => ⟨h2, hall⟩

theorem handleDirOpen_does (hw : Working s) {path : Buffer} :
    Does s (.dirOpen path) (handleDirOpen id path s).2 := by
  unfold handleDirOpen
  rw [get_bind, ite_run]
  split
  · exact (Still.refl s).answer id _ _
  next hclosed =>
  rw [Option.not_isSome_iff_eq_none] at hclosed
  rw [ite_run]
  split
  · have hopen : Does s (.dirOpen path) { s with dir := some ⟨0, 0, rootEntries⟩ } :=
      Effect.dirOpenRoot hclosed
    exact hopen.still (complete_still _ id _ _)
  cases readPackedName s path with
  | none => exact (Still.refl s).answer id _ _
  | some name =>
  dsimp only
  obtain ⟨s₁, hfind, -, hsame⟩ := findName_spec hw name
  rw [bind_of_eq hfind]
  cases hlookup : lookup (rootTable s) name rootEntries 0 with
  | none => exact hsame.still.answer id _ _
  | some r =>
  obtain ⟨slot, m⟩ := r
  simp only [hitOf, ite_run]
  split
  swap
  · exact hsame.still.answer id _ _
  next hdir =>
  have heffect : Effect s (.dirOpen path) (volume s) s.file (some ⟨m.cluster, 0, entriesPerSector⟩) :=
    .dirOpen hclosed hlookup hdir.1 hdir.2
  rw [← hsame.volume, ← hsame.file] at heffect
  have hopen : Does s (.dirOpen path) { s₁ with dir := some ⟨m.cluster, 0, entriesPerSector⟩ } := heffect
  exact hopen.still (complete_still _ id _ _)

/-- An entry of any directory the handle may be on. -/
theorem readPlaced_spec (hw : Working s) (cluster index : Nat) :
    ∃ e s', readPlaced cluster index s = (some e, s') ∧ Working s' ∧ Same s s' := by
  unfold readPlaced
  split
  · obtain ⟨s', h, hw', hsame⟩ := readEntry_spec hw index
    exact ⟨_, s', h, hw', hsame⟩
  · obtain ⟨s', h, hw', hsame, -⟩ := loadBlock_spec hw (clusterLba cluster / sectorsPerTransfer)
    refine ⟨window s'.block (sectorOffset (clusterLba cluster) + index * dirEntry) dirEntry, s', ?_,
      hw', hsame⟩
    rw [bind_of_eq h]
    rfl

theorem dirReadFrom_does {fd cluster : Nat} {buf : Buffer} (left : Nat) :
    ∀ (index : Nat) (s₁ : Fs), Working s₁ → Still s s₁ →
      Does s (.dirRead fd buf) (dirReadFrom id cluster buf left index s₁).2 := by
  -- the answers that move the handle on
  have hmove : ∀ (index : Nat) (s₁ : Fs) (status : Status) (data : Completion), Still s s₁ →
      Does s (.dirRead fd buf) (complete id status data { s₁ with dir := s₁.dir.map fun dir =>
        { dir with index } }).2 := by
    intro index s₁ status data hstill
    have heffect : Effect s (.dirRead fd buf) (volume s) s.file (s.dir.map fun dir => { dir with index }) :=
      .dirMove index
    rw [← hstill.volume, ← hstill.file, ← hstill.dir] at heffect
    have hdoes : Does s (.dirRead fd buf) { s₁ with dir := s₁.dir.map fun dir =>
      { dir with index } } := heffect
    exact hdoes.still (complete_still _ id _ _)
  induction left with
  | zero => exact fun index s₁ _ hstill => hstill.answer id _ _
  | succ left ih =>
    intro index s₁ hw₁ hstill
    obtain ⟨e, s₂, hread, hw₂, hsame⟩ := readPlaced_spec hw₁ cluster index
    have hstill₂ := hstill.trans hsame.still
    unfold dirReadFrom
    rw [bind_of_eq hread]
    dsimp only
    rw [ite_run]
    split
    · exact hmove (index + 1) s₂ _ _ hstill₂
    rw [ite_run]
    split
    · exact ih (index + 1) s₂ hw₂ hstill₂
    rw [ite_run]
    split
    · exact hstill₂.answer id _ _
    have hcopy := hstill₂.trans (copyToShare_still s₂ buf.offset (displayName e))
    change Does s _ ((if (copyToShare buf.offset (displayName e) s₂).1 = true then _ else _ : M Bool) _).2
    rw [ite_run]
    split
    · exact hmove (index + 1) _ _ _ hcopy
    · exact hcopy.answer id _ _

theorem handleDirRead_does (hw : Working s) {fd : Nat} {buf : Buffer} :
    Does s (.dirRead fd buf) (handleDirRead id fd buf s).2 := by
  unfold handleDirRead
  rw [get_bind]
  cases s.dir with
  | none => exact (Still.refl s).answer id _ _
  | some dir =>
  dsimp only
  rw [ite_run]
  split
  · exact (Still.refl s).answer id _ _
  · exact dirReadFrom_does _ _ s hw (Still.refl s)

theorem handleDirClose_does {fd : Nat} : Does s (.dirClose fd) (handleDirClose id fd s).2 := by
  unfold handleDirClose
  rw [get_bind, ite_run]
  split
  · exact (Still.refl s).answer id _ _
  · have hclose : Does s (.dirClose fd) { s with dir := none } := Effect.dirClose
    exact hclose.still (complete_still _ id _ _)

end handlers

/-- What a command can do, over a working device. -/
theorem serveOne_effect {s : Fs} (hw : Working s) (hin : InRange s) (id : Nat) (command : Command) :
    Does s command (serveOne id command s).2 := by
  cases command with
  | fileOpen path flags => exact handleOpen_does hw
  | fileClose fd => exact handleClose_does
  | fileWrite fd offset buf => exact handleWrite_does hw hin
  | fileRead fd offset buf => exact (handleRead_still hw).does
  | stat path buf => exact (handleStat_still hw).does
  | rename oldPath newPath => exact handleRename_does hw
  | fileRemove path => exact handleRemove_does hw hin
  | dirCreate path => exact handleMkdir_does hw
  | dirOpen path => exact handleDirOpen_does hw
  | dirRead fd buf => exact handleDirRead_does hw
  | dirClose fd => exact handleDirClose_does
  | other => exact (Still.refl s).answer id _ _

end Lerux.FatFs

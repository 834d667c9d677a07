import Lerux.FatFs.Format

/-!
# Answers

What the reading commands answer on a working device, in terms of the volume: `FILE_OPEN` of a root file,
`FILE_READ`, `STAT` and `DIR_READ` of the root. The client of a `request` has taken every completion and has
laid out its share, so there is room for the answer.
-/

namespace Lerux.FatFs

open SlotTable

/-- A command of a client with an empty completion ring, over the share it has laid out. -/
def request (share : Bytes) (id : Nat) (command : Command) (s : Fs) : Fs :=
  (serveOne id command { s with share, completions := [] }).2

/-- A range of the share with these bytes. -/
structure Holds (share : Bytes) (buf : Buffer) (bytes : List UInt8) : Prop where
  inside : buf.offset + buf.size ≤ fsRegionSize
  bytes : slice share buf.offset buf.size = bytes

section share

variable {s : Fs} {path : Buffer} {raw : List UInt8}

theorem slice_length (b : Bytes) (off len : Nat) : (slice b off len).length = len := by
  simp [slice]

theorem slice_congr {b b' : Bytes} {off off' len : Nat} (h : ∀ i, i < len → b (off + i) = b' (off' + i)) :
    slice b off len = slice b' off' len := by
  apply List.map_congr_left
  intro i hi
  exact h i (List.mem_range.mp hi)

/-- Part of what was copied. -/
theorem slice_copyAt {off k len : Nat} {src : List UInt8} (h : k + len ≤ src.length) (b : Bytes) :
    slice (copyAt off src b) (off + k) len = (src.drop k).take len := by
  apply List.ext_getElem
  · rw [slice_length, List.length_take, List.length_drop]
    omega
  · intro i h1 h2
    rw [slice_length] at h1
    simp only [slice, List.getElem_map, List.getElem_range, copyAt_apply]
    rw [if_pos (by omega), show off + k + i - off = k + i by omega, List.getElem_take, List.getElem_drop,
      List.getD_eq_getElem?_getD, List.getElem?_eq_getElem (by omega), Option.getD_some]

theorem slice_copyAt_self {off : Nat} {src : List UInt8} (b : Bytes) :
    slice (copyAt off src b) off src.length = src := by
  have h : slice (copyAt off src b) (off + 0) src.length = (src.drop 0).take src.length :=
    slice_copyAt (by omega) b
  rwa [List.drop_zero, List.take_length] at h

theorem Holds.size (h : Holds s.share path raw) : path.size = raw.length := by
  rw [← h.bytes, slice_length]

theorem Holds.copyShare (h : Holds s.share path raw) : copyShare s path.offset path.size = some raw := by
  rw [FatFs.copyShare, if_neg (Nat.not_lt.mpr h.inside), h.bytes]

theorem Holds.openPath (h : Holds s.share path raw) : openPath s path = some raw := by
  unfold FatFs.openPath
  split
  · next h0 =>
    have hnil : raw = [] := List.length_eq_zero_iff.mp (h.size.symm.trans h0)
    rw [hnil]
  · exact h.copyShare

theorem packName_some_length {name : Name} (h : packName raw = some name) : raw ≠ [] ∧ raw.length ≤ 11 := by
  unfold packName at h
  split at h
  · cases h
  · next hlen =>
    rw [not_or, Nat.not_lt] at hlen
    exact hlen

theorem Holds.readPackedName (h : Holds s.share path raw) {name : Name} (hname : packName raw = some name) :
    readPackedName s path = some name := by
  have hlen := (packName_some_length hname).2
  rw [FatFs.readPackedName, if_neg (by rw [h.size]; omega), h.copyShare]
  exact hname

theorem Holds.not_root (h : Holds s.share path raw) {name : Name} (hname : packName raw = some name)
    (hne : raw ≠ [slash]) : isRootPathBuf s path = false := by
  obtain ⟨hnil, hlen⟩ := packName_some_length hname
  have hpos : raw.length ≠ 0 := fun h0 => hnil (List.length_eq_zero_iff.mp h0)
  have hdot : raw ≠ [dot] := by
    rintro rfl
    cases hname
  rw [isRootPathBuf, if_neg (by rw [h.size]; exact hpos), if_neg (by rw [h.size]; omega), h.copyShare]
  simp [hdot, hne]

end share

section answers

variable {s : Fs} {id : Nat}

theorem complete_empty (hroom : s.completions = []) (status : Status) (data : Completion) :
    complete id status data s = (true, { s with completions := [⟨id, status, data⟩] }) := by
  rw [complete, if_neg (by rw [hroom]; decide), hroom]
  rfl

/-- Opening a file of the root under a name without a slash. -/
theorem handleOpen_answers (hw : Working s) (hroom : s.completions = []) (hclosed : s.file = none)
    {path : Buffer}
    {raw : List UInt8} (hpath : Holds s.share path raw) (hslash : slash ∉ raw) {name : Name}
    (hname : packName raw = some name) {slot : Nat} {m : Meta}
    (hfound : lookup (volume s).root name rootEntries 0 = some (slot, m)) (hplain : m.attr &&& attrDir = 0)
    (hc : 2 ≤ m.cluster) :
    ∃ s', handleOpen id path openFlagsReadOnly s = (true, s') ∧ Working s' ∧ volume s' = volume s ∧
      s'.file = some ⟨m.cluster, m.size, slot, 0⟩ ∧ s'.completions = [⟨id, .success, .fd fdFile⟩] := by
  have hlen := (packName_some_length hname).2
  have hraw : (if path.size = 0 then some [] else copyShare s path.offset path.size) = some raw :=
    hpath.openPath
  obtain ⟨s₁, hfind, hw₁, hsame⟩ := findName_spec hw name
  have hfound : lookup (rootTable s) name rootEntries 0 = some (slot, m) := hfound
  rw [hfound] at hfind
  have hopen : openHit id 0 (DirHit.ofSlot (slot, m)) s₁ = (true, { s₁ with
      file := some ⟨m.cluster, m.size, slot, 0⟩, completions := [⟨id, .success, .fd fdFile⟩] }) := by
    unfold openHit
    rw [ite_run, if_neg (by rw [not_or, not_not, Nat.not_lt]; exact ⟨hplain, hc⟩), modify_bind]
    exact complete_empty (by exact hsame.completions.trans hroom) _ _
  refine ⟨{ s₁ with
    file := some ⟨m.cluster, m.size, slot, 0⟩, completions := [⟨id, .success, .fd fdFile⟩] },
    ?_, ⟨hw₁.performs, hw₁.valid_of_dirty, hw₁.coherent⟩, hsame.volume, rfl, rfl⟩
  unfold handleOpen
  rw [get_bind, ite_run, if_neg (by rw [hpath.size, pathMax]; omega), hraw]
  dsimp only
  rw [ite_run, if_neg hslash, ite_run, if_neg (by rw [hpath.size]; omega), hname]
  dsimp only
  rw [ite_run, if_neg (by decide), ite_run, if_pos rfl]
  unfold openRead
  rw [get_bind, ite_run, if_neg (by rw [hclosed]; decide), bind_of_eq hfind]
  exact hopen

/-- The whole of a file whose size fits its sector. -/
theorem handleRead_answers (hw : Working s) (hroom : s.completions = []) {file : OpenFile}
    (hfile : s.file = some file)
    (hc : 2 ≤ file.cluster) (hpos : 0 < file.size) (hle : file.size ≤ sectorBytes) {buf : Buffer}
    (hin : buf.offset + buf.size ≤ fsRegionSize) (hbuf : file.size ≤ buf.size) :
    ∃ s', handleRead id fdFile 0 buf s = (true, s') ∧ Working s' ∧ volume s' = volume s ∧
      s'.completions = [⟨id, .success, .read file.size⟩] ∧
      s'.share = copyAt buf.offset (slice ((volume s).data file.cluster) 0 file.size) s.share := by
  obtain ⟨s₁, hload, hw₁, hsame, hv, hn⟩ := loadBlock_spec hw (clusterLba file.cluster / sectorsPerTransfer)
  have hdata : (volume s).data file.cluster = sector s₁ (clusterLba file.cluster) := by
    rw [hsame.sector]
    exact if_neg (by omega)
  have hbytes : slice s₁.block (sectorOffset (clusterLba file.cluster)) file.size =
      slice ((volume s).data file.cluster) 0 file.size := by
    apply slice_congr
    intro i hi
    have hblock : window s₁.block (sectorOffset (clusterLba file.cluster) + 0) sectorBytes =
        window (sector s₁ (clusterLba file.cluster)) 0 sectorBytes := window_block hv hn (by omega)
    have hwin := congrFun hblock i
    have hlt : i < sectorBytes := by omega
    simp only [window, if_pos hlt, Nat.add_zero] at hwin
    rw [hwin, hdata]
  have hmin : min buf.size file.size = file.size := min_eq_right hbuf
  have hstage : stageFileBytes id file buf.offset file.size s = (.ok (), { s₁ with
      share := copyAt buf.offset (slice ((volume s).data file.cluster) 0 file.size) s.share }) := by
    rw [stageFileBytes, if_neg (by omega), bind_of_eq hload]
    simp only [ite_run, if_true, modify_bind, pure_apply, hbytes, hsame.share]
  refine ⟨{ s₁ with
    share := copyAt buf.offset (slice ((volume s).data file.cluster) 0 file.size) s.share
    completions := [⟨id, .success, .read file.size⟩] },
    ?_, ⟨hw₁.performs, hw₁.valid_of_dirty, hw₁.coherent⟩, hsame.volume, rfl, rfl⟩
  unfold handleRead
  rw [get_bind, hfile]
  dsimp only
  rw [ite_run, if_neg (by decide), ite_run, if_neg (by decide), shareSpan, if_neg (by omega)]
  dsimp only
  rw [ite_run, hmin, if_neg (by omega), bind_of_eq hstage]
  exact complete_empty (by exact hsame.completions.trans hroom) _ _

theorem statBytes_length (ino mode size : Nat) : (statBytes ino mode size).length = statSize := by
  simp [statBytes, le64, le32, statSize]

/-- The record of a root entry. -/
theorem handleStat_answers (hw : Working s) (hroom : s.completions = []) {path : Buffer} {raw : List UInt8}
    (hpath : Holds s.share path raw) (hne : raw ≠ [slash]) {name : Name}
      (hname : packName raw = some name) {slot : Nat}
    {m : Meta} (hfound : lookup (volume s).root name rootEntries 0 = some (slot, m)) {buf : Buffer}
    (hbuf : statSize ≤ buf.size) (hin : buf.offset + buf.size ≤ fsRegionSize) :
    ∃ s' mode, handleStat id path buf s = (true, s') ∧ s'.completions = [⟨id, .success, .empty⟩] ∧
      s'.share = copyAt buf.offset (statBytes (slot + 2) mode m.size) s.share := by
  obtain ⟨s₁, hfind, hw₁, hsame⟩ := findName_spec hw name
  have hfound : lookup (rootTable s) name rootEntries 0 = some (slot, m) := hfound
  rw [hfound] at hfind
  have hanswer : ∀ mode, answerStat id buf (slot + 2) mode m.size s₁ = (true, { s₁ with
      share := copyAt buf.offset (statBytes (slot + 2) mode m.size) s.share
      completions := [⟨id, .success, .empty⟩] }) := by
    intro mode
    have hwrite : writeShare buf (statBytes (slot + 2) mode m.size) s₁ = (true, { s₁ with
        share := copyAt buf.offset (statBytes (slot + 2) mode m.size) s.share }) := by
      rw [writeShare, if_neg (by rw [statBytes_length]; omega), copyToShare,
        if_neg (by rw [statBytes_length]; omega), hsame.share]
    rw [answerStat, bind_of_eq hwrite]
    exact complete_empty (by exact hsame.completions.trans hroom) _ _
  have hrun : handleStat id path buf s = answerStat id buf (slot + 2)
      (if m.attr &&& attrDir ≠ 0 then sIfdir ||| modeBits else sIfreg ||| modeBits) m.size s₁ := by
    unfold handleStat
    rw [get_bind, ite_run, if_neg (by omega), ite_run, hpath.not_root hname hne, if_neg (by decide),
      hpath.readPackedName hname]
    dsimp only
    rw [bind_of_eq hfind]
    rfl
  exact ⟨_, _, hrun.trans (hanswer _), rfl, rfl⟩

end answers

/-! ### Directory reads -/

/-- A name as `DIR_READ` shows it. -/
def shownName (name : Name) : List UInt8 :=
  (name.take 8).takeWhile (· ≠ space) ++
    if name.getD 8 0 ≠ space then dot :: (name.drop 8).takeWhile (· ≠ space) else []

theorem displayName_eq (e : Bytes) : displayName e = shownName (slice e 0 11) := rfl

/-- Where a `DIR_READ` stops, over `left` entries from `index` on: at the end mark, or at an entry
to show. -/
def nextShown (t : Nat → Slot Name Meta) : Nat → Nat → Option (Nat × Option Name)
  | 0, _ => none
  | left + 1, index =>
    match t index with
    | .vacant => some (index, none)
    | .deleted => nextShown t left (index + 1)
    | .live name _ => if dotted name then nextShown t left (index + 1) else some (index, some name)

/-- The handle behind the entry `index`. -/
def Fs.advance (s : Fs) (index : Nat) : Fs :=
  { s with dir := s.dir.map fun dir => { dir with index := index + 1 } }

/-- The end of a `DIR_READ` that stopped there. -/
def dirAnswer (id : Nat) (buf : Buffer) : Option (Nat × Option Name) → Fs → Fs
  | none, s => { s with completions := [⟨id, .endOfDirectory, .dirRead 0⟩] }
  | some (index, none), s => { s.advance index with completions := [⟨id, .endOfDirectory, .dirRead 0⟩] }
  | some (index, some name), s =>
    if buf.size < (shownName name).length ∨ fsRegionSize < buf.offset + (shownName name).length then
      { s with completions := [⟨id, .invalidBuffer, .empty⟩] }
    else { s.advance index with
      share := copyAt buf.offset (shownName name) s.share
      completions := [⟨id, .success, .dirRead (shownName name).length⟩] }

section dirReads

variable {s : Fs} {id : Nat} {buf : Buffer}

theorem dirReadFrom_spec {cluster limit : Nat} {t : Nat → Slot Name Meta} (hroom : s.completions = [])
    (hreads : Reads s (readPlaced cluster) t limit) (left : Nat) :
    ∀ (index : Nat) (s₁ : Fs), Working s₁ → Same s s₁ → index + left ≤ limit →
      ∃ s₂, Working s₂ ∧ Same s s₂ ∧
        dirReadFrom id cluster buf left index s₁ =
          (true, dirAnswer id buf (nextShown t left index) s₂) := by
  induction left with
  | zero =>
    intro index s₁ hw₁ hsame _
    exact ⟨s₁, hw₁, hsame, complete_empty (hsame.completions.trans hroom) _ _⟩
  | succ left ih =>
    intro index s₁ hw₁ hsame hle
    obtain ⟨e, s₂, hread, hw₂, hsame₂, hslot⟩ := hreads index s₁ (by omega) hw₁ hsame
    obtain ⟨s₃, hw₃, hsame₃, hrest⟩ := ih (index + 1) s₂ hw₂ hsame₂ (by omega)
    have hroom₂ := hsame₂.completions.trans hroom
    have hdot : isDot e = dotted (slice e 0 11) := rfl
    rw [dirReadFrom, bind_of_eq hread, nextShown, ← hslot, slotOf]
    dsimp only
    rw [ite_run]
    by_cases h0 : e 0 = 0x00
    · rw [if_pos h0, if_pos h0]
      exact ⟨s₂, hw₂, hsame₂, complete_empty (by exact hroom₂) _ _⟩
    rw [if_neg h0, if_neg h0, ite_run]
    by_cases h5 : e 0 = 0xE5
    · rw [if_pos (Or.inl h5), if_pos h5]
      exact ⟨s₃, hw₃, hsame₃, hrest⟩
    rw [if_neg h5]
    by_cases hdots : isDot e = true
    · rw [if_pos (Or.inr hdots)]
      simp only [← hdot, hdots, if_true]
      exact ⟨s₃, hw₃, hsame₃, hrest⟩
    rw [if_neg (by simp [h5, hdots]), ite_run]
    have hplain : ¬dotted (slice e 0 11) = true := hdots
    dsimp only
    rw [if_neg hplain]
    dsimp only [dirAnswer]
    rw [← displayName_eq]
    refine ⟨s₂, hw₂, hsame₂, ?_⟩
    by_cases hsize : buf.size < (displayName e).length
    · rw [if_pos hsize, if_pos (Or.inl hsize)]
      exact complete_empty hroom₂ _ _
    rw [if_neg hsize]
    by_cases hspan : fsRegionSize < buf.offset + (displayName e).length
    · have hcopy : copyToShare buf.offset (displayName e) s₂ = (false, s₂) := by
        rw [copyToShare, if_pos hspan]
      rw [bind_of_eq hcopy, if_pos (Or.inr hspan)]
      exact complete_empty hroom₂ _ _
    · have hcopy : copyToShare buf.offset (displayName e) s₂ =
          (true, { s₂ with share := copyAt buf.offset (displayName e) s₂.share }) := by
        rw [copyToShare, if_neg hspan]
      rw [bind_of_eq hcopy, if_neg (not_or.mpr ⟨hsize, hspan⟩)]
      exact complete_empty (by exact hroom₂) _ _

/-- The slots of a directory handle: the root, or a directory cluster. -/
def handleTable (v : Volume) (d : OpenDir) : Nat → Slot Name Meta :=
  if d.cluster = 0 then v.root else dirTable (v.data d.cluster)

/-- A handle whose limit is that of its directory. -/
def OpenDir.Fits (d : OpenDir) : Prop :=
  (d.cluster = 0 ∧ d.limit = rootEntries) ∨ (2 ≤ d.cluster ∧ d.limit = entriesPerSector)

theorem handleTable_reads (s : Fs) {d : OpenDir} (hfits : d.Fits) :
    Reads s (readPlaced d.cluster) (handleTable (volume s) d) d.limit := by
  rcases hfits with ⟨hroot, hlimit⟩ | ⟨hc, hlimit⟩
  · rw [handleTable, if_pos hroot, hroot, hlimit]
    exact readEntry_reads s
  · rw [handleTable, if_neg (by omega), hlimit]
    exact readPlaced_reads s hc

theorem handleDirRead_spec (hw : Working s) (hroom : s.completions = []) {d : OpenDir}
    (hdir : s.dir = some d)
    (hfits : d.Fits) :
    ∃ s₁, Working s₁ ∧ Same s s₁ ∧ handleDirRead id fdDir buf s =
      (true, dirAnswer id buf (nextShown (handleTable (volume s) d) (d.limit - d.index) d.index) s₁) := by
  unfold handleDirRead
  rw [get_bind, hdir]
  dsimp only
  rw [ite_run, if_neg (by decide)]
  by_cases hle : d.index ≤ d.limit
  · exact dirReadFrom_spec hroom (handleTable_reads s hfits) _ _ _ hw (Same.refl s) (by omega)
  · -- a handle behind the end reads nothing
    rw [show d.limit - d.index = 0 by omega]
    exact ⟨s, hw, Same.refl s, complete_empty hroom _ _⟩

end dirReads

end Lerux.FatFs

import Lerux.FatFs.Mounted

/-!
# What a read copies

`stage_file_bytes` copies `min(buffer, size)` bytes from the start of the file's sector in the
cached block, and the size is the one of the directory entry. On a volume the server formatted it is
at most one sector; on a volume it found it is any 32-bit number, and then the copy runs on into the
next sectors of the block and past its end. What a read delivers is independent of every byte
outside the file's own sector exactly when the length it copies fits the sector.
-/

namespace Lerux.FatFs

/-- The block `number` once it is loaded. The memory behind the block is not touched by a transfer. -/
def loadedBlock (s : Fs) (number : Nat) : Bytes :=
  if s.blockValid ∧ s.blockNo = number then s.block
  else fun i => if i < transfer then s.device number i else s.block i

/-- Whether loading the block succeeds. -/
def loads (s : Fs) (number : Nat) : Bool :=
  if s.blockValid ∧ s.blockNo = number then true
  else if s.blockDirty then s.performs s.transfers && s.performs (s.transfers + 1)
  else s.performs s.transfers

theorem blkTransfer_of_performs {s : Fs} (h : s.performs s.transfers = true) (write : Bool) (number : Nat) :
    blkTransfer write number s = (true, if write then
        { s with transfers := s.transfers + 1, device := Function.update s.device number s.block }
      else { s with
        transfers := s.transfers + 1, block := fun i => if i < transfer then s.device number i
          else s.block i }) := by
  unfold blkTransfer
  rw [if_pos h]
  split
  · rfl
  · rfl

theorem blkTransfer_of_fails {s : Fs} (h : s.performs s.transfers = false) (write : Bool) (number : Nat) :
    blkTransfer write number s = (false, { s with transfers := s.transfers + 1 }) := by
  unfold blkTransfer
  rw [if_neg (by rw [h]; decide)]

/-- Loading a block, on any device. -/
theorem loadBlock_outcome {s : Fs} (hd : DirtyValid s) (number : Nat) :
    ∃ s', loadBlock number s = (loads s number, s') ∧ s'.share = s.share ∧ s'.completions = s.completions ∧
      (loads s number = true → s'.block = loadedBlock s number) := by
  unfold loadBlock loads loadedBlock
  rw [get_bind, ite_run]
  by_cases hhit : s.blockValid = true ∧ s.blockNo = number
  · rw [if_pos hhit, if_pos hhit, if_pos hhit]
    exact ⟨s, rfl, rfl, rfl, fun _ => rfl⟩
  rw [if_neg hhit, if_neg hhit, if_neg hhit]
  by_cases hdirty : s.blockDirty = true
  · rw [if_pos hdirty]
    -- a dirty block is another one than the block that is loaded
    have hother : number ≠ s.blockNo := fun heq => hhit ⟨hd hdirty, heq.symm⟩
    cases hfirst : s.performs s.transfers with
    | false =>
      have hflush : flushBlock s = (false, { s with transfers := s.transfers + 1 }) := by
        rw [flushBlock, get_bind, ite_run, if_pos hdirty, bind_of_eq (blkTransfer_of_fails hfirst _ _)]
        rfl
      have hboth : andThen flushBlock (blkTransfer false number) s =
        (false, { s with transfers := s.transfers + 1 }) := by
        rw [andThen, bind_of_eq hflush]
        rfl
      rw [bind_of_eq hboth]
      exact ⟨_, rfl, rfl, rfl, fun h => by cases h⟩
    | true =>
      have hflush : flushBlock s = (true, { s with
          transfers := s.transfers + 1
          device := Function.update s.device s.blockNo s.block
          blockDirty := false }) := by
        rw [flushBlock, get_bind, ite_run, if_pos hdirty, bind_of_eq (blkTransfer_of_performs hfirst _ _)]
        rfl
      cases hsecond : s.performs (s.transfers + 1) with
      | false =>
        have hboth := (andThen_of_true (y := blkTransfer false number) hflush).trans
          (blkTransfer_of_fails hsecond _ _)
        rw [bind_of_eq hboth]
        exact ⟨_, rfl, rfl, rfl, fun h => by cases h⟩
      | true =>
        have hboth := (andThen_of_true (y := blkTransfer false number) hflush).trans
          (blkTransfer_of_performs hsecond _ _)
        rw [bind_of_eq hboth]
        refine ⟨_, rfl, rfl, rfl, fun _ => ?_⟩
        funext i
        change (if i < transfer then Function.update s.device s.blockNo s.block number i else s.block i) = _
        rw [Function.update_of_ne hother]
  · rw [if_neg hdirty]
    have hflush : flushBlock s = (true, s) := by
      rw [flushBlock, get_bind, ite_run, if_neg hdirty]
      rfl
    cases hfirst : s.performs s.transfers with
    | false =>
      have hboth := (andThen_of_true (y := blkTransfer false number) hflush).trans
        (blkTransfer_of_fails hfirst _ _)
      rw [bind_of_eq hboth]
      exact ⟨_, rfl, rfl, rfl, fun h => by cases h⟩
    | true =>
      have hboth := (andThen_of_true (y := blkTransfer false number) hflush).trans
        (blkTransfer_of_performs hfirst _ _)
      rw [bind_of_eq hboth]
      exact ⟨_, rfl, rfl, rfl, fun _ => rfl⟩

/-! ### What a read depends on -/

/-- What the client gets to see. -/
def delivered (s : Fs) : Bytes × List Cmpl := (s.share, s.completions)

/-- The answer to a `FILE_READ`, and what it writes into the share, are the same whatever the bytes
outside the sector of the open file are: those of the device, of the cached block and of the memory
behind the block. -/
def Confined (s : Fs) (id fd offset : Nat) (buf : Buffer) : Prop :=
  ∀ device block, (∀ f, s.file = some f →
      sector { s with device, block } (clusterLba f.cluster) = sector s (clusterLba f.cluster)) →
    delivered (serveOne id (.fileRead fd offset buf) { s with device, block }).2 =
      delivered (serveOne id (.fileRead fd offset buf) s).2

/-- The read gets as far as the copy. -/
structure ReadsFrom (s : Fs) (fd offset : Nat) (buf : Buffer) (f : OpenFile) : Prop where
  handle : s.file = some f
  fd : fd = fdFile
  offset : offset = 0
  inside : buf.offset + buf.size ≤ fsRegionSize
  cluster : 2 ≤ f.cluster
  loaded : (loadBlock (clusterLba f.cluster / sectorsPerTransfer) s).1 = true

section delivery

variable {s : Fs} {id fd offset : Nat} {buf : Buffer} {f : OpenFile}

theorem complete_delivered {t : Fs} (h : delivered t = delivered s) (id : Nat) (status : Status)
    (data : Completion) :
    delivered (complete id status data t).2 = delivered (complete id status data s).2 := by
  obtain ⟨hshare, hcompletions⟩ := Prod.mk.inj h
  unfold complete
  rw [hcompletions]
  split
  · exact h
  · unfold delivered
    dsimp only
    rw [hshare]

theorem loadBlock_loads (hd : DirtyValid s) (number : Nat) : (loadBlock number s).1 = loads s number := by
  obtain ⟨s', h, -⟩ := loadBlock_outcome hd number
  rw [h]

/-- The copy of a read that gets that far. -/
theorem stageFileBytes_copies (id : Nat) (hd : DirtyValid s) (hc : 2 ≤ f.cluster)
    (hloads : loads s (clusterLba f.cluster / sectorsPerTransfer) = true) (bufOff copied : Nat) :
    ∃ s', stageFileBytes id f bufOff copied s = (.ok (), s') ∧ s'.completions = s.completions ∧
      s'.share = copyAt bufOff (slice (loadedBlock s (clusterLba f.cluster / sectorsPerTransfer))
        (sectorOffset (clusterLba f.cluster)) copied) s.share := by
  obtain ⟨s₁, hrun, hshare, hcompletions, hblock⟩ :=
    loadBlock_outcome hd (clusterLba f.cluster / sectorsPerTransfer)
  rw [hloads] at hrun
  refine ⟨{ s₁ with share := copyAt bufOff (slice s₁.block (sectorOffset (clusterLba f.cluster)) copied) s₁.share }, ?_,
    hcompletions, ?_⟩
  · rw [stageFileBytes, if_neg (by omega), bind_of_eq hrun]
    rfl
  · rw [← hblock hloads, ← hshare]

theorem stageFileBytes_fails (id : Nat) (hd : DirtyValid s) (hc : 2 ≤ f.cluster)
    (hloads : loads s (clusterLba f.cluster / sectorsPerTransfer) = false) (bufOff copied : Nat) :
    ∃ done s', stageFileBytes id f bufOff copied s = (.error done, s') ∧
      delivered s' = delivered (complete id .error .empty s).2 := by
  obtain ⟨s₁, hrun, hshare, hcompletions, -⟩ :=
    loadBlock_outcome hd (clusterLba f.cluster / sectorsPerTransfer)
  rw [hloads] at hrun
  refine ⟨false, (complete id .error .empty s₁).2, ?_,
    complete_delivered (by unfold delivered; rw [hshare, hcompletions]) _ _ _⟩
  rw [stageFileBytes, if_neg (by omega), bind_of_eq hrun]
  rfl

/-- What the copy delivers. -/
theorem handleRead_delivers (id : Nat) (hd : DirtyValid s) (h : ReadsFrom s fd offset buf f)
    (hpos : 0 < min buf.size f.size) :
    ∃ s', delivered (handleRead id fd offset buf s).2 =
      delivered (complete id .success (.read (min buf.size f.size)) s').2 ∧
      s'.completions = s.completions ∧
      s'.share = copyAt buf.offset (slice (loadedBlock s (clusterLba f.cluster / sectorsPerTransfer))
        (sectorOffset (clusterLba f.cluster)) (min buf.size f.size)) s.share := by
  have hloads := h.loaded
  rw [loadBlock_loads hd] at hloads
  obtain ⟨s', hrun, hcompletions, hshare⟩ :=
    stageFileBytes_copies id hd h.cluster hloads buf.offset (min buf.size f.size)
  refine ⟨s', ?_, hcompletions, hshare⟩
  unfold handleRead
  rw [get_bind, h.handle]
  dsimp only
  rw [ite_run, if_neg (by rw [not_not]; exact h.fd), ite_run,
    if_neg (by rw [not_not]; exact h.offset), shareSpan,
    if_neg (Nat.not_lt.mpr h.inside)]
  dsimp only
  rw [ite_run, if_neg (by omega), bind_of_eq hrun]

/-- The answer of a read that copies nothing. -/
def readRefusal (s : Fs) (fd offset : Nat) (buf : Buffer) : Status × Completion :=
  match s.file with
  | none => (.invalidFd, .empty)
  | some f =>
    if fd ≠ fdFile then (.invalidFd, .empty)
    else if offset ≠ 0 then (.invalidRead, .empty)
    else if fsRegionSize < buf.offset + buf.size then (.invalidBuffer, .empty)
    else if min buf.size f.size = 0 then (.success, .read (min buf.size f.size))
    else (.error, .empty)

/-- A read that copies nothing delivers an answer that does not depend on the device. -/
theorem handleRead_refuses (id : Nat) (hd : DirtyValid s)
    (hnot : ∀ f, ReadsFrom s fd offset buf f → min buf.size f.size = 0) :
    delivered (handleRead id fd offset buf s).2 =
      delivered (complete id (readRefusal s fd offset buf).1 (readRefusal s fd offset buf).2 s).2 := by
  unfold handleRead readRefusal
  rw [get_bind]
  cases hfile : s.file with
  | none => rfl
  | some f =>
  dsimp only
  by_cases hfd : fd ≠ fdFile
  · rw [ite_run, if_pos hfd, if_pos hfd]
  rw [ite_run, if_neg hfd, if_neg hfd, ite_run]
  by_cases hoff : offset ≠ 0
  · rw [if_pos hoff, if_pos hoff]
  rw [if_neg hoff, if_neg hoff, shareSpan]
  rw [not_not] at hfd hoff
  by_cases hspan : fsRegionSize < buf.offset + buf.size
  · rw [if_pos hspan, if_pos hspan]
  rw [if_neg hspan, if_neg hspan]
  dsimp only
  rw [ite_run]
  by_cases hzero : min buf.size f.size = 0
  · rw [if_pos hzero, if_pos hzero]
  rw [if_neg hzero, if_neg hzero]
  by_cases hc : f.cluster < 2
  · have hstage : stageFileBytes id f buf.offset (min buf.size f.size) s =
        (.error (complete id .error .empty s).1, (complete id .error .empty s).2) := by
      rw [stageFileBytes, if_pos hc]
      rfl
    rw [bind_of_eq hstage]
    rfl
  · have hloads : loads s (clusterLba f.cluster / sectorsPerTransfer) = false := by
      rw [Bool.eq_false_iff]
      intro hloads
      refine hzero (hnot f ⟨hfile, hfd, hoff, Nat.not_lt.mp hspan, Nat.not_lt.mp hc, ?_⟩)
      rw [loadBlock_loads hd]
      exact hloads
    obtain ⟨done, s', hrun, hdone⟩ := stageFileBytes_fails id hd
      (Nat.not_lt.mp hc) hloads buf.offset (min buf.size f.size)
    rw [bind_of_eq hrun]
    exact hdone

/-- Whether a read gets as far as the copy does not depend on what is on the device. -/
theorem ReadsFrom.elsewhere (hd : DirtyValid s) (h : ReadsFrom s fd offset buf f)
    (device : Nat → Bytes) (block : Bytes) :
    ReadsFrom { s with device, block } fd offset buf f := by
  have hd' : DirtyValid { s with device, block } := hd
  refine ⟨h.handle, h.fd, h.offset, h.inside, h.cluster, ?_⟩
  rw [loadBlock_loads hd']
  exact (loadBlock_loads hd _).symm.trans h.loaded

/-- In the block, what is loaded is what the server sees. -/
theorem loadedBlock_eq_view {number i : Nat} (hi : i < transfer) : loadedBlock s number i =
    view s number i := by
  unfold loadedBlock view
  split
  · rfl
  · exact if_pos hi

theorem loadedBlock_eq_sector {lba i : Nat} (hi : i < sectorBytes) :
    loadedBlock s (lba / sectorsPerTransfer) (sectorOffset lba + i) = sector s lba i := by
  rw [loadedBlock_eq_view (sectorOffset_add_lt hi), sector, window, if_pos hi]

theorem confined_of_short (id : Nat) (hd : DirtyValid s)
    (hshort : ∀ f, ReadsFrom s fd offset buf f →
      min buf.size f.size ≤ sectorBytes) : Confined s id fd offset buf := by
  intro device block hsector
  have hd' : DirtyValid { s with device, block } := hd
  by_cases hreads : ∃ f, ReadsFrom s fd offset buf f ∧ min buf.size f.size ≠ 0
  swap
  · have hnot : ∀ f, ReadsFrom s fd offset buf f → min buf.size f.size = 0 := fun f hf => by
      by_contra hne
      exact hreads ⟨f, hf, hne⟩
    have hsame : delivered { s with device, block } = delivered s := rfl
    exact (handleRead_refuses id hd' fun f hf => hnot f (hf.elsewhere hd' s.device s.block)).trans
      ((complete_delivered hsame id _ _).trans (handleRead_refuses id hd hnot).symm)
  obtain ⟨f, hreads, hne⟩ := hreads
  have hpos := Nat.pos_of_ne_zero hne
  have hreads' := hreads.elsewhere hd device block
  obtain ⟨s₁, hrun₁, hcompletions₁, hshare₁⟩ := handleRead_delivers id hd hreads hpos
  obtain ⟨s₂, hrun₂, hcompletions₂, hshare₂⟩ := handleRead_delivers id hd' hreads' hpos
  have hlen := hshort f hreads
  -- the copy stays in the sector, where the two devices agree
  have hslice : slice (loadedBlock { s with device, block } (clusterLba f.cluster / sectorsPerTransfer))
      (sectorOffset (clusterLba f.cluster)) (min buf.size f.size) =
      slice (loadedBlock s (clusterLba f.cluster / sectorsPerTransfer))
        (sectorOffset (clusterLba f.cluster))
        (min buf.size f.size) := by
    apply List.map_congr_left
    intro i hi
    rw [List.mem_range] at hi
    rw [loadedBlock_eq_sector (by omega), loadedBlock_eq_sector (by omega), hsector f hreads.handle]
  refine hrun₂.trans (Eq.trans ?_ hrun₁.symm)
  refine complete_delivered ?_ _ _ _
  unfold delivered
  rw [hshare₁, hshare₂, hslice, hcompletions₁, hcompletions₂]

/-- The state with another byte at one place of a block, on the device and in the cache. -/
def Fs.perturbed (s : Fs) (number at_ : Nat) : Fs :=
  { s with
    device := Function.update s.device number
      (Function.update (s.device number) at_ (s.device number at_ + 1))
    block := Function.update s.block at_ (s.block at_ + 1) }

theorem loadedBlock_perturbed (s : Fs) (number at_ : Nat) :
    loadedBlock (s.perturbed number at_) number at_ = loadedBlock s number at_ + 1 := by
  unfold loadedBlock Fs.perturbed
  dsimp only
  split
  · rw [Function.update_self]
  · dsimp only
    rw [Function.update_self, Function.update_self, Function.update_self]
    split
    · rfl
    · rfl

theorem sector_perturbed (s : Fs) {number at_ lba : Nat} (hout : at_ < sectorOffset lba ∨
    sectorOffset lba + sectorBytes ≤ at_) :
    sector (s.perturbed number at_) lba = sector s lba := by
  funext i
  unfold sector window
  split
  swap
  · rfl
  next hi =>
  have hne : sectorOffset lba + i ≠ at_ := by omega
  unfold view Fs.perturbed
  dsimp only
  split
  · rw [Function.update_of_ne hne]
  · by_cases hnumber : lba / sectorsPerTransfer = number
    · rw [hnumber, Function.update_self, Function.update_of_ne hne]
    · rw [Function.update_of_ne hnumber]

theorem complete_share (s : Fs) (id : Nat) (status : Status) (data : Completion) :
    (complete id status data s).2.share = s.share := by
  unfold complete
  split
  · rfl
  · rfl

/-- The byte behind the sector, in the share. -/
theorem handleRead_byte (id : Nat) (hd : DirtyValid s) (hreads : ReadsFrom s fd offset buf f)
    (hlong : sectorBytes < min buf.size f.size) :
    (delivered (handleRead id fd offset buf s).2).1 (buf.offset + sectorBytes) =
      loadedBlock s (clusterLba f.cluster / sectorsPerTransfer)
        (sectorOffset (clusterLba f.cluster) + sectorBytes) := by
  obtain ⟨s', hrun, -, hshare⟩ := handleRead_delivers id hd hreads (by omega)
  have hfirst : (delivered (complete id .success (.read (min buf.size f.size)) s').2).1 =
    s'.share := complete_share _ _ _ _
  rw [hrun, hfirst, hshare]
  simp only [copyAt, slice, List.length_map, List.length_range]
  rw [if_pos (by omega), Nat.add_sub_cancel_left, List.getD_eq_getElem?_getD, List.getElem?_map,
    List.getElem?_range hlong]
  rfl

/-- Another byte behind the sector shows in the share. -/
theorem not_confined_of_long (id : Nat) (hd : DirtyValid s) (hreads : ReadsFrom s fd offset buf f)
    (hlong : sectorBytes < min buf.size f.size) : ¬Confined s id fd offset buf := by
  intro hconfined
  have hsector : ∀ g, s.file = some g → sector (s.perturbed (clusterLba f.cluster / sectorsPerTransfer)
      (sectorOffset (clusterLba f.cluster) + sectorBytes)) (clusterLba g.cluster) =
        sector s (clusterLba g.cluster) := by
    intro g hg
    rw [hreads.handle] at hg
    cases hg
    exact sector_perturbed s (Or.inr le_rfl)
  have hother := hconfined (s.perturbed (clusterLba f.cluster / sectorsPerTransfer)
    (sectorOffset (clusterLba f.cluster) + sectorBytes)).device
      (s.perturbed (clusterLba f.cluster / sectorsPerTransfer)
    (sectorOffset (clusterLba f.cluster) + sectorBytes)).block hsector
  have hd' : DirtyValid (s.perturbed (clusterLba f.cluster / sectorsPerTransfer)
      (sectorOffset (clusterLba f.cluster) + sectorBytes)) := hd
  have hreads' : ReadsFrom (s.perturbed (clusterLba f.cluster / sectorsPerTransfer)
      (sectorOffset (clusterLba f.cluster) + sectorBytes)) fd offset buf f := hreads.elsewhere hd _ _
  have hbyte := handleRead_byte id hd' hreads' hlong
  have heq := congrFun (congrArg Prod.fst hother) (buf.offset + sectorBytes)
  rw [loadedBlock_perturbed] at hbyte
  have hsame := hbyte.symm.trans (heq.trans (handleRead_byte id hd hreads hlong))
  -- a byte is not its successor
  have hne : ∀ b : UInt8, b + 1 ≠ b := by
    intro b hb
    have h1 := congrArg UInt8.toNat hb
    rw [UInt8.toNat_add] at h1
    have h2 := b.toNat_lt
    have h3 : UInt8.toNat 1 = 1 := rfl
    omega
  exact hne _ hsame

end delivery

/-- On any volume, any device and after any commands: a read is confined to the sector of the open
file exactly when it does not copy more than a sector, unless it copies nothing. -/
theorem read_confined_iff {s : Fs} {held : Option Nat} (h : Mounted s held) (id fd offset : Nat)
    (buf : Buffer) :
    Confined s id fd offset buf ↔ ∀ f, ReadsFrom s fd offset buf f → min buf.size f.size ≤ sectorBytes := by
  have hd := h.dirtyValid
  refine ⟨fun hconfined f hreads => ?_, confined_of_short id hd⟩
  by_contra hlong
  exact not_confined_of_long id hd hreads (Nat.not_le.mp hlong) hconfined

/-! ### A file of 600 bytes -/

/-- A device with a volume that `volume_ok` accepts, whose root holds the file `X` of 600 bytes on
cluster 5. -/
def foreign : Fs :=
  { blank with device := fun n i =>
      if n = 0 then (if i = 12 then 0x02 else if i = 510 then 0x55 else if i = 511 then 0xAA else 0)
      else if n = 8 then
        (if i = 512 then 0x58 else if 512 < i ∧ i < 523 then space else if i = 523 then attrArchive
          else if i = 538 then 5 else if i = 540 then 0x58 else if i = 541 then 0x02 else 0)
      else 0 }

/-- The server on it, and the file opened for reading. -/
def foreignMounted : Fs := (prepare true foreign).2

def foreignOpened : Fs :=
  (serveOne 1 (.fileOpen ⟨0, 1⟩ openFlagsReadOnly)
    { foreignMounted with share := fun _ => 0x78, completions := foreignMounted.completions.drop 0 }).2

theorem foreignOpened_mounted : ∃ held, Mounted foreignOpened held := by
  have hrun : (prepare true foreign).1 = true := by decide +kernel
  have heta : ∀ p : Bool × Fs, p.1 = true → p = (true, p.2) := fun p h => by rw [← h]
  have hstart : Mounted foreignMounted none := .start rfl rfl rfl rfl (heta _ hrun)
  exact ⟨_, .serve (.client hstart (fun _ => 0x78) 0) 1 (.fileOpen ⟨0, 1⟩ openFlagsReadOnly)⟩

/-- Ten bytes of it are read from its own sector. -/
theorem read_confined_foreign : Confined foreignOpened 2 fdFile 0 ⟨0, 10⟩ := by
  obtain ⟨held, hmounted⟩ := foreignOpened_mounted
  refine (read_confined_iff hmounted 2 fdFile 0 ⟨0, 10⟩).mpr fun f _ => ?_
  have hten : (10 : Nat) ≤ sectorBytes := by decide
  exact (min_le_left _ _).trans hten

/-- Reading 600 bytes of it copies the sector behind its own. -/
theorem foreignOpened_not_confined : volumeOk (loadBlock 0 foreign).2 = true ∧
    (∃ held, Mounted foreignOpened held) ∧
    ¬Confined foreignOpened 2 fdFile 0 ⟨0, 600⟩ := by
  refine ⟨by decide +kernel, foreignOpened_mounted, ?_⟩
  obtain ⟨held, hmounted⟩ := foreignOpened_mounted
  have hfile : foreignOpened.file = some ⟨5, 600, 0, 0⟩ := by decide +kernel
  have hload : (loadBlock (clusterLba 5 / sectorsPerTransfer) foreignOpened).1 = true := by decide +kernel
  have hreads : ReadsFrom foreignOpened fdFile 0 ⟨0, 600⟩ ⟨5, 600, 0, 0⟩ :=
    ⟨hfile, rfl, rfl, by decide, by decide, hload⟩
  exact not_confined_of_long 2 hmounted.dirtyValid hreads (by decide)

end Lerux.FatFs

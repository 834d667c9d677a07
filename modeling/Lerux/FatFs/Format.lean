import Lerux.FatFs.Effect

/-!
# A formatted and seeded volume

`format_volume` stages the thirteen transfer blocks up to the root directory one after another, and
`seed_hostname` then makes the directory `CONFIG` in root slot 0 on cluster 2 with the file `HOSTNAME` on
cluster 3. `Seeded` says what the volume is after both, whatever the device held before.
-/

namespace Lerux.FatFs

open SlotTable

/-- The transfer block `n` holds `b`. -/
def BlockIs (s : Fs) (n : Nat) (b : Bytes) : Prop :=
  ∀ lba, lba / sectorsPerTransfer = n → sector s lba = window b (sectorOffset lba) sectorBytes

/-- An edit of each byte by itself. -/
def Pointwise (edit : Bytes → Bytes) : Prop := ∀ b b' i, b i = b' i → edit b i = edit b' i

theorem copyAt_pointwise (off : Nat) (src : List UInt8) : Pointwise (copyAt off src) := by
  intro b b' i h
  rw [copyAt_apply, copyAt_apply, h]

theorem Pointwise.comp {f g : Bytes → Bytes} (hf : Pointwise f) (hg : Pointwise g) :
    Pointwise fun b => f (g b) :=
  fun b b' i h => hf _ _ i (hg b b' i h)

theorem writeFatHeader_pointwise : Pointwise writeFatHeader :=
  (copyAt_pointwise _ _).comp (copyAt_pointwise _ _)

theorem writeBoot_pointwise : Pointwise writeBoot := by
  unfold writeBoot
  repeat' refine Pointwise.comp (copyAt_pointwise _ _) ?_
  exact fun _ _ _ h => h

def zeros : Bytes := fun _ => 0

section staging

variable {s : Fs} {n m : Nat} {b : Bytes}

theorem blockIs_of_view (h : ∀ i, i < transfer → view s n i = b i) : BlockIs s n b := by
  intro lba hlba
  funext i
  simp only [sector, window, hlba]
  split
  · next hi => exact h _ (sectorOffset_add_lt hi)
  · rfl

theorem BlockIs.of_sector {s' : Fs} (h : BlockIs s n b)
    (hs : ∀ lba, lba / sectorsPerTransfer = n → sector s' lba = sector s lba) : BlockIs s' n b :=
      fun lba hlba =>
  (hs lba hlba).trans (h lba hlba)

/-- The handles are as they were. -/
def SameHandles (s s' : Fs) : Prop := s'.file = s.file ∧ s'.dir = s.dir

theorem SameHandles.trans {s s₁ s' : Fs} (h : SameHandles s s₁) (h' : SameHandles s₁ s') :
    SameHandles s s' :=
  ⟨h'.1.trans h.1, h'.2.trans h.2⟩

/-- A staged block is zero, and the others are as they were. -/
theorem stageZero_blockIs (hw : Working s) (n : Nat) :
    ∃ s', stageZero n s = (true, s') ∧ Staged s' ∧ s'.blockNo = n ∧ SameHandles s s' ∧ BlockIs s' n zeros ∧
      ∀ m b, m ≠ n → BlockIs s m b → BlockIs s' m b := by
  obtain ⟨s₁, hflush, hw₁, hsame, hclean, -⟩ := flushBlock_spec hw
  refine ⟨{ s₁ with
    block := fun i => if i < transfer then 0 else s₁.block i, blockNo := n, blockValid :=
      true, blockDirty := true },
    by simp [stageZero, bind_of_eq hflush], ⟨⟨hw₁.performs, by simp, by simp⟩, rfl⟩, rfl, ⟨hsame.file, hsame.dir⟩,
    blockIs_of_view fun i hi => ?_, fun m b hm h =>
      (h.of_sector fun lba _ => by rw [hsame.sector]).of_sector fun lba hlba => ?_⟩
  · simp [view, hi, zeros]
  · -- the block that leaves the cache is clean, so the device has it
    funext i
    simp only [sector, window, hlba]
    split
    swap
    · rfl
    next hi =>
    have hlt : sectorOffset lba + i < transfer := sectorOffset_add_lt hi
    by_cases hold : s₁.blockValid = true ∧ s₁.blockNo = m
    · have hdev := hw₁.coherent hclean hold.1 _ hlt
      rw [hold.2] at hdev
      simp [view, Ne.symm hm, hold, hdev]
    · simp [view, Ne.symm hm, hold]

theorem editStaged_blockIs (hs : Staged s) {edit : Bytes → Bytes} (hedit : Pointwise edit)
    (hb : BlockIs s s.blockNo b) :
    ∃ s', editStaged edit s = (true, s') ∧ Staged s' ∧ s'.blockNo = s.blockNo ∧ SameHandles s s' ∧
      BlockIs s' s.blockNo (edit b) ∧ ∀ m b', m ≠ s.blockNo → BlockIs s m b' → BlockIs s' m b' := by
  have hvalid := hs.1.valid_of_dirty hs.2
  refine ⟨{ s with block := edit s.block }, rfl, ⟨⟨hs.1.performs, hs.1.valid_of_dirty, ?_⟩, hs.2⟩,
    rfl, ⟨rfl, rfl⟩,
    blockIs_of_view fun i hi => ?_, fun m b' hm h => h.of_sector fun lba hlba => ?_⟩
  · intro hclean
    rw [hs.2] at hclean
    cases hclean
  · rw [view, if_pos ⟨hvalid, rfl⟩]
    apply hedit
    -- the sector the byte is in
    have hlba := hb (s.blockNo * sectorsPerTransfer + i / sectorBytes) (by
      simp only [sectorsPerTransfer, sectorBytes, transfer] at *
      omega)
    have hat := congrFun hlba (i % sectorBytes)
    have hmod : i % sectorBytes < sectorBytes := Nat.mod_lt _ (by decide)
    have hnum : (s.blockNo * sectorsPerTransfer + i / sectorBytes) / sectorsPerTransfer = s.blockNo := by
      simp only [sectorsPerTransfer, sectorBytes, transfer] at *
      omega
    have hplace : sectorOffset (s.blockNo * sectorsPerTransfer + i / sectorBytes) +
      i % sectorBytes = i := by
      simp only [sectorOffset, sectorsPerTransfer, sectorBytes, transfer] at *
      omega
    simpa only [sector, window, if_pos hmod, hnum, view, hvalid, and_self, if_true, hplace] using hat
  · have hne : ¬(s.blockValid = true ∧ s.blockNo = m) := fun h => hm h.2.symm
    simp only [sector, hlba, view, if_neg hne]

theorem stageZeros_blockIs (numbers : List Nat) : ∀ {s : Fs}, Working s →
    ∃ s', stageZeros numbers s = (true, s') ∧ Working s' ∧ SameHandles s s' ∧
      (∀ n ∈ numbers, BlockIs s' n zeros) ∧
      ∀ m b, m ∉ numbers → BlockIs s m b → BlockIs s' m b := by
  induction numbers with
  | nil => exact fun {s} hw => ⟨s, rfl, hw, ⟨rfl, rfl⟩, by simp, fun m b _ h => h⟩
  | cons n rest ih =>
    intro s hw
    obtain ⟨s₁, h₁, hs₁, -, hh₁, hz₁, hk₁⟩ := stageZero_blockIs hw n
    obtain ⟨s₂, h₂, hw₂, hh₂, hz₂, hk₂⟩ := ih hs₁.1
    refine ⟨s₂,
      by rw [stageZeros, andThen_of_true h₁, h₂], hw₂, hh₁.trans hh₂, fun k hk => ?_, fun m b hm h => ?_⟩
    · by_cases hin : k ∈ rest
      · exact hz₂ k hin
      · obtain rfl | hk := List.mem_cons.mp hk
        · exact hk₂ k zeros hin hz₁
        · exact absurd hk hin
    · rw [List.mem_cons, not_or] at hm
      exact hk₂ m b hm.2 (hk₁ m b hm.1 h)

end staging

/-- The first block: the boot sector and the first table's header. -/
def bootBlock : Bytes := writeFatHeader (writeBoot zeros)

/-- The block that holds the start of the second table. -/
def headerBlock : Bytes := writeFatHeader zeros

/-- What formatting leaves in the blocks up to the root directory. -/
structure Formatted (s : Fs) : Prop where
  boot : BlockIs s 0 bootBlock
  header : BlockIs s 4 headerBlock
  zero : ∀ n, 1 ≤ n → n ≤ 12 → n ≠ 4 → BlockIs s n zeros

theorem formatVolume_spec {s : Fs} (hw : Working s) :
    ∃ s', formatVolume s = (true, s') ∧ Working s' ∧ SameHandles s s' ∧ Formatted s' := by
  have hboot : Pointwise fun b => writeFatHeader (writeBoot b) :=
    (writeFatHeader_pointwise).comp writeBoot_pointwise
  obtain ⟨s₁, h₁, hs₁, hn₁, hh₁, hz₁, -⟩ := stageZero_blockIs hw 0
  rw [← hn₁] at hz₁
  obtain ⟨s₂, h₂, hs₂, hn₂, hh₂, hz₂, -⟩ := editStaged_blockIs hs₁ hboot hz₁
  rw [hn₁] at hz₂
  obtain ⟨s₃, h₃, hw₃, hh₃, hz₃, hk₃⟩ := stageZeros_blockIs [1, 2, 3] hs₂.1
  obtain ⟨s₄, h₄, hs₄, hn₄, hh₄, hz₄, hk₄⟩ := stageZero_blockIs hw₃ 4
  rw [← hn₄] at hz₄
  obtain ⟨s₅, h₅, hs₅, hn₅, hh₅, hz₅, hk₅⟩ := editStaged_blockIs hs₄ writeFatHeader_pointwise hz₄
  rw [hn₄] at hz₅ hk₅
  obtain ⟨s₆, h₆, hw₆, hh₆, hz₆, hk₆⟩ := stageZeros_blockIs [5, 6, 7, 8, 9, 10, 11, 12] hs₅.1
  obtain ⟨s₇, h₇, hw₇, hsame₇, -⟩ := flushBlock_spec hw₆
  have hrun : formatVolume s = (true, s₇) := by
    rw [formatVolume, andThen_of_true h₁, andThen_of_true h₂, andThen_of_true h₃, andThen_of_true h₄,
      andThen_of_true h₅, andThen_of_true h₆, h₇]
  have hlast : ∀ {n b}, BlockIs s₆ n b → BlockIs s₇ n b :=
    fun h => h.of_sector fun lba _ => by rw [hsame₇.sector]
  refine ⟨s₇, hrun, hw₇, ?_, hlast ?_, hlast ?_, fun n h1 h12 h4 => hlast ?_⟩
  · exact hh₁.trans (hh₂.trans (hh₃.trans (hh₄.trans (hh₅.trans (hh₆.trans ⟨hsame₇.file, hsame₇.dir⟩)))))
  · exact hk₆ 0 _ (by decide) (hk₅ 0 _ (by decide) (hk₄ 0 _ (by decide) (hk₃ 0 _ (by decide) hz₂)))
  · exact hk₆ 4 _ (by decide) hz₅
  · by_cases hn : n ∈ [5, 6, 7, 8, 9, 10, 11, 12]
    · exact hz₆ n hn
    · have hfirst : n ∈ [1, 2, 3] := by
        simp only [List.mem_cons, List.not_mem_nil, or_false] at hn ⊢
        omega
      exact hk₆ n _ hn (hk₅ n _ h4 (hk₄ n _ h4 (hz₃ n hfirst)))

/-! ### The formatted volume -/

section formatted

variable {s : Fs}

/-- The first entries of a table: the media descriptor and the end mark. -/
def fatHeader (cluster : Nat) : Nat := if cluster = 0 then 0xFFF8 else if cluster = 1 then 0xFFFF else 0

theorem window_zeros (off len : Nat) : window zeros off len = zeros := by
  funext i
  simp only [window, zeros, ite_self]

theorem Formatted.sector_zero (h : Formatted s) {lba : Nat} (hlow : 8 ≤ lba) (hhigh : lba < 104)
    (hout : lba < 32 ∨ 40 ≤ lba) : sector s lba = zeros := by
  have hblock := h.zero (lba / sectorsPerTransfer) (by simp only [sectorsPerTransfer]; omega)
    (by simp only [sectorsPerTransfer]; omega) (by simp only [sectorsPerTransfer]; omega)
  rw [hblock lba rfl, window_zeros]

theorem Formatted.root (h : Formatted s) : (volume s).root = fun _ => .vacant := by
  funext index
  change rootTable s index = _
  unfold rootTable
  split
  · next hindex =>
    have hsector : sector s (entryLba index) = zeros := by
      apply h.sector_zero
      all_goals
        simp only [entryLba, rootLba, entriesPerSector, rootEntries] at *
        omega
    rw [entry, hsector, window_zeros]
    rfl
  · rfl

/-- The first bytes of a table. -/
def headerByte (i : Nat) : UInt8 := if i = 0 then 0xF8 else if i < 4 then 0xFF else 0

/-- The header written over a block that is zero from its second sector on. -/
theorem writeFatHeader_apply {b : Bytes} (hb : ∀ i, sectorBytes ≤ i → b i = 0) (k i : Nat) :
    writeFatHeader b (sectorBytes + k * sectorBytes + i) = if k = 0 then headerByte i else 0 := by
  have hz := hb (sectorBytes + k * sectorBytes + i) (by omega)
  simp only [writeFatHeader, copyAt_apply, le16, List.length_cons, List.length_nil, hz]
  by_cases hk : k = 0
  · subst hk
    rw [if_pos rfl, Nat.zero_mul, show sectorBytes + 0 + i = sectorBytes + i from rfl]
    by_cases h2 : i < 2
    · rw [if_neg (by omega), if_pos (by omega), Nat.add_sub_cancel_left]
      interval_cases i <;> rfl
    · by_cases h4 : i < 4
      · rw [if_pos (by omega), show sectorBytes + i - (sectorBytes + 2) = i - 2 by omega]
        interval_cases i <;> rfl
      · rw [if_neg (by omega), if_neg (by omega), headerByte, if_neg (by omega), if_neg h4]
  · have hle : 512 ≤ k * sectorBytes := Nat.le_mul_of_pos_left _ (by omega)
    rw [if_neg hk, if_neg (by omega), if_neg (by omega)]

theorem writeBoot_high (i : Nat) (hi : sectorBytes ≤ i) : writeBoot zeros i = 0 := by
  simp only [sectorBytes] at hi
  simp only [writeBoot, copyAt_apply, List.length_cons, List.length_nil, List.length_replicate,
    le16, sectorBytes]
  repeat rw [if_neg (by omega)]
  rfl

/-- A sector of either table. -/
theorem Formatted.sector_fat (h : Formatted s) {base k : Nat} (hbase : base = fat1Lba ∨ base = fat2Lba)
    (hk : k < fatSectors) (i : Nat) (hi : i < sectorBytes) :
    sector s (base + k) i = if k = 0 then headerByte i else 0 := by
  simp only [fatSectors] at hk
  by_cases hfirst : k < 7
  · -- the block that starts one sector before the table
    have hplace : sectorOffset (base + k) = sectorBytes + k * sectorBytes := by
      simp only [sectorOffset, sectorsPerTransfer, sectorBytes, fat1Lba, fat2Lba] at *
      omega
    rcases hbase with rfl | rfl
    · rw [h.boot _ (by simp only [fat1Lba, sectorsPerTransfer]; omega), window, if_pos hi, hplace,
        bootBlock]
      exact writeFatHeader_apply writeBoot_high k i
    · rw [h.header _ (by simp only [fat2Lba, sectorsPerTransfer]; omega), window, if_pos hi, hplace,
        headerBlock]
      exact writeFatHeader_apply (fun _ _ => rfl) k i
  · rw [if_neg (by omega)]
    rcases hbase with rfl | rfl
    · by_cases hlast : k = 31
      · subst hlast
        rw [h.header _ (by decide), window, if_pos hi, headerBlock]
        have hplace : sectorOffset (fat1Lba + 31) + i < sectorBytes := by
          simp only [sectorOffset, sectorsPerTransfer, sectorBytes, fat1Lba] at *
          omega
        simp only [writeFatHeader, copyAt_apply, zeros]
        rw [if_neg (by omega), if_neg (by omega)]
      · rw [h.sector_zero (by simp only [fat1Lba]; omega) (by simp only [fat1Lba]; omega)
          (by simp only [fat1Lba]; omega)]
        rfl
    · rw [h.sector_zero (by simp only [fat2Lba]; omega) (by simp only [fat2Lba]; omega)
        (by simp only [fat2Lba]; omega)]
      rfl

theorem Formatted.tableEntry (h : Formatted s) {base : Nat} (hbase : base = fat1Lba ∨ base = fat2Lba) :
    tableEntry s base = fatHeader := by
  funext c
  unfold FatFs.tableEntry
  split
  · next hc =>
    have hoff := fatOffset_add_le c
    have hsec := fatSector_lt hc
    rw [h.sector_fat hbase hsec _ (by omega), h.sector_fat hbase hsec _ (by omega)]
    unfold fatHeader
    by_cases h0 : c = 0
    · subst h0
      decide
    by_cases h1 : c = 1
    · subst h1
      decide
    rw [if_neg h0, if_neg h1]
    split
    · next hk =>
      have hlow : 4 ≤ fatOffset c := by
        simp only [fatSector, fatOffset, sectorBytes] at *
        omega
      rw [headerByte, if_neg (by omega), if_neg (by omega), headerByte, if_neg (by omega),
        if_neg (by omega)]
      rfl
    · rfl
  · next hc =>
    simp only [fatClusters] at hc
    unfold fatHeader
    rw [if_neg (by omega), if_neg (by omega)]

end formatted

/-! ### The seeded file -/

section seeding

variable {s : Fs}

theorem createDirectory_becomes (hw : Working s) (name : Name) (hlen : name.length = 11)
    (slot cluster : Nat)
    (hfree : firstFree (volume s).root rootEntries 0 = some slot)
    (halloc : firstCluster (volume s).fat1 (clusterScan - 2) 2 = some cluster) :
    ∃ s', createDirectory name s = (some cluster, s') ∧ Working s' ∧
      Becomes s s' ((((volume s).setFat cluster 0xFFFF).setData cluster
        (emptyDirectory cluster)).setRoot slot
        (slotFor name ⟨cluster, 0, attrDir⟩)) := by
  obtain ⟨hlow, hhigh⟩ := firstCluster_fat1_range halloc
  have hword : cluster < 65536 := hhigh.trans (by decide)
  obtain ⟨s₁, hfind, hw₁, hsame₁⟩ := findFree_spec hw
  obtain ⟨s₂, hcluster, hw₂, hsame₂⟩ := allocCluster_spec hw₁
  rw [firstCluster_fatEntry, hsame₁.volume] at hcluster
  obtain ⟨s₃, hfat, hw₃, hb₃⟩ := setFat_becomes hw₂ (lt_fatClusters hhigh) 0xFFFF (by decide)
  obtain ⟨s₄, hformat, hw₄, hb₄⟩ := editData_becomes hw₃ hlow fun _ =>
    (fun _ => 0) |> putEntry 0 (dotName 1) cluster 0 attrDir |> putEntry dirEntry (dotName 2) 0 0 attrDir
  obtain ⟨s₅, hdir, hw₅, hb₅⟩ := writeDir_becomes hw₄ (slot_lt hfree) hlen hword attrDir
  obtain ⟨s₆, hflush, hw₆, hb₆⟩ := flushBlock_becomes hw₅
  have hfree : firstFree (rootTable s) rootEntries 0 = some slot := hfree
  have hformat : formatDirectory cluster s₃ = (true, s₄) := hformat
  have hsame := hsame₁.trans hsame₂
  have hvolume : volume s₆ = (((volume s).setFat cluster 0xFFFF).setData cluster
    (emptyDirectory cluster)).setRoot slot
      (slotFor name ⟨cluster, 0, attrDir⟩) := by
    rw [hb₆.volume, hb₅.volume, hb₄.volume, hb₃.volume, hsame.volume]
    rfl
  refine ⟨s₆, ?_, hw₆, ?_⟩
  · unfold createDirectory
    rw [bind_of_eq hfind, hfree]
    simp only [freeOf]
    rw [bind_of_eq hcluster, halloc]
    simp only [freeOf]
    rw [bind_of_eq ((andThen_of_true hfat).trans
      ((andThen_of_true hformat).trans ((andThen_of_true hdir).trans hflush)))]
    rfl
  · rw [← hvolume]
    have hall := hsame.becomes.trans (hb₃.trans (hb₄.trans (hb₅.trans hb₆)))
    exact ⟨rfl, hall.file, hall.dir, hall.share, hall.completions⟩

/-- The sector of the seeded file. -/
def hostnameSector : Bytes := window (copyAt 0 hostname fun _ => 0) 0 sectorBytes

theorem writeSeedFile_becomes (hw : Working s) (parent : Nat) (hp : 2 ≤ parent) (name : Name)
    (slot cluster : Nat)
    (hfree : firstFree (dirTable ((volume s).data parent)) entriesPerSector 0 = some slot)
    (halloc : firstCluster (volume s).fat1 (clusterScan - 2) 2 = some cluster) (hne : parent ≠ cluster) :
    ∃ s', writeSeedFile parent name s = (true, s') ∧ Working s' ∧
      Becomes s s' ((((volume s).setFat cluster 0xFFFF).setData cluster hostnameSector).setData parent
        (window (putEntry (slot * dirEntry) name cluster hostname.length attrArchive
          ((volume s).data parent))
          0 sectorBytes)) := by
  obtain ⟨hlow, hhigh⟩ := firstCluster_fat1_range halloc
  obtain ⟨s₁, hfind, hw₁, hsame₁⟩ := findFreeInCluster_spec hw hp
  obtain ⟨s₂, hcluster, hw₂, hsame₂⟩ := allocCluster_spec hw₁
  rw [firstCluster_fatEntry, hsame₁.volume] at hcluster
  obtain ⟨s₃, hfat, hw₃, hb₃⟩ := setFat_becomes hw₂ (lt_fatClusters hhigh) 0xFFFF (by decide)
  obtain ⟨s₄, hbytes, hw₄, hb₄⟩ := editData_becomes hw₃ hlow fun _ => copyAt 0 hostname fun _ => 0
  obtain ⟨s₅, hentry, hw₅, hb₅⟩ :=
    editData_becomes hw₄ hp (putEntry (slot * dirEntry) name cluster hostname.length attrArchive)
  obtain ⟨s₆, hflush, hw₆, hb₆⟩ := flushBlock_becomes hw₅
  have hslot : slot < entriesPerSector := by
    have := (firstFree_eq_some hfree).2.1
    omega
  have hentry : writeInCluster parent slot name cluster hostname.length attrArchive s₄ = (true, s₅) := by
    rw [writeInCluster, if_neg (by omega)]
    exact hentry
  have hsame := hsame₁.trans hsame₂
  have hvolume : volume s₆ = ((((volume s).setFat cluster 0xFFFF).setData cluster
    hostnameSector).setData parent
        (window (putEntry (slot * dirEntry) name cluster hostname.length attrArchive
          ((volume s).data parent))
          0 sectorBytes)) := by
    have hdata : (volume s₄).data parent = (volume s).data parent := by
      rw [hb₄.volume, hb₃.volume, hsame.volume]
      exact Function.update_of_ne hne _ _
    rw [hb₆.volume, hb₅.volume, hdata, hb₄.volume, hb₃.volume, hsame.volume]
    rfl
  refine ⟨s₆, ?_, hw₆, ?_⟩
  · unfold writeSeedFile
    rw [bind_of_eq hfind, hfree]
    simp only [freeOf]
    rw [bind_of_eq hcluster, halloc]
    simp only [freeOf]
    rw [andThen_of_true hfat, andThen_of_true hbytes, andThen_of_true hentry, hflush]
  · rw [← hvolume]
    have hall := hsame.becomes.trans (hb₃.trans (hb₄.trans (hb₅.trans hb₆)))
    exact ⟨rfl, hall.file, hall.dir, hall.share, hall.completions⟩

def configName : Name := padded 8 configPath ++ padded 3 []
def hostnameName : Name := padded 8 hostnamePath ++ padded 3 []

/-- The cluster of the directory `CONFIG`, with the one file in it. -/
def homeDirectory : Bytes :=
  window (putEntry (2 * dirEntry) hostnameName 3 hostname.length attrArchive
    (emptyDirectory 2)) 0 sectorBytes

/-- The volume the server starts on. -/
structure Seeded (s : Fs) : Prop where
  root : (volume s).root = Function.update (fun _ => .vacant) 0 (.live configName ⟨2, 0, attrDir⟩)
  fat1 : (volume s).fat1 = Function.update (Function.update fatHeader 2 0xFFFF) 3 0xFFFF
  fat2 : (volume s).fat2 = Function.update (Function.update fatHeader 2 0xFFFF) 3 0xFFFF
  home : (volume s).data 2 = homeDirectory

theorem seedHostname_spec (hw : Working s) (hs : Formatted s) :
    ∃ s', seedHostname s = (true, s') ∧ Working s' ∧ SameHandles s s' ∧ Seeded s' := by
  have hfat1 : (volume s).fat1 = fatHeader := hs.tableEntry (Or.inl rfl)
  have hfat2 : (volume s).fat2 = fatHeader := hs.tableEntry (Or.inr rfl)
  obtain ⟨s₁, hfind, hw₁, hsame₁⟩ := findName_spec hw configName
  have hmissing : lookup (rootTable s) configName rootEntries 0 = none := by
    rw [show rootTable s = fun _ => Slot.vacant from hs.root]
    rfl
  obtain ⟨s₂, hmake, hw₂, hb₂⟩ := createDirectory_becomes hw₁ configName rfl 0 2
    (by rw [hsame₁.volume, hs.root]; rfl) (by rw [hsame₁.volume, hfat1]; rfl)
  rw [hsame₁.volume] at hb₂
  have hdata₂ : (volume s₂).data 2 = emptyDirectory 2 := by
    simp [hb₂.volume]
  have hfat₂ : (volume s₂).fat1 = Function.update fatHeader 2 0xFFFF := by
    simp [hb₂.volume, hfat1]
  obtain ⟨s₃, hnested, hw₃, hsame₃⟩ := findInCluster_spec hw₂ (show 2 ≤ 2 by decide) hostnameName
  have hnone : lookup (dirTable (emptyDirectory 2)) hostnameName entriesPerSector 0 = none := by
    decide +kernel
  rw [hdata₂, hnone] at hnested
  have hfree : firstFree (dirTable (emptyDirectory 2)) entriesPerSector 0 = some 2 := by decide +kernel
  obtain ⟨s₄, hseed, hw₄, hb₄⟩ := writeSeedFile_becomes hw₃ 2 (by decide) hostnameName 2 3
    (by rw [hsame₃.volume, hdata₂, hfree]) (by rw [hsame₃.volume, hfat₂]; rfl) (by decide)
  rw [hsame₃.volume, hdata₂] at hb₄
  have hconfig : packName configPath = some configName := by decide
  have hhost : packName hostnamePath = some hostnameName := by decide
  refine ⟨s₄, ?_, hw₄, ?_, ?_, ?_, ?_, ?_⟩
  · unfold seedHostname
    rw [hconfig, hhost]
    dsimp only
    rw [bind_of_eq hfind, hmissing]
    simp only [hitOf]
    rw [bind_of_eq hmake]
    dsimp only
    unfold seedInto
    rw [bind_of_eq hnested]
    exact hseed
  · exact ⟨(hb₄.file.trans hsame₃.file).trans (hb₂.file.trans hsame₁.file),
      (hb₄.dir.trans hsame₃.dir).trans (hb₂.dir.trans hsame₁.dir)⟩
  · have hslot : slotFor configName ⟨2, 0, attrDir⟩ = .live configName ⟨2, 0, attrDir⟩ := by decide
    simp [hb₄.volume, hb₂.volume, hs.root, hslot]
  · simp [hb₄.volume, hfat₂]
  · simp [hb₄.volume, hb₂.volume, hfat2]
  · simp [hb₄.volume, homeDirectory]

end seeding

/-! ### Runs from there -/

/-- The states of a server that formatted and seeded its volume, under commands that `may` lets through. The
client writes the share and takes completions at any time. -/
inductive Served (may : Fs → Command → Prop) : Fs → Prop
  | start {s s' : Fs} (performs : ∀ k, s.performs k = true) (invalid : s.blockValid = false)
      (clean : s.blockDirty = false) (file : s.file = none) (dir : s.dir = none)
      (run : andThen (loadBlock 0) (andThen formatVolume seedHostname) s = (true, s')) : Served may s'
  | serve {s : Fs} (h : Served may s) (id : Nat) (command : Command) (hm : may s command) :
      Served may (serveOne id command s).2
  | client {s : Fs} (h : Served may s) (share : Bytes) (taken : Nat) :
      Served may { s with share, completions := s.completions.drop taken }

theorem seeded_of_start {s s' : Fs} (performs : ∀ k, s.performs k = true) (invalid : s.blockValid = false)
    (clean : s.blockDirty = false) (run : andThen (loadBlock 0)
      (andThen formatVolume seedHostname) s = (true, s')) :
    Working s' ∧ SameHandles s s' ∧ Seeded s' := by
  have hw : Working s := ⟨performs, by simp [clean], by simp [invalid]⟩
  obtain ⟨s₁, hload, hw₁, hsame₁, -⟩ := loadBlock_spec hw 0
  obtain ⟨s₂, hformat, hw₂, hh₂, hs₂⟩ := formatVolume_spec hw₁
  obtain ⟨s₃, hseed, hw₃, hh₃, hs₃⟩ := seedHostname_spec hw₂ hs₂
  rw [andThen_of_true hload, andThen_of_true hformat, hseed] at run
  obtain rfl : s₃ = s' := (Prod.mk.inj run).2
  have hh₁ : SameHandles s s₁ := ⟨hsame₁.file, hsame₁.dir⟩
  exact ⟨hw₃, hh₁.trans (hh₂.trans hh₃), hs₃⟩

theorem Served.working {may : Fs → Command → Prop} {s : Fs} (h : Served may s) : Working s := by
  induction h with
  | start performs invalid clean _ _ run => exact (seeded_of_start performs invalid clean run).1
  | serve _ id command _ ih => exact serveOne_keeps id command _ ih
  | client _ share taken ih => exact ⟨ih.performs, ih.valid_of_dirty, ih.coherent⟩

/-- The run rule: what the seeded volume has and every effect of a command keeps, every state has. -/
theorem Served.invariant {may : Fs → Command → Prop} {I : Volume → Option OpenFile → Option OpenDir → Prop}
    (hstart : ∀ s, Seeded s → I (volume s) none none)
    (hrange : ∀ s, I (volume s) s.file s.dir → InRange s)
    (hstep : ∀ s command v file dir, Working s → may s command → I (volume s) s.file s.dir →
      Effect s command v file dir → I v file dir)
    {s : Fs} (h : Served may s) : I (volume s) s.file s.dir := by
  induction h with
  | start performs invalid clean file dir run =>
    obtain ⟨-, hh, hs⟩ := seeded_of_start performs invalid clean run
    rw [hh.1, hh.2, file, dir]
    exact hstart _ hs
  | serve h id command hm ih => exact hstep _ command _ _ _ h.working hm ih (serveOne_effect h.working (hrange _ ih) id command)
  | client _ share taken ih => exact ih

end Lerux.FatFs

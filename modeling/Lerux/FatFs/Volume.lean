import Lerux.FatFs.Visibility

/-!
# The volume

The blocks of the device read as a FAT volume: the root table, the two allocation tables and the data
clusters. On a working device every write of the server is an update of one of these four (`Becomes`), and
every scan answers from them. A data cluster of a directory is itself a table of sixteen slots.
-/

namespace Lerux.FatFs

open SlotTable

/-- The clusters one table has entries for. -/
def fatClusters : Nat := 8192

/-- The entry of a cluster in the table that starts at `base`. -/
def tableEntry (s : Fs) (base cluster : Nat) : Nat :=
  if cluster < fatClusters then
    fromLe16 (sector s (base + fatSector cluster) (fatOffset cluster))
      (sector s (base + fatSector cluster) (fatOffset cluster + 1))
  else 0

structure Volume where
  root : Nat → Slot Name Meta
  fat1 : Nat → Nat
  fat2 : Nat → Nat
  data : Nat → Bytes

/-- The sector of a data cluster, as the server sees it. -/
def clusterBytes (s : Fs) (cluster : Nat) : Bytes := if cluster < 2 then fun _ => 0
    else sector s (clusterLba cluster)

def volume (s : Fs) : Volume where
  root := rootTable s
  fat1 := tableEntry s fat1Lba
  fat2 := tableEntry s fat2Lba
  data := clusterBytes s

namespace Volume

def setRoot (v : Volume) (index : Nat) (slot : Slot Name Meta) : Volume :=
  { v with root := Function.update v.root index slot }

/-- The entry of a cluster, in both tables. -/
def setFat (v : Volume) (cluster value : Nat) : Volume :=
  { v with fat1 := Function.update v.fat1 cluster value, fat2 := Function.update v.fat2 cluster value }

def setData (v : Volume) (cluster : Nat) (bytes : Bytes) : Volume :=
  { v with data := Function.update v.data cluster bytes }

section fields

variable (v : Volume) (k value : Nat) (slot : Slot Name Meta) (bytes : Bytes)

@[simp] theorem setRoot_root : (v.setRoot k slot).root = Function.update v.root k slot := rfl
@[simp] theorem setRoot_fat1 : (v.setRoot k slot).fat1 = v.fat1 := rfl
@[simp] theorem setRoot_fat2 : (v.setRoot k slot).fat2 = v.fat2 := rfl
@[simp] theorem setRoot_data : (v.setRoot k slot).data = v.data := rfl
@[simp] theorem setFat_root : (v.setFat k value).root = v.root := rfl
@[simp] theorem setFat_fat1 : (v.setFat k value).fat1 = Function.update v.fat1 k value := rfl
@[simp] theorem setFat_fat2 : (v.setFat k value).fat2 = Function.update v.fat2 k value := rfl
@[simp] theorem setFat_data : (v.setFat k value).data = v.data := rfl
@[simp] theorem setData_root : (v.setData k bytes).root = v.root := rfl
@[simp] theorem setData_fat1 : (v.setData k bytes).fat1 = v.fat1 := rfl
@[simp] theorem setData_fat2 : (v.setData k bytes).fat2 = v.fat2 := rfl
@[simp] theorem setData_data : (v.setData k bytes).data = Function.update v.data k bytes := rfl

end fields

end Volume

/-- The slots of a directory cluster. -/
def dirTable (b : Bytes) (index : Nat) : Slot Name Meta :=
  if index < entriesPerSector then slotOf (window b (index * dirEntry) dirEntry) else .vacant

/-- The volume is `v` now, and nothing else above the cache has changed. -/
structure Becomes (s s' : Fs) (v : Volume) : Prop where
  volume : volume s' = v
  file : s'.file = s.file
  dir : s'.dir = s.dir
  share : s'.share = s.share
  completions : s'.completions = s.completions

theorem Becomes.trans {s s₁ s₂ : Fs} {v₁ v₂ : Volume} (h : Becomes s s₁ v₁)
    (h' : Becomes s₁ s₂ v₂) : Becomes s s₂ v₂ :=
  ⟨h'.volume, h'.file.trans h.file, h'.dir.trans h.dir, h'.share.trans h.share,
    h'.completions.trans h.completions⟩

theorem Same.volume {s s' : Fs} (h : Same s s') : volume s' = volume s := by
  unfold FatFs.volume
  congr 1
  · exact h.rootTable
  · funext c
    simp only [tableEntry, h.sector]
  · funext c
    simp only [tableEntry, h.sector]
  · funext c
    simp only [clusterBytes, h.sector]

theorem Same.becomes {s s' : Fs} (h : Same s s') : Becomes s s' (FatFs.volume s) :=
  ⟨h.volume, h.file, h.dir, h.share, h.completions⟩

/-! ### Edits of one sector -/

section edits

variable {s s' : Fs} {lba : Nat} {edit : Bytes → Bytes}

theorem fatSector_lt {cluster : Nat} (h : cluster < fatClusters) : fatSector cluster < fatSectors := by
  simp only [fatSector, sectorBytes, fatSectors, fatClusters] at *
  omega

theorem fatOffset_add_le (cluster : Nat) : fatOffset cluster + 2 ≤ sectorBytes := by
  simp only [fatOffset, sectorBytes]
  omega

/-- A sector outside a table is no part of it. -/
theorem Edited.tableEntry_of_outside {base : Nat} (h : Edited lba edit s s')
    (hout : lba < base ∨ base + fatSectors ≤ lba) : tableEntry s' base = tableEntry s base := by
  funext c
  unfold tableEntry
  split
  · next hc =>
    have hlt := fatSector_lt hc
    have hne : base + fatSector c ≠ lba := by omega
    rw [h.sector, Function.update_of_ne hne]
  · rfl

/-- Writing the entry of a cluster. -/
theorem Edited.tableEntry_update {base cluster value : Nat} (hc : cluster < fatClusters)
    (hv : value < 65536)
    (h : Edited (base + fatSector cluster) (copyAt (fatOffset cluster) (le16 value)) s s') :
    tableEntry s' base = Function.update (tableEntry s base) cluster value := by
  have hoff := fatOffset_add_le cluster
  funext c
  by_cases heq : c = cluster
  · subst heq
    rw [Function.update_self, tableEntry, if_pos hc, h.sector, Function.update_self]
    simp only [window, copyAt_apply, le16, List.length_cons, List.length_nil, Nat.zero_add]
    rw [if_pos (by omega), if_pos (by omega), if_pos (by omega), if_pos (by omega), Nat.sub_self,
      Nat.add_sub_cancel_left]
    exact fromLe16_le16 hv
  rw [Function.update_of_ne heq]
  unfold tableEntry
  split
  swap
  · rfl
  rw [h.sector]
  by_cases hsec : fatSector c = fatSector cluster
  swap
  · rw [Function.update_of_ne (by omega)]
  -- another entry of the same sector
  have hoffc := fatOffset_add_le c
  have hapart : fatOffset c + 2 ≤ fatOffset cluster ∨ fatOffset cluster + 2 ≤ fatOffset c := by
    simp only [fatSector, fatOffset, sectorBytes] at *
    omega
  rw [hsec, Function.update_self]
  simp only [window, copyAt_apply, le16, List.length_cons, List.length_nil, Nat.zero_add]
  rw [if_pos (by omega), if_neg (by omega), if_pos (by omega), if_neg (by omega)]

theorem Edited.clusterBytes_of_outside (h : Edited lba edit s s') (hout : lba < dataLba) :
    clusterBytes s' = clusterBytes s := by
  funext c
  unfold clusterBytes
  split
  · rfl
  · have hne : clusterLba c ≠ lba := by
      unfold clusterLba
      omega
    rw [h.sector, Function.update_of_ne hne]

theorem Edited.clusterBytes_update {cluster : Nat} (hc : 2 ≤ cluster)
    (h : Edited (clusterLba cluster) edit s s') :
    clusterBytes s' =
      Function.update (clusterBytes s) cluster (window (edit (clusterBytes s cluster)) 0 sectorBytes) := by
  funext c
  by_cases heq : c = cluster
  · subst heq
    rw [Function.update_self, clusterBytes, if_neg (by omega), h.sector, Function.update_self, clusterBytes,
      if_neg (by omega)]
  rw [Function.update_of_ne heq]
  unfold clusterBytes
  split
  · rfl
  · have hne : clusterLba c ≠ clusterLba cluster := by
      unfold clusterLba
      omega
    rw [h.sector, Function.update_of_ne hne]

end edits

/-! ### The writes -/

section writes

variable {s : Fs}

theorem flushBlock_becomes (hw : Working s) : ∃ s', flushBlock s = (true, s') ∧ Working s' ∧
    Becomes s s' (volume s) := by
  obtain ⟨s', h, hw', hsame, -⟩ := flushBlock_spec hw
  exact ⟨s', h, hw', hsame.becomes⟩

theorem setFat_becomes (hw : Working s) {cluster : Nat} (hc : cluster < fatClusters) (value : Nat)
    (hv : value < 65536) :
    ∃ s', setFat cluster value s = (true, s') ∧ Working s' ∧
      Becomes s s' ((volume s).setFat cluster value) := by
  have hsec := fatSector_lt hc
  obtain ⟨s₁, h₁, hw₁, he₁⟩ :=
    editSector_spec hw (fat1Lba + fatSector cluster) (copyAt (fatOffset cluster) (le16 value))
  obtain ⟨s₂, h₂, hw₂, he₂⟩ :=
    editSector_spec hw₁ (fat2Lba + fatSector cluster) (copyAt (fatOffset cluster) (le16 value))
  have hlow : fat1Lba + fatSector cluster < fat2Lba := by
    simp only [fat1Lba, fat2Lba, fatSectors] at *
    omega
  have hhigh : fat1Lba + fatSectors ≤ fat2Lba + fatSector cluster := by
    simp only [fat1Lba, fat2Lba, fatSectors] at *
    omega
  have hroot : fat2Lba + fatSector cluster < rootLba := by
    simp only [fat2Lba, rootLba, fatSectors] at *
    omega
  have hdata : rootLba < dataLba := by decide
  refine ⟨s₂,
    by rw [setFat, andThen_of_true h₁, h₂], hw₂, ?_, he₂.file.trans he₁.file, he₂.dir.trans he₁.dir,
    he₂.share.trans he₁.share, he₂.completions.trans he₁.completions⟩
  unfold volume Volume.setFat
  congr 1
  · rw [he₂.rootTable_of_outside (Or.inl hroot), he₁.rootTable_of_outside (Or.inl (by omega))]
  · rw [he₂.tableEntry_of_outside (Or.inr hhigh), he₁.tableEntry_update hc hv]
  · rw [he₂.tableEntry_update hc hv, he₁.tableEntry_of_outside (Or.inl hlow)]
  · rw [he₂.clusterBytes_of_outside (by omega), he₁.clusterBytes_of_outside (by omega)]

/-- An edit of a data cluster. -/
theorem editData_becomes (hw : Working s) {cluster : Nat} (hc : 2 ≤ cluster) (edit : Bytes → Bytes) :
    ∃ s', editSector (clusterLba cluster) edit s = (true, s') ∧ Working s' ∧
      Becomes s s' ((volume s).setData cluster
        (window (edit ((volume s).data cluster)) 0 sectorBytes)) := by
  obtain ⟨s', h, hw', he⟩ := editSector_spec hw (clusterLba cluster) edit
  have hlba : dataLba ≤ clusterLba cluster := Nat.le_add_right _ _
  refine ⟨s', h, hw', ?_, he.file, he.dir, he.share, he.completions⟩
  unfold volume Volume.setData
  congr 1
  · exact he.rootTable_of_outside (Or.inr hlba)
  · exact he.tableEntry_of_outside (Or.inr (le_trans (by decide) hlba))
  · exact he.tableEntry_of_outside (Or.inr (le_trans (by decide) hlba))
  · exact he.clusterBytes_update hc

/-- An edit inside one root entry. -/
theorem editRoot_becomes (hw : Working s) {index : Nat} (hindex : index < rootEntries)
    {edit : Bytes → Bytes}
    (hin : StaysIn (entryOffset index) edit) {slot : Slot Name Meta}
    (hslot : ∀ b, slotOf (window b (entryOffset index) dirEntry) = (volume s).root index →
      slotOf (window (edit b) (entryOffset index) dirEntry) = slot) :
    ∃ s', editSector (entryLba index) edit s = (true, s') ∧ Working s' ∧
      Becomes s s' ((volume s).setRoot index slot) := by
  obtain ⟨s', h, hw', he⟩ := editSector_spec hw (entryLba index) edit
  have hlow : rootLba ≤ entryLba index := Nat.le_add_right _ _
  have hhigh : entryLba index < dataLba := by
    simp only [entryLba, rootLba, dataLba, rootEntries, entriesPerSector] at *
    omega
  refine ⟨s', h, hw', ?_, he.file, he.dir, he.share, he.completions⟩
  unfold volume Volume.setRoot
  congr 1
  · rw [he.rootTable_update hindex hin, hslot _ (if_pos hindex).symm]
  · exact he.tableEntry_of_outside (Or.inr (le_trans (by decide) hlow))
  · exact he.tableEntry_of_outside (Or.inr (le_trans (by decide) hlow))
  · exact he.clusterBytes_of_outside hhigh

theorem writeDir_becomes (hw : Working s) {index : Nat} (hindex : index < rootEntries) {name : Name}
    (hname : name.length = 11) {cluster : Nat} (hc : cluster < 65536) (attr : UInt8) :
    ∃ s', writeDir index name cluster 0 attr s = (true, s') ∧ Working s' ∧
      Becomes s s' ((volume s).setRoot index (slotFor name ⟨cluster, 0, attr⟩)) :=
  editRoot_becomes hw hindex (putEntry_staysIn _ hname _ _ _) fun b _ => slotOf_putEntry hname hc
    (by decide) attr b

theorem renameEntry_becomes (hw : Working s) {index : Nat} (hindex : index < rootEntries) {name old : Name}
    (hname : name.length = 11) {m : Meta} (hold : (volume s).root index = .live old m) :
    ∃ s', renameEntry index name s = (true, s') ∧ Working s' ∧
      Becomes s s' ((volume s).setRoot index (slotFor name m)) :=
  editRoot_becomes hw hindex (copyAt_staysIn le_rfl (by simp [hname, dirEntry])) fun _ hb =>
    slotOf_rename hname (hb.trans hold)

theorem markDeleted_becomes (hw : Working s) {index : Nat} (hindex : index < rootEntries) :
    ∃ s', markDeleted index s = (true, s') ∧ Working s' ∧
      Becomes s s' ((volume s).setRoot index .deleted) := by
  refine editRoot_becomes hw hindex (copyAt_staysIn le_rfl (by simp [dirEntry])) fun b _ => ?_
  have h0 : window (copyAt (entryOffset index) [0xE5] b) (entryOffset index) dirEntry 0 = 0xE5 := by
    simp [window, copyAt_apply, dirEntry]
  rw [slotOf, h0, if_neg (by decide), if_pos rfl]

/-- A live slot with another size. -/
def resized (size : Nat) : Slot Name Meta → Slot Name Meta
  | .live name m => .live name { m with size }
  | slot => slot

theorem slotOf_resize {off size : Nat} (hs : size < 4294967296) (b : Bytes) :
    slotOf (window (copyAt (off + 28) (le32 size) b) off dirEntry) =
      resized size (slotOf (window b off dirEntry)) := by
  have hlow : ∀ i, i < 28 →
    window (copyAt (off + 28) (le32 size) b) off dirEntry i = window b off dirEntry i := by
    intro i hi
    simp only [window, copyAt_apply]
    rw [if_neg (by omega : ¬(off + 28 ≤ off + i ∧ _))]
  have hsize : ∀ i, i < 4 →
      window (copyAt (off + 28) (le32 size) b) off dirEntry (28 + i) = (le32 size).getD i 0 := by
    intro i hi
    have hlt : 28 + i < dirEntry := by simp only [dirEntry]; omega
    simp only [window, if_pos hlt, copyAt_apply, le32, List.length_cons, List.length_nil]
    rw [if_pos (by omega), show off + (28 + i) - (off + 28) = i by omega]
  have hname : slice (window (copyAt (off + 28) (le32 size) b) off dirEntry) 0 11 =
    slice (window b off dirEntry) 0 11 := by
    apply List.map_congr_left
    intro i hi
    exact hlow _ (by rw [List.mem_range] at hi; omega)
  rw [slotOf, slotOf, hname, hlow 0 (by omega), hlow 11 (by omega), hlow 26 (by omega), hlow 27 (by omega),
    hsize 0 (by omega), hsize 1 (by omega), hsize 2 (by omega), hsize 3 (by omega)]
  simp only [le32, List.getD_cons_zero, List.getD_cons_succ, fromLe32_le32 hs]
  split
  · rfl
  split <;> rfl

theorem updateSize_becomes (hw : Working s) {index size : Nat} (hindex : index < rootEntries)
    (hs : size < 4294967296) :
    ∃ s', updateSize 0 index size s = (true, s') ∧ Working s' ∧
      Becomes s s' ((volume s).setRoot index (resized size ((volume s).root index))) := by
  have hoff : StaysIn (entryOffset index) (copyAt (entryOffset index + 28) (le32 size)) :=
    copyAt_staysIn (by omega) (by simp [le32, dirEntry])
  refine editRoot_becomes hw hindex hoff fun b hb => ?_
  rw [slotOf_resize hs, hb]

end writes

/-! ### The scans of a directory cluster -/

section scans

variable {s : Fs}

theorem readPlaced_reads (s : Fs) {cluster : Nat} (hc : 2 ≤ cluster) :
    Reads s (readPlaced cluster) (dirTable ((volume s).data cluster)) entriesPerSector := by
  intro index s₁ hindex hw₁ hsame₁
  obtain ⟨s₂, hload, hw₂, hsame₂, hv, hn⟩ := loadBlock_spec hw₁ (clusterLba cluster / sectorsPerTransfer)
  have hle : index * dirEntry + dirEntry ≤ sectorBytes := by
    simp only [entriesPerSector, dirEntry, sectorBytes] at *
    omega
  have hdata : (volume s).data cluster = sector s (clusterLba cluster) := if_neg (by omega)
  refine ⟨window s₂.block (sectorOffset (clusterLba cluster) + index * dirEntry) dirEntry, s₂, ?_, hw₂,
    hsame₁.trans hsame₂, ?_⟩
  · rw [readPlaced, if_neg (by omega), bind_of_eq hload]
    rfl
  · rw [dirTable, if_pos hindex, window_block hv hn hle, hdata, hsame₂.sector, hsame₁.sector]

theorem findInCluster_spec (hw : Working s) {cluster : Nat} (hc : 2 ≤ cluster) (name : Name) :
    ∃ s', findInCluster cluster name s =
      (hitOf (lookup (dirTable ((volume s).data cluster)) name entriesPerSector 0), s') ∧
        Working s' ∧ Same s s' := by
  rw [findInCluster, if_neg (by omega)]
  exact scanName_walk (readPlaced_reads s hc) name entriesPerSector 0 s hw (Same.refl s) (by omega)

theorem findFreeInCluster_spec (hw : Working s) {cluster : Nat} (hc : 2 ≤ cluster) :
    ∃ s', findFreeInCluster cluster s =
      (freeOf (firstFree (dirTable ((volume s).data cluster)) entriesPerSector 0), s') ∧
        Working s' ∧ Same s s' := by
  rw [findFreeInCluster, if_neg (by omega)]
  exact scanFree_walk (readPlaced_reads s hc) entriesPerSector 0 s hw (Same.refl s) (by omega)

/-- The names of the two entries every directory has for itself and its parent. -/
def dotted (name : Name) : Bool := name.getD 0 0 == dot && (name.getD 1 0 == space || name.getD 1 0 == dot)

/-- No entry of its own, over `left` slots from `index` on. -/
def emptyFrom (t : Nat → Slot Name Meta) : Nat → Nat → Bool
  | 0, _ => true
  | left + 1, index =>
    match t index with
    | .vacant => true
    | .deleted => emptyFrom t left (index + 1)
    | .live name _ => if dotted name then emptyFrom t left (index + 1) else false

theorem scanEmpty_walk {cluster : Nat} {t : Nat → Slot Name Meta} {limit : Nat}
    (hreads : Reads s (readPlaced cluster) t limit) (left : Nat) :
    ∀ (index : Nat) (s₁ : Fs), Working s₁ → Same s s₁ → index + left ≤ limit →
      ∃ s', scanEmpty cluster left index s₁ = (.hit (emptyFrom t left index), s') ∧ Working s' ∧
        Same s s' := by
  induction left with
  | zero => exact fun index s₁ hw₁ hsame₁ _ => ⟨s₁, rfl, hw₁, hsame₁⟩
  | succ left ih =>
    intro index s₁ hw₁ hsame₁ hle
    obtain ⟨e, s₂, hread, hw₂, hsame₂, hslot⟩ := hreads index s₁ (by omega) hw₁ hsame₁
    obtain ⟨s₃, hscan, hw₃, hsame₃⟩ := ih (index + 1) s₂ hw₂ hsame₂ (by omega)
    have hdot : isDot e = dotted (slice e 0 11) := rfl
    rw [scanEmpty, bind_of_eq hread, emptyFrom, ← hslot, slotOf]
    simp only [ite_run]
    by_cases h0 : e 0 = 0x00
    · rw [if_pos h0, if_pos h0]
      exact ⟨s₂, rfl, hw₂, hsame₂⟩
    rw [if_neg h0, if_neg h0]
    by_cases h5 : e 0 = 0xE5
    · rw [if_pos (Or.inl h5), if_pos h5]
      exact ⟨s₃, hscan, hw₃, hsame₃⟩
    rw [if_neg h5]
    by_cases hdots : isDot e = true
    · rw [if_pos (Or.inr hdots)]
      simp only [← hdot, hdots, if_true]
      exact ⟨s₃, hscan, hw₃, hsame₃⟩
    · rw [if_neg (by simp [h5, hdots])]
      simp only [← hdot, hdots]
      exact ⟨s₂, rfl, hw₂, hsame₂⟩

theorem directoryEmpty_spec (hw : Working s) {cluster : Nat} (hc : 2 ≤ cluster) :
    ∃ s', directoryEmpty cluster s = (.hit
      (emptyFrom (dirTable ((volume s).data cluster)) entriesPerSector 0), s') ∧
      Working s' ∧ Same s s' := by
  rw [directoryEmpty, if_neg (by omega)]
  exact scanEmpty_walk (readPlaced_reads s hc) entriesPerSector 0 s hw (Same.refl s) (by omega)

end scans

end Lerux.FatFs

import Lerux.Base.SlotTable
import Lerux.FatFs.Cache

/-!
# The root directory as a table

A root entry is vacant when its first byte is `0x00`, deleted when it is `0xE5`, and otherwise live under
the eleven bytes of its name. `rootTable` reads the 512 entries of a state this way. The scans of the
server are the walks of that table, and its directory writes are updates of one slot.
-/

namespace Lerux.FatFs

open SlotTable

/-- What an entry records besides its name. -/
structure Meta where
  cluster : Nat
  size : Nat
  attr : UInt8
  deriving DecidableEq, Repr

def DirHit.ofSlot (r : Nat × Meta) : DirHit := ⟨r.1, r.2.cluster, r.2.size, r.2.attr⟩

/-- How the scans read an entry. -/
def slotOf (e : Bytes) : Slot Name Meta :=
  if e 0 = 0x00 then .vacant
  else if e 0 = 0xE5 then .deleted
  else .live (slice e 0 11) ⟨fromLe16 (e 26) (e 27), fromLe32 (e 28) (e 29) (e 30) (e 31), e 11⟩

/-- One root entry. -/
def entry (s : Fs) (index : Nat) : Bytes := window (sector s (entryLba index)) (entryOffset index) dirEntry

def rootTable (s : Fs) (index : Nat) : Slot Name Meta :=
  if index < rootEntries then slotOf (entry s index) else .vacant

theorem Same.rootTable {s s' : Fs} (h : Same s s') : rootTable s' = rootTable s := by
  funext index
  simp only [FatFs.rootTable, entry, h.sector]

theorem entryOffset_add_le (index : Nat) : entryOffset index + dirEntry ≤ sectorBytes := by
  simp only [entryOffset, entriesPerSector, dirEntry, sectorBytes]
  omega

/-! ### The scans -/

section scans

variable {s : Fs}

theorem readEntry_spec (hw : Working s) (index : Nat) :
    ∃ s', readEntry index s = (some (entry s index), s') ∧ Working s' ∧ Same s s' := by
  obtain ⟨s', hload, hw', hsame, hv, hn⟩ := loadBlock_spec hw (entryLba index / sectorsPerTransfer)
  refine ⟨s', ?_, hw', hsame⟩
  rw [readEntry, bind_of_eq hload]
  simp [window_block hv hn (entryOffset_add_le index), entry, hsame.sector]

/-- The answer of a search, as the server gives it. -/
def hitOf : Option (Nat × Meta) → Scan DirHit
  | some r => .hit (DirHit.ofSlot r)
  | none => .missing

def freeOf : Option Nat → Scan Nat
  | some index => .hit index
  | none => .missing

/-- Reading the entries below `limit` answers the slots of `t`, and changes no sector. -/
def Reads (s : Fs) (read : Nat → M (Option Bytes)) (t : Nat → Slot Name Meta) (limit : Nat) : Prop :=
  ∀ index s₁, index < limit → Working s₁ → Same s s₁ →
    ∃ e s₂, read index s₁ = (some e, s₂) ∧ Working s₂ ∧ Same s s₂ ∧ slotOf e = t index

theorem readEntry_reads (s : Fs) : Reads s readEntry (rootTable s) rootEntries := by
  intro index s₁ hindex hw₁ hsame₁
  obtain ⟨s₂, hread, hw₂, hsame₂⟩ := readEntry_spec hw₁ index
  refine ⟨_, s₂, hread, hw₂, hsame₁.trans hsame₂, ?_⟩
  rw [rootTable, if_pos hindex, entry, entry, hsame₁.sector]

/-- The search for a name, over any table that is read entry by entry. -/
theorem scanName_walk {read : Nat → M (Option Bytes)} {t : Nat → Slot Name Meta} {limit : Nat}
    (hreads : Reads s read t limit) (name : Name) (left : Nat) :
    ∀ (index : Nat) (s₁ : Fs), Working s₁ → Same s s₁ → index + left ≤ limit →
      ∃ s', scanName read name left index s₁ = (hitOf (lookup t name left index), s') ∧ Working s' ∧
        Same s s' := by
  induction left with
  | zero => exact fun index s₁ hw₁ hsame₁ _ => ⟨s₁, rfl, hw₁, hsame₁⟩
  | succ left ih =>
    intro index s₁ hw₁ hsame₁ hle
    obtain ⟨e, s₂, hread, hw₂, hsame₂, hslot⟩ := hreads index s₁ (by omega) hw₁ hsame₁
    obtain ⟨s₃, hscan, hw₃, hsame₃⟩ := ih (index + 1) s₂ hw₂ hsame₂ (by omega)
    rw [scanName, bind_of_eq hread, lookup, ← hslot, slotOf]
    simp only [ite_run]
    by_cases h0 : e 0 = 0x00
    · rw [if_pos h0, if_pos h0]
      exact ⟨s₂, rfl, hw₂, hsame₂⟩
    rw [if_neg h0, if_neg h0]
    by_cases h5 : e 0 = 0xE5
    · rw [if_pos h5, if_pos h5]
      exact ⟨s₃, hscan, hw₃, hsame₃⟩
    rw [if_neg h5, if_neg h5]
    by_cases hname : slice e 0 11 = name
    · simp only [if_pos hname]
      exact ⟨s₂, rfl, hw₂, hsame₂⟩
    · simp only [if_neg hname]
      exact ⟨s₃, hscan, hw₃, hsame₃⟩

theorem findName_spec (hw : Working s) (name : Name) :
    ∃ s', findName name s = (hitOf (lookup (rootTable s) name rootEntries 0), s') ∧ Working s' ∧
      Same s s' :=
  scanName_walk (readEntry_reads s) name rootEntries 0 s hw (Same.refl s) (by omega)

/-- The search for a free slot. -/
theorem scanFree_walk {read : Nat → M (Option Bytes)} {t : Nat → Slot Name Meta} {limit : Nat}
    (hreads : Reads s read t limit) (left : Nat) :
    ∀ (index : Nat) (s₁ : Fs), Working s₁ → Same s s₁ → index + left ≤ limit →
      ∃ s', scanFree read left index s₁ = (freeOf (firstFree t left index), s') ∧ Working s' ∧
        Same s s' := by
  induction left with
  | zero => exact fun index s₁ hw₁ hsame₁ _ => ⟨s₁, rfl, hw₁, hsame₁⟩
  | succ left ih =>
    intro index s₁ hw₁ hsame₁ hle
    obtain ⟨e, s₂, hread, hw₂, hsame₂, hslot⟩ := hreads index s₁ (by omega) hw₁ hsame₁
    obtain ⟨s₃, hscan, hw₃, hsame₃⟩ := ih (index + 1) s₂ hw₂ hsame₂ (by omega)
    rw [scanFree, bind_of_eq hread, firstFree, ← hslot, slotOf]
    simp only [ite_run]
    by_cases h0 : e 0 = 0x00
    · rw [if_pos (Or.inl h0), if_pos h0]
      exact ⟨s₂, rfl, hw₂, hsame₂⟩
    by_cases h5 : e 0 = 0xE5
    · rw [if_pos (Or.inr h5), if_neg h0, if_pos h5]
      exact ⟨s₂, rfl, hw₂, hsame₂⟩
    rw [if_neg (by simp [h0, h5]), if_neg h0, if_neg h5]
    exact ⟨s₃, hscan, hw₃, hsame₃⟩

theorem findFree_spec (hw : Working s) :
    ∃ s', findFree s = (freeOf (firstFree (rootTable s) rootEntries 0), s') ∧ Working s' ∧ Same s s' :=
  scanFree_walk (readEntry_reads s) rootEntries 0 s hw (Same.refl s) (by omega)

/-- The entry of a cluster in the first table. -/
def fatEntry (s : Fs) (cluster : Nat) : Nat :=
  fromLe16 (sector s (fat1Lba + fatSector cluster) (fatOffset cluster))
    (sector s (fat1Lba + fatSector cluster) (fatOffset cluster + 1))

/-- The first cluster with a zero entry, over `left` clusters from `cluster` on. -/
def firstCluster (fat : Nat → Nat) : Nat → Nat → Option Nat
  | 0, _ => none
  | left + 1, cluster => if fat cluster = 0 then some cluster else firstCluster fat left (cluster + 1)

theorem firstCluster_range {fat : Nat → Nat} {left cluster c : Nat}
    (h : firstCluster fat left cluster = some c) :
    cluster ≤ c ∧ c < cluster + left := by
  induction left generalizing cluster with
  | zero => simp [firstCluster] at h
  | succ left ih =>
    rw [firstCluster] at h
    split at h
    · simp only [Option.some.injEq] at h
      omega
    · have := ih h
      omega

theorem readFat_spec (hw : Working s) (cluster : Nat) :
    ∃ s', readFat cluster s = (.hit (fatEntry s cluster), s') ∧ Working s' ∧ Same s s' := by
  have hoff : fatOffset cluster + 2 ≤ sectorBytes := by
    simp only [fatOffset, sectorBytes]
    omega
  obtain ⟨s', hload, hw', hsame, hv, hn⟩ :=
    loadBlock_spec hw ((fat1Lba + fatSector cluster) / sectorsPerTransfer)
  refine ⟨s', ?_, hw', hsame⟩
  rw [readFat, bind_of_eq hload]
  have hwin := window_block hv hn hoff
  have h0 := congrFun hwin 0
  have h1 := congrFun hwin 1
  simp only [window, Nat.zero_lt_succ, if_true, Nat.one_lt_ofNat, Nat.add_zero] at h0 h1
  simp only [ite_run, if_true, get_bind, pure_apply, h0, h1, hsame.sector]
  rfl

theorem scanCluster_spec (left : Nat) : ∀ (cluster : Nat) (s : Fs), Working s →
    ∃ s', scanCluster left cluster s = (freeOf (firstCluster (fatEntry s) left cluster), s') ∧
      Working s' ∧ Same s s' := by
  induction left with
  | zero => exact fun cluster s hw => ⟨s, rfl, hw, Same.refl s⟩
  | succ left ih =>
    intro cluster s hw
    obtain ⟨s₁, hread, hw₁, hsame₁⟩ := readFat_spec hw cluster
    obtain ⟨s₂, hscan, hw₂, hsame₂⟩ := ih (cluster + 1) s₁ hw₁
    have hfat : fatEntry s₁ = fatEntry s := by
      funext c
      simp only [fatEntry, hsame₁.sector]
    rw [hfat] at hscan
    rw [scanCluster, bind_of_eq hread, firstCluster]
    simp only [ite_run]
    by_cases h0 : fatEntry s cluster = 0
    · rw [if_pos h0, if_pos h0]
      exact ⟨s₁, rfl, hw₁, hsame₁⟩
    · rw [if_neg h0, if_neg h0]
      exact ⟨s₂, hscan, hw₂, hsame₁.trans hsame₂⟩

theorem allocCluster_spec (hw : Working s) :
    ∃ s', allocCluster s = (freeOf (firstCluster (fatEntry s) (clusterScan - 2) 2), s') ∧
      Working s' ∧ Same s s' :=
  scanCluster_spec (clusterScan - 2) 2 s hw

end scans

/-! ### The writes -/

section writes

variable {s s' : Fs}

/-- A sector outside the root region is no part of the table. -/
theorem Edited.rootTable_of_outside {lba : Nat} {edit : Bytes → Bytes} (h : Edited lba edit s s')
    (hout : lba < rootLba ∨ dataLba ≤ lba) : rootTable s' = rootTable s := by
  funext index
  simp only [FatFs.rootTable]
  split
  · next hlt =>
    have hne : entryLba index ≠ lba := by
      simp only [entryLba, rootLba, dataLba, rootEntries, entriesPerSector] at *
      omega
    rw [entry, entry, h.sector, Function.update_of_ne hne]
  · rfl

/-- An edit that stays inside the entry at `off`. -/
def StaysIn (off : Nat) (edit : Bytes → Bytes) : Prop :=
  ∀ b i, i < off ∨ off + dirEntry ≤ i → edit b i = b i

/-- An edit inside the entry `index` updates that slot. -/
theorem Edited.rootTable_update {index : Nat} {edit : Bytes → Bytes} (h : Edited (entryLba index) edit s s')
    (hindex : index < rootEntries) (hin : StaysIn (entryOffset index) edit) :
    rootTable s' = Function.update (rootTable s) index
      (slotOf (window (edit (FatFs.sector s (entryLba index))) (entryOffset index) dirEntry)) := by
  have hoff := entryOffset_add_le index
  funext i
  by_cases hi : i = index
  · subst hi
    rw [Function.update_self, FatFs.rootTable, if_pos hindex, entry, h.sector, Function.update_self]
    congr 1
    funext k
    simp only [window]
    split
    · rw [if_pos (by omega), Nat.zero_add]
    · rfl
  rw [Function.update_of_ne hi]
  simp only [FatFs.rootTable]
  split
  swap
  · rfl
  congr 1
  rw [entry, entry, h.sector]
  by_cases hlba : entryLba i = entryLba index
  swap
  · rw [Function.update_of_ne hlba]
  -- another entry of the same sector
  rw [hlba, Function.update_self]
  funext k
  have hoffi := entryOffset_add_le i
  simp only [window]
  split
  · next hk =>
    rw [if_pos (by omega), Nat.zero_add]
    apply hin
    simp only [entryLba, entryOffset, rootLba, entriesPerSector, dirEntry] at *
    omega
  · rfl

theorem copyAt_apply (off : Nat) (src : List UInt8) (b : Bytes) (i : Nat) :
    copyAt off src b i = if off ≤ i ∧ i < off + src.length then src.getD (i - off) 0 else b i := rfl

theorem copyAt_staysIn {off at_ : Nat} {src : List UInt8} (h1 : at_ ≤ off)
    (h2 : off + src.length ≤ at_ + dirEntry) :
    StaysIn at_ (copyAt off src) := by
  intro b i hi
  rw [copyAt_apply, if_neg (by omega)]

theorem putEntry_staysIn (off : Nat) {name : Name} (hname : name.length = 11) (cluster size : Nat)
    (attr : UInt8) :
    StaysIn off (putEntry off name cluster size attr) := by
  intro b i hi
  have h1 : StaysIn off (copyAt off (List.replicate dirEntry 0)) := copyAt_staysIn le_rfl (by simp)
  simp only [putEntry]
  rw [copyAt_staysIn (by omega) (by simp [le32, dirEntry]) _ _ hi,
    copyAt_staysIn (by omega) (by simp [le16, dirEntry]) _ _ hi,
    copyAt_staysIn (by omega) (by simp [dirEntry]) _ _ hi,
    copyAt_staysIn le_rfl (by simp [hname, dirEntry]) _ _ hi, h1 _ _ hi]

/-- The slot an entry under `name` makes: its first byte decides whether it is a live one. -/
def slotFor (name : Name) (m : Meta) : Slot Name Meta :=
  if name.getD 0 0 = 0x00 then .vacant else if name.getD 0 0 = 0xE5 then .deleted else .live name m

/-- A first byte the scans take for that of a live entry. -/
def Nameable (name : Name) : Prop := name.getD 0 0 ≠ 0x00 ∧ name.getD 0 0 ≠ 0xE5

instance (name : Name) : Decidable (Nameable name) := inferInstanceAs (Decidable (_ ∧ _))

theorem slotFor_of_nameable {name : Name} {m : Meta} (h : Nameable name) :
    slotFor name m = .live name m := by
  rw [slotFor, if_neg h.1, if_neg h.2]

theorem slotFor_not_live {name : Name} {m : Meta} (h : ¬Nameable name) : ¬Slot.IsLive (slotFor name m) := by
  rintro ⟨k, v, hlive⟩
  rw [slotFor] at hlive
  split at hlive
  · cases hlive
  · split at hlive
    · cases hlive
    · next h0 h5 => exact h ⟨h0, h5⟩

theorem fromLe16_le16 {n : Nat} (h : n < 65536) : fromLe16 (UInt8.ofNat n) (UInt8.ofNat (n / 256)) = n := by
  simp only [fromLe16, UInt8.toNat_ofNat']
  omega

theorem slice_eq_of_getD {e : Bytes} {name : Name} (hlen : name.length = 11)
    (h : ∀ i, i < 11 → e i = name.getD i 0) :
    slice e 0 11 = name := by
  apply List.ext_getElem
  · simp [slice, hlen]
  · intro i h1 h2
    have hi : i < 11 := by omega
    simp only [slice, List.getElem_map, List.getElem_range, Nat.zero_add]
    rw [h i hi, List.getD_eq_getElem?_getD, List.getElem?_eq_getElem h2, Option.getD_some]

theorem fromLe32_le32 {n : Nat} (h : n < 4294967296) :
    fromLe32 (UInt8.ofNat n) (UInt8.ofNat (n / 256)) (UInt8.ofNat (n / 65536))
      (UInt8.ofNat (n / 16777216)) = n := by
  simp only [fromLe32, fromLe16, UInt8.toNat_ofNat']
  omega

/-- What `put_entry` leaves at its place. -/
theorem slotOf_putEntry {off : Nat} {name : Name} (hname : name.length = 11) {cluster size : Nat}
    (hc : cluster < 65536)
    (hs : size < 4294967296) (attr : UInt8) (b : Bytes) :
    slotOf (window (putEntry off name cluster size attr b) off dirEntry) =
      slotFor name ⟨cluster, size, attr⟩ := by
  have hbytes : ∀ i, i < 11 →
    window (putEntry off name cluster size attr b) off dirEntry i = name.getD i 0 := by
    intro i hi
    have h1 : i < dirEntry := by simp only [dirEntry]; omega
    simp only [window, if_pos h1, putEntry, copyAt_apply, le32, le16, List.length_cons, List.length_nil]
    rw [if_neg (by omega), if_neg (by omega), if_neg (by omega), if_pos (by omega), Nat.add_sub_cancel_left]
  have h11 : window (putEntry off name cluster size attr b) off dirEntry 11 = attr := by
    simp [window, putEntry, copyAt_apply, le16, le32, dirEntry]
  have h26 : window (putEntry off name cluster size attr b) off dirEntry 26 = UInt8.ofNat cluster := by
    simp [window, putEntry, copyAt_apply, le16, le32, dirEntry]
  have h27 : window (putEntry off name cluster size attr b) off dirEntry 27 =
    UInt8.ofNat (cluster / 256) := by
    simp [window, putEntry, copyAt_apply, le16, le32, dirEntry]
  have hsize : ∀ i, i < 4 →
      window (putEntry off name cluster size attr b) off dirEntry (28 + i) = (le32 size).getD i 0 := by
    intro i h1
    have h2 : 28 + i < dirEntry := by simp only [dirEntry]; omega
    simp only [window, if_pos h2, putEntry, copyAt_apply, le32, List.length_cons, List.length_nil]
    rw [if_pos (by omega), show off + (28 + i) - (off + 28) = i by omega]
  rw [slotOf, hbytes 0 (by omega), slice_eq_of_getD hname hbytes, h11, h26, h27, hsize 0 (by omega),
    hsize 1 (by omega), hsize 2 (by omega), hsize 3 (by omega), fromLe16_le16 hc]
  simp only [le32, List.getD_cons_zero, List.getD_cons_succ, fromLe32_le32 hs]
  rfl

/-- Replacing the name of a live entry. -/
theorem slotOf_rename {off : Nat} {name old : Name} (hname : name.length = 11) {b : Bytes} {m : Meta}
    (h : slotOf (window b off dirEntry) = .live old m) :
    slotOf (window (copyAt off name b) off dirEntry) = slotFor name m := by
  have hbytes : ∀ i, i < 11 → window (copyAt off name b) off dirEntry i = name.getD i 0 := by
    intro i hi
    have h1 : i < dirEntry := by simp only [dirEntry]; omega
    rw [window, if_pos h1, copyAt_apply, if_pos (by omega), Nat.add_sub_cancel_left]
  have hrest : ∀ i, 11 ≤ i → window (copyAt off name b) off dirEntry i = window b off dirEntry i := by
    intro i hi
    simp only [window, copyAt_apply]
    rw [if_neg (by omega : ¬(off ≤ off + i ∧ off + i < off + name.length))]
  have hm : m = ⟨fromLe16 (window b off dirEntry 26) (window b off dirEntry 27),
      fromLe32 (window b off dirEntry 28) (window b off dirEntry 29) (window b off dirEntry 30)
        (window b off dirEntry 31), window b off dirEntry 11⟩ := by
    rw [slotOf] at h
    split at h
    · cases h
    · split at h
      · cases h
      · exact (Slot.live.inj h).2.symm
  rw [slotOf, hbytes 0 (by omega), slice_eq_of_getD hname hbytes, hrest 11 le_rfl, hrest 26 (by omega),
    hrest 27 (by omega), hrest 28 (by omega), hrest 29 (by omega), hrest 30 (by omega),
      hrest 31 (by omega), ← hm]
  rfl

end writes

end Lerux.FatFs

import Lerux.Swift.Nvme

/-!
# The named file of a FAT volume

The first sector of a cluster is found from five numbers of the boot sector
(`FatShape.clusterSector`). `load_fat` leaves out the sectors per cluster, so that it reads the
right sector where a cluster is one sector or the file begins in the first cluster, and where the
two sectors have the same bytes (`loadNamed_fat`).
-/

namespace Lerux.Swift

open Check

/-! ### Volumes -/

/-- The numbers of a FAT volume with sectors of 512 bytes. -/
structure FatShape where
  reserved : Nat
  fats : Nat
  fatSectors : Nat
  rootEntries : Nat
  spc : Nat
  fats_pos : 0 < fats
  fatSectors_pos : 0 < fatSectors
  rootEntries_pos : 0 < rootEntries
  wholeSectors : rootEntries % 16 = 0
  spc_pow : spc ∈ [1, 2, 4, 8, 16, 32, 64, 128]

namespace FatShape

def rootLba (g : FatShape) : Nat := g.reserved + g.fats * g.fatSectors

def rootSectors (g : FatShape) : Nat := g.rootEntries / 16

def dataLba (g : FatShape) : Nat := g.rootLba + g.rootSectors

/-- The first sector of a cluster. -/
def clusterSector (g : FatShape) (cluster : Nat) : Nat := g.dataLba + (cluster - 2) * g.spc

/-- The boot sector that has the numbers of a volume in its fields. -/
structure Describes (g : FatShape) (boot : Sector) : Prop where
  ntfs : isNtfs boot = false
  fat : isFat boot = true
  spc : (boot.byte 13).toNat = g.spc
  reserved : boot.field 14 16 = g.reserved
  fats : (boot.byte 16).toNat = g.fats
  rootEntries : boot.field 17 19 = g.rootEntries
  fatSectors : boot.field 22 24 = g.fatSectors

end FatShape

/-- The entries of a directory sector. -/
def dirEntries (dir : Sector) : List (List UInt8) :=
  (List.range 16).map fun slot => (dir.bytes.take (slot * 32 + 32)).drop (slot * 32)

/-- A live entry of the name: neither deleted nor a part of a long name. -/
def Named (want entry : List UInt8) : Prop :=
  entry.getD 0 0 ≠ 0xe5 ∧ entry.getD 11 0 ≠ 0x0f ∧ entry.take 11 = want

instance (want entry : List UInt8) : Decidable (Named want entry) := inferInstanceAs (Decidable (_ ∧ _ ∧ _))

/-- The first live entry of the name before the end marker. -/
def liveEntry (want : List UInt8) (entries : List (List UInt8)) : Option (List UInt8) :=
  (entries.takeWhile fun entry => entry.getD 0 0 ≠ 0x00).find? fun entry => Named want entry

def entryCluster (entry : List UInt8) : Nat := leValue ((entry.take 28).drop 26)

def entrySize (entry : List UInt8) : Nat := leValue ((entry.take 32).drop 28)

/-- The first bytes of a sector, or that it is not read. -/
def sectorReport (vol : Disk) (lba n : Nat) : DiskReport :=
  if n = 0 then filled []
  else
    match vol lba with
    | none => .admin
    | some sector => filled (sector.bytes.take n)

/-- A volume: its sectors, counted from its first. -/
structure FatVolume where
  shape : FatShape
  sector : Disk
  boot : ∃ b, sector 0 = some b ∧ shape.Describes b
  root : ∀ i < shape.rootSectors, (sector (shape.rootLba + i)).isSome

namespace FatVolume

def entries (v : FatVolume) : List (List UInt8) :=
  (List.range v.shape.rootSectors).flatMap fun i =>
    ((v.sector (v.shape.rootLba + i)).map dirEntries).getD []

def file (v : FatVolume) : Option (List UInt8) := liveEntry (fatName namedFile) v.entries

/-- The report the volume should give. -/
def expected (v : FatVolume) : DiskReport :=
  match v.file with
  | none => .missing
  | some entry => sectorReport v.sector (v.shape.clusterSector (entryCluster entry))
    (min 256 (entrySize entry))

/-- The bytes of the file are those of the sector that is as many sectors into the data as the
cluster is clusters. -/
def Agrees (v : FatVolume) : Prop :=
  ∀ entry, v.file = some entry →
    sectorReport v.sector (v.shape.dataLba + (entryCluster entry - 2)) (min 256 (entrySize entry)) =
      sectorReport v.sector (v.shape.clusterSector (entryCluster entry)) (min 256 (entrySize entry))

end FatVolume

/-- The sectors behind a first one. -/
def view (disk : Disk) (start : Nat) : Disk := fun lba =>
  if start + lba < 2 ^ 64 then disk (start + lba) else none

/-- The search goes on behind the volume. -/
def Quiet (disk : Disk) (start : Nat) : Prop :=
  ∃ r, (loadVolume start (readDisk disk)).Gives r ∧ r ≠ .admin ∧ ∀ buf len, r ≠ .bytes buf len

/-- The entry of a partition table. -/
def partitionEntry (disk : Disk) (entryLba index : Nat) : Option (List UInt8) :=
  (view disk entryLba (index / 4)).map fun sector =>
    (sector.bytes.take (index % 4 * 128 + 128)).drop (index % 4 * 128)

/-- The first sector of a partition that is in use. -/
def partitionStart (entry : List UInt8) : Option Nat :=
  if entry.take 16 = List.replicate 16 0 ∨ leValue ((entry.take 40).drop 32) = 0 then none
  else some (leValue ((entry.take 40).drop 32))

/-- The search goes on behind the entry. -/
def EntryQuiet (disk : Disk) (entryLba index : Nat) : Prop :=
  ∃ entry, partitionEntry disk entryLba index = some entry ∧ ∀ start ∈ partitionStart entry,
    Quiet disk start

/-- A disk with a partition table behind a protective master boot record, the volume in one of its
partitions. No partition before it has the file, and none behind it if the volume has not. -/
structure GptDisk (disk : Disk) (v : FatVolume) where
  start : Nat
  sector : v.sector = view disk start
  mbr : ∃ b, disk 0 = some b ∧ isNtfs b = false ∧ isFat b = false ∧ isProtectiveMbr b = true
  entryLba : Nat
  count : Nat
  header : ∃ h, disk 1 = some h ∧ gptEntries h = some (entryLba, count)
  index : Nat
  inside : index < count
  entry : (partitionEntry disk entryLba index).bind partitionStart = some start
  others : ∀ i < count, i < index ∨ index < i ∧ v.file = none → EntryQuiet disk entryLba i

/-- The volume is the whole disk or a partition. -/
def OnDisk (disk : Disk) (v : FatVolume) : Prop := v.sector = disk ∨ Nonempty (GptDisk disk v)

/-! ### Reading -/

/-- The reader reads a disk. -/
def Reads (read : Reader) (disk : Disk) : Prop := ∀ lba, (read lba).Gives (disk lba)

theorem reads_disk (disk : Disk) : Reads (readDisk disk) disk := fun _ => (gives_tick).mpr rfl

theorem reads_partition {read : Reader} {disk : Disk} (h : Reads read disk) (start : Nat) :
    Reads (partition start read) (view disk start) := by
  intro lba
  unfold partition view
  split
  · exact h _
  · exact (gives_pure).mpr rfl

section fat

variable {read : Reader} {disk : Disk} {want : List UInt8} {g : FatShape} {boot : Sector}

theorem filled_inj {a b : List UInt8} (h : filled a = filled b) : a = b := by
  unfold filled at h
  simp only [DiskReport.bytes.injEq] at h
  obtain ⟨hbuf, hlen⟩ := h
  have htake := congrArg (List.take a.length) hbuf
  rwa [List.take_left, hlen, List.take_left] at htake

theorem field_lt (s : Sector) (i n : Nat) (h : i + n ≤ 512) : s.field i (i + n) < 256 ^ n := by
  have hlen : ((s.bytes.take (i + n)).drop i).length = n := by
    rw [List.length_drop, List.length_take, s.size]
    omega
  have := leValue_lt ((s.bytes.take (i + n)).drop i)
  rwa [hlen] at this

theorem FatShape.Describes.bounds (h : g.Describes boot) :
    g.reserved < 65536 ∧ g.fats < 256 ∧ g.rootEntries < 65536 ∧ g.fatSectors < 65536 := by
  have hreserved := field_lt boot 14 2 (by omega)
  have hroot := field_lt boot 17 2 (by omega)
  have htable := field_lt boot 22 2 (by omega)
  have hfats := (boot.byte 16).toNat_lt
  rw [h.reserved] at hreserved
  rw [h.rootEntries] at hroot
  rw [h.fatSectors] at htable
  rw [h.fats] at hfats
  exact ⟨hreserved, hfats, hroot, htable⟩

theorem FatShape.Describes.dataLba_lt (h : g.Describes boot) : g.dataLba < 2 ^ 32 := by
  obtain ⟨hreserved, hfats, hroot, htable⟩ := h.bounds
  have htables : g.fats * g.fatSectors ≤ 255 * 65535 := Nat.mul_le_mul (by omega) (by omega)
  unfold FatShape.dataLba FatShape.rootLba FatShape.rootSectors
  omega

/-- The entries of a sector up to the first that ends the search. -/
def scanEntries (want : List UInt8) : List (List UInt8) → SlotScan
  | [] => .more
  | entry :: entries =>
    if entry.getD 0 0 = 0x00 then .ends
    else if Named want entry then .found (entryCluster entry) (entrySize entry)
    else scanEntries want entries

theorem scanSlots_gives (dir : Sector) (slots : List Nat) (h : ∀ slot ∈ slots, slot < 16) :
    (scanSlots dir.bytes want slots).Gives
      (scanEntries want (slots.map fun slot => (dir.bytes.take (slot * 32 + 32)).drop (slot * 32))) := by
  induction slots with
  | nil => exact (gives_pure).mpr rfl
  | cons slot slots ih =>
    rw [List.forall_mem_cons] at h
    have hin : slot * 32 ≤ slot * 32 + 32 ∧ slot * 32 + 32 ≤ dir.bytes.length := by
      rw [dir.size]
      omega
    have hrest := ih h.2
    rw [scanSlots, (gives_slice hin).bind_iff, List.map_cons, scanEntries]
    generalize (dir.bytes.take (slot * 32 + 32)).drop (slot * 32) = entry
    by_cases hend : entry.getD 0 0 = 0x00
    · rw [if_pos hend, if_pos hend]
      exact (gives_pure).mpr rfl
    · rw [if_neg hend, if_neg hend]
      by_cases hskip : entry.getD 0 0 = 0xe5 ∨ entry.getD 11 0 = 0x0f
      · have hnot : ¬Named want entry := fun hn => hskip.elim hn.1 hn.2.1
        rw [if_pos hskip, if_neg hnot]
        exact hrest
      · rw [not_or] at hskip
        rw [if_neg (by tauto)]
        by_cases hname : entry.take 11 = want
        · rw [if_pos hname, if_pos ⟨hskip.1, hskip.2, hname⟩]
          exact (gives_pure).mpr rfl
        · rw [if_neg hname, if_neg fun hn => hname hn.2.2]
          exact hrest

/-- What is found in a sector is what is found in the directory, or the search goes on behind it. -/
theorem liveEntry_append (want : List UInt8) (entries rest : List (List UInt8)) :
    match scanEntries want entries with
    | .ends => liveEntry want (entries ++ rest) = none
    | .found cluster size =>
      ∃ entry, liveEntry want (entries ++ rest) = some entry ∧ entryCluster entry = cluster ∧
        entrySize entry = size
    | .more => liveEntry want (entries ++ rest) = liveEntry want rest := by
  induction entries with
  | nil => rfl
  | cons entry entries ih =>
    rw [scanEntries, List.cons_append]
    by_cases hend : entry.getD 0 0 = 0x00
    · rw [if_pos hend]
      simp [liveEntry, -List.getD_eq_getElem?_getD, hend]
    · have hcons : liveEntry want (entry :: (entries ++ rest)) =
          if Named want entry then some entry else liveEntry want (entries ++ rest) := by
        unfold liveEntry
        rw [List.takeWhile_cons_of_pos (by simpa using hend), List.find?_cons]
        by_cases hname : Named want entry
        · simp [hname]
        · simp [hname]
      rw [if_neg hend, hcons]
      by_cases hname : Named want entry
      · rw [if_pos hname, if_pos hname]
        exact ⟨entry, rfl, rfl, rfl⟩
      · rw [if_neg hname, if_neg hname]
        exact ih

theorem entryCluster_lt (entry : List UInt8) : entryCluster entry < 65536 := by
  have hlt := leValue_lt ((entry.take 28).drop 26)
  have hlen : ((entry.take 28).drop 26).length ≤ 2 := by
    rw [List.length_drop, List.length_take]
    omega
  have hpow := Nat.pow_le_pow_right (by omega : 0 < 256) hlen
  exact Nat.lt_of_lt_of_le hlt hpow

theorem scanEntries_cluster {entries : List (List UInt8)} {cluster size : Nat}
    (h : scanEntries want entries = .found cluster size) : cluster < 65536 := by
  have hlive := liveEntry_append want entries []
  rw [h] at hlive
  obtain ⟨entry, -, rfl, -⟩ := hlive
  exact entryCluster_lt entry

theorem readBytes_gives (h : Reads read disk) (lba n : Nat) (hn : n ≤ 256) :
    (readBytes read lba n).Gives (sectorReport disk lba n) := by
  unfold readBytes sectorReport
  by_cases hz : n = 0
  · rw [if_pos hz, if_pos hz]
    exact (gives_pure).mpr rfl
  · rw [if_neg hz, if_neg hz, (h lba).bind_iff]
    cases disk lba with
    | none => exact (gives_pure).mpr rfl
    | some sector =>
      have hmin : min (min n 256) sector.bytes.length = n := by
        rw [sector.size]
        omega
      dsimp only
      rw [hmin]
      exact (gives_pure).mpr rfl

/-- What the loader reports of a root directory. -/
def fatReport (disk : Disk) (g : FatShape) (file : Option (List UInt8)) : DiskReport :=
  match file with
  | none => .missing
  | some entry => sectorReport disk (g.dataLba + (entryCluster entry - 2)) (min 256 (entrySize entry))

theorem scanRoot_gives (h : Reads read disk) (hg : g.dataLba < 2 ^ 32) (n sector : Nat)
    (hn : sector + n = g.rootSectors)
    (hroot : ∀ i < g.rootSectors, (disk (g.rootLba + i)).isSome) :
    (scanRoot read want g.rootLba g.rootSectors n sector).Gives (fatReport disk g (liveEntry want
      ((List.range' sector n).flatMap fun i => ((disk (g.rootLba + i)).map dirEntries).getD []))) := by
  have hdata : g.dataLba = g.rootLba + g.rootSectors := rfl
  induction n generalizing sector with
  | zero => exact (gives_pure).mpr rfl
  | succ n ih =>
    have hlba : (add64 g.rootLba sector).Gives (g.rootLba + sector) := (gives_add64).mpr ⟨by omega, rfl⟩
    obtain ⟨dir, hdir⟩ := Option.isSome_iff_exists.mp (hroot sector (by omega))
    have hlive := liveEntry_append want (dirEntries dir)
      ((List.range' (sector + 1) n).flatMap fun i => ((disk (g.rootLba + i)).map dirEntries).getD [])
    have hscan := @scanSlots_gives want dir (List.range 16) (by simp)
    rw [scanRoot, hlba.bind_iff, (h _).bind_iff, hdir]
    dsimp only
    rw [hscan.bind_iff, List.range'_succ, List.flatMap_cons, hdir]
    rw [Option.map_some, Option.getD_some]
    rw [show (List.range 16).map (fun slot => (dir.bytes.take (slot * 32 + 32)).drop (slot * 32)) =
      dirEntries dir from rfl]
    cases hsc : scanEntries want (dirEntries dir) with
    | ends =>
      rw [hsc] at hlive
      dsimp only at hlive ⊢
      rw [hlive]
      exact (gives_pure).mpr rfl
    | found cluster size =>
      rw [hsc] at hlive
      dsimp only at hlive ⊢
      obtain ⟨entry, hentry, rfl, rfl⟩ := hlive
      have hcluster := scanEntries_cluster hsc
      have hstart : (add64 g.rootLba g.rootSectors).Gives g.dataLba := (gives_add64).mpr ⟨by omega, rfl⟩
      have hsum : (add64 g.dataLba (entryCluster entry - 2)).Gives (g.dataLba + (entryCluster entry - 2)) :=
        (gives_add64).mpr ⟨by omega, rfl⟩
      rw [hentry, hstart.bind_iff, hsum.bind_iff, Nat.min_comm]
      exact readBytes_gives h _ _ (Nat.min_le_left _ _)
    | more =>
      rw [hsc] at hlive
      dsimp only at hlive ⊢
      rw [hlive]
      exact ih (sector + 1) (by omega)

/-- What the loader reports of a volume. -/
theorem loadFat_gives (h : Reads read disk) (hboot : g.Describes boot)
    (hroot : ∀ i < g.rootSectors, (disk (g.rootLba + i)).isSome) :
    (loadFat boot read).Gives (fatReport disk g (liveEntry (fatName namedFile)
      ((List.range g.rootSectors).flatMap fun i => ((disk (g.rootLba + i)).map dirEntries).getD []))) := by
  obtain ⟨hreserved, hfats, hentries, htable⟩ := hboot.bounds
  have hdata := hboot.dataLba_lt
  have htables : g.fats * g.fatSectors ≤ 255 * 65535 := Nat.mul_le_mul (by omega) (by omega)
  have hsize : g.rootEntries * 32 / 512 = g.rootSectors := by
    unfold FatShape.rootSectors
    omega
  have hmul : (mul64 g.fats g.fatSectors).Gives (g.fats * g.fatSectors) := (gives_mul64).mpr ⟨by omega, rfl⟩
  have hlba : (add64 g.reserved (g.fats * g.fatSectors)).Gives g.rootLba :=
    (gives_add64).mpr ⟨by omega, rfl⟩
  have hbytes : (mul64 g.rootEntries 32).Gives (g.rootEntries * 32) := (gives_mul64).mpr ⟨by omega, rfl⟩
  have hpos : ¬(g.fats = 0 ∨ g.rootEntries = 0 ∨ g.fatSectors = 0) := by
    have := g.fats_pos
    have := g.rootEntries_pos
    have := g.fatSectors_pos
    omega
  unfold loadFat
  dsimp only
  rw [hboot.fats, hboot.rootEntries, hboot.fatSectors, hboot.reserved, if_neg hpos, hmul.bind_iff,
    hlba.bind_iff,
    hbytes.bind_iff, hsize, List.range_eq_range']
  exact scanRoot_gives h hdata _ 0 (by omega) hroot

end fat

/-! ### Disks -/

section disks

variable {disk : Disk} {v w : FatVolume} {start : Nat}

/-- What the loader reports of a volume. -/
def FatVolume.report (v : FatVolume) : DiskReport := fatReport v.sector v.shape v.file

theorem FatVolume.report_cases (v : FatVolume) :
    v.file = none ∧ v.report = .missing ∨ (∃ buf len, v.report = .bytes buf len) ∨ v.report = .admin := by
  unfold FatVolume.report fatReport sectorReport
  split
  · next h => exact .inl ⟨h, rfl⟩
  · split
    · exact .inr (.inl ⟨_, _, rfl⟩)
    · split
      · exact .inr (.inr rfl)
      · exact .inr (.inl ⟨_, _, rfl⟩)

theorem loadVolume_gives (hv : v.sector = view disk start) (hstart : start < 2 ^ 64) :
    (loadVolume start (readDisk disk)).Gives v.report := by
  obtain ⟨boot, hboot, hshape⟩ := v.boot
  have hread : disk start = some boot := by
    rw [hv, view, Nat.add_zero, if_pos hstart] at hboot
    exact hboot
  have hreads := reads_partition (reads_disk disk) start
  rw [← hv] at hreads
  rw [loadVolume, (reads_disk disk start).bind_iff, hread]
  dsimp only
  rw [hshape.ntfs, hshape.fat]
  exact loadFat_gives hreads hshape v.root

theorem partitionStart_lt {entry : List UInt8} (h : partitionStart entry = some start) :
    start < 2 ^ 64 := by
  unfold partitionStart at h
  split at h
  · cases h
  · cases h
    have hlt := leValue_lt ((entry.take 40).drop 32)
    have hlen : ((entry.take 40).drop 32).length ≤ 8 := by
      rw [List.length_drop, List.length_take]
      omega
    exact Nat.lt_of_lt_of_le hlt (Nat.pow_le_pow_right (by omega) hlen)

theorem readGptEntry_gives {entryLba index : Nat} {entry : List UInt8}
    (h : partitionEntry disk entryLba index = some entry) :
    (readGptEntry (readDisk disk) entryLba index).Gives (some entry) := by
  unfold partitionEntry view at h
  obtain ⟨sector, hsector, rfl⟩ := Option.map_eq_some_iff.mp h
  unfold readGptEntry
  split at hsector
  · next hlt =>
    have hin : index % 4 * 128 ≤ index % 4 * 128 + 128 ∧ index % 4 * 128 + 128 ≤ sector.bytes.length := by
      rw [sector.size]
      omega
    rw [if_pos hlt, (reads_disk disk _).bind_iff, hsector]
    dsimp only
    rw [(gives_slice hin).bind_iff, gives_pure]
  · cases hsector

/-- What the search does with the report of a partition. -/
def afterVolume (rest : Bool → Check DiskReport) (sawFs : Bool) : DiskReport → Check DiskReport
  | .bytes buf len => pure (.bytes buf len)
  | .missing => rest true
  | .admin => pure .admin
  | _ => rest sawFs

theorem afterVolume_quiet {rest : Bool → Check DiskReport} {sawFs : Bool} {r : DiskReport}
    (hadmin : r ≠ .admin)
    (hbytes : ∀ buf len, r ≠ .bytes buf len) :
    afterVolume rest sawFs r = rest (if r = .missing then true else sawFs) := by
  cases r with
  | bytes buf len => exact absurd rfl (hbytes buf len)
  | admin => exact absurd rfl hadmin
  | missing => rfl
  | absent => rfl
  | regs => rfl
  | enable => rfl
  | raw => rfl

/-- A step of the search through the partitions. -/
theorem loadPartitions_step {entryLba n index : Nat} {sawFs : Bool} {entry : List UInt8}
    (h : partitionEntry disk entryLba index = some entry) (r : DiskReport) :
    (loadPartitions (readDisk disk) entryLba (n + 1) index sawFs).Gives r ↔
      match partitionStart entry with
      | none => (loadPartitions (readDisk disk) entryLba n (index + 1) sawFs).Gives r
      | some start => (loadVolume start (readDisk disk) >>=
          afterVolume (loadPartitions (readDisk disk) entryLba n (index + 1)) sawFs).Gives r := by
  rw [loadPartitions, (readGptEntry_gives h).bind_iff]
  dsimp only
  unfold partitionStart
  split
  · rfl
  · dsimp only
    rw [gives_bind, gives_bind]
    apply exists_congr
    intro found
    cases found <;> rfl

/-- The table is searched to its end behind a volume without the file. -/
theorem loadPartitions_quiet {entryLba : Nat} (n index : Nat)
    (h : ∀ i, index ≤ i → i < index + n → EntryQuiet disk entryLba i) :
    (loadPartitions (readDisk disk) entryLba n index true).Gives .missing := by
  induction n generalizing index with
  | zero => exact (gives_pure).mpr rfl
  | succ n ih =>
    obtain ⟨entry, hentry, hquiet⟩ := h index le_rfl (by omega)
    have hrest := ih (index + 1) fun i hi hi' => h i (by omega) (by omega)
    rw [loadPartitions_step hentry]
    cases hstart : partitionStart entry with
    | none => exact hrest
    | some s =>
      obtain ⟨r, hr, hadmin, hbytes⟩ := hquiet s hstart
      dsimp only
      rw [hr.bind_iff, afterVolume_quiet hadmin hbytes, ite_self]
      exact hrest

theorem loadPartitions_found {entryLba : Nat} {sawFs : Bool} (hv : v.sector = view disk start)
    (n index at_ : Nat) (hat : index ≤ at_ ∧ at_ < index + n)
    (hentry : (partitionEntry disk entryLba at_).bind partitionStart = some start)
    (h : ∀ i, index ≤ i → i < index + n → i < at_ ∨ at_ < i ∧ v.file = none → EntryQuiet disk entryLba i) :
    (loadPartitions (readDisk disk) entryLba n index sawFs).Gives v.report := by
  induction n generalizing index sawFs with
  | zero => omega
  | succ n ih =>
    by_cases hi : index = at_
    · subst hi
      obtain ⟨entry, he, hstart⟩ := Option.bind_eq_some_iff.mp hentry
      have hvolume := loadVolume_gives hv (partitionStart_lt hstart)
      rw [loadPartitions_step he, hstart]
      dsimp only
      rw [hvolume.bind_iff]
      rcases v.report_cases with ⟨hnone, hmissing⟩ | ⟨buf, len, hbytes⟩ | hadmin
      · rw [hmissing]
        exact loadPartitions_quiet n (index + 1) fun i hi hi' => h i (by omega) (by omega)
          (.inr ⟨hi, hnone⟩)
      · rw [hbytes]
        exact (gives_pure).mpr rfl
      · rw [hadmin]
        exact (gives_pure).mpr rfl
    · obtain ⟨entry, hother, hquiet⟩ := h index le_rfl (by omega) (.inl (by omega))
      have hrest : ∀ saw, (loadPartitions (readDisk disk) entryLba n
        (index + 1) saw).Gives v.report := fun saw =>
        ih (index + 1) (by omega) fun i hi hi' => h i (by omega) (by omega)
      rw [loadPartitions_step hother]
      cases hstart : partitionStart entry with
      | none => exact hrest sawFs
      | some s =>
        obtain ⟨r, hr, hadmin, hbytes⟩ := hquiet s hstart
        dsimp only
        rw [hr.bind_iff, afterVolume_quiet hadmin hbytes]
        exact hrest _

/-- What the loader reports of a disk. -/
theorem loadNamed_gives (h : OnDisk disk v) : (loadNamed (readDisk disk)).Gives v.report := by
  rcases h with hv | hd
  · obtain ⟨boot, hboot, hshape⟩ := v.boot
    have hreads := reads_disk disk
    rw [← hv] at hreads
    rw [loadNamed, (reads_disk disk 0).bind_iff, ← hv, hboot]
    dsimp only
    rw [hshape.ntfs, hshape.fat]
    exact loadFat_gives hreads hshape v.root
  · obtain ⟨hd⟩ := hd
    obtain ⟨boot, hboot, hntfs, hfat, hmbr⟩ := hd.mbr
    obtain ⟨header, hheader, hentries⟩ := hd.header
    rw [loadNamed, (reads_disk disk 0).bind_iff, hboot]
    dsimp only
    rw [hntfs, hfat, hmbr, if_neg Bool.false_ne_true, if_neg Bool.false_ne_true, if_pos rfl, loadGpt,
      (reads_disk disk 1).bind_iff, hheader]
    dsimp only
    rw [hentries]
    have hinside := hd.inside
    exact loadPartitions_found hd.sector hd.count 0 hd.index ⟨Nat.zero_le _, by omega⟩ hd.entry
      fun i _ hi hbefore =>
      hd.others i (by omega) hbefore

/-- The geometry, the root directory and the first sector of the file are those of the other volume. -/
structure SameFile (v w : FatVolume) : Prop where
  shape : v.shape = w.shape
  root : ∀ i < v.shape.rootSectors, v.sector (v.shape.rootLba + i) = w.sector (w.shape.rootLba + i)
  data : ∀ entry, v.file = some entry →
    ∀ i < v.shape.spc, v.sector (v.shape.clusterSector (entryCluster entry) + i) =
      w.sector (w.shape.clusterSector (entryCluster entry) + i)

theorem FatShape.spc_pos (g : FatShape) : 0 < g.spc := by
  have := g.spc_pow
  simp only [List.mem_cons, List.not_mem_nil, or_false] at this
  omega

theorem SameFile.expected (h : SameFile v w) : v.expected = w.expected := by
  have hfile : v.file = w.file := by
    unfold FatVolume.file FatVolume.entries
    congr 1
    rw [← h.shape]
    apply List.flatMap_congr
    intro i hi
    rw [h.root i (List.mem_range.mp hi), ← h.shape]
  unfold FatVolume.expected
  rw [hfile]
  cases hw : w.file with
  | none => rfl
  | some entry =>
    have hdata := h.data entry (hfile.trans hw) 0 v.shape.spc_pos
    rw [Nat.add_zero, Nat.add_zero] at hdata
    dsimp only
    unfold sectorReport
    rw [hdata]

theorem FatVolume.report_eq_expected (v : FatVolume) : v.report = v.expected ↔ v.Agrees := by
  unfold FatVolume.report FatVolume.expected FatVolume.Agrees fatReport
  cases v.file with
  | none => simp
  | some entry => simp

/-- The loader gives the file exactly if the sector it reads has the bytes of the file's first
sector. Where it gives the file of one volume, a volume that agrees on the geometry, the root
directory and the first cluster of the file has the same report exactly if the loader gives its file
too. -/
theorem loadNamed_fat {disk disk' : Disk} (v w : FatVolume) (hv : OnDisk disk v) (hw : OnDisk disk' w) :
    ((loadNamed (readDisk disk)).Gives v.expected ↔ v.Agrees) ∧
      (SameFile v w → v.Agrees →
        ((∀ r, (loadNamed (readDisk disk)).Gives r ↔ (loadNamed (readDisk disk')).Gives r) ↔
          w.Agrees)) := by
  have hgives := loadNamed_gives hv
  have hgives' := loadNamed_gives hw
  refine ⟨?_, fun hsame hagrees => ?_⟩
  · rw [← v.report_eq_expected]
    constructor
    · exact fun h => hgives.unique h
    · intro heq
      rwa [heq] at hgives
  · have hreport : v.report = w.expected := by rw [v.report_eq_expected.mpr hagrees, hsame.expected]
    rw [← w.report_eq_expected]
    constructor
    · intro h
      rw [← hreport]
      exact hgives'.unique ((h _).mp hgives)
    · intro heq r
      have hsame_report : v.report = w.report := hreport.trans heq.symm
      constructor
      · intro hr
        rwa [← hgives.unique hr, hsame_report]
      · intro hr
        rwa [← hgives'.unique hr, ← hsame_report]

/-- A sector of zeros but for some bytes. -/
def patched (fields : List (Nat × UInt8)) : Sector :=
  ⟨(List.range 512).map fun i => (fields.lookup i).getD 0, by rw [List.length_map, List.length_range]⟩

def sampleBoot : Sector := patched [(12, 2), (13, 2), (14, 1), (16, 1), (17, 16), (22, 1),
    (510, 0x55), (511, 0xaa)]

/-- One table sector, one root sector with the file in the given cluster, two sectors per cluster,
and the byte `A` in the sector with the number 5. -/
def sampleDisk (cluster : UInt8) : Disk := fun lba =>
  some <| match lba with
    | 0 => sampleBoot
    | 2 => patched ((List.range 11).zip (fatName namedFile) ++ [(26, cluster), (28, 1)])
    | 5 => patched [(0, 0x41)]
    | _ => patched []

def sampleShape : FatShape :=
  ⟨1, 1, 1, 16, 2, Nat.one_pos, Nat.one_pos, by decide, rfl, by decide⟩

def sampleVolume (cluster : UInt8) : FatVolume where
  shape := sampleShape
  sector := sampleDisk cluster
  boot := ⟨sampleBoot, rfl, by constructor <;> decide +kernel⟩
  root := fun _ _ => rfl

theorem loadNamed_fat_sample :
    ((loadNamed (readDisk (sampleDisk 2))).Gives (sampleVolume 2).expected ↔ (sampleVolume 2).Agrees) ∧
      (SameFile (sampleVolume 2) (sampleVolume 2) → (sampleVolume 2).Agrees →
        ((∀ r, (loadNamed (readDisk (sampleDisk 2))).Gives r ↔
          (loadNamed (readDisk (sampleDisk 2))).Gives r) ↔
          (sampleVolume 2).Agrees)) :=
  loadNamed_fat (sampleVolume 2) (sampleVolume 2) (.inl rfl) (.inl rfl)

/-- The third cluster begins at sector 5, and sector 4 is read. -/
theorem thirdCluster_missed :
    OnDisk (sampleDisk 3) (sampleVolume 3) ∧ (sampleVolume 3).expected = filled [0x41] ∧
      (loadNamed (readDisk (sampleDisk 3))).Gives (filled [0]) ∧
      ¬(loadNamed (readDisk (sampleDisk 3))).Gives (sampleVolume 3).expected := by
  have hdisk : OnDisk (sampleDisk 3) (sampleVolume 3) := .inl rfl
  have hexpected : (sampleVolume 3).expected = filled [0x41] := by decide +kernel
  have hreport : (sampleVolume 3).report = filled [0] := by decide +kernel
  have hgives := loadNamed_gives hdisk
  rw [hreport] at hgives
  refine ⟨hdisk, hexpected, hgives, fun h => ?_⟩
  rw [hexpected] at h
  exact absurd (filled_inj (hgives.unique h)) (by decide)

/-- One sector per cluster, the first cluster, or an empty file. -/
theorem FatVolume.agrees_of (v : FatVolume)
    (h : ∀ entry, v.file = some entry →
      v.shape.spc = 1 ∨ entryCluster entry ≤ 2 ∨ entrySize entry = 0) : v.Agrees := by
  intro entry hentry
  unfold FatShape.clusterSector
  rcases h entry hentry with hspc | hcluster | hsize
  · rw [hspc, Nat.mul_one]
  · have hz : entryCluster entry - 2 = 0 := by omega
    rw [hz, Nat.zero_mul]
  · rw [hsize]
    rfl

end disks

end Lerux.Swift

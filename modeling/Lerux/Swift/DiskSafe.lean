import Lerux.Swift.Attributes
import Lerux.Swift.FatFile

/-!
# The disks that crash the loader

FAT volumes and partition tables are read in range, whatever they hold (`loadFat_runs`). An NTFS
volume crashes the loader where its record size is a shift by 64 or more, where the sector of a
record it comes to has no 64-bit number, and where the record is not safe (`NtfsSafe`). A run that
ends has read 128 partitions at most.
-/

namespace Lerux.Swift

open Check

/-! ### Safe volumes -/

/-- The size of a record: a number of clusters, or a power of two. -/
def recordBytes (encoded : UInt8) (spc : Nat) : Nat :=
  if 0 < encoded.toBitVec.toInt then encoded.toBitVec.toInt.toNat * spc * 512
  else 2 ^ encoded.toBitVec.toInt.natAbs

/-- The bytes of some sectors, if all of them are read. -/
def sectorsAt (vol : Disk) (lba i n : Nat) : Option (List UInt8) :=
  ((List.range' i n).mapM fun s => vol (lba + s)).map fun sectors => sectors.flatMap Sector.bytes

namespace NtfsShape

def recordLba (g : NtfsShape) (k : Nat) : Nat := g.mftLcn * g.spc + k * (g.record / 512)

/-- The bytes of a record, if its sectors are read. -/
def recordAt (g : NtfsShape) (vol : Disk) (k : Nat) : Option (List UInt8) :=
  (sectorsAt vol (g.recordLba k) 0 (g.record / 512)).map fun raw =>
    (raw ++ List.replicate (4096 - raw.length) 0).take g.record

/-- The sectors of the record, up to the first that is not read, have 64-bit numbers. -/
def Fits (g : NtfsShape) (vol : Disk) (k : Nat) : Prop :=
  g.recordLba k < 2 ^ 64 ∧
    Stepwise (fun s => (vol (g.recordLba k + s)).isSome) (fun s => g.recordLba k + s < 2 ^ 64) 0
      (g.record / 512)

/-- The record is read and holds no such file. -/
def Passes (g : NtfsShape) (vol : Disk) (k : Nat) : Prop :=
  ∃ raw, g.recordAt vol k = some raw ∧ (fileInRecord raw (utf16 namedFile)).Gives none

structure Safe (g : NtfsShape) (vol : Disk) (k : Nat) : Prop where
  fits : g.Fits vol k
  record : ∀ raw, g.recordAt vol k = some raw → RecordSafe raw

end NtfsShape

def ntfsShape (boot : Sector) : NtfsShape where
  mftLcn := boot.field 0x30 0x38
  spc := (boot.byte 0x0d).toNat
  record := recordBytes (boot.byte 0x40) (boot.byte 0x0d).toNat

/-- The records up to the file's are safe. -/
structure NtfsSafe (boot : Sector) (vol : Disk) : Prop where
  shift : boot.field 0x0b 0x0d = 512 → boot.byte 0x0d ≠ 0 →
    0 < (boot.byte 0x40).toBitVec.toInt ∨ (boot.byte 0x40).toBitVec.toInt.natAbs < 64
  records : boot.field 0x0b 0x0d = 512 → boot.byte 0x0d ≠ 0 → 0 < (ntfsShape boot).record →
    (ntfsShape boot).record ≤ 4096 →
    Stepwise ((ntfsShape boot).Passes vol) ((ntfsShape boot).Safe vol) 0 64

def VolumeSafe (disk : Disk) (start : Nat) : Prop :=
  ∀ boot, disk start = some boot → isNtfs boot = true → NtfsSafe boot (view disk start)

def EntrySafe (disk : Disk) (entryLba index : Nat) : Prop :=
  ∀ entry, partitionEntry disk entryLba index = some entry → ∀ start ∈ partitionStart entry,
    VolumeSafe disk start

/-- The NTFS volumes that the loader comes to are safe. -/
structure DiskSafe (disk : Disk) : Prop where
  whole : ∀ boot, disk 0 = some boot → isNtfs boot = true → NtfsSafe boot disk
  partitions : ∀ boot header entryLba count, disk 0 = some boot → isNtfs boot = false → isFat boot = false →
    isProtectiveMbr boot = true → disk 1 = some header → gptEntries header = some (entryLba, count) →
    Stepwise (EntryQuiet disk entryLba) (EntrySafe disk entryLba) 0 count

section safe

variable {read : Reader} {vol : Disk}

theorem sectorsAt_succ (vol : Disk) (lba i n : Nat) :
    sectorsAt vol lba i (n + 1) =
      (vol (lba + i)).bind fun sector => (sectorsAt vol lba (i + 1) n).map fun raw =>
        sector.bytes ++ raw := by
  unfold sectorsAt
  rw [List.range'_succ, List.mapM_cons]
  cases vol (lba + i) with
  | none => rfl
  | some sector =>
    cases (List.range' (i + 1) n).mapM fun s => vol (lba + s) with
    | none => rfl
    | some sectors => rfl

theorem readRecord_gives (h : Reads read vol) (lba n s : Nat) (raw : List UInt8) (r : Option (List UInt8)) :
    (readRecord read lba n s raw).Gives r ↔
      Stepwise (fun s => (vol (lba + s)).isSome) (fun s => lba + s < 2 ^ 64) s n ∧
        r = (sectorsAt vol lba s n).map (raw ++ ·) := by
  induction n generalizing s raw with
  | zero =>
    rw [readRecord, gives_pure]
    have hempty : (sectorsAt vol lba s 0).map (raw ++ ·) = some raw := by
      rw [sectorsAt]
      simp
    rw [hempty]
    exact ⟨fun heq => ⟨stepwise_zero, heq.symm⟩, fun heq => heq.2.symm⟩
  | succ n ih =>
    rw [readRecord, stepwise_succ, sectorsAt_succ]
    by_cases hlba : lba + s < 2 ^ 64
    · rw [((gives_add64).mpr ⟨hlba, rfl⟩).bind_iff, (h _).bind_iff]
      cases hsector : vol (lba + s) with
      | none =>
        dsimp only
        rw [gives_pure]
        exact ⟨fun heq => ⟨⟨hlba, fun hs => absurd hs (by simp)⟩, heq.symm⟩, fun heq => heq.2.symm⟩
      | some sector =>
        have hmap : (((some sector).bind fun sector => (sectorsAt vol lba (s + 1) n).map fun raw =>
          sector.bytes ++ raw).map
            (raw ++ ·)) = (sectorsAt vol lba (s + 1) n).map (raw ++ sector.bytes ++ ·) := by
          cases sectorsAt vol lba (s + 1) n with
          | none => rfl
          | some rest => simp
        dsimp only
        rw [ih, hmap]
        exact ⟨fun heq => ⟨⟨hlba, fun _ => heq.1⟩, heq.2⟩, fun heq => ⟨heq.1.2 rfl, heq.2⟩⟩
    · constructor
      · intro h
        obtain ⟨_, hadd, -⟩ := (gives_bind).mp h
        exact absurd ((gives_add64).mp hadd).1 hlba
      · exact fun h => absurd h.1.1 hlba

/-- A record step of the loader. -/
theorem loadRecords_runs (h : Reads read vol) (g : NtfsShape) (n k : Nat) :
    (loadRecords read g n k).Runs ↔ Stepwise (g.Passes vol) (g.Safe vol) k n := by
  induction n generalizing k with
  | zero => exact iff_of_true runs_pure stepwise_zero
  | succ n ih =>
    rw [loadRecords, stepwise_succ]
    by_cases hfits : g.Fits vol k
    · have hlba := hfits.1
      have hsum : g.mftLcn * g.spc + k * (g.record / 512) < 2 ^ 64 := hlba
      have hread : (readRecord read (g.mftLcn * g.spc + k * (g.record / 512)) (g.record / 512) 0 []).Gives
          ((sectorsAt vol (g.recordLba k) 0 (g.record / 512)).map ([] ++ ·)) :=
        (readRecord_gives h (g.recordLba k) _ 0 [] _).mpr ⟨hfits.2, rfl⟩
      rw [((gives_mul64).mpr ⟨by omega, rfl⟩).runs_bind_iff,
        ((gives_mul64).mpr ⟨by omega, rfl⟩).runs_bind_iff,
        ((gives_add64).mpr ⟨hsum, rfl⟩).runs_bind_iff, hread.runs_bind_iff]
      cases hsectors : sectorsAt vol (g.recordLba k) 0 (g.record / 512) with
      | none =>
        have hnone : g.recordAt vol k = none := by
          rw [NtfsShape.recordAt, hsectors]
          rfl
        refine iff_of_true runs_pure ⟨⟨hfits, fun raw hraw => ?_⟩, fun hpass => ?_⟩
        · rw [hnone] at hraw
          cases hraw
        · obtain ⟨raw, hraw, -⟩ := hpass
          rw [hnone] at hraw
          cases hraw
      | some sectors =>
        have hsome : g.recordAt vol k = some
          ((sectors ++ List.replicate (4096 - sectors.length) 0).take g.record) := by
          rw [NtfsShape.recordAt, hsectors]
          rfl
        rw [Option.map_some, List.nil_append]
        dsimp only
        generalize (sectors ++ List.replicate (4096 - sectors.length) 0).take g.record = raw at hsome
        have hsafe : g.Safe vol k ↔ (fileInRecord raw (utf16 namedFile)).Runs := by
          rw [fileInRecord_runs]
          constructor
          · exact fun hsafe => hsafe.record raw hsome
          · intro hrecord
            refine ⟨hfits, fun raw' hraw' => ?_⟩
            rw [hsome] at hraw'
            cases hraw'
            exact hrecord
        rw [hsafe]
        constructor
        · intro hruns
          obtain ⟨r, hr, hrest⟩ := (runs_bind).mp hruns
          refine ⟨hr.runs, fun hpass => ?_⟩
          obtain ⟨raw', hraw', hnone⟩ := hpass
          rw [hsome] at hraw'
          cases hraw'
          cases hr.unique hnone
          exact (ih (k + 1)).mp hrest
        · rintro ⟨⟨r, hr⟩, hrest⟩
          rw [hr.runs_bind_iff]
          cases r with
          | none => exact (ih (k + 1)).mpr (hrest ⟨raw, hsome, hr⟩)
          | some found => exact runs_pure
    · refine iff_of_false (fun hruns => hfits ?_) fun hstep => hfits hstep.1.fits
      obtain ⟨base, hbase, hruns⟩ := (runs_bind).mp hruns
      obtain ⟨offset, hoffset, hruns⟩ := (runs_bind).mp hruns
      obtain ⟨lba, hlba, hruns⟩ := (runs_bind).mp hruns
      obtain ⟨raw, hraw, -⟩ := (runs_bind).mp hruns
      obtain ⟨-, rfl⟩ := (gives_mul64).mp hbase
      obtain ⟨-, rfl⟩ := (gives_mul64).mp hoffset
      obtain ⟨hlt, rfl⟩ := (gives_add64).mp hlba
      exact ⟨hlt, ((readRecord_gives h _ _ 0 [] raw).mp hraw).1⟩

theorem mftRecordBytes_gives (encoded spc : UInt8) (n : Nat) :
    (mftRecordBytes encoded spc.toNat).Gives n ↔
      (0 < encoded.toBitVec.toInt ∨ encoded.toBitVec.toInt.natAbs < 64) ∧
        n = recordBytes encoded spc.toNat := by
  have hint : encoded.toBitVec.toInt.toNat < 128 := by
    have := @BitVec.toInt_lt 8 encoded.toBitVec
    omega
  have hspc := spc.toNat_lt
  have hclusters : encoded.toBitVec.toInt.toNat * spc.toNat ≤ 127 * 255 :=
    Nat.mul_le_mul (by omega) (by omega)
  unfold mftRecordBytes recordBytes
  dsimp only
  by_cases hpos : 0 < encoded.toBitVec.toInt
  · rw [if_pos hpos, if_pos hpos, ((gives_mul64).mpr ⟨by omega, rfl⟩).bind_iff, gives_mul64]
    exact ⟨fun h => ⟨.inl hpos, h.2.symm⟩, fun h => ⟨by omega, h.2.symm⟩⟩
  · rw [if_neg hpos, if_neg hpos, gives_ensure_bind, gives_pure]
    exact ⟨fun h => ⟨.inr h.1, h.2.symm⟩, fun h => ⟨h.1.resolve_left hpos, h.2.symm⟩⟩

theorem loadNtfs_runs (h : Reads read vol) (boot : Sector) : (loadNtfs boot read).Runs ↔
    NtfsSafe boot vol := by
  unfold loadNtfs
  by_cases hbps : boot.field 0x0b 0x0d = 512
  · by_cases hspc : boot.byte 0x0d = 0
    · rw [if_neg (not_not.mpr hbps), if_pos hspc]
      exact iff_of_true runs_pure ⟨fun _ hne => absurd hspc hne, fun _ hne => absurd hspc hne⟩
    · rw [if_neg (not_not.mpr hbps), if_neg hspc]
      dsimp only
      by_cases hshift : 0 < (boot.byte 0x40).toBitVec.toInt ∨ (boot.byte 0x40).toBitVec.toInt.natAbs < 64
      · rw [((mftRecordBytes_gives _ _ _).mpr ⟨hshift, rfl⟩).runs_bind_iff]
        by_cases hsize : recordBytes (boot.byte 0x40) (boot.byte 0x0d).toNat = 0 ∨
            4096 < recordBytes (boot.byte 0x40) (boot.byte 0x0d).toNat
        · rw [if_pos hsize]
          refine iff_of_true runs_pure ⟨fun _ _ => hshift, fun _ _ hpos hle => ?_⟩
          unfold ntfsShape at hpos hle
          dsimp only at hpos hle
          omega
        · rw [if_neg hsize]
          rw [not_or] at hsize
          have hrecords := loadRecords_runs h (ntfsShape boot) 64 0
          refine hrecords.trans ⟨fun hstep => ⟨fun _ _ => hshift, fun _ _ _ _ => hstep⟩, fun hsafe => ?_⟩
          exact hsafe.records hbps hspc (Nat.pos_of_ne_zero hsize.1) (Nat.le_of_not_lt hsize.2)
      · refine iff_of_false (fun hruns => ?_) fun hsafe => hshift (hsafe.shift hbps hspc)
        obtain ⟨record, hrecord, -⟩ := (runs_bind).mp hruns
        exact hshift ((mftRecordBytes_gives _ _ _).mp hrecord).1
  · rw [if_pos hbps]
    exact iff_of_true runs_pure ⟨fun heq => absurd heq hbps, fun heq => absurd heq hbps⟩

theorem readBytes_runs (h : Reads read vol) (lba size : Nat) : (readBytes read lba size).Runs := by
  unfold readBytes
  rw [runs_ite]
  refine ⟨fun _ => runs_pure, fun _ => ?_⟩
  rw [(h lba).runs_bind_iff]
  cases vol lba with
  | none => exact runs_pure
  | some sector => exact runs_pure

theorem scanRoot_runs (h : Reads read vol) {want : List UInt8} {rootLba rootSectors : Nat} (n sector : Nat)
    (hlba : rootLba + (sector + n) < 2 ^ 32) (hsectors : rootSectors < 2 ^ 32) :
    (scanRoot read want rootLba rootSectors n sector).Runs := by
  induction n generalizing sector with
  | zero => exact runs_pure
  | succ n ih =>
    have hsector : (add64 rootLba sector).Gives (rootLba + sector) := (gives_add64).mpr ⟨by omega, rfl⟩
    rw [scanRoot, hsector.runs_bind_iff, (h _).runs_bind_iff]
    cases vol (rootLba + sector) with
    | none => exact runs_pure
    | some dir =>
      have hscan := @scanSlots_gives want dir (List.range 16) (by simp)
      dsimp only
      rw [hscan.runs_bind_iff]
      cases hsc : scanEntries want ((List.range 16).map fun slot =>
        (dir.bytes.take (slot * 32 + 32)).drop (slot * 32)) with
      | ends => exact runs_pure
      | more => exact ih (sector + 1) (by omega)
      | found cluster size =>
        have hcluster := scanEntries_cluster hsc
        have hdata : (add64 rootLba rootSectors).Gives (rootLba + rootSectors) :=
          (gives_add64).mpr ⟨by omega, rfl⟩
        have hlba' : (add64 (rootLba + rootSectors) (cluster - 2)).Gives (rootLba + rootSectors +
          (cluster - 2)) :=
          (gives_add64).mpr ⟨by omega, rfl⟩
        dsimp only
        rw [hdata.runs_bind_iff, hlba'.runs_bind_iff]
        exact readBytes_runs h _ _

/-- The numbers of a FAT boot sector are of 8 and 16 bits. -/
theorem loadFat_runs (h : Reads read vol) (boot : Sector) : (loadFat boot read).Runs := by
  have hreserved : boot.field 14 16 < 65536 := field_lt boot 14 2 (by omega)
  have hroot : boot.field 17 19 < 65536 := field_lt boot 17 2 (by omega)
  have htable : boot.field 22 24 < 65536 := field_lt boot 22 2 (by omega)
  have hfats := (boot.byte 16).toNat_lt
  have htables : (boot.byte 16).toNat * boot.field 22 24 ≤ 255 * 65535 :=
    Nat.mul_le_mul (by omega) (by omega)
  unfold loadFat
  dsimp only
  rw [runs_ite]
  refine ⟨fun _ => runs_pure, fun _ => ?_⟩
  have hmul := (gives_mul64).mpr ⟨show (boot.byte 16).toNat * boot.field 22 24 < 2 ^ 64 by omega, rfl⟩
  have hlba := (gives_add64).mpr ⟨show boot.field 14 16 + (boot.byte 16).toNat * boot.field 22 24 <
    2 ^ 64 by omega, rfl⟩
  have hbytes := (gives_mul64).mpr ⟨show boot.field 17 19 * 32 < 2 ^ 64 by omega, rfl⟩
  rw [hmul.runs_bind_iff, hlba.runs_bind_iff, hbytes.runs_bind_iff]
  exact scanRoot_runs h _ 0 (by omega) (by omega)

end safe

/-! ### Safe disks -/

section disks

variable {disk : Disk}

theorem loadVolume_runs (start : Nat) : (loadVolume start (readDisk disk)).Runs ↔
    VolumeSafe disk start := by
  have hreads := reads_partition (reads_disk disk) start
  rw [loadVolume, (reads_disk disk start).runs_bind_iff, VolumeSafe]
  cases hboot : disk start with
  | none => exact iff_of_true runs_pure fun boot heq => by cases heq
  | some boot =>
    dsimp only
    by_cases hntfs : isNtfs boot = true
    · rw [if_pos hntfs, loadNtfs_runs hreads]
      constructor
      · intro h boot' heq _
        cases heq
        exact h
      · exact fun h => h boot rfl hntfs
    · rw [if_neg hntfs]
      refine iff_of_true ((runs_ite).mpr ⟨fun _ => loadFat_runs hreads boot, fun _ => runs_pure⟩)
        fun boot' heq htrue => ?_
      cases heq
      exact absurd htrue hntfs

theorem readGptEntry_missing {entryLba index : Nat} (h : partitionEntry disk entryLba index = none) :
    (readGptEntry (readDisk disk) entryLba index).Gives none := by
  unfold partitionEntry view at h
  unfold readGptEntry
  rw [Option.map_eq_none_iff] at h
  split
  · next hlt =>
    rw [if_pos hlt] at h
    rw [(reads_disk disk _).bind_iff, h]
    exact (gives_pure).mpr rfl
  · exact (gives_pure).mpr rfl

theorem loadPartitions_runs (entryLba n index : Nat) (sawFs : Bool) :
    (loadPartitions (readDisk disk) entryLba n index sawFs).Runs ↔
      Stepwise (EntryQuiet disk entryLba) (EntrySafe disk entryLba) index n := by
  induction n generalizing index sawFs with
  | zero => exact iff_of_true runs_pure stepwise_zero
  | succ n ih =>
    rw [stepwise_succ]
    cases hentry : partitionEntry disk entryLba index with
    | none =>
      refine iff_of_true ?_ ⟨fun entry heq => ?_, fun hquiet => ?_⟩
      · rw [loadPartitions, (readGptEntry_missing hentry).runs_bind_iff]
        exact runs_pure
      · rw [hentry] at heq
        cases heq
      · obtain ⟨entry, heq, -⟩ := hquiet
        rw [hentry] at heq
        cases heq
    | some entry =>
      have hsafe : EntrySafe disk entryLba index ↔ ∀ start ∈ partitionStart entry,
        VolumeSafe disk start := by
        unfold EntrySafe
        rw [hentry]
        exact ⟨fun h => h entry rfl, fun h entry' heq => by cases heq; exact h⟩
      have hquiet : EntryQuiet disk entryLba index ↔ ∀ start ∈ partitionStart entry, Quiet disk start := by
        unfold EntryQuiet
        rw [hentry]
        constructor
        · rintro ⟨entry', heq, h⟩
          cases heq
          exact h
        · exact fun h => ⟨entry, rfl, h⟩
      rw [hsafe, hquiet, Runs, exists_congr (loadPartitions_step hentry)]
      cases hstart : partitionStart entry with
      | none =>
        have hrest := ih (index + 1) sawFs
        rw [Runs] at hrest
        simpa using hrest
      | some start =>
        have hone : ∀ P : Nat → Prop, (∀ s ∈ some start, P s) ↔ P start := by simp
        rw [hone, hone, ← loadVolume_runs]
        constructor
        · intro hruns
          obtain ⟨found, hfound, hrest⟩ := (runs_bind).mp hruns
          refine ⟨hfound.runs, fun hquiet => ?_⟩
          obtain ⟨r, hr, hadmin, hbytes⟩ := hquiet
          cases hfound.unique hr
          rw [afterVolume_quiet hadmin hbytes] at hrest
          exact (ih _ _).mp hrest
        · rintro ⟨⟨found, hfound⟩, hrest⟩
          refine (runs_bind).mpr ⟨found, hfound, ?_⟩
          by_cases hquiet : found ≠ .admin ∧ ∀ buf len, found ≠ .bytes buf len
          · rw [afterVolume_quiet hquiet.1 hquiet.2]
            exact (ih _ _).mpr (hrest ⟨found, hfound, hquiet.1, hquiet.2⟩)
          · cases found with
            | bytes buf len => exact runs_pure
            | admin => exact runs_pure
            | missing => exact absurd ⟨by simp, by simp⟩ hquiet
            | absent => exact absurd ⟨by simp, by simp⟩ hquiet
            | regs => exact absurd ⟨by simp, by simp⟩ hquiet
            | enable => exact absurd ⟨by simp, by simp⟩ hquiet
            | raw => exact absurd ⟨by simp, by simp⟩ hquiet

theorem loadNamed_runs : (loadNamed (readDisk disk)).Runs ↔ DiskSafe disk := by
  rw [loadNamed, (reads_disk disk 0).runs_bind_iff]
  cases hboot : disk 0 with
  | none =>
    refine iff_of_true runs_pure ⟨fun boot heq => ?_, fun boot header entryLba count heq => ?_⟩
    · rw [hboot] at heq
      cases heq
    · rw [hboot] at heq
      cases heq
  | some boot =>
    dsimp only
    have hboot' : ∀ b, disk 0 = some b → b = boot := by
      intro b heq
      rw [hboot] at heq
      cases heq
      rfl
    by_cases hntfs : isNtfs boot = true
    · rw [if_pos hntfs, loadNtfs_runs (reads_disk disk)]
      constructor
      · intro h
        refine ⟨fun b heq _ => ?_, fun b header entryLba count heq hfalse => ?_⟩
        · rwa [hboot' b heq]
        · rw [hboot' b heq, hntfs] at hfalse
          cases hfalse
      · exact fun h => h.whole boot hboot hntfs
    · have hwhole : ∀ b, disk 0 = some b → isNtfs b = true → NtfsSafe b disk := by
        intro b heq htrue
        rw [hboot' b heq] at htrue
        exact absurd htrue hntfs
      rw [if_neg hntfs]
      by_cases hfat : isFat boot = true
      · rw [if_pos hfat]
        refine iff_of_true (loadFat_runs (reads_disk disk) boot)
          ⟨hwhole, fun b header entryLba count heq _ hfalse => ?_⟩
        rw [hboot' b heq, hfat] at hfalse
        cases hfalse
      · rw [if_neg hfat]
        by_cases hmbr : isProtectiveMbr boot = true
        · rw [if_pos hmbr, loadGpt, (reads_disk disk 1).runs_bind_iff]
          have hpartitions : ∀ P : Nat → Nat → Prop,
              (∀ b header entryLba count, disk 0 = some b → isNtfs b = false → isFat b = false →
                isProtectiveMbr b = true →
                disk 1 = some header → gptEntries header = some (entryLba, count) → P entryLba count) ↔
              ∀ header entryLba count, disk 1 = some header →
                gptEntries header = some (entryLba, count) → P entryLba count := by
            intro P
            constructor
            · exact fun h header entryLba count hheader hentries =>
                h boot header entryLba count hboot (by simpa using hntfs)
                (by simpa using hfat) hmbr hheader hentries
            · exact fun h _ header entryLba count _ _ _ _ hheader hentries =>
                h header entryLba count hheader hentries
          have hsafe : DiskSafe disk ↔ ∀ header entryLba count, disk 1 = some header →
              gptEntries header = some (entryLba, count) →
              Stepwise (EntryQuiet disk entryLba) (EntrySafe disk entryLba) 0 count := by
            rw [← hpartitions]
            exact ⟨fun h => h.partitions, fun h => ⟨hwhole, h⟩⟩
          rw [hsafe]
          cases hheader : disk 1 with
          | none => exact iff_of_true runs_pure fun header _ _ heq => by cases heq
          | some header =>
            dsimp only
            cases hentries : gptEntries header with
            | none =>
              refine iff_of_true runs_pure fun header' entryLba count heq hsome => ?_
              cases heq
              rw [hentries] at hsome
              cases hsome
            | some p =>
              refine (loadPartitions_runs p.1 p.2 0 false).trans
                ⟨fun h header' entryLba count heq hsome => ?_, fun h => ?_⟩
              · cases heq
                rw [hentries] at hsome
                cases hsome
                exact h
              · exact h header p.1 p.2 rfl hentries
        · rw [if_neg hmbr]
          refine iff_of_true runs_pure ⟨hwhole, fun b header entryLba count heq _ _ htrue => ?_⟩
          rw [hboot' b heq] at htrue
          exact absurd htrue hmbr

end disks

/-! ### The number of reads -/

section pieces

variable {fixed want raw : List UInt8}

theorem filenameIs_within (value want : List UInt8) : (filenameIs value want).Within 0 :=
  Within.ite (fun _ => Within.pure) fun _ =>
    Within.free Within.byteAt fun _ _ => Within.ite (fun _ => Within.pure) fun _ =>
      Within.free Within.slice fun _ _ => Within.pure

theorem residentValue_within (attr len kind : Nat) (r : Resident) :
    (residentValue fixed want attr len kind r).Within 0 := by
  refine Within.free Within.leAt fun valueLen _ => Within.free Within.leAt fun valueOff _ => ?_
  refine Within.ite (fun _ => Within.free Within.slice fun value _ => ?_) fun _ => Within.pure
  exact Within.ite (fun _ => Within.free (filenameIs_within value want) fun _ _ => Within.pure) fun _ =>
    Within.free Within.pure fun _ _ => Within.pure

theorem residentFrom_within (rawLen fuel attr : Nat) (r : Resident) :
    (residentFrom fixed rawLen want fuel attr r).Within 0 := by
  induction fuel generalizing attr r with
  | zero => exact Within.pure
  | succ fuel ih =>
    refine Within.ite (fun _ => ?_) fun _ => Within.pure
    refine Within.free Within.leAt fun kind _ => Within.free Within.leAt fun len _ => ?_
    refine Within.ite (fun _ => Within.pure) fun _ => ?_
    refine Within.free Within.byteAt fun nonresident _ => Within.free Within.byteAt fun nameLen _ => ?_
    exact Within.ite (fun _ => Within.free (residentValue_within attr len kind r) fun r' _ =>
      ih _ r') fun _ =>
      Within.free Within.pure fun r' _ => ih _ r'

theorem fixupSectors_within (signature usaOff n sector : Nat) (raw : List UInt8) :
    (fixupSectors signature usaOff n sector raw).Within 0 := by
  induction n generalizing sector raw with
  | zero => exact Within.pure
  | succ n ih =>
    refine Within.ite (fun _ => Within.pure) fun _ => Within.free Within.leAt fun found _ => ?_
    refine Within.ite (fun _ => Within.pure) fun _ => ?_
    exact Within.free Within.byteAt fun low _ => Within.free Within.byteAt fun high _ => ih _ _

theorem fixedRecord_within (raw : List UInt8) : (fixedRecord raw).Within 0 := by
  refine Within.ite (fun _ => Within.pure) fun _ => ?_
  refine Within.free Within.leAt fun usaOff _ => Within.free Within.leAt fun usaCount _ => ?_
  refine Within.ite (fun _ => Within.pure) fun _ => ?_
  refine Within.free (Within.ite (fun _ => Within.pure) fun _ => Within.free Within.leAt fun _ _ =>
    fixupSectors_within _ _ _ _ _) fun r _ => ?_
  cases r with
  | none => exact Within.pure
  | some fixed =>
    exact Within.free Within.leAt fun flags _ => Within.ite (fun _ => Within.pure) fun _ => Within.pure

theorem fileInRecord_within (raw want : List UInt8) : (fileInRecord raw want).Within 0 := by
  refine Within.free (fixedRecord_within raw) fun r _ => ?_
  cases r with
  | none => exact Within.pure
  | some fixed =>
    refine Within.free (Within.free Within.leAt fun attr _ => residentFrom_within _ _ _ _) fun r _ => ?_
    refine Within.ite (fun _ => ?_) fun _ => Within.pure
    cases r.data with
    | none => exact Within.pure
    | some p => exact Within.free Within.slice fun _ _ => Within.pure

theorem scanSlots_within (dir want : List UInt8) (slots : List Nat) :
    (scanSlots dir want slots).Within 0 := by
  induction slots with
  | nil => exact Within.pure
  | cons slot slots ih =>
    refine Within.free Within.slice fun entry _ => Within.ite (fun _ => Within.pure) fun _ => ?_
    exact Within.ite (fun _ => ih) fun _ => Within.ite (fun _ => Within.pure) fun _ => ih

end pieces

section reads

variable {read : Reader}

theorem readBytes_within (h : ∀ lba, (read lba).Within 1) (lba size : Nat) :
    (readBytes read lba size).Within 1 := by
  refine Within.ite (fun _ => Within.pure) fun _ => Within.step (h lba) fun sector _ => ?_
  cases sector with
  | none => exact Within.pure
  | some sector => exact Within.pure

theorem scanRoot_within (h : ∀ lba, (read lba).Within 1) (want : List UInt8)
    (rootLba rootSectors n sector : Nat) :
    (scanRoot read want rootLba rootSectors n sector).Within (n + 1) := by
  induction n generalizing sector with
  | zero => exact Within.pure
  | succ n ih =>
    refine Within.free Within.add64 fun lba _ => Within.step (h lba) fun dir _ => ?_
    cases dir with
    | none => exact Within.pure
    | some dir =>
      refine Within.free (scanSlots_within _ _ _) fun scan _ => ?_
      cases scan with
      | ends => exact Within.pure
      | more => exact ih (sector + 1)
      | found cluster size =>
        refine Within.free Within.add64 fun data _ => Within.free Within.add64 fun dataLba _ => ?_
        exact (readBytes_within h dataLba _).mono (by omega)

theorem loadFat_within (h : ∀ lba, (read lba).Within 1) (boot : Sector) :
    (loadFat boot read).Within 4096 := by
  have hroot : boot.field 17 19 < 65536 := field_lt boot 17 2 (by omega)
  refine Within.ite (fun _ => Within.pure) fun _ => ?_
  refine Within.free Within.mul64 fun tables _ => Within.free Within.add64 fun rootLba _ => ?_
  refine Within.free Within.mul64 fun rootBytes hbytes => ?_
  obtain ⟨-, rfl⟩ := (gives_mul64).mp hbytes
  exact (scanRoot_within h _ _ _ _ _).mono (by omega)

theorem readRecord_within (h : ∀ lba, (read lba).Within 1) (lba n s : Nat) (raw : List UInt8) :
    (readRecord read lba n s raw).Within n := by
  induction n generalizing s raw with
  | zero => exact Within.pure
  | succ n ih =>
    refine Within.free Within.add64 fun at_ _ => Within.step (h at_) fun sector _ => ?_
    cases sector with
    | none => exact Within.pure
    | some sector => exact ih _ _

theorem loadRecords_within (h : ∀ lba, (read lba).Within 1) (g : NtfsShape) (n index : Nat) :
    (loadRecords read g n index).Within (n * (g.record / 512)) := by
  induction n generalizing index with
  | zero => exact Within.pure
  | succ n ih =>
    have hsum : (n + 1) * (g.record / 512) = g.record / 512 + n * (g.record / 512) := by ring
    rw [hsum]
    refine Within.free Within.mul64 fun base _ => Within.free Within.mul64 fun offset _ => ?_
    refine Within.free Within.add64 fun lba _ => Within.bind (readRecord_within h lba _ 0 [])
      fun raw _ => ?_
    cases raw with
    | none => exact Within.pure
    | some raw =>
      refine Within.free (fileInRecord_within _ _) fun found _ => ?_
      cases found with
      | none => exact ih (index + 1)
      | some found => exact Within.pure

theorem loadNtfs_within (h : ∀ lba, (read lba).Within 1) (boot : Sector) :
    (loadNtfs boot read).Within 4096 := by
  refine Within.ite (fun _ => Within.pure) fun _ => Within.ite (fun _ => Within.pure) fun _ => ?_
  have hsize : (mftRecordBytes (boot.byte 0x40) (boot.byte 0x0d).toNat).Within 0 :=
    Within.ite (fun _ => Within.free Within.mul64 fun _ _ => Within.mul64) fun _ =>
      Within.free Within.ensure fun _ _ => Within.pure
  refine Within.free hsize fun record _ => Within.ite (fun _ => Within.pure) fun hrecord => ?_
  rw [not_or] at hrecord
  have hsectors : record / 512 ≤ 8 := by omega
  exact (loadRecords_within h _ 64 0).mono (by dsimp only; omega)

theorem partition_within (h : ∀ lba, (read lba).Within 1) (start lba : Nat) :
    (partition start read lba).Within 1 :=
  Within.ite (fun _ => h _) fun _ => Within.pure

theorem loadVolume_within (h : ∀ lba, (read lba).Within 1) (start : Nat) :
    (loadVolume start read).Within 4097 := by
  refine Within.step (h start) fun boot _ => ?_
  cases boot with
  | none => exact Within.pure
  | some boot =>
    exact Within.ite (fun _ => loadNtfs_within (partition_within h start) boot) fun _ =>
      Within.ite (fun _ => loadFat_within (partition_within h start) boot) fun _ => Within.pure

theorem readGptEntry_within (h : ∀ lba, (read lba).Within 1) (entryLba index : Nat) :
    (readGptEntry read entryLba index).Within 1 := by
  refine Within.ite (fun _ => Within.step (h _) fun sector _ => ?_) fun _ => Within.pure
  cases sector with
  | none => exact Within.pure
  | some sector => exact Within.free Within.slice fun _ _ => Within.pure

theorem loadPartitions_within (h : ∀ lba, (read lba).Within 1) (entryLba n index : Nat) (sawFs : Bool) :
    (loadPartitions read entryLba n index sawFs).Within (n * 4098) := by
  induction n generalizing index sawFs with
  | zero => exact Within.pure
  | succ n ih =>
    have hsum : (n + 1) * 4098 = (4097 + n * 4098) + 1 := by ring
    rw [hsum]
    refine Within.step (readGptEntry_within h entryLba index) fun entry _ => ?_
    cases entry with
    | none => exact Within.pure
    | some entry =>
      refine Within.ite (fun _ => (ih _ _).mono (by omega)) fun _ => ?_
      refine Within.bind (loadVolume_within h _) fun found _ => ?_
      cases found with
      | bytes buf len => exact Within.pure
      | admin => exact Within.pure
      | missing => exact ih _ _
      | absent => exact ih _ _
      | regs => exact ih _ _
      | enable => exact ih _ _
      | raw => exact ih _ _

theorem gptEntries_le {header : Sector} {entryLba count : Nat}
    (h : gptEntries header = some (entryLba, count)) :
    count ≤ 128 := by
  unfold gptEntries at h
  dsimp only at h
  split at h
  · cases h
  · split at h
    · cases h
    · cases h
      exact Nat.min_le_right _ _

/-- The reads of a run that ends: two sectors, and for each of 128 partitions its entry, its first
sector, and a root directory of 4095 sectors and one of the file. -/
def readBound : Nat := 2 + 128 * 4098

theorem loadNamed_within (disk : Disk) : (loadNamed (readDisk disk)).Within readBound := by
  have h : ∀ lba, (readDisk disk lba).Within 1 := fun lba => Within.tick le_rfl
  have hgpt : (loadGpt (readDisk disk)).Within (128 * 4098 + 1) := by
    refine Within.step (h 1) fun header _ => ?_
    cases header with
    | none => exact Within.pure
    | some header =>
      dsimp only
      cases hentries : gptEntries header with
      | none => exact Within.pure
      | some p =>
        have hcount : p.2 ≤ 128 := gptEntries_le hentries
        exact (loadPartitions_within h p.1 p.2 0 false).mono (Nat.mul_le_mul_right _ hcount)
  refine (Within.step (h 0) fun boot _ => ?_ : (loadNamed (readDisk disk)).Within
    (128 * 4098 + 1 + 1)).mono le_rfl
  cases boot with
  | none => exact Within.pure
  | some boot =>
    refine Within.ite (fun _ => (loadNtfs_within h boot).mono (by omega)) fun _ => ?_
    refine Within.ite (fun _ => (loadFat_within h boot).mono (by omega)) fun _ => ?_
    exact Within.ite (fun _ => hgpt) fun _ => Within.pure

/-- A disk gives a report, with a bounded number of reads, exactly if the NTFS volumes that the
loader comes to are safe. -/
theorem loadNamed_safe (disk : Disk) :
    (∃ r k, loadNamed (readDisk disk) = some (r, k) ∧ k ≤ readBound) ↔ DiskSafe disk := by
  rw [← loadNamed_runs]
  constructor
  · rintro ⟨r, k, h, -⟩
    exact ⟨r, k, h⟩
  · rintro ⟨r, k, h⟩
    exact ⟨r, k, h, loadNamed_within disk r k h⟩

/-- A record size of 2 to the power 64. -/
def shiftDisk : Disk := fun _ =>
  some (patched ((List.range' 3 8).zip [0x4e, 0x54, 0x46, 0x53, 0x20, 0x20, 0x20, 0x20] ++
    [(12, 2), (13, 1), (0x40, 0xc0)]))

theorem shiftDisk_crashes : ¬(loadNamed (readDisk shiftDisk)).Runs := by
  rw [loadNamed_runs]
  intro h
  have hshift := (h.whole _ rfl (by decide +kernel)).shift (by decide +kernel) (by decide +kernel)
  exact absurd hshift (by decide +kernel)

end reads

end Lerux.Swift

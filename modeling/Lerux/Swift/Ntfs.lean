import Lerux.Swift.Attributes

/-!
# The named file of an NTFS volume

What an NTFS volume holds, said of its records: the attributes of each, in their order
(`Attributes`), behind the update sequence that protects each sector of it on the disk (`Protects`).
`loadNamed_ntfs` is that the loader reports the file of the first record that is in use, has the
name and has its bytes in the record.
-/

namespace Lerux.Swift

open Check

/-! ### Records -/

/-- The number from `i` up to `j`. -/
def numberAt (t : List UInt8) (i j : Nat) : Nat := leValue ((t.take j).drop i)

/-- An attribute. One that is not resident has no value here. -/
structure Attribute where
  kind : Nat
  length : Nat
  nameLength : Nat
  value : Option (List UInt8)

namespace Attribute

/-- The name in a `$FILE_NAME`. -/
def fileName (a : Attribute) : Option (List UInt8) :=
  if a.kind = 0x30 then a.value.map fun v => (v.drop 0x42).take (2 * (v.getD 0x40 0).toNat) else none

/-- The value of an unnamed `$DATA`. -/
def data (a : Attribute) : Option (List UInt8) := if a.kind = 0x80 ∧ a.nameLength = 0 then a.value else none

/-- A `$FILE_NAME` has no name of its own, and is long enough for the one it holds. -/
def Proper (a : Attribute) : Prop :=
  a.kind = 0x30 → ∀ v ∈ a.value, a.nameLength = 0 ∧ 0x42 + 2 * (v.getD 0x40 0).toNat ≤ v.length

/-- The attribute stands at a place of a record. -/
structure Lies (a : Attribute) (t : List UInt8) (at_ : Nat) : Prop where
  kind : attrKind t at_ = a.kind
  notEnd : a.kind ≠ 0xffffffff
  length : attrLen t at_ = a.length
  long : 24 ≤ a.length
  inside : at_ + a.length ≤ t.length
  nameLength : (t.getD (at_ + 9) 0).toNat = a.nameLength
  nonresident : a.value = none → t.getD (at_ + 8) 0 ≠ 0
  resident : ∀ v ∈ a.value, t.getD (at_ + 8) 0 = 0 ∧ numberAt t (at_ + 0x10) (at_ + 0x14) = v.length ∧
    numberAt t (at_ + 0x14) (at_ + 0x16) + v.length ≤ a.length ∧
    (t.drop (at_ + numberAt t (at_ + 0x14) (at_ + 0x16))).take v.length = v

end Attribute

/-- The attributes from a place of a record up to the end marker. -/
inductive Attributes (t : List UInt8) : Nat → List Attribute → Prop
  | ends {at_ : Nat} (inside : at_ + 4 ≤ t.length)
      (marker : attrKind t at_ = 0xffffffff) : Attributes t at_ []
  | next {at_ : Nat} {a : Attribute} {as : List Attribute} (lies : a.Lies t at_) (proper : a.Proper)
      (rest : Attributes t (at_ + a.length) as) : Attributes t at_ (a :: as)

/-- What a file record says. -/
structure FileRecord where
  inUse : Bool
  attributes : List Attribute

namespace FileRecord

def isNamed (f : FileRecord) (name : List UInt8) : Bool := f.attributes.any fun a => a.fileName =
    some (utf16 name)

/-- The unnamed `$DATA`. A record has one at most; should there be more, the last one counts. -/
def data (f : FileRecord) : Option (List UInt8) := f.attributes.foldl (fun v a => a.data.or v) none

/-- The bytes of the file of this name. -/
def file (f : FileRecord) (name : List UInt8) : Option (List UInt8) :=
  if f.inUse && f.isNamed name then f.data else none

/-- The bytes of a record. -/
structure Written (f : FileRecord) (t : List UInt8) : Prop where
  sign : t.take 4 = [0x46, 0x49, 0x4c, 0x45]
  inUse : f.inUse = true ↔ numberAt t 0x16 0x18 % 2 = 1
  attributes : Attributes t (numberAt t 0x14 0x16) f.attributes

end FileRecord

/-! ### Protected sectors -/

/-- One of the last two bytes of a sector. -/
def SectorEnd (n i : Nat) : Prop := ∃ k, 1 ≤ k ∧ k ≤ n ∧ (i = 512 * k - 2 ∨ i = 512 * k - 1)

/-- A record of `n` sectors as it is stored: the last two bytes of each sector are the sequence
number, and the update array, which none of them is in, holds the number and the bytes that were
there. -/
structure Protects (n : Nat) (t raw : List UInt8) : Prop where
  size : t.length = 512 * n
  stored : raw.length = t.length
  count : numberAt t 6 8 = n + 1
  inside : numberAt t 4 6 + 2 * (n + 1) ≤ t.length
  apart : ∀ i, SectorEnd n i → i < numberAt t 4 6 ∨ numberAt t 4 6 + 2 * (n + 1) ≤ i
  kept : ∀ k, 1 ≤ k → k ≤ n → t.getD (numberAt t 4 6 + 2 * k) 0 = t.getD (512 * k - 2) 0 ∧
    t.getD (numberAt t 4 6 + 2 * k + 1) 0 = t.getD (512 * k - 1) 0
  ends : ∀ k, 1 ≤ k → k ≤ n → raw.getD (512 * k - 2) 0 = t.getD (numberAt t 4 6) 0 ∧
    raw.getD (512 * k - 1) 0 = t.getD (numberAt t 4 6 + 1) 0
  others : ∀ i, ¬SectorEnd n i → raw.getD i 0 = t.getD i 0

/-! ### Volumes -/

/-- The record size in the boot sector: a count of clusters, or a power of two. -/
def SizeEncoded (encoded : UInt8) (spc size : Nat) : Prop :=
  (0 < encoded.toBitVec.toInt ∧ encoded.toBitVec.toInt.toNat * spc * 512 = size) ∨
    (encoded.toBitVec.toInt < 0 ∧ 2 ^ encoded.toBitVec.toInt.natAbs = size)

/-- A volume at sector 0 whose first 64 file records lie one behind the other. -/
structure NtfsVolume where
  disk : Disk
  boot : Sector
  sectors : Nat
  content : Nat → List UInt8
  records : Nat → FileRecord
  boots : disk 0 = some boot
  signed : (boot.bytes.take 11).drop 3 = "NTFS    ".toUTF8.toList
  sectorBytes : boot.field 0x0b 0x0d = 512
  spc : 1 ≤ (boot.byte 0x0d).toNat ∧ (boot.byte 0x0d).toNat ≤ 128
  sizes : sectors ∈ [1, 2, 4, 8]
  encoded : SizeEncoded (boot.byte 0x40) (boot.byte 0x0d).toNat (512 * sectors)
  addressed : boot.field 0x30 0x38 * (boot.byte 0x0d).toNat + 64 * sectors ≤ 2 ^ 64
  stored : ∀ i < 64, ∃ raw, Protects sectors (content i) raw ∧ ∀ s < sectors, ∃ sector,
    disk (boot.field 0x30 0x38 * (boot.byte 0x0d).toNat + i * sectors + s) = some sector ∧
      sector.bytes = (raw.drop (512 * s)).take 512
  written : ∀ i < 64, (records i).Written (content i)

/-- The file of the first record that has it. -/
def fileReport (records : List FileRecord) : DiskReport :=
  match records.findSome? fun f => f.file namedFile with
  | some v => filled (v.take 256)
  | none => .missing

def NtfsVolume.report (v : NtfsVolume) : DiskReport := fileReport ((List.range 64).map v.records)

/-! ### The sectors of a record -/

section sectors

variable {t raw : List UInt8} {n : Nat}

theorem take_drop_two {t : List UInt8} {i : Nat} (h : i + 2 ≤ t.length) :
    (t.take (i + 2)).drop i = [t.getD i 0, t.getD (i + 1) 0] := by
  have h0 : t.getD i 0 = t[i] := by
    rw [List.getD_eq_getElem?_getD, List.getElem?_eq_getElem (by omega)]; rfl
  have h1 : t.getD (i + 1) 0 = t[i + 1] := by
    rw [List.getD_eq_getElem?_getD, List.getElem?_eq_getElem (by omega)]; rfl
  rw [List.drop_take, show i + 2 - i = 2 by omega, h0, h1, List.drop_eq_getElem_cons (by omega),
    List.drop_eq_getElem_cons (show i + 1 < t.length by omega), List.take_succ_cons,
      List.take_succ_cons, List.take_zero]

/-- Two numbers that stand where two records have the same bytes. -/
theorem numberAt_congr {i : Nat} (ht : i + 2 ≤ t.length) (hraw : i + 2 ≤ raw.length)
    (h : raw.getD i 0 = t.getD i 0)
    (h' : raw.getD (i + 1) 0 = t.getD (i + 1) 0) : numberAt raw i (i + 2) = numberAt t i (i + 2) := by
  rw [numberAt, numberAt, take_drop_two ht, take_drop_two hraw, h, h']

/-- The first sectors of the record have their own bytes again. -/
structure Restored (n : Nat) (t raw cur : List UInt8) (j : Nat) : Prop where
  size : cur.length = t.length
  done : ∀ i, SectorEnd j i → cur.getD i 0 = t.getD i 0
  todo : ∀ i, ¬SectorEnd j i → cur.getD i 0 = raw.getD i 0

theorem sectorEnd_lt {i : Nat} (h : i + 2 < 512) : ¬SectorEnd n i := by
  rintro ⟨k, hk, -, hi⟩
  omega

theorem sectorEnd_mono {i j : Nat} (h : SectorEnd j i) (hj : j ≤ n) : SectorEnd n i := by
  obtain ⟨k, hk, hkj, hi⟩ := h
  exact ⟨k, hk, by omega, hi⟩

/-- Outside the ends of the sectors nothing changes on the way. -/
theorem Restored.other {cur : List UInt8} {j i : Nat} (h : Restored n t raw cur j)
    (hp : Protects n t raw) (hj : j ≤ n)
    (hi : ¬SectorEnd n i) : cur.getD i 0 = t.getD i 0 := by
  rw [h.todo i fun hend => hi (sectorEnd_mono hend hj), hp.others i hi]

theorem getD_set {l : List UInt8} {i j : Nat} {b : UInt8} (hi : i < l.length) :
    (l.set i b).getD j 0 = if j = i then b else l.getD j 0 := by
  rw [List.getD_eq_getElem?_getD, List.getD_eq_getElem?_getD, List.getElem?_set]
  by_cases h : i = j
  · subst h
    simp [hi]
  · rw [if_neg h, if_neg (Ne.symm h)]

/-- One sector. -/
theorem Restored.step {cur : List UInt8} {j : Nat} (h : Restored n t raw cur j)
    (hp : Protects n t raw) (hj : j < n) :
    Restored n t raw ((cur.set (512 * (j + 1) - 2) (t.getD (512 * (j + 1) - 2) 0)).set (512 * (j + 1) - 1)
      (t.getD (512 * (j + 1) - 1) 0)) (j + 1) := by
  have hsize := hp.size
  have hlen := h.size
  have hget : ∀ i, ((cur.set (512 * (j + 1) - 2) (t.getD (512 * (j + 1) - 2) 0)).set (512 * (j + 1) - 1)
      (t.getD (512 * (j + 1) - 1) 0)).getD i 0 =
        if i = 512 * (j + 1) - 1 ∨ i = 512 * (j + 1) - 2 then t.getD i 0 else cur.getD i 0 := by
    intro i
    rw [getD_set (by rw [List.length_set]; omega), getD_set (by omega)]
    split
    · rename_i hi
      rw [if_pos (.inl hi), hi]
    · rename_i hi
      split
      · rename_i hi'
        rw [if_pos (.inr hi'), hi']
      · rename_i hi'
        rw [if_neg (by tauto)]
  refine ⟨by rw [List.length_set, List.length_set, hlen], fun i hi => ?_, fun i hi => ?_⟩
  · rw [hget]
    split
    · rfl
    · rename_i hne
      refine h.done i ?_
      obtain ⟨k, hk, hkj, hik⟩ := hi
      refine ⟨k, hk, ?_, hik⟩
      by_contra hgt
      obtain rfl : k = j + 1 := by omega
      tauto
  · have hne : ¬(i = 512 * (j + 1) - 1 ∨ i = 512 * (j + 1) - 2) := fun hend =>
      hi ⟨j + 1, by omega, le_rfl, hend.symm⟩
    rw [hget, if_neg hne]
    exact h.todo i fun hend => hi (sectorEnd_mono hend (by omega))

/-- The loop over the sectors gives the record back. -/
theorem fixupSectors_gives (hp : Protects n t raw) {cur : List UInt8} {m j : Nat}
    (h : Restored n t raw cur j) (hm : j + m = n) :
    ∃ cur', (fixupSectors (numberAt t (numberAt t 4 6) (numberAt t 4 6 + 2))
      (numberAt t 4 6) m (j + 1) cur).Gives (some cur') ∧
      Restored n t raw cur' n := by
  induction m generalizing cur j with
  | zero =>
    obtain rfl : j = n := hm
    exact ⟨cur, (gives_pure).mpr rfl, h⟩
  | succ m ih =>
    have hsize := hp.size
    have hlen := h.size
    have hinside := hp.inside
    have hat : (j + 1) * 512 - 2 = 512 * (j + 1) - 2 := by omega
    have hsucc : 512 * (j + 1) - 2 + 1 = 512 * (j + 1) - 1 := by omega
    have hends := hp.ends (j + 1) (by omega) (by omega)
    have hkept := hp.kept (j + 1) (by omega) (by omega)
    have hnot : ∀ i, i = 512 * (j + 1) - 2 ∨ i = 512 * (j + 1) - 1 → ¬SectorEnd j i := by
      rintro i hi ⟨k, hk, hkj, hik⟩
      omega
    have hfound : numberAt cur (512 * (j + 1) - 2) (512 * (j + 1) - 2 + 2) =
        numberAt t (numberAt t 4 6) (numberAt t 4 6 + 2) := by
      rw [numberAt, numberAt, take_drop_two (by omega), take_drop_two (by omega),
        h.todo _ (hnot _ (.inl rfl)), hends.1, hsucc,
        h.todo _ (hnot _ (.inr rfl)), hends.2]
    have harray : ∀ i, numberAt t 4 6 ≤ i → i < numberAt t 4 6 + 2 * (n + 1) → ¬SectorEnd n i := by
      intro i hle hlt hend
      rcases hp.apart i hend with hi | hi
      · omega
      · omega
    have hlow : cur.getD (numberAt t 4 6 + (j + 1) * 2) 0 = t.getD (512 * (j + 1) - 2) 0 := by
      rw [← hkept.1, show numberAt t 4 6 + (j + 1) * 2 = numberAt t 4 6 + 2 * (j + 1) by omega]
      exact h.other hp (by omega) (harray _ (by omega) (by omega))
    have hhigh : (cur.set (512 * (j + 1) - 2) (t.getD (512 * (j + 1) - 2) 0)).getD
      (numberAt t 4 6 + (j + 1) * 2 + 1) 0 =
        t.getD (512 * (j + 1) - 1) 0 := by
      have hne : numberAt t 4 6 + 2 * (j + 1) + 1 ≠ 512 * (j + 1) - 2 := by
        intro heq
        exact harray _ (by omega) (by omega) ⟨j + 1, by omega, by omega, .inl heq⟩
      rw [show numberAt t 4 6 + (j + 1) * 2 + 1 = numberAt t 4 6 + 2 * (j + 1) +
        1 by omega, getD_set (by omega), if_neg hne,
        ← hkept.2]
      exact h.other hp (by omega) (harray _ (by omega) (by omega))
    obtain ⟨cur', hcur', hrest⟩ := ih (h.step hp (by omega)) (by omega)
    refine ⟨cur', ?_, hrest⟩
    rw [fixupSectors, hat, if_neg (by omega), (gives_leAt (by omega)).bind_iff]
    rw [numberAt] at hfound
    rw [hfound, if_neg (by simp), (gives_byteAt_getD (by omega)).bind_iff, hlow,
      (gives_byteAt_getD (by rw [List.length_set]; omega)).bind_iff, hhigh, hsucc]
    exact hcur'

theorem eq_of_getD {a b : List UInt8} (hlen : a.length = b.length)
    (h : ∀ i, a.getD i 0 = b.getD i 0) : a = b := by
  apply List.ext_getElem hlen
  intro i hi hi'
  have := h i
  rwa [List.getD_eq_getElem?_getD, List.getD_eq_getElem?_getD, List.getElem?_eq_getElem hi,
    List.getElem?_eq_getElem hi'] at this

/-- What the fix-ups read of the header is the record's own. -/
theorem Protects.header (hp : Protects n t raw) (hn : 1 ≤ n) {i : Nat} (hi : i + 4 < 512) :
    numberAt raw i (i + 2) = numberAt t i (i + 2) := by
  have hsize := hp.size
  have hstored := hp.stored
  exact numberAt_congr (by omega) (by omega) (hp.others i (sectorEnd_lt (by omega)))
    (hp.others (i + 1) (sectorEnd_lt (by omega)))

theorem applyFixups_gives (hp : Protects n t raw) (hn : 1 ≤ n) :
    (applyFixups raw (numberAt t 4 6) (numberAt t 6 8)).Gives (some t) := by
  have hinside := hp.inside
  have hstored := hp.stored
  have hcount := hp.count
  have hsign : numberAt raw (numberAt t 4 6) (numberAt t 4 6 + 2) = numberAt t (numberAt t 4 6)
    (numberAt t 4 6 + 2) := by
    have harray : ∀ i, numberAt t 4 6 ≤ i → i < numberAt t 4 6 + 2 * (n + 1) →
      raw.getD i 0 = t.getD i 0 := by
      intro i hle hlt
      refine hp.others i fun hend => ?_
      rcases hp.apart i hend with hi | hi
      · omega
      · omega
    exact numberAt_congr (by omega) (by omega) (harray _ le_rfl (by omega)) (harray _ (by omega) (by omega))
  have hstart : Restored n t raw raw 0 := by
    refine ⟨hstored, fun i hi => ?_, fun _ _ => rfl⟩
    obtain ⟨k, hk, hk0, -⟩ := hi
    omega
  obtain ⟨cur, hcur, hall⟩ := fixupSectors_gives hp hstart (Nat.zero_add n)
  have heq : cur = t := by
    refine eq_of_getD hall.size fun i => ?_
    by_cases hi : SectorEnd n i
    · exact hall.done i hi
    · exact hall.other hp le_rfl hi
  rw [applyFixups, if_neg (by omega), (gives_leAt (by omega)).bind_iff, hcount, Nat.add_sub_cancel]
  rw [heq] at hcur
  rw [numberAt] at hsign
  rw [hsign]
  exact hcur

end sectors

/-! ### The walk over the attributes -/

section walk

variable {t z : List UInt8}

/-- The walk has the value, or the place of it. -/
def Shows (t : List UInt8) (data : Option (Nat × Nat)) : Option (List UInt8) → Prop
  | none => data = none
  | some v => ∃ start, data = some (start, v.length) ∧ start + v.length ≤ t.length ∧
    (t.drop start).take v.length = v

theorem take_append_le {j : Nat} (h : j ≤ t.length) : (t ++ z).take j = t.take j :=
  List.take_append_of_le_length h

theorem getD_append_lt {i : Nat} (h : i < t.length) : (t ++ z).getD i 0 = t.getD i 0 := by
  rw [List.getD_eq_getElem?_getD, List.getD_eq_getElem?_getD, List.getElem?_append_left h]

/-- A number in a record, read from the buffer it is in. -/
theorem leAt_append {i j : Nat} (h : i ≤ j ∧ j ≤ t.length) :
    (leAt (t ++ z) i j).Gives (numberAt t i j) := by
  have hgives := gives_leAt (show i ≤ j ∧ j ≤ (t ++ z).length by rw [List.length_append]; omega)
  rwa [take_append_le h.2] at hgives

theorem filenameIs_gives {v want : List UInt8} (h : 0x42 + 2 * (v.getD 0x40 0).toNat ≤ v.length)
    (hw : want.length = 18) :
    (filenameIs v want).Gives (decide ((v.drop 0x42).take (2 * (v.getD 0x40 0).toNat) = want)) := by
  rw [filenameIs, if_neg (by omega), (gives_byteAt_getD (by omega)).bind_iff]
  by_cases hn : (v.getD 0x40 0).toNat = 9
  · rw [if_neg (by omega), (gives_slice (by omega)).bind_iff, gives_pure, List.drop_take,
      show 0x42 + (v.getD 0x40 0).toNat * 2 - 0x42 = 2 * (v.getD 0x40 0).toNat by omega]
  · rw [if_pos (.inl (by omega)), gives_pure, eq_comm, decide_eq_false_iff_not]
    intro heq
    have hlen := congrArg List.length heq
    rw [List.length_take, List.length_drop] at hlen
    omega

/-- One attribute with a value and no name of its own. -/
theorem residentValue_gives {a : Attribute} {at_ : Nat} (h : a.Lies t at_) (hp : a.Proper)
    (hn : a.nameLength = 0) {v : List UInt8}
    (hv : a.value = some v) (r : Resident) {old : Option (List UInt8)} (hr : Shows t r.data old) :
    ∃ r', (residentValue (t ++ z) (utf16 namedFile) at_ a.length a.kind r).Gives r' ∧
      r'.named = (r.named || decide (a.fileName = some (utf16 namedFile))) ∧
        Shows t r'.data (a.data.or old) := by
  obtain ⟨-, hlen, hend, hval⟩ := h.resident v hv
  have hlong := h.long
  have hinside := h.inside
  have hslice : (slice (t ++ z) (at_ + numberAt t (at_ + 0x14) (at_ + 0x16))
      (at_ + numberAt t (at_ + 0x14) (at_ + 0x16) + v.length)).Gives v := by
    have hgives := @gives_slice (t ++ z) (at_ + numberAt t (at_ + 0x14) (at_ + 0x16))
      (at_ + numberAt t (at_ + 0x14) (at_ + 0x16) + v.length) (by rw [List.length_append]; omega)
    rwa [take_append_le (by omega), List.drop_take, Nat.add_sub_cancel_left, hval] at hgives
  refine ⟨⟨r.named || decide (a.fileName = some (utf16 namedFile)), if a.kind = 0x80 then
    some (at_ + numberAt t (at_ + 0x14) (at_ + 0x16), v.length) else r.data⟩, ?_, rfl, ?_⟩
  · rw [residentValue, (leAt_append (by omega)).bind_iff, (leAt_append (by omega)).bind_iff, hlen]
    dsimp only
    rw [if_pos (by omega), hslice.bind_iff, gives_ite]
    refine ⟨fun hk => ?_, fun hk => ?_⟩
    · rw [(filenameIs_gives (hp hk v hv).2 (by decide)).bind_iff, gives_pure, Attribute.fileName,
        if_pos hk, hv, Option.map_some]
      simp only [Option.some.injEq]
    · rw [((gives_pure).mpr rfl : (pure false : Check Bool).Gives false).bind_iff, gives_pure,
        Attribute.fileName, if_neg hk]
      rfl
  · have hdata : a.data = if a.kind = 0x80 then some v else none := by
      rw [Attribute.data, hv]
      simp only [hn, and_true]
    rw [hdata]
    by_cases hk : a.kind = 0x80
    · rw [if_pos hk, if_pos hk, Option.some_or]
      exact ⟨at_ + numberAt t (at_ + 0x14) (at_ + 0x16), rfl, by omega, hval⟩
    · rw [if_neg hk, if_neg hk, Option.none_or]
      exact hr

/-- The walk finds the name and the value that the attributes have. -/
theorem residentFrom_gives {at_ : Nat} {as : List Attribute} (h : Attributes t at_ as) (fuel : Nat)
    (r : Resident)
    (hfuel : t.length < at_ + 8 * fuel + 8) {old : Option (List UInt8)} (hr : Shows t r.data old) :
    ∃ r', (residentFrom (t ++ z) t.length (utf16 namedFile) fuel at_ r).Gives r' ∧
      r'.named = (r.named || as.any fun a => decide (a.fileName = some (utf16 namedFile))) ∧
      Shows t r'.data (as.foldl (fun v a => a.data.or v) old) := by
  induction h generalizing fuel r old with
  | @ends at_ inside marker =>
    refine ⟨r, ?_, by simp, hr⟩
    cases fuel with
    | zero => exact (gives_pure).mpr rfl
    | succ fuel =>
      rw [residentFrom]
      split
      · rw [(leAt_append (by omega)).bind_iff, (leAt_append (by omega)).bind_iff]
        have hkind : numberAt t at_ (at_ + 4) = 0xffffffff := marker
        rw [if_pos (.inl hkind), gives_pure]
      · exact (gives_pure).mpr rfl
  | @next at_ a as lies proper rest ih =>
    have hlong := lies.long
    have hinside := lies.inside
    have hkind : numberAt t at_ (at_ + 4) = a.kind := lies.kind
    have hlen : numberAt t (at_ + 4) (at_ + 8) = a.length := lies.length
    cases fuel with
    | zero => omega
    | succ fuel =>
      have hgo : ¬(numberAt t at_ (at_ + 4) = 0xffffffff ∨ numberAt t (at_ + 4) (at_ + 8) < 8 ∨
          t.length < at_ + numberAt t (at_ + 4) (at_ + 8)) := by
        have := lies.notEnd
        omega
      have hform : (byteAt (t ++ z) (at_ + 8)).Gives (t.getD (at_ + 8) 0) := by
        have hgives := @gives_byteAt_getD (t ++ z) (at_ + 8) (by rw [List.length_append]; omega)
        rwa [getD_append_lt (by omega)] at hgives
      have hnamed : (byteAt (t ++ z) (at_ + 9)).Gives (t.getD (at_ + 9) 0) := by
        have hgives := @gives_byteAt_getD (t ++ z) (at_ + 9) (by rw [List.length_append]; omega)
        rwa [getD_append_lt (by omega)] at hgives
      have hzero : t.getD (at_ + 9) 0 = 0 ↔ a.nameLength = 0 := by
        rw [← lies.nameLength]
        exact UInt8.toNat_inj.symm
      have hbody : ∃ r₁, ((if t.getD (at_ + 8) 0 = 0 ∧ t.getD (at_ + 9) 0 = 0 then
          residentValue (t ++ z) (utf16 namedFile) at_ (numberAt t (at_ + 4) (at_ + 8))
            (numberAt t at_ (at_ + 4)) r
          else pure r : Check Resident)).Gives r₁ ∧
          r₁.named = (r.named || decide (a.fileName = some (utf16 namedFile))) ∧
            Shows t r₁.data (a.data.or old) := by
        rw [hlen, hkind]
        by_cases hres : t.getD (at_ + 8) 0 = 0 ∧ t.getD (at_ + 9) 0 = 0
        · rw [if_pos hres]
          cases hv : a.value with
          | none => exact absurd hres.1 (lies.nonresident hv)
          | some v => exact residentValue_gives lies proper (hzero.mp hres.2) hv r hr
        · rw [if_neg hres]
          refine ⟨r, (gives_pure).mpr rfl, ?_, ?_⟩
          · have hnone : a.fileName = none := by
              unfold Attribute.fileName
              split
              · rename_i hk
                cases hv : a.value with
                | none => rfl
                | some v => exact absurd ⟨(lies.resident v hv).1, hzero.mpr (proper hk v hv).1⟩ hres
              · rfl
            simp [hnone]
          · have hnone : a.data = none := by
              unfold Attribute.data
              split
              · rename_i hk
                cases hv : a.value with
                | none => rfl
                | some v => exact absurd ⟨(lies.resident v hv).1, hzero.mpr hk.2⟩ hres
              · rfl
            rw [hnone, Option.none_or]
            exact hr
      obtain ⟨r₁, hr₁, hname, hshow⟩ := hbody
      obtain ⟨r', hr', hname', hshow'⟩ := ih fuel r₁ (by omega) hshow
      refine ⟨r', ?_, ?_, hshow'⟩
      · rw [residentFrom, if_pos (by omega), (leAt_append (by omega)).bind_iff,
          (leAt_append (by omega)).bind_iff, if_neg hgo,
          hform.bind_iff, hnamed.bind_iff]
        rw [hlen] at *
        split
        · rename_i hres
          rw [if_pos hres] at hr₁
          exact hr₁.bind_iff.mpr hr'
        · rename_i hres
          rw [if_neg hres] at hr₁
          exact hr₁.bind_iff.mpr hr'
      · rw [hname', hname, List.any_cons, Bool.or_assoc]

end walk

/-! ### One record -/

section record

variable {t raw : List UInt8} {n : Nat} {f : FileRecord}

theorem take_congr {m : Nat} (hlen : raw.length = t.length) (h : ∀ i < m, raw.getD i 0 = t.getD i 0) :
    raw.take m = t.take m := by
  refine List.ext_getElem (by rw [List.length_take, List.length_take, hlen]) fun i hi hi' => ?_
  rw [List.length_take] at hi hi'
  have hget := h i (by omega)
  rw [List.getD_eq_getElem?_getD, List.getD_eq_getElem?_getD, List.getElem?_eq_getElem (by omega),
    List.getElem?_eq_getElem (by omega)] at hget
  rw [List.getElem_take, List.getElem_take]
  exact hget

/-- The record comes out of its sectors, if it is in use. -/
theorem fixedRecord_gives (hf : f.Written t) (hp : Protects n t raw) (hn : 1 ≤ n) (h8 : n ≤ 8) :
    (fixedRecord raw).Gives (if f.inUse then some (t ++ List.replicate (4096 - raw.length) 0)
      else none) := by
  have hsize := hp.size
  have hstored := hp.stored
  have hsign : raw.take 4 = [0x46, 0x49, 0x4c, 0x45] := by
    rw [take_congr hstored fun i hi => hp.others i (sectorEnd_lt (by omega)), hf.sign]
  have hoff : leValue ((raw.take 6).drop 4) = numberAt t 4 6 := hp.header hn (by omega)
  have hcount : leValue ((raw.take 8).drop 6) = numberAt t 6 8 := hp.header hn (by omega)
  have hflags : (leAt (t ++ List.replicate (4096 - raw.length) 0) 0x16 0x18).Gives (numberAt t 0x16 0x18) :=
    leAt_append (by omega)
  rw [fixedRecord, if_neg (by rw [hsign]; simp; omega), (gives_leAt (by omega)).bind_iff,
    (gives_leAt (by omega)).bind_iff,
    if_neg (by omega), hoff, hcount, (applyFixups_gives hp hn).bind_iff]
  dsimp only
  rw [hflags.bind_iff]
  cases hu : f.inUse with
  | true =>
    rw [if_neg (by have := hf.inUse.mp hu; omega), if_pos rfl]
    exact (gives_pure).mpr rfl
  | false =>
    have hodd : ¬numberAt t 0x16 0x18 % 2 = 1 := fun h => by simp [hf.inUse.mpr h] at hu
    rw [if_pos (by omega), if_neg Bool.false_ne_true]
    exact (gives_pure).mpr rfl

/-- The loader finds in a record what the record says of the file. -/
theorem fileInRecord_gives (hf : f.Written t) (hp : Protects n t raw) (hn : 1 ≤ n) (h8 : n ≤ 8) :
    (fileInRecord raw (utf16 namedFile)).Gives ((f.file namedFile).map fun v => filled (v.take 256)) := by
  have hsize := hp.size
  have hstored := hp.stored
  rw [fileInRecord, (fixedRecord_gives hf hp hn h8).bind_iff, FileRecord.file]
  cases f.inUse with
  | false => exact (gives_pure).mpr rfl
  | true =>
    rw [if_pos rfl, Bool.true_and]
    dsimp only
    have hstart : (leAt (t ++ List.replicate (4096 - raw.length) 0) 0x14 0x16).Gives
      (numberAt t 0x14 0x16) :=
      leAt_append (by omega)
    obtain ⟨r, hr, hname, hshow⟩ := @residentFrom_gives t
      (List.replicate (4096 - raw.length) 0) _ _ hf.attributes t.length
      ⟨false, none⟩ (by omega) none rfl
    have hwalk : (residentFile (t ++ List.replicate (4096 - raw.length) 0) raw.length
      (utf16 namedFile)).Gives r := by
      rw [← hstored] at hr
      rw [residentFile, hstart.bind_iff]
      exact hr
    have hnamed : r.named = f.isNamed namedFile := by
      rw [hname, Bool.false_or]
      rfl
    have hdata : Shows t r.data f.data := hshow
    rw [hwalk.bind_iff, hnamed]
    cases f.isNamed namedFile with
    | false => exact (gives_pure).mpr rfl
    | true =>
      rw [if_pos rfl, if_pos rfl]
      cases hv : f.data with
      | none =>
        rw [hv] at hdata
        rw [show r.data = none from hdata]
        exact (gives_pure).mpr rfl
      | some v =>
        rw [hv] at hdata
        obtain ⟨start, hat, hend, hval⟩ := hdata
        have hslice := @gives_slice (t ++ List.replicate (4096 - raw.length) 0) start
          (start + min v.length 256)
          (by rw [List.length_append]; omega)
        have hbytes : ((t ++ List.replicate (4096 - raw.length) 0).take
          (start + min v.length 256)).drop start = v.take 256 := by
          rw [take_append_le (by omega), List.drop_take, Nat.add_sub_cancel_left, Nat.min_comm,
            ← List.take_take, hval]
        rw [hat]
        dsimp only
        rw [hslice.bind_iff, hbytes]
        exact (gives_pure).mpr rfl

end record

/-! ### The volume -/

namespace NtfsVolume

variable (v : NtfsVolume)

/-- Sectors in a cluster. -/
def clusterSectors : Nat := (v.boot.byte 0x0d).toNat

/-- The first sector of the record with this number. -/
def recordLba (i : Nat) : Nat := v.boot.field 0x30 0x38 * v.clusterSectors + i * v.sectors

theorem sectors_bounds : 1 ≤ v.sectors ∧ v.sectors ≤ 8 := by
  have := v.sizes
  simp only [List.mem_cons, List.not_mem_nil, or_false] at this
  omega

theorem readRecord_gives {raw : List UInt8} {lba n s : Nat} (hlba : lba + v.sectors ≤ 2 ^ 64)
    (hraw : raw.length = 512 * v.sectors)
    (hdisk : ∀ s < v.sectors, ∃ sector, v.disk (lba + s) = some sector ∧ sector.bytes =
      (raw.drop (512 * s)).take 512)
    (hn : s + n = v.sectors) :
    (readRecord (readDisk v.disk) lba n s (raw.take (512 * s))).Gives (some raw) := by
  induction n generalizing s with
  | zero =>
    rw [readRecord, gives_pure, List.take_of_length_le (by omega)]
  | succ n ih =>
    obtain ⟨sector, hsector, hbytes⟩ := hdisk s (by omega)
    have hadd : (add64 lba s).Gives (lba + s) := (gives_add64).mpr ⟨by omega, rfl⟩
    have hread : (readDisk v.disk (lba + s)).Gives (some sector) := by
      rw [readDisk, hsector]
      exact (gives_tick).mpr rfl
    have hnext : raw.take (512 * s) ++ sector.bytes = raw.take (512 * (s + 1)) := by
      rw [hbytes, show 512 * (s + 1) = 512 * s + 512 by omega, List.take_add]
    rw [readRecord, hadd.bind_iff, hread.bind_iff]
    dsimp only
    rw [hnext]
    exact ih (by omega)

theorem mftRecordBytes_gives : (mftRecordBytes (v.boot.byte 0x40) v.clusterSectors).Gives
    (512 * v.sectors) := by
  have hbounds := v.sectors_bounds
  unfold mftRecordBytes
  dsimp only
  rcases v.encoded with ⟨hpos, hsize⟩ | ⟨hneg, hsize⟩
  · have hsize : (v.boot.byte 0x40).toBitVec.toInt.toNat * v.clusterSectors * 512 = 512 * v.sectors := hsize
    have hsmall : (v.boot.byte 0x40).toBitVec.toInt.toNat * v.clusterSectors = v.sectors := by omega
    have hmul : (mul64 (v.boot.byte 0x40).toBitVec.toInt.toNat v.clusterSectors).Gives v.sectors :=
      (gives_mul64).mpr ⟨by omega, hsmall⟩
    rw [if_pos hpos, hmul.bind_iff]
    exact (gives_mul64).mpr ⟨by omega, Nat.mul_comm _ _⟩
  · have hlt : (v.boot.byte 0x40).toBitVec.toInt.natAbs < 64 := by
      by_contra hge
      have hle : 2 ^ 64 ≤ 2 ^ (v.boot.byte 0x40).toBitVec.toInt.natAbs :=
        Nat.pow_le_pow_right (by omega) (by omega)
      omega
    rw [if_neg (by omega), gives_ensure_bind]
    exact ⟨hlt, (gives_pure).mpr hsize⟩

theorem loadRecords_gives {n i : Nat} (h : i + n = 64) :
    (loadRecords (readDisk v.disk) ⟨v.boot.field 0x30 0x38, v.clusterSectors, 512 * v.sectors⟩ n i).Gives
      (fileReport ((List.range' i n).map v.records)) := by
  induction n generalizing i with
  | zero => exact (gives_pure).mpr rfl
  | succ n ih =>
    have hbounds := v.sectors_bounds
    obtain ⟨raw, hp, hdisk⟩ := v.stored i (by omega)
    have haddressed : v.boot.field 0x30 0x38 * v.clusterSectors + 64 * v.sectors ≤ 2 ^ 64 := v.addressed
    have hraw : raw.length = 512 * v.sectors := hp.stored.trans hp.size
    have hle : i * v.sectors + v.sectors ≤ 64 * v.sectors := by
      rw [← Nat.succ_mul]
      exact Nat.mul_le_mul_right _ (by omega)
    have hbase : (mul64 (v.boot.field 0x30 0x38) v.clusterSectors).Gives
      (v.boot.field 0x30 0x38 * v.clusterSectors) :=
      (gives_mul64).mpr ⟨by omega, rfl⟩
    have hoff : (mul64 i v.sectors).Gives (i * v.sectors) := (gives_mul64).mpr ⟨by omega, rfl⟩
    have hlba : (add64 (v.boot.field 0x30 0x38 * v.clusterSectors) (i * v.sectors)).Gives (v.recordLba i) :=
      (gives_add64).mpr ⟨by omega, rfl⟩
    have hread : (readRecord (readDisk v.disk) (v.recordLba i) v.sectors 0 []).Gives (some raw) :=
      @readRecord_gives v raw (v.recordLba i) v.sectors 0 (by unfold recordLba; omega) hraw hdisk
        (Nat.zero_add _)
    rw [List.range'_succ, List.map_cons, loadRecords, hbase.bind_iff]
    dsimp only
    rw [Nat.mul_div_cancel_left _ (by decide), hoff.bind_iff, hlba.bind_iff, hread.bind_iff]
    dsimp only
    rw [take_append_le hraw.ge, List.take_of_length_le hraw.le,
      (fileInRecord_gives (v.written i (by omega)) hp hbounds.1 hbounds.2).bind_iff, fileReport,
        List.findSome?_cons]
    cases (v.records i).file namedFile with
    | some found => exact (gives_pure).mpr rfl
    | none => exact ih (by omega)

end NtfsVolume

/-- The loader reports the file of the first record that is in use, has the name and has its bytes,
or that there is none. -/
theorem loadNamed_ntfs (v : NtfsVolume) : (loadNamed (readDisk v.disk)).Gives v.report := by
  have hbounds := v.sectors_bounds
  have hspc := v.spc
  have hboot : (readDisk v.disk 0).Gives (some v.boot) := by
    rw [readDisk, v.boots]
    exact (gives_tick).mpr rfl
  have hntfs : isNtfs v.boot = true := decide_eq_true (v.signed.trans (by decide +kernel))
  have hcluster : ¬v.boot.byte 0x0d = 0 := by
    intro h
    rw [h] at hspc
    exact absurd hspc.1 (by decide)
  rw [loadNamed, hboot.bind_iff]
  dsimp only
  rw [if_pos hntfs, loadNtfs, if_neg (by rw [v.sectorBytes]; decide), if_neg hcluster]
  dsimp only
  have hrecord : (mftRecordBytes (v.boot.byte 0x40) (v.boot.byte 0x0d).toNat).Gives
    (512 * v.sectors) := v.mftRecordBytes_gives
  rw [hrecord.bind_iff, if_neg (by omega)]
  have hload := v.loadRecords_gives (n := 64) (i := 0) rfl
  rw [← List.range_eq_range'] at hload
  exact hload

/-! ### A volume whose file crosses the end of a sector -/

/-- A record of two sectors, with the name in its first attribute and 304 bytes `A` in the second. -/
def sampleRecord : List UInt8 := (List.range 1024).map fun i =>
  if 392 ≤ i ∧ i < 696 then 0x41
  else ([(0, 0x46), (1, 0x49), (2, 0x4c), (3, 0x45), (4, 0x30), (6, 3), (0x14, 56), (0x16, 1),
    (0x30, 5), (0x32, 0x41), (0x33, 0x41),
    (56, 0x30), (60, 0x38), (61, 1), (72, 84), (76, 24), (144, 9), (368, 0x80), (372, 0x48),
      (373, 1), (384, 0x30), (385, 1), (388, 24),
    (696, 0xff), (697, 0xff), (698, 0xff), (699, 0xff)] ++ ((List.range 18).map (146 + ·)).zip
      (utf16 namedFile)).lookup i |>.getD 0

/-- The record as it is stored. -/
def sampleStored : List UInt8 := (((sampleRecord.set 510 5).set 511 0).set 1022 5).set 1023 0

def sampleName : Attribute := ⟨0x30, 312, 0, some ((sampleRecord.drop 80).take 84)⟩

def sampleData : Attribute := ⟨0x80, 328, 0, some (List.replicate 304 0x41)⟩

def sampleFile : FileRecord := ⟨true, [sampleName, sampleData]⟩

theorem sampleRecord_length : sampleRecord.length = 1024 := by
  rw [sampleRecord, List.length_map, List.length_range]

theorem sampleFile_written : sampleFile.Written sampleRecord where
  sign := by decide +kernel
  inUse := by decide +kernel
  attributes := by
    have hstart : numberAt sampleRecord 0x14 0x16 = 56 := by decide +kernel
    rw [hstart]
    refine .next (a := sampleName)
      ⟨by decide +kernel, by decide, by decide +kernel, by decide, by decide +kernel, by decide +kernel,
      nofun, ?_⟩ ?_ (.next (a := sampleData)
        ⟨by decide +kernel, by decide, by decide +kernel, by decide, by decide +kernel,
        by decide +kernel, nofun, ?_⟩ nofun (.ends (by decide +kernel) (by decide +kernel)))
    · intro v hv
      have hv : v = (sampleRecord.drop 80).take 84 := (Option.some.inj hv).symm
      rw [hv]
      decide +kernel
    · intro _ v hv
      have hv : v = (sampleRecord.drop 80).take 84 := (Option.some.inj hv).symm
      rw [hv]
      decide +kernel
    · intro v hv
      have hv : v = List.replicate 304 0x41 := (Option.some.inj hv).symm
      rw [hv]
      decide +kernel

theorem sectorEnd_two (i : Nat) : SectorEnd 2 i ↔ i = 510 ∨ i = 511 ∨ i = 1022 ∨ i = 1023 := by
  constructor
  · rintro ⟨k, hk, hk2, hi⟩
    omega
  · rintro (rfl | rfl | rfl | rfl)
    · exact ⟨1, by decide, by decide, .inl rfl⟩
    · exact ⟨1, by decide, by decide, .inr rfl⟩
    · exact ⟨2, by decide, by decide, .inl rfl⟩
    · exact ⟨2, by decide, by decide, .inr rfl⟩

theorem sampleStored_protects : Protects 2 sampleRecord sampleStored where
  size := sampleRecord_length
  stored := by simp only [sampleStored, List.length_set]
  count := by decide +kernel
  inside := by decide +kernel
  apart i hi := by
    have hoff : numberAt sampleRecord 4 6 = 48 := by decide +kernel
    rw [hoff]
    rw [sectorEnd_two] at hi
    omega
  kept k hk hk2 := by
    interval_cases k
    · decide +kernel
    · decide +kernel
  ends k hk hk2 := by
    interval_cases k
    · decide +kernel
    · decide +kernel
  others i hi := by
    rw [sectorEnd_two] at hi
    have hlen := sampleRecord_length
    unfold sampleStored
    rw [getD_set (by simp only [List.length_set]; omega), getD_set (by simp only [List.length_set]; omega),
      getD_set (by simp only [List.length_set]; omega), getD_set (by omega), if_neg (by omega),
        if_neg (by omega), if_neg (by omega),
      if_neg (by omega)]

def sampleSector (s : Nat) (h : s < 2) : Sector :=
  ⟨(sampleStored.drop (512 * s)).take 512, by
    have hlen : sampleStored.length = 1024 := sampleStored_protects.stored.trans sampleRecord_length
    rw [List.length_take, List.length_drop]
    omega⟩

def sampleNtfsBoot : Sector :=
  ⟨(List.range 512).map fun i => ([(3, 0x4e), (4, 0x54), (5, 0x46), (6, 0x53), (7, 0x20), (8, 0x20),
    (9, 0x20), (10, 0x20), (0x0c, 2),
    (0x0d, 1), (0x30, 1), (0x40, 2)] : List (Nat × UInt8)).lookup i |>.getD 0,
      by rw [List.length_map, List.length_range]⟩

/-- The same record 64 times, behind the boot sector. -/
def sampleNtfs : NtfsVolume where
  disk lba := if lba = 0 then some sampleNtfsBoot
    else some (sampleSector ((lba - 1) % 2) (Nat.mod_lt _ (by decide)))
  boot := sampleNtfsBoot
  sectors := 2
  content _ := sampleRecord
  records _ := sampleFile
  boots := rfl
  signed := by decide +kernel
  sectorBytes := by decide +kernel
  spc := by decide +kernel
  sizes := by decide
  encoded := .inl (by decide +kernel)
  addressed := by decide +kernel
  stored i _ := by
    refine ⟨sampleStored, sampleStored_protects, fun s hs => ⟨_, if_neg ?_, ?_⟩⟩
    · have hlcn : sampleNtfsBoot.field 0x30 0x38 * (sampleNtfsBoot.byte 0x0d).toNat = 1 := by decide +kernel
      omega
    · have hlcn : sampleNtfsBoot.field 0x30 0x38 * (sampleNtfsBoot.byte 0x0d).toNat = 1 := by decide +kernel
      have hmod : (sampleNtfsBoot.field 0x30 0x38 * (sampleNtfsBoot.byte 0x0d).toNat + i * 2 +
        s - 1) % 2 = s := by omega
      simp only [sampleSector, hmod]
  written _ _ := sampleFile_written

theorem loadNamed_ntfs_sample : (loadNamed (readDisk sampleNtfs.disk)).Gives
    (filled (List.replicate 256 0x41)) := by
  have hgives := loadNamed_ntfs sampleNtfs
  have hreport : sampleNtfs.report = filled (List.replicate 256 0x41) := by decide +kernel
  rwa [hreport] at hgives

end Lerux.Swift

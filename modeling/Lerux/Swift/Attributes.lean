import Lerux.Swift.Nvme

/-!
# The attributes of a record

Which records crash `file_in_record`: the walk over the attributes checks that an attribute is
inside the record and reads its header, of 10 or 22 bytes, without a look at its length
(`AttrInside`). Nothing else of a record is read out of range (`fileInRecord_runs`).
-/

namespace Lerux.Swift

open Check

/-! ### The walk -/

def attrKind (fixed : List UInt8) (attr : Nat) : Nat := leValue ((fixed.take (attr + 4)).drop attr)

def attrLen (fixed : List UInt8) (attr : Nat) : Nat := leValue ((fixed.take (attr + 8)).drop (attr + 4))

/-- The walk looks into the attribute and goes on behind it. -/
structure AttrGoes (fixed : List UInt8) (rawLen attr : Nat) : Prop where
  head : attr + 8 ≤ rawLen
  kind : attrKind fixed attr ≠ 0xffffffff
  len : 8 ≤ attrLen fixed attr
  inside : attr + attrLen fixed attr ≤ rawLen

/-- The walk comes from one offset to another. -/
inductive AttrFrom (fixed : List UInt8) (rawLen : Nat) : Nat → Nat → Prop
  | here (attr : Nat) : AttrFrom fixed rawLen attr attr
  | next {attr b : Nat} (h : AttrGoes fixed rawLen attr)
      (hrest : AttrFrom fixed rawLen (attr + attrLen fixed attr) b) :
    AttrFrom fixed rawLen attr b

/-- The header of the attribute ends in the buffer. -/
def AttrInside (fixed : List UInt8) (attr : Nat) : Prop :=
  attr + 10 ≤ fixed.length ∧
    (fixed.getD (attr + 8) 0 = 0 ∧ fixed.getD (attr + 9) 0 = 0 → attr + 0x16 ≤ fixed.length)

def WalkSafe (fixed : List UInt8) (rawLen attr : Nat) : Prop :=
  ∀ b, AttrFrom fixed rawLen attr b → AttrGoes fixed rawLen b → AttrInside fixed b

section walk

variable {fixed want : List UInt8} {rawLen attr : Nat}

theorem walkSafe_goes (h : AttrGoes fixed rawLen attr) :
    WalkSafe fixed rawLen attr ↔ AttrInside fixed attr ∧
      WalkSafe fixed rawLen (attr + attrLen fixed attr) := by
  constructor
  · exact fun hsafe => ⟨hsafe attr (.here attr) h, fun b hb => hsafe b (.next h hb)⟩
  · rintro ⟨hinside, hrest⟩ b hb hgoes
    cases hb with
    | here => exact hinside
    | next _ hb => exact hrest b hb hgoes

theorem walkSafe_stops (h : ¬AttrGoes fixed rawLen attr) : WalkSafe fixed rawLen attr := by
  intro b hb hgoes
  cases hb with
  | here => exact absurd hgoes h
  | next hgo _ => exact absurd hgo h

theorem filenameIs_runs (value want : List UInt8) : (filenameIs value want).Runs := by
  unfold filenameIs
  rw [runs_ite]
  refine ⟨fun _ => runs_pure, fun hlen => ?_⟩
  rw [(gives_byteAt_getD (by omega)).runs_bind_iff, runs_ite]
  refine ⟨fun _ => runs_pure, fun hunits => ?_⟩
  rw [not_or] at hunits
  rw [(gives_slice (by omega)).runs_bind_iff]
  exact runs_pure

/-- The value, whose end is checked, is in range if the two numbers that say where it is are. -/
theorem residentValue_runs {kind len : Nat} {r : Resident} (hlen : attr + len ≤ fixed.length) :
    (residentValue fixed want attr len kind r).Runs ↔ attr + 0x16 ≤ fixed.length := by
  constructor
  · intro h
    rw [residentValue, runs_bind] at h
    obtain ⟨_, -, h⟩ := h
    rw [runs_bind] at h
    obtain ⟨_, hoff, -⟩ := h
    exact ((runs_leAt).mp hoff.runs).2
  · intro h
    rw [residentValue, (gives_leAt (by omega)).runs_bind_iff, (gives_leAt (by omega)).runs_bind_iff]
    dsimp only
    rw [runs_ite]
    refine ⟨fun hend => ?_, fun _ => runs_pure⟩
    rw [(gives_slice (by omega)).runs_bind_iff, runs_ite]
    refine ⟨fun _ => (runs_bind).mpr ?_, fun _ => (runs_bind).mpr ⟨false, (gives_pure).mpr rfl, runs_pure⟩⟩
    obtain ⟨isName, hname⟩ := filenameIs_runs ((fixed.take _).drop _) want
    exact ⟨isName, hname, runs_pure⟩

/-- The bytes of the file are in the buffer. -/
def Resident.Inside (fixed : List UInt8) (r : Resident) : Prop := ∀ p ∈ r.data, p.1 + p.2 ≤ fixed.length

theorem residentValue_inside {kind len : Nat} {r r' : Resident} (hlen : attr + len ≤ fixed.length)
    (hr : r.Inside fixed)
    (h : (residentValue fixed want attr len kind r).Gives r') : r'.Inside fixed := by
  rw [residentValue, gives_bind] at h
  obtain ⟨valueLen, -, h⟩ := h
  rw [gives_bind] at h
  obtain ⟨valueOff, -, h⟩ := h
  dsimp only at h
  split at h
  · next hend =>
    rw [gives_bind] at h
    obtain ⟨value, -, h⟩ := h
    have hdata : ∃ isName, r' = ⟨r.named || isName,
        if kind = 0x80 then some (attr + valueOff, valueLen) else r.data⟩ := by
      split at h
      · obtain ⟨isName, -, h⟩ := (gives_bind).mp h
        exact ⟨isName, ((gives_pure).mp h).symm⟩
      · obtain ⟨isName, -, h⟩ := (gives_bind).mp h
        exact ⟨isName, ((gives_pure).mp h).symm⟩
    obtain ⟨isName, rfl⟩ := hdata
    intro p hp
    dsimp only at hp
    split at hp
    · cases hp
      dsimp only
      omega
    · exact hr p hp
  · rw [gives_pure] at h
    rwa [← h]

/-- The walk reads out of range exactly where the header of an attribute it comes to does not end in
the buffer. -/
theorem residentFrom_runs (fuel : Nat) (r : Resident) (hraw : rawLen ≤ fixed.length)
    (hfuel : rawLen < attr + 8 * fuel + 8) :
    (residentFrom fixed rawLen want fuel attr r).Runs ↔ WalkSafe fixed rawLen attr := by
  induction fuel generalizing attr r with
  | zero =>
    have hstop : ¬AttrGoes fixed rawLen attr := fun h => absurd h.head (by omega)
    exact iff_of_true runs_pure (walkSafe_stops hstop)
  | succ fuel ih =>
    rw [residentFrom]
    by_cases hhead : attr + 8 ≤ rawLen
    · rw [if_pos hhead, (gives_leAt (by omega)).runs_bind_iff, (gives_leAt (by omega)).runs_bind_iff]
      by_cases hstop : attrKind fixed attr = 0xffffffff ∨ attrLen fixed attr < 8 ∨ rawLen <
        attr + attrLen fixed attr
      · have hgoes : ¬AttrGoes fixed rawLen attr := by
          intro h
          have := h.kind
          have := h.len
          have := h.inside
          omega
        rw [attrKind, attrLen] at hstop
        rw [if_pos hstop]
        exact iff_of_true runs_pure (walkSafe_stops hgoes)
      · have hgoes : AttrGoes fixed rawLen attr := ⟨hhead, by tauto, by omega, by omega⟩
        have hinside := hgoes.inside
        have hrest : ∀ r', (residentFrom fixed rawLen want fuel (attr + attrLen fixed attr) r').Runs ↔
            WalkSafe fixed rawLen (attr + attrLen fixed attr) := by
          intro r'
          have := hgoes.len
          exact ih r' (by omega)
        rw [walkSafe_goes hgoes, AttrInside]
        rw [attrKind, attrLen] at hstop
        rw [if_neg hstop]
        by_cases hhdr : attr + 10 ≤ fixed.length
        · rw [(gives_byteAt_getD (by omega)).runs_bind_iff,
            (gives_byteAt_getD (by omega)).runs_bind_iff, runs_ite]
          by_cases hvalue : fixed.getD (attr + 8) 0 = 0 ∧ fixed.getD (attr + 9) 0 = 0
          · have hruns := @residentValue_runs fixed want attr (attrKind fixed attr) _ r (hinside.trans hraw)
            constructor
            · intro h
              obtain ⟨r', hr', hgo⟩ := (runs_bind).mp (h.1 hvalue)
              exact ⟨⟨hhdr, fun _ => hruns.mp hr'.runs⟩, (hrest r').mp hgo⟩
            · rintro ⟨⟨-, hlong⟩, hsafe⟩
              obtain ⟨r', hr'⟩ := hruns.mpr (hlong hvalue)
              exact ⟨fun _ => (runs_bind).mpr ⟨r', hr', (hrest r').mpr hsafe⟩, fun h => absurd hvalue h⟩
          · constructor
            · intro h
              obtain ⟨r', -, hgo⟩ := (runs_bind).mp (h.2 hvalue)
              exact ⟨⟨hhdr, fun h => absurd h hvalue⟩, (hrest r').mp hgo⟩
            · rintro ⟨-, hsafe⟩
              exact ⟨fun h => absurd h hvalue,
                fun _ => (runs_bind).mpr ⟨r, (gives_pure).mpr rfl, (hrest r).mpr hsafe⟩⟩
        · refine iff_of_false (fun h => ?_) fun h => hhdr h.1.1
          obtain ⟨_, -, h⟩ := (runs_bind).mp h
          obtain ⟨_, hlast, -⟩ := (runs_bind).mp h
          have := (runs_byteAt).mp hlast.runs
          omega
    · have hgoes : ¬AttrGoes fixed rawLen attr := fun h => hhead h.head
      rw [if_neg hhead]
      exact iff_of_true runs_pure (walkSafe_stops hgoes)

theorem residentFrom_inside (fuel : Nat) {r r' : Resident} (hraw : rawLen ≤ fixed.length)
    (hr : r.Inside fixed)
    (h : (residentFrom fixed rawLen want fuel attr r).Gives r') : r'.Inside fixed := by
  induction fuel generalizing attr r with
  | zero =>
    rw [residentFrom, gives_pure] at h
    rwa [← h]
  | succ fuel ih =>
    rw [residentFrom] at h
    by_cases hhead : attr + 8 ≤ rawLen
    · rw [if_pos hhead, gives_bind] at h
      obtain ⟨kind, -, h⟩ := h
      obtain ⟨len, -, h⟩ := (gives_bind).mp h
      by_cases hstop : kind = 0xffffffff ∨ len < 8 ∨ rawLen < attr + len
      · rw [if_pos hstop, gives_pure] at h
        rwa [← h]
      · rw [if_neg hstop] at h
        obtain ⟨nonresident, -, h⟩ := (gives_bind).mp h
        obtain ⟨nameLen, -, h⟩ := (gives_bind).mp h
        dsimp only at h
        split at h
        · obtain ⟨found, hfound, h⟩ := (gives_bind).mp h
          exact ih (residentValue_inside (by omega) hr hfound) h
        · obtain ⟨found, hfound, h⟩ := (gives_bind).mp h
          rw [gives_pure] at hfound
          subst hfound
          exact ih hr h
    · rw [if_neg hhead, gives_pure] at h
      rwa [← h]

end walk

/-! ### The record -/

section record

variable {raw fixed want : List UInt8}

theorem fixupSectors_spec (signature usaOff n sector : Nat) (h : usaOff + (sector + n) * 2 ≤ raw.length) :
    ∃ r, (fixupSectors signature usaOff n sector raw).Gives r ∧ ∀ fixed ∈ r, fixed.length = raw.length := by
  induction n generalizing sector raw with
  | zero => exact ⟨some raw, (gives_pure).mpr rfl, by simp⟩
  | succ n ih =>
    rw [fixupSectors]
    by_cases hend : raw.length < sector * 512 - 2 + 2
    · exact ⟨none, by rw [if_pos hend]; exact (gives_pure).mpr rfl, by simp⟩
    · rw [if_neg hend]
      have hfound := gives_leAt (show sector * 512 - 2 ≤ sector * 512 - 2 + 2 ∧
        sector * 512 - 2 + 2 ≤ raw.length by omega)
      by_cases hsig : leValue ((raw.take (sector * 512 - 2 + 2)).drop (sector * 512 - 2)) ≠ signature
      · refine ⟨none, ?_, by simp⟩
        rw [hfound.bind_iff, if_pos hsig, gives_pure]
      · have hlow := gives_byteAt_getD (show usaOff + sector * 2 < raw.length by omega)
        have hhigh := @gives_byteAt_getD (raw.set (sector * 512 - 2) (raw.getD (usaOff + sector * 2) 0))
          (usaOff + sector * 2 + 1) (by rw [List.length_set]; omega)
        obtain ⟨r, hr, hlen⟩ := @ih ((raw.set (sector * 512 - 2)
          (raw.getD (usaOff + sector * 2) 0)).set (sector * 512 - 2 + 1)
          ((raw.set (sector * 512 - 2) (raw.getD (usaOff + sector * 2) 0)).getD
            (usaOff + sector * 2 + 1) 0)) (sector + 1)
          (by rw [List.length_set, List.length_set]; omega)
        refine ⟨r, ?_, fun fixed hfixed => ?_⟩
        · rw [hfound.bind_iff, if_neg hsig, hlow.bind_iff, hhigh.bind_iff]
          exact hr
        · rw [hlen fixed hfixed, List.length_set, List.length_set]

theorem applyFixups_spec (usaOff usaCount : Nat) :
    ∃ r, (applyFixups raw usaOff usaCount).Gives r ∧ ∀ fixed ∈ r, fixed.length = raw.length := by
  unfold applyFixups
  by_cases h : usaCount < 2 ∨ raw.length < usaOff + usaCount * 2
  · exact ⟨none, by rw [if_pos h]; exact (gives_pure).mpr rfl, by simp⟩
  · obtain ⟨r, hr, hlen⟩ := @fixupSectors_spec raw
      (leValue ((raw.take (usaOff + 2)).drop usaOff)) usaOff (usaCount - 1) 1
      (by omega)
    refine ⟨r, ?_, hlen⟩
    rw [if_neg h, (gives_leAt (by omega)).bind_iff]
    exact hr

theorem fixedRecord_spec (raw : List UInt8) :
    ∃ r, (fixedRecord raw).Gives r ∧ ∀ fixed ∈ r, fixed.length = 4096 ∧ 0x40 ≤ raw.length ∧
      raw.length ≤ 4096 := by
  unfold fixedRecord
  by_cases hfile : raw.length < 0x40 ∨ raw.take 4 ≠ [0x46, 0x49, 0x4c, 0x45]
  · exact ⟨none, by rw [if_pos hfile]; exact (gives_pure).mpr rfl, by simp⟩
  · rw [if_neg hfile]
    have hoff := gives_leAt (show 4 ≤ 6 ∧ 6 ≤ raw.length by omega)
    have hcount := gives_leAt (show 6 ≤ 8 ∧ 8 ≤ raw.length by omega)
    by_cases hlong : 4096 < raw.length
    · refine ⟨none, ?_, by simp⟩
      rw [hoff.bind_iff, hcount.bind_iff, if_pos hlong, gives_pure]
    · obtain ⟨r, hr, hlen⟩ := @applyFixups_spec raw (leValue ((raw.take 6).drop 4))
        (leValue ((raw.take 8).drop 6))
      cases r with
      | none =>
        refine ⟨none, ?_, by simp⟩
        rw [hoff.bind_iff, hcount.bind_iff, if_neg hlong, hr.bind_iff, gives_pure]
      | some fixed =>
        have hsize : (fixed ++ List.replicate (4096 - raw.length) 0).length = 4096 := by
          rw [List.length_append, List.length_replicate, hlen fixed rfl]
          omega
        have hflags := @gives_leAt (fixed ++ List.replicate (4096 - raw.length) 0) 0x16 0x18 (by omega)
        refine ⟨if leValue (((fixed ++ List.replicate (4096 - raw.length) 0).take 0x18).drop
          0x16) % 2 = 0 then none else
          some (fixed ++ List.replicate (4096 - raw.length) 0), ?_, ?_⟩
        · rw [hoff.bind_iff, hcount.bind_iff, if_neg hlong, hr.bind_iff]
          dsimp only
          rw [hflags.bind_iff]
          split
          · exact (gives_pure).mpr rfl
          · exact (gives_pure).mpr rfl
        · intro fixed' hfixed
          split at hfixed
          · cases hfixed
          · cases hfixed
            exact ⟨hsize, by omega, by omega⟩

/-- The walk of a record reads in range. -/
def RecordSafe (raw : List UInt8) : Prop :=
  ∀ fixed, (fixedRecord raw).Gives (some fixed) →
    WalkSafe fixed raw.length (leValue ((fixed.take 0x16).drop 0x14))

/-- A record crashes the loader exactly if the walk over its attributes does. -/
theorem fileInRecord_runs : (fileInRecord raw want).Runs ↔ RecordSafe raw := by
  obtain ⟨r, hr, hsize⟩ := fixedRecord_spec raw
  unfold fileInRecord RecordSafe
  rw [hr.runs_bind_iff]
  cases r with
  | none => exact iff_of_true runs_pure fun fixed hfixed => absurd (hr.unique hfixed) (by simp)
  | some fixed =>
    obtain ⟨hlen, hlow, hhigh⟩ := hsize fixed rfl
    have hfirst := gives_leAt (show 0x14 ≤ 0x16 ∧ 0x16 ≤ fixed.length by omega)
    have hwalk := @residentFrom_runs fixed want raw.length
      (leValue ((fixed.take 0x16).drop 0x14)) raw.length ⟨false, none⟩
      (by omega) (by omega)
    have hsafe : (∀ fixed', (fixedRecord raw).Gives (some fixed') →
        WalkSafe fixed' raw.length (leValue ((fixed'.take 0x16).drop 0x14))) ↔
        WalkSafe fixed raw.length (leValue ((fixed.take 0x16).drop 0x14)) := by
      constructor
      · exact fun h => h fixed hr
      · intro h fixed' hfixed
        cases hr.unique hfixed
        exact h
    rw [hsafe, ← hwalk]
    dsimp only
    rw [runs_bind]
    constructor
    · rintro ⟨found, hfound, -⟩
      rw [residentFile, hfirst.bind_iff] at hfound
      exact hfound.runs
    · rintro ⟨found, hfound⟩
      have hinside := residentFrom_inside raw.length (by omega) (fun p hp => by cases hp) hfound
      refine ⟨found, ?_, ?_⟩
      · rw [residentFile, hfirst.bind_iff]
        exact hfound
      · rw [runs_ite]
        refine ⟨fun _ => ?_, fun _ => runs_pure⟩
        cases hdata : found.data with
        | none => exact runs_pure
        | some p =>
          have hend := hinside p hdata
          dsimp only
          rw [(gives_slice (by omega)).runs_bind_iff]
          exact runs_pure

end record

end Lerux.Swift

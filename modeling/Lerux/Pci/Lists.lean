import Mathlib.Data.List.Perm.Subperm
import Mathlib.Data.List.Iterate
import Lerux.Pci.Walks

/-!
# What the walks find

For each walk, `Meets` says that it ends without a sum that does not fit in eight bits, that it
writes only dwords of capabilities for MSI and MSI-X on the list, and that on a well-formed list it
finds the first capability of its kind. A list of distinct aligned pointers has 48 at most
(`WellFormed.length_le`), so the 48 rounds of the 82574 driver and of lerux-swift are enough; the 32
of the console driver are not, and the AHCI driver goes round a list that comes back to itself.

A walk is followed by induction on its rounds or along the chain: `Near` keeps what a masked pointer
stands for, `SameHeads` that the writes of the 82574 driver leave the chain as it is, and `loop_eq`
reads the console driver's walk off the pointers it visits.
-/

namespace Lerux.Pci

open Config

section

variable {α β : Type} {bus : Bus}

@[simp] theorem pure_apply (a : α) : (pure a : Config α) bus = (some a, bus) := rfl

@[simp] theorem readConfig_bind (reg : Nat) (f : Word → Config β) : (readConfig reg >>= f) bus =
    f (bus.space (reg / 4)) bus := rfl

@[simp] theorem writeConfig_bind (reg : Nat) (value : Word) (f : Unit → Config β) :
    (writeConfig reg value >>= f) bus =
      f () { bus with space := Function.update bus.space (reg / 4) value, writes := bus.writes ++
        [(reg / 4, value)] } := rfl

@[simp] theorem writeConfig_apply (reg : Nat) (value : Word) :
    writeConfig reg value bus =
      (some (), { bus with space := Function.update bus.space (reg / 4) value, writes := bus.writes ++ [(reg / 4, value)] }) := rfl

@[simp] theorem write32_bind (reg value : Word) (f : Unit → Config β) :
    (write32 reg value >>= f) bus = f () { bus with mmio := bus.mmio ++ [(reg, value)] } := rfl

theorem bind_apply (m : Config α) (f : α → Config β) :
    (m >>= f) bus = match m bus with | (none, bus) => (none, bus) | (some a, bus) => f a bus := rfl

theorem offset_bind {capPtr k : Nat} (h : capPtr + k < 256) (f : Nat → Config β) :
    (offset capPtr k >>= f) bus = f (capPtr + k) bus := by
  simp only [bind_apply, offset, if_pos h]

theorem offset_bind_not {capPtr k : Nat} (h : ¬ capPtr + k < 256) (f : Nat → Config β) :
    (offset capPtr k >>= f) bus = (none, bus) := by
  simp only [bind_apply, offset, if_neg h]

end

/-! ### Programming a capability -/

/-- All that is written is in the dwords of a capability. -/
def WritesAt (p last : Nat) (before after : List (Nat × Word)) : Prop :=
  ∃ ws, after = before ++ ws ∧ ∀ w ∈ ws, p / 4 ≤ w.1 ∧ w.1 ≤ p / 4 + last

namespace WritesAt

variable {p last k : Nat} {before after : List (Nat × Word)} {value : Word}

theorem refl : WritesAt p last before before := ⟨[], (List.append_nil _).symm, by simp⟩

theorem write (h : WritesAt p last before after) (hk : k / 4 ≤ last) (hk4 : k % 4 = 0) :
    WritesAt p last before (after ++ [((p + k) / 4, value)]) := by
  obtain ⟨ws, rfl, hws⟩ := h
  refine ⟨ws ++ [((p + k) / 4, value)], List.append_assoc .., ?_⟩
  intro w hw
  rcases List.mem_append.mp hw with hw | hw
  · exact hws w hw
  · obtain rfl := List.mem_singleton.mp hw
    simp only
    omega

theorem mono {last' : Nat} (h : WritesAt p last before after) (hle : last ≤ last') :
    WritesAt p last' before after := by
  obtain ⟨ws, rfl, hws⟩ := h
  refine ⟨ws, rfl, fun w hw => ?_⟩
  have hw := hws w hw
  omega

theorem write_header (h : WritesAt p last before after) :
    WritesAt p last before (after ++ [(p / 4, value)]) :=
  h.write (k := 0) (Nat.zero_le _) rfl

end WritesAt

/-- How far the message of a capability reaches. -/
def reach (header : Word) : Nat := if Wide header then 3 else 2

variable {p : Nat} {header : Word} {bus : Bus}

namespace Ahci

theorem programCap_spec (p : Nat) (header : Word) (bus : Bus) :
    WritesAt p (reach header) bus.writes (programCap p header bus).2.writes ∧
      if p + 4 * reach header < 256 then
        (programCap p header bus).1 = some () ∧
          ∃ v, (programCap p header bus).2.writes.getLast? = some (p / 4, v) ∧ v.getLsbD 16 = true
      else (programCap p header bus).1 = none := by
  unfold programCap reach
  by_cases h4 : p + 4 < 256
  · by_cases hw : Wide header
    · have hbit : header >>> 16 &&& 0x80 ≠ 0 := hw
      simp only [offset_bind h4, writeConfig_bind, if_pos hbit, if_pos hw]
      by_cases h8 : p + 8 < 256
      · by_cases h12 : p + 12 < 256
        · simp only [offset_bind h8, offset_bind h12, writeConfig_bind, writeConfig_apply, h12, if_true]
          refine ⟨?_, trivial, _, List.getLast?_concat .., by simp⟩
          exact (((WritesAt.refl.write (by decide) rfl).write (by decide) rfl).write
            (by decide) rfl).write_header
        · simp only [offset_bind h8, offset_bind_not h12, writeConfig_bind, h12, if_false]
          refine ⟨?_, trivial⟩
          exact (WritesAt.refl.write (by decide) rfl).write (by decide) rfl
      · have h12 : ¬ p + 12 < 256 := by omega
        simp only [offset_bind_not h8, h12, if_false]
        exact ⟨WritesAt.refl.write (by decide) rfl, trivial⟩
    · have hbit : ¬ header >>> 16 &&& 0x80 ≠ 0 := hw
      simp only [offset_bind h4, writeConfig_bind, if_neg hbit, if_neg hw]
      by_cases h8 : p + 8 < 256
      · simp only [offset_bind h8, writeConfig_bind, writeConfig_apply, h8, if_true]
        refine ⟨?_, trivial, _, List.getLast?_concat .., by simp⟩
        exact ((WritesAt.refl.write (by decide) rfl).write (by decide) rfl).write_header
      · simp only [offset_bind_not h8, h8, if_false]
        exact ⟨WritesAt.refl.write (by decide) rfl, trivial⟩
  · have hlast : ¬ p + 4 * (if Wide header then 3 else 2) < 256 := by split <;> omega
    simp only [offset_bind_not h4, hlast, if_false]
    exact ⟨.refl, trivial⟩

end Ahci

namespace Console

/-- The control bits that are changed do not tell the width. -/
theorem wide_ctrl : ((header >>> 16) &&& ~~~(1 : Word) &&& ~~~((0x7 : Word) <<< 4)) &&&
    (1 : Word) <<< 7 ≠ 0 ↔ Wide header := by
  have hmask : ((header >>> 16) &&& ~~~(1 : Word) &&& ~~~((0x7 : Word) <<< 4)) &&&
    (1 : Word) <<< 7 = header >>> 16 &&& 0x80 := by
    rw [BitVec.and_assoc, BitVec.and_assoc]
    rfl
  rw [hmask]
  exact Iff.rfl

theorem enableMsi_spec (p : Nat) (header : Word) (bus : Bus) :
    WritesAt p (reach header) bus.writes (enableMsi p header bus).2.writes ∧
      if p + 4 * reach header < 256 then
        (enableMsi p header bus).1 = some () ∧
          ∃ v, (enableMsi p header bus).2.writes.getLast? = some (p / 4, v) ∧ v.getLsbD 16 = true
      else (enableMsi p header bus).1 = none := by
  unfold enableMsi reach
  have hbit : ∀ w : Word, ((w &&& (0xffff : Word)) |||
      ((header >>> 16) &&& ~~~(1 : Word) &&& ~~~((0x7 : Word) <<< 4) ||| (1 : Word)) <<< 16).getLsbD
        16 = true := by
    intro w
    simp
  by_cases h4 : p + 4 < 256
  · by_cases hw : Wide header
    · simp only [offset_bind h4, writeConfig_bind, if_pos ((wide_ctrl).mpr hw), if_pos hw]
      by_cases h8 : p + 8 < 256
      · by_cases h12 : p + 12 < 256
        · simp only [offset_bind h8, offset_bind h12, writeConfig_bind, readConfig_bind,
            writeConfig_apply, h12, if_true]
          refine ⟨?_, trivial, _, List.getLast?_concat .., hbit _⟩
          exact ((((WritesAt.refl.write_header).write (by decide) rfl).write (by decide) rfl).write
            (by decide) rfl).write_header
        · simp only [offset_bind h8, offset_bind_not h12, writeConfig_bind, h12, if_false]
          refine ⟨?_, trivial⟩
          exact ((WritesAt.refl.write_header).write (by decide) rfl).write (by decide) rfl
      · have h12 : ¬ p + 12 < 256 := by omega
        simp only [offset_bind_not h8, h12, if_false]
        exact ⟨(WritesAt.refl.write_header).write (by decide) rfl, trivial⟩
    · simp only [offset_bind h4, writeConfig_bind, if_neg (mt (wide_ctrl).mp hw), if_neg hw]
      by_cases h8 : p + 8 < 256
      · simp only [offset_bind h8, writeConfig_bind, readConfig_bind, writeConfig_apply, h8, if_true]
        refine ⟨?_, trivial, _, List.getLast?_concat .., hbit _⟩
        exact (((WritesAt.refl.write_header).write (by decide) rfl).write (by decide) rfl).write_header
      · simp only [offset_bind_not h8, h8, if_false]
        exact ⟨(WritesAt.refl.write_header).write (by decide) rfl, trivial⟩
  · have hlast : ¬ p + 4 * (if Wide header then 3 else 2) < 256 := by split <;> omega
    simp only [writeConfig_bind, offset_bind_not h4, hlast, if_false]
    exact ⟨WritesAt.refl.write_header, trivial⟩

theorem enableMsix_spec (mmioLen p : Nat) (header : Word) (bus : Bus) :
    WritesAt p 0 bus.writes (enableMsix mmioLen p header bus).2.writes ∧
      (∃ v rest, (enableMsix mmioLen p header bus).2.writes = bus.writes ++ (p / 4, v) :: rest) ∧
      ((enableMsix mmioLen p header bus).1 = none ↔ ¬ p + 4 < 256) := by
  unfold enableMsix
  by_cases h4 : p + 4 < 256
  · simp only [offset_bind h4, writeConfig_bind, readConfig_bind]
    split
    · exact ⟨WritesAt.refl.write_header, ⟨_, [], rfl⟩, by simp [h4]⟩
    · refine ⟨(WritesAt.refl.write_header).write_header, ⟨_, _, List.append_assoc ..⟩, by simp [h4]⟩
  · simp only [offset_bind_not h4, writeConfig_bind]
    exact ⟨WritesAt.refl.write_header, ⟨_, [], rfl⟩, by simp [h4]⟩

end Console

/-! ### Pointers -/

variable {s : Space} {ptrs : List Nat}

theorem byte_mask {n : Nat} (h : n < 256) : n &&& 0xfc = n / 4 * 4 := by
  have hbyte : ∀ n : Fin 256, n.val &&& 0xfc = n.val / 4 * 4 := by decide +kernel
  exact hbyte ⟨n, h⟩

theorem mask_fc (x : Word) : (x &&& 0xfc).toNat = (x &&& 0xff).toNat / 4 * 4 := by
  have hmask : x &&& 0xfc = (x &&& 0xff) &&& 0xfc := by
    rw [BitVec.and_assoc]
    rfl
  have hlt : (x &&& 0xff).toNat < 256 := by
    rw [BitVec.toNat_and]
    exact Nat.lt_of_le_of_lt Nat.and_le_right (by decide)
  rw [hmask, BitVec.toNat_and]
  exact byte_mask hlt

theorem capNext_fc (header : Word) : capNext 0xfc header = capNext 0xff header / 4 * 4 := mask_fc _

theorem nextPtr_fc (s : Space) (p : Nat) : nextPtr 0xfc s p = nextPtr 0xff s p / 4 * 4 := capNext_fc _

theorem OnList.ne_zero (h : OnList s p) : p ≠ 0 := by
  cases h with
  | first h => exact h
  | next _ h => exact h

/-- The pointer stands for a dword that the list comes to. -/
def Near (s : Space) (p : Nat) : Prop := p ≠ 0 → ∃ q, OnList s q ∧ q / 4 = p / 4

theorem near_first (s : Space) : Near s (firstPtr s) := fun h => ⟨_, .first h, rfl⟩

theorem Near.next (h : Near s p) (hp : p ≠ 0) : Near s (nextPtr 0xfc s p) := by
  intro hne
  obtain ⟨q, hq, hdword⟩ := h hp
  have hsame : nextPtr 0xff s q = nextPtr 0xff s p := by rw [nextPtr, nextPtr, hdword]
  rw [nextPtr_fc] at hne ⊢
  refine ⟨nextPtr 0xff s q, .next hq ?_, ?_⟩
  · rw [hsame]
    intro hzero
    rw [hzero] at hne
    exact hne rfl
  · rw [hsame]
    omega

theorem lastDword_msi (h : capId header = capMsi) : lastDword header = reach header := if_pos h

/-- What is written at a capability for messages is allowed, when the list comes to it. -/
theorem WritesAt.caps {writes : List (Nat × Word)}
    (h : WritesAt p (lastDword (s (p / 4))) [] writes) (hnear : Near s p) (hp : p ≠ 0)
    (hid : idAt s p = capMsi ∨ idAt s p = capMsix) : WritesCaps s writes := by
  obtain ⟨ws, rfl, hws⟩ := h
  obtain ⟨q, hq, hdword⟩ := hnear hp
  intro w hw
  refine ⟨q, hq, ?_, ?_⟩
  · rwa [idAt, hdword]
  · rw [hdword]
    exact hws w hw

namespace Chain

theorem head_ne (h : Chain s p ptrs) (hp : p ≠ 0) : ∃ qs, ptrs = p :: qs ∧
    Chain s (nextPtr 0xff s p) qs := by
  cases ptrs with
  | nil => exact absurd h hp
  | cons q qs =>
    obtain ⟨rfl, -, hrest⟩ := h
    exact ⟨qs, rfl, hrest⟩

theorem first_mem (h : Chain s p ptrs) : p = 0 ∨ p ∈ ptrs := by
  cases ptrs with
  | nil => exact .inl h
  | cons q qs => exact .inr (h.1 ▸ List.mem_cons_self)

/-- A pointer to an aligned capability has no bits to mask. -/
theorem mask (h : Chain s (nextPtr 0xff s p) ptrs) (haligned : ∀ q ∈ ptrs, q % 4 = 0) :
    nextPtr 0xfc s p = nextPtr 0xff s p := by
  rw [nextPtr_fc]
  rcases h.first_mem with hzero | hmem
  · rw [hzero]
  · have hmod := haligned _ hmem
    omega

end Chain

theorem WellFormed.length_le (h : WellFormed s ptrs) : ptrs.length ≤ 48 := by
  have hsub : ptrs ⊆ (List.range' 16 48).map (4 * ·) := by
    intro p hp
    have haligned := h.aligned p hp
    have hlower := h.lower p hp
    have hfits := h.fits p hp
    rw [List.mem_map]
    exact ⟨p / 4, by rw [List.mem_range'_1]; omega, by omega⟩
  have hle := (List.subperm_of_subset h.nodup hsub).length_le
  simpa using hle

/-! ### The AHCI driver -/

namespace Ahci

/-- The walk goes on behind the pointer. -/
def Passes (s : Space) (p : Nat) : Prop := p ≠ 0 ∧ idAt s p ≠ capMsi

/-- The pointers of the walk. -/
def ptrAt (s : Space) (p n : Nat) : Nat := (nextPtr 0xfc s)^[n] p

/-- The list comes to its end, or to a capability for messages whose registers are in the space. -/
def Ends (s : Space) (p : Nat) : Prop :=
  ∃ n, (∀ m < n, Passes s (ptrAt s p m)) ∧
    (ptrAt s p n = 0 ∨ idAt s (ptrAt s p n) = capMsi ∧ ptrAt s p n + 4 * reach (s (ptrAt s p n / 4)) < 256)

structure Meets (s : Space) : Prop where
  finishes : ∃ fuel r, (enableMsi fuel (.opened s)).1 = some (some r)
  writes : ∀ fuel, WritesCaps s (enableMsi fuel (.opened s)).2.writes
  finds : ∀ ptrs p, WellFormed s ptrs → ptrs.find? (idAt s · = capMsi) = some p → ∃ fuel v,
    (enableMsi fuel (.opened s)).1 = some (some true) ∧
      (enableMsi fuel (.opened s)).2.writes.getLast? = some (p / 4, v) ∧
      v.getLsbD 16 = true

theorem enableMsi_eq (fuel : Nat) : enableMsi fuel (.opened s) = enableMsiLoop fuel (firstPtr s)
    (.opened s) := rfl

theorem loop_zero (fuel : Nat) : enableMsiLoop (fuel + 1) 0 (.opened s) =
    (some (some false), .opened s) := rfl

theorem loop_passes (fuel : Nat) (h : Passes s p) :
    enableMsiLoop (fuel + 1) p (.opened s) = enableMsiLoop fuel (nextPtr 0xfc s p) (.opened s) := by
  have hid : capId (s (p / 4)) ≠ capMsi := h.2
  simp only [enableMsiLoop, if_neg h.1, readConfig_bind, Bus.opened, if_neg hid]
  rfl

theorem loop_msi (fuel : Nat) (hp : p ≠ 0) (hid : idAt s p = capMsi) :
    enableMsiLoop (fuel + 1) p (.opened s) =
      (programCap p (s (p / 4)) >>= fun _ => pure (some true)) (.opened s) := by
  have hid' : capId (s (p / 4)) = capMsi := hid
  simp only [enableMsiLoop, if_neg hp, readConfig_bind, Bus.opened, if_pos hid']

theorem programmed_writes (p : Nat) (header : Word) (bus : Bus) :
    (programCap p header >>= fun _ => (pure (some true) : Config (Option Bool))) bus =
      ((programCap p header bus).1.map fun _ => some true, (programCap p header bus).2) := by
  rw [bind_apply]
  generalize programCap p header bus = r
  obtain ⟨_ | _, bus⟩ := r <;> rfl

theorem loop_writes (fuel : Nat) (hnear : Near s p) :
    WritesCaps s (enableMsiLoop fuel p (.opened s)).2.writes := by
  have hnil : WritesCaps s [] := by
    intro w hw
    cases hw
  induction fuel generalizing p with
  | zero => exact hnil
  | succ fuel ih =>
    by_cases hp : p = 0
    · subst hp
      exact hnil
    · by_cases hid : idAt s p = capMsi
      · rw [loop_msi fuel hp hid, programmed_writes]
        have hwrites := (programCap_spec p (s (p / 4)) (.opened s)).1
        rw [← lastDword_msi hid] at hwrites
        exact hwrites.caps hnear hp (.inl hid)
      · rw [loop_passes fuel ⟨hp, hid⟩]
        exact ih (hnear.next hp)

theorem Ends.of_next (hpass : Passes s p) (h : Ends s (nextPtr 0xfc s p)) : Ends s p := by
  obtain ⟨n, hpasses, hend⟩ := h
  refine ⟨n + 1, ?_, hend⟩
  intro m hm
  cases m with
  | zero => exact hpass
  | succ m => exact hpasses m (by omega)

theorem loop_finishes_iff : (∃ fuel r, (enableMsiLoop fuel p (.opened s)).1 = some (some r)) ↔
    Ends s p := by
  constructor
  · rintro ⟨fuel, r, h⟩
    induction fuel generalizing p with
    | zero => cases h
    | succ fuel ih =>
      by_cases hp : p = 0
      · exact ⟨0, fun m hm => absurd hm (Nat.not_lt_zero m), .inl hp⟩
      · by_cases hid : idAt s p = capMsi
        · refine ⟨0, fun m hm => absurd hm (Nat.not_lt_zero m), .inr ⟨hid, ?_⟩⟩
          show p + 4 * reach (s (p / 4)) < 256
          by_contra hreach
          have hspec := (programCap_spec p (s (p / 4)) (.opened s)).2
          rw [if_neg hreach] at hspec
          rw [loop_msi fuel hp hid, programmed_writes, hspec] at h
          cases h
        · rw [loop_passes fuel ⟨hp, hid⟩] at h
          exact (ih h).of_next ⟨hp, hid⟩
  · rintro ⟨n, hpasses, hend⟩
    induction n generalizing p with
    | zero =>
      by_cases hp : p = 0
      · exact ⟨1, false, by rw [hp, loop_zero]⟩
      · obtain ⟨hid, hreach⟩ := hend.resolve_left hp
        have hspec := (programCap_spec p (s (p / 4)) (.opened s)).2
        rw [if_pos (show p + 4 * reach (s (p / 4)) < 256 from hreach)] at hspec
        refine ⟨1, true, ?_⟩
        rw [loop_msi 0 hp hid, programmed_writes, hspec.1]
        rfl
    | succ n ih =>
      obtain ⟨fuel, r, h⟩ := ih (fun m hm => hpasses (m + 1) (by omega)) hend
      have hpass : Passes s p := hpasses 0 (Nat.succ_pos n)
      exact ⟨fuel + 1, r, by rw [loop_passes fuel hpass, h]⟩

/-- On a well-formed list the walk comes to the first capability for messages. -/
theorem loop_chain {q : Nat} (hchain : Chain s p ptrs) (haligned : ∀ p ∈ ptrs, p % 4 = 0)
    (hfind : ptrs.find? (idAt s · = capMsi) = some q) :
    ∃ fuel, enableMsiLoop fuel p (.opened s) =
      (programCap q (s (q / 4)) >>= fun _ => pure (some true)) (.opened s) := by
  induction ptrs generalizing p with
  | nil => cases hfind
  | cons r rs ih =>
    obtain ⟨rfl, hne, hrest⟩ := hchain
    by_cases hid : idAt s p = capMsi
    · rw [List.find?_cons_of_pos (by simpa using hid)] at hfind
      obtain rfl := Option.some.inj hfind
      exact ⟨1, loop_msi 0 hne hid⟩
    · rw [List.find?_cons_of_neg (by simpa using hid)] at hfind
      obtain ⟨fuel, h⟩ := ih hrest (fun x hx => haligned x (List.mem_cons_of_mem _ hx)) hfind
      have hmask := hrest.mask fun x hx => haligned x (List.mem_cons_of_mem _ hx)
      exact ⟨fuel + 1, by rw [loop_passes fuel ⟨hne, hid⟩, hmask, h]⟩

theorem meets_iff : Meets s ↔ Ends s (firstPtr s) := by
  constructor
  · intro h
    exact (loop_finishes_iff).mp h.finishes
  · intro h
    refine ⟨(loop_finishes_iff).mpr h, fun fuel => loop_writes fuel (near_first s), ?_⟩
    intro ptrs p hwf hfind
    obtain ⟨fuel, hloop⟩ := loop_chain hwf.chain hwf.aligned hfind
    have hmem := List.mem_of_find?_eq_some hfind
    have hid : idAt s p = capMsi := by simpa using List.find?_some hfind
    have hfits := hwf.fits p hmem
    rw [lastDword_msi hid] at hfits
    have hspec := (programCap_spec p (s (p / 4)) (.opened s)).2
    rw [if_pos hfits] at hspec
    obtain ⟨hdone, v, hlast, hbit⟩ := hspec
    refine ⟨fuel, v, ?_, ?_, hbit⟩
    · rw [enableMsi_eq, hloop, programmed_writes, hdone]
      rfl
    · rw [enableMsi_eq, hloop, programmed_writes]
      exact hlast

end Ahci

/-! ### The 82574 driver -/

/-- The ids and the pointers of the headers are as in the first space. -/
def SameHeads (s t : Space) : Prop := ∀ i, t i &&& (0xffff : Word) = s i &&& (0xffff : Word)

theorem capId_low (header : Word) : capId header = capId (header &&& (0xffff : Word)) := by
  rw [capId, capId, BitVec.and_assoc]
  rfl

theorem capNext_low (header : Word) : capNext 0xfc header = capNext 0xfc (header &&& (0xffff : Word)) := by
  rw [capNext, capNext, BitVec.ushiftRight_and_distrib, BitVec.and_assoc]
  rfl

namespace SameHeads

variable {t : Space}

theorem idAt (h : SameHeads s t) (p : Nat) : idAt t p = idAt s p := by
  rw [Pci.idAt, Pci.idAt, capId_low, h, ← capId_low]

theorem nextPtr (h : SameHeads s t) (p : Nat) : nextPtr 0xfc t p = nextPtr 0xfc s p := by
  rw [Pci.nextPtr, Pci.nextPtr, capNext_low, h, ← capNext_low]

theorem update (h : SameHeads s t) {i : Nat} {value : Word} (hvalue : value &&& (0xffff : Word) =
    t i &&& (0xffff : Word)) :
    SameHeads s (Function.update t i value) := by
  intro j
  by_cases hj : j = i
  · rw [hj, Function.update_self, hvalue, h]
  · rw [Function.update_of_ne hj, h]

end SameHeads

namespace E1000e

structure Meets (s : Space) : Prop where
  finishes : ∃ r, (forcePin (.opened s)).1 = some r
  writes : WritesCaps s (forcePin (.opened s)).2.writes
  finds : ∀ ptrs, WellFormed s ptrs → ∀ p ∈ ptrs,
    (idAt s p = capMsi → ∃ v, (p / 4, v) ∈ (forcePin (.opened s)).2.writes ∧ v.getLsbD 16 = false) ∧
      (idAt s p = capMsix → ∃ v, (p / 4, v) ∈ (forcePin (.opened s)).2.writes ∧ v.getLsbD 31 = false)

/-- At each capability the walk clears the enable bit, and leaves the id and the pointer. -/
theorem loop_step (left : Nat) (hp : p ≠ 0) (hheads : SameHeads s bus.space) :
    ∃ ws bus', forcePinLoop (left + 1) p bus = forcePinLoop left (nextPtr 0xfc s p) bus' ∧
      bus'.writes = bus.writes ++ ws ∧
      SameHeads s bus'.space ∧ (∀ w ∈ ws, w.1 = p / 4 ∧ (idAt s p = capMsi ∨ idAt s p = capMsix)) ∧
      (idAt s p = capMsi → ∃ v, (p / 4, v) ∈ ws ∧ v.getLsbD 16 = false) ∧
      (idAt s p = capMsix → ∃ v, (p / 4, v) ∈ ws ∧ v.getLsbD 31 = false) := by
  have hid : capId (bus.space (p / 4)) = idAt s p := hheads.idAt p
  have hnext : capNext 0xfc (bus.space (p / 4)) = nextPtr 0xfc s p := hheads.nextPtr p
  have hlow : ∀ bit : Word, ~~~bit &&& (0xffff : Word) = (0xffff : Word) →
      bus.space (p / 4) &&& ~~~bit &&& (0xffff : Word) = bus.space (p / 4) &&& (0xffff : Word) := by
    intro bit hbit
    rw [BitVec.and_assoc, hbit]
  simp only [forcePinLoop, if_neg hp, readConfig_bind, hid, hnext]
  by_cases hmsi : idAt s p = capMsi
  · simp only [if_pos hmsi, writeConfig_bind]
    refine ⟨_, _, rfl, rfl, hheads.update (hlow msiEnable (by decide)), ?_, ?_, ?_⟩
    · intro w hw
      obtain rfl := List.mem_singleton.mp hw
      exact ⟨rfl, .inl hmsi⟩
    · intro _
      exact ⟨_, List.mem_singleton_self _, by simp [msiEnable]⟩
    · intro hmsix
      rw [hmsi] at hmsix
      cases hmsix
  · by_cases hmsix : idAt s p = capMsix
    · simp only [if_neg hmsi, if_pos hmsix, writeConfig_bind]
      refine ⟨_, _, rfl, rfl, hheads.update (hlow msixEnable (by decide)), ?_, fun h => absurd h hmsi, ?_⟩
      · intro w hw
        obtain rfl := List.mem_singleton.mp hw
        exact ⟨rfl, .inr hmsix⟩
      · intro _
        exact ⟨_, List.mem_singleton_self _, by simp [msixEnable]⟩
    · simp only [if_neg hmsi, if_neg hmsix]
      exact ⟨[], bus, rfl, (List.append_nil _).symm, hheads,
        by simp, fun h => absurd h hmsi, fun h => absurd h hmsix⟩

theorem loop_spec (p : Nat) (bus : Bus) (left : Nat) (hheads : SameHeads s bus.space) (hnear : Near s p) :
    ∃ r ws, (forcePinLoop left p bus).1 = some r ∧
      (forcePinLoop left p bus).2.writes = bus.writes ++ ws ∧ WritesCaps s ws ∧
      ∀ ptrs, Chain s p ptrs → (∀ q ∈ ptrs, q % 4 = 0) → ptrs.length ≤ left → ∀ q ∈ ptrs,
        (idAt s q = capMsi → ∃ v, (q / 4, v) ∈ ws ∧ v.getLsbD 16 = false) ∧
          (idAt s q = capMsix → ∃ v, (q / 4, v) ∈ ws ∧ v.getLsbD 31 = false) := by
  have hnil : WritesCaps s [] := by
    intro w hw
    cases hw
  induction left generalizing p bus with
  | zero =>
    refine ⟨false, [], rfl, (List.append_nil _).symm, hnil, ?_⟩
    intro ptrs _ _ hlen q hq
    rw [List.length_eq_zero_iff.mp (Nat.le_zero.mp hlen)] at hq
    cases hq
  | succ left ih =>
    by_cases hp : p = 0
    · subst hp
      refine ⟨true, [], rfl, (List.append_nil _).symm, hnil, ?_⟩
      intro ptrs hchain _ _ q hq
      cases ptrs with
      | nil => cases hq
      | cons r rs => exact absurd hchain.1.symm hchain.2.1
    · obtain ⟨ws, bus', hstep, hwrites, hheads', hws, hmsi, hmsix⟩ := loop_step left hp hheads
      obtain ⟨r, rest, hr, hrest, hcaps, hfinds⟩ := ih _ bus' hheads' (hnear.next hp)
      refine ⟨r, ws ++ rest, by rw [hstep, hr], by rw [hstep, hrest, hwrites, List.append_assoc], ?_, ?_⟩
      · intro w hw
        rcases List.mem_append.mp hw with hw | hw
        · obtain ⟨hdword, hid⟩ := hws w hw
          obtain ⟨q, hq, hqp⟩ := hnear hp
          refine ⟨q, hq, ?_, by omega, by omega⟩
          rwa [idAt, hqp]
        · exact hcaps w hw
      · intro ptrs hchain haligned hlen q hq
        obtain ⟨qs, rfl, hchain'⟩ := hchain.head_ne hp
        rcases List.mem_cons.mp hq with rfl | hq
        · refine ⟨fun h => ?_, fun h => ?_⟩
          · obtain ⟨v, hv, hbit⟩ := hmsi h
            exact ⟨v, List.mem_append_left _ hv, hbit⟩
          · obtain ⟨v, hv, hbit⟩ := hmsix h
            exact ⟨v, List.mem_append_left _ hv, hbit⟩
        · have hmask : nextPtr 0xfc s p = nextPtr 0xff s p :=
            hchain'.mask fun x hx => haligned x (List.mem_cons_of_mem _ hx)
          rw [hmask] at hfinds
          have hlen' : qs.length ≤ left := Nat.le_of_succ_le_succ hlen
          obtain ⟨h5, h11⟩ := hfinds qs hchain'
            (fun x hx => haligned x (List.mem_cons_of_mem _ hx)) hlen' q hq
          refine ⟨fun h => ?_, fun h => ?_⟩
          · obtain ⟨v, hv, hbit⟩ := h5 h
            exact ⟨v, List.mem_append_right _ hv, hbit⟩
          · obtain ⟨v, hv, hbit⟩ := h11 h
            exact ⟨v, List.mem_append_right _ hv, hbit⟩

theorem meets (s : Space) : Meets s := by
  obtain ⟨r, ws, hr, hwrites, hcaps, hfinds⟩ := loop_spec (firstPtr s) (.opened s) 48 (fun _ => rfl)
    (near_first s)
  have hrun : forcePin (.opened s) = forcePinLoop 48 (firstPtr s) (.opened s) := rfl
  have hws : (forcePin (.opened s)).2.writes = ws := by rw [hrun, hwrites]; rfl
  constructor
  · exact ⟨r, by rw [hrun, hr]⟩
  · rw [hws]
    exact hcaps
  · intro ptrs hwf
    rw [hws]
    exact hfinds ptrs hwf.chain hwf.aligned hwf.length_le

end E1000e

/-! ### The console driver -/

namespace Console

def isMsi (s : Space) (p : Nat) : Bool := idAt s p = capMsi

def isMsix (s : Space) (p : Nat) : Bool := idAt s p = capMsix

/-- The pointers the walk comes to: 32 at most, and none from the first on that is below the header. -/
def visited (s : Space) (left p : Nat) : List Nat :=
  (List.iterate (nextPtr 0xff s) p left).takeWhile (0x40 ≤ ·)

/-- The registers of the capability that is programmed are in the space. -/
def Reaches (s : Space) : Prop :=
  match (visited s 32 (firstPtr s)).find? (isMsi s) with
  | some p => p + 4 * reach (s (p / 4)) < 256
  | none => ∀ p ∈ (visited s 32 (firstPtr s)).reverse.find? (isMsix s), p + 4 < 256

/-- A well-formed list has its capability for messages among the first 32; one without has one MSI-X
capability there, if any. -/
def Early (s : Space) (ptrs : List Nat) : Prop :=
  ((ptrs.take 32).find? (isMsi s)).isSome = (ptrs.find? (isMsi s)).isSome ∧
    (ptrs.find? (isMsi s) = none → (ptrs.take 32).reverse.find? (isMsix s) = ptrs.find? (isMsix s))

structure Meets (s : Space) (mmioLen : Nat) : Prop where
  finishes : ∃ r, (programMsi mmioLen (.opened s)).1 = some r
  writes : WritesCaps s (programMsi mmioLen (.opened s)).2.writes
  finds : ∀ ptrs, WellFormed s ptrs → HasList s →
    (∀ p, ptrs.find? (isMsi s) = some p → ∃ v, (programMsi mmioLen (.opened s)).1 = some true ∧
      (programMsi mmioLen (.opened s)).2.writes.getLast? = some (p / 4, v) ∧ v.getLsbD 16 = true) ∧
    (ptrs.find? (isMsi s) = none → ∀ p, ptrs.find? (isMsix s) = some p → ∃ v,
      (programMsi mmioLen (.opened s)).2.writes.head? = some (p / 4, v))

theorem visited_succ (left : Nat) : visited s (left + 1) p = if 0x40 ≤ p then
    p :: visited s left (nextPtr 0xff s p) else [] := by
  by_cases hp : 0x40 ≤ p
  · rw [if_pos hp, visited, List.iterate, List.takeWhile_cons_of_pos (by simpa using hp), visited]
  · rw [if_neg hp, visited, List.iterate, List.takeWhile_cons_of_neg (by simpa using hp)]

theorem visited_zero_ptr (left : Nat) : visited s left 0 = [] := by
  cases left with
  | zero => rfl
  | succ left => rw [visited_succ, if_neg (by decide)]

/-- The walk programs the first capability for messages it comes to, or else the last MSI-X capability. -/
theorem loop_eq {mmioLen : Nat} (left : Nat) (msix : Option (Nat × Word)) :
    programMsiLoop mmioLen left p msix (.opened s) =
      match (visited s left p).find? (isMsi s) with
      | some q => (enableMsi q (s (q / 4)) >>= fun _ => pure true) (.opened s)
      | none => tryMsix mmioLen (((visited s left p).reverse.find? (isMsix s)).elim msix fun q =>
        some (q, s (q / 4))) (.opened s) := by
  induction left generalizing p msix with
  | zero => rfl
  | succ left ih =>
    by_cases hp : p < 0x40
    · rw [visited_succ, if_neg (by omega)]
      simp only [programMsiLoop, if_pos hp]
      rfl
    · rw [visited_succ, if_pos (by omega)]
      have hread : (Bus.opened s).space (p / 4) = s (p / 4) := rfl
      simp only [programMsiLoop, if_neg hp, readConfig_bind, hread]
      by_cases hmsi : capId (s (p / 4)) = capMsi
      · have hfound : isMsi s p = true := decide_eq_true hmsi
        rw [if_pos hmsi, List.find?_cons_of_pos hfound]
      · have hother : ¬ isMsi s p = true := fun h => hmsi (of_decide_eq_true h)
        rw [if_neg hmsi, List.find?_cons_of_neg hother, List.reverse_cons, List.find?_append]
        have hloop : (if capNext 0xff (s (p / 4)) = 0 then
          tryMsix mmioLen (if capId (s (p / 4)) = capMsix then some (p, s (p / 4)) else msix)
            else programMsiLoop mmioLen left (capNext 0xff (s (p / 4)))
              (if capId (s (p / 4)) = capMsix then some (p, s (p / 4)) else msix))
            (.opened s) = programMsiLoop mmioLen left (nextPtr 0xff s p)
              (if capId (s (p / 4)) = capMsix then some (p, s (p / 4)) else msix) (.opened s) := by
          by_cases hnext : nextPtr 0xff s p = 0
          · have hnext' : capNext 0xff (s (p / 4)) = 0 := hnext
            rw [if_pos hnext', ih, hnext, visited_zero_ptr]
            rfl
          · have hnext' : capNext 0xff (s (p / 4)) ≠ 0 := hnext
            rw [if_neg hnext']
            rfl
        rw [hloop, ih]
        generalize visited s left (nextPtr 0xff s p) = vs
        cases vs.find? (isMsi s) with
        | some q => rfl
        | none =>
          cases vs.reverse.find? (isMsix s) with
          | some q => rfl
          | none =>
            by_cases hmsix : capId (s (p / 4)) = capMsix
            · simp [isMsix, idAt, hmsix]
            · simp [isMsix, idAt, hmsix]

theorem mem_visited {q : Nat} {left : Nat} (hq : q ∈ visited s left p) (hp : p ≠ 0 → OnList s p) :
    OnList s q := by
  induction left generalizing p with
  | zero => cases hq
  | succ left ih =>
    rw [visited_succ] at hq
    split at hq
    · next hlow =>
      have hne : p ≠ 0 := by omega
      rcases List.mem_cons.mp hq with rfl | hq
      · exact hp hne
      · exact ih hq fun hnext => .next (hp hne) hnext
    · cases hq

theorem visited_chain (hchain : Chain s p ptrs) (hlower : ∀ q ∈ ptrs, 0x40 ≤ q) (left : Nat) :
    visited s left p = ptrs.take left := by
  induction ptrs generalizing p left with
  | nil =>
    obtain rfl : p = 0 := hchain
    rw [visited_zero_ptr, List.take_nil]
  | cons q qs ih =>
    obtain ⟨rfl, -, hrest⟩ := hchain
    cases left with
    | zero => rfl
    | succ left =>
      rw [visited_succ, if_pos (hlower p List.mem_cons_self), List.take_succ_cons,
        ih hrest (fun x hx => hlower x (List.mem_cons_of_mem _ hx))]

theorem programMsi_eq {mmioLen : Nat} (h : HasList s) :
    programMsi mmioLen (.opened s) = programMsiLoop mmioLen 32 (firstPtr s) none (.opened s) := by
  have hread : (Bus.opened s).space (0x04 / 4) = s 1 := rfl
  have hstatus : ¬ s 1 >>> 16 &&& (1 : Word) <<< 4 = 0 := h
  simp only [programMsi, readConfig_bind, hread, if_neg hstatus]
  rfl

theorem programMsi_eq_of_not {mmioLen : Nat} (h : ¬ HasList s) : programMsi mmioLen (.opened s) =
    (some false, .opened s) := by
  have hread : (Bus.opened s).space (0x04 / 4) = s 1 := rfl
  have hstatus : s 1 >>> 16 &&& (1 : Word) <<< 4 = 0 := not_not.mp h
  simp only [programMsi, readConfig_bind, hread, if_pos hstatus]
  rfl

theorem programmed (p : Nat) (header : Word) (bus : Bus) :
    (enableMsi p header >>= fun _ => (pure true : Config Bool)) bus =
      ((enableMsi p header bus).1.map fun _ => true, (enableMsi p header bus).2) := by
  rw [bind_apply]
  generalize enableMsi p header bus = r
  obtain ⟨_ | _, bus⟩ := r <;> rfl

theorem finishes_iff {mmioLen : Nat} (h : HasList s) :
    (∃ r, (programMsi mmioLen (.opened s)).1 = some r) ↔ Reaches s := by
  rw [programMsi_eq h, loop_eq, Reaches]
  cases hmsi : (visited s 32 (firstPtr s)).find? (isMsi s) with
  | some p =>
    have hspec := (enableMsi_spec p (s (p / 4)) (.opened s)).2
    simp only [programmed]
    by_cases hreach : p + 4 * reach (s (p / 4)) < 256
    · rw [if_pos hreach] at hspec
      simp [hspec.1, hreach]
    · rw [if_neg hreach] at hspec
      simp [hspec, hreach]
  | none =>
    cases hmsix : (visited s 32 (firstPtr s)).reverse.find? (isMsix s) with
    | none => simp [tryMsix]
    | some p =>
      have hspec := (enableMsix_spec mmioLen p (s (p / 4)) (.opened s)).2.2
      simp only [Option.elim_some, tryMsix, Option.mem_def, Option.some.injEq, forall_eq']
      rw [← Option.ne_none_iff_exists', ne_eq, hspec, not_not]

theorem writes_caps (s : Space) (mmioLen : Nat) :
    WritesCaps s (programMsi mmioLen (.opened s)).2.writes := by
  have hnil : WritesCaps s [] := by
    intro w hw
    cases hw
  have hon : ∀ q ∈ visited s 32 (firstPtr s), OnList s q := fun q hq => mem_visited hq .first
  by_cases h : HasList s
  · rw [programMsi_eq h, loop_eq]
    cases hmsi : (visited s 32 (firstPtr s)).find? (isMsi s) with
    | some p =>
      have hid : idAt s p = capMsi := by simpa [isMsi] using List.find?_some hmsi
      have hq := hon p (List.mem_of_find?_eq_some hmsi)
      have hwrites := (enableMsi_spec p (s (p / 4)) (.opened s)).1
      rw [← lastDword_msi hid] at hwrites
      simp only [programmed]
      exact hwrites.caps (fun _ => ⟨p, hq, rfl⟩) hq.ne_zero (.inl hid)
    | none =>
      cases hmsix : (visited s 32 (firstPtr s)).reverse.find? (isMsix s) with
      | none => exact hnil
      | some p =>
        have hid : idAt s p = capMsix := by simpa [isMsix] using List.find?_some hmsix
        have hq := hon p (List.mem_reverse.mp (List.mem_of_find?_eq_some hmsix))
        have hwrites := (enableMsix_spec mmioLen p (s (p / 4)) (.opened s)).1
        exact (hwrites.mono (Nat.zero_le _)).caps (fun _ => ⟨p, hq, rfl⟩) hq.ne_zero (.inr hid)
  · rw [programMsi_eq_of_not h]
    exact hnil

theorem dword_injective (hwf : WellFormed s ptrs) {p q : Nat} (hp : p ∈ ptrs) (hq : q ∈ ptrs)
    (h : p / 4 = q / 4) : p = q := by
  have hmodp := hwf.aligned p hp
  have hmodq := hwf.aligned q hq
  omega

/-- The run on a well-formed list, by what is among the first 32. -/
theorem run_of_msi {mmioLen q : Nat} (hwf : WellFormed s ptrs) (hlist : HasList s)
    (hfind : (ptrs.take 32).find? (isMsi s) = some q) :
    ∃ v, (programMsi mmioLen (.opened s)).1 = some true ∧
      (programMsi mmioLen (.opened s)).2.writes.getLast? = some (q / 4, v) ∧
      v.getLsbD 16 = true := by
  have hid : idAt s q = capMsi := by simpa [isMsi] using List.find?_some hfind
  have hfits := hwf.fits q (List.mem_of_mem_take (List.mem_of_find?_eq_some hfind))
  rw [lastDword_msi hid] at hfits
  have hspec := (enableMsi_spec q (s (q / 4)) (.opened s)).2
  rw [if_pos hfits] at hspec
  obtain ⟨hdone, v, hlast, hbit⟩ := hspec
  rw [programMsi_eq hlist, loop_eq, visited_chain hwf.chain hwf.lower, hfind]
  simp only [programmed, hdone]
  exact ⟨v, rfl, hlast, hbit⟩

theorem run_of_msix (mmioLen : Nat) (hwf : WellFormed s ptrs) (hlist : HasList s)
    (hfind : (ptrs.take 32).find? (isMsi s) = none) :
    match (ptrs.take 32).reverse.find? (isMsix s) with
    | none => (programMsi mmioLen (.opened s)).2.writes = []
    | some q => (∃ v, (programMsi mmioLen (.opened s)).2.writes.head? = some (q / 4, v)) ∧
        ∀ w ∈ (programMsi mmioLen (.opened s)).2.writes, w.1 = q / 4 := by
  rw [programMsi_eq hlist, loop_eq, visited_chain hwf.chain hwf.lower, hfind]
  cases hmsix : (ptrs.take 32).reverse.find? (isMsix s) with
  | none => rfl
  | some q =>
    obtain ⟨⟨ws, hws, hat⟩, ⟨v, rest, hfirst⟩, -⟩ := enableMsix_spec mmioLen q (s (q / 4)) (.opened s)
    simp only [Option.elim_some, tryMsix]
    refine ⟨⟨v, by rw [hfirst]; rfl⟩, ?_⟩
    intro w hw
    rw [hws] at hw
    have hw := hat w hw
    omega

theorem finds_iff {mmioLen : Nat} (hwf : WellFormed s ptrs) (hlist : HasList s) :
    ((∀ p, ptrs.find? (isMsi s) = some p → ∃ v, (programMsi mmioLen (.opened s)).1 = some true ∧
        (programMsi mmioLen (.opened s)).2.writes.getLast? = some (p / 4, v) ∧ v.getLsbD 16 = true) ∧
      (ptrs.find? (isMsi s) = none → ∀ p, ptrs.find? (isMsix s) = some p → ∃ v,
        (programMsi mmioLen (.opened s)).2.writes.head? = some (p / 4, v))) ↔ Early s ptrs := by
  have hsplit : ∀ f, ptrs.find? f = ((ptrs.take 32).find? f).or ((ptrs.drop 32).find? f) := by
    intro f
    rw [← List.find?_append, List.take_append_drop]
  rw [Early]
  cases htake : (ptrs.take 32).find? (isMsi s) with
  | some q =>
    have hall : ptrs.find? (isMsi s) = some q := by rw [hsplit, htake, Option.some_or]
    rw [hall]
    refine iff_of_true ⟨?_, fun h => by cases h⟩ ⟨rfl, fun h => by cases h⟩
    intro p hp
    obtain rfl := Option.some.inj hp
    exact run_of_msi hwf hlist htake
  | none =>
    have hrun := run_of_msix mmioLen hwf hlist htake
    have hmem : ∀ q, (ptrs.take 32).reverse.find? (isMsix s) = some q → q ∈ ptrs := fun q hq =>
      List.mem_of_mem_take (List.mem_reverse.mp (List.mem_of_find?_eq_some hq))
    cases hmsi : ptrs.find? (isMsi s) with
    | some p =>
      refine iff_of_false ?_ (fun h => by cases h.1)
      rintro ⟨hfound, -⟩
      obtain ⟨v, -, hlast, -⟩ := hfound p rfl
      have hw := List.mem_of_getLast? hlast
      cases hmsix : (ptrs.take 32).reverse.find? (isMsix s) with
      | none =>
        rw [hmsix] at hrun
        simp only at hrun
        rw [hrun] at hw
        cases hw
      | some q =>
        rw [hmsix] at hrun
        have heq := dword_injective hwf (List.mem_of_find?_eq_some hmsi) (hmem q hmsix) (hrun.2 _ hw)
        have hp := List.find?_some hmsi
        have hq := List.find?_some hmsix
        rw [← heq] at hq
        simp only [isMsi, isMsix, decide_eq_true_eq] at hp hq
        rw [hp] at hq
        cases hq
    | none =>
      constructor
      · rintro ⟨-, hfound⟩
        refine ⟨rfl, fun _ => ?_⟩
        cases hmsix : ptrs.find? (isMsix s) with
        | none =>
          rw [List.find?_eq_none] at hmsix ⊢
          exact fun x hx => hmsix x (List.mem_of_mem_take (List.mem_reverse.mp hx))
        | some p =>
          obtain ⟨v, hhead⟩ := hfound rfl p hmsix
          cases hlast : (ptrs.take 32).reverse.find? (isMsix s) with
          | none =>
            rw [hlast] at hrun
            simp only at hrun
            rw [hrun] at hhead
            cases hhead
          | some q =>
            rw [hlast] at hrun
            have heq := dword_injective hwf (List.mem_of_find?_eq_some hmsix) (hmem q hlast)
              (hrun.2 _ (List.mem_of_head? hhead))
            rw [heq]
      · rintro ⟨-, hearly⟩
        refine ⟨nofun, fun _ p hp => ?_⟩
        rw [hearly rfl, hp] at hrun
        exact hrun.1

theorem meets_iff {mmioLen : Nat} : Meets s mmioLen ↔
    (HasList s → Reaches s ∧ ∀ ptrs, WellFormed s ptrs → Early s ptrs) := by
  constructor
  · intro h hlist
    exact ⟨(finishes_iff hlist).mp h.finishes,
      fun ptrs hwf => (finds_iff hwf hlist).mp (h.finds ptrs hwf hlist)⟩
  · intro h
    refine ⟨?_, writes_caps s mmioLen, fun ptrs hwf hlist => (finds_iff hwf hlist).mpr
      ((h hlist).2 ptrs hwf)⟩
    by_cases hlist : HasList s
    · exact (finishes_iff hlist).mpr (h hlist).1
    · exact ⟨false, by rw [programMsi_eq_of_not hlist]⟩

end Console

/-! ### lerux-swift -/

namespace Swift

/-- The base in the two dwords behind the header of a capability. -/
def baseOf (lo hi : Word) : BitVec 64 := hi.setWidth 64 <<< 32 ||| (lo &&& 0xffffc000).setWidth 64

/-- The class of an IOMMU. -/
def IsIommu (s : Space) : Prop := s 2 >>> 8 = 0x080600

/-- The IOMMU capability of a well-formed list, and each one in front of it, has twelve bytes in the
space. -/
def Roomy (s : Space) (ptrs : List Nat) : Prop :=
  ∀ p, ptrs.find? (idAt s · = capIommu) = some p → ∀ q ∈ ptrs.takeWhile (idAt s · ≠ capIommu), q + 12 ≤ 256

/-- The walk writes nothing, and ends after 48 rounds. -/
def Meets (s : Space) : Prop :=
  ∀ ptrs, WellFormed s ptrs → HasList s → IsIommu s → ∀ p, ptrs.find? (idAt s · = capIommu) = some p →
    iommuBase (bytes s) = some (baseOf (s (p / 4 + 1)) (s (p / 4 + 2)))

theorem length_bytes (s : Space) : (bytes s).length = 256 := by simp [bytes]

theorem byteAt_bytes {i : Nat} (h : i < 256) :
    byteAt (bytes s) i = (s (i / 4) >>> (8 * (i % 4))).setWidth 8 := by
  simp [byteAt, bytes, h]

theorem u32At_bytes {d : Nat} (h : d < 64) : u32At (bytes s) (4 * d) = s d := by
  have hd : ∀ k < 4, (4 * d + k) / 4 = d ∧ (4 * d + k) % 4 = k := by
    intro k hk
    omega
  simp only [u32At, byteAt_bytes (show 4 * d + 3 < 256 by omega),
    byteAt_bytes (show 4 * d + 2 < 256 by omega),
    byteAt_bytes (show 4 * d + 1 < 256 by omega), byteAt_bytes (show 4 * d < 256 by omega),
      hd 3 (by decide), hd 2 (by decide),
    hd 1 (by decide), Nat.mul_div_cancel_left d (show 0 < 4 by decide), Nat.mul_mod_right]
  apply BitVec.eq_of_getLsbD_eq
  intro i hi
  simp only [BitVec.getLsbD_append, BitVec.getLsbD_setWidth, BitVec.getLsbD_ushiftRight]
  have hbyte : ∀ k j, j < 8 → k + j = i → (decide (j < 8) && (s d).getLsbD (k + j)) = (s d).getLsbD i := by
    rintro k j hj rfl
    rw [decide_eq_true hj, Bool.true_and]
  split_ifs
  · exact hbyte 0 i (by omega) (by omega)
  · exact hbyte 8 (i - 8) (by omega) (by omega)
  · exact hbyte 16 (i - 8 - 8) (by omega) (by omega)
  · exact hbyte 24 (i - 8 - 8 - 8) (by omega) (by omega)

theorem byteAt_id (hp : p < 256) (haligned : p % 4 = 0) : byteAt (bytes s) p = 0x0f ↔
    idAt s p = capIommu := by
  have hlow : (s (p / 4) &&& 0xff).toNat = ((s (p / 4)).setWidth 8).toNat := by
    rw [BitVec.toNat_and, BitVec.toNat_setWidth]
    exact Nat.and_two_pow_sub_one_eq_mod _ 8
  rw [byteAt_bytes hp, haligned, idAt, capId, hlow]
  simp only [Nat.mul_zero, BitVec.ushiftRight_zero]
  constructor
  · intro h
    rw [h]
    rfl
  · intro h
    exact BitVec.eq_of_toNat_eq h

theorem byteAt_next (hp : p + 1 < 256) (haligned : p % 4 = 0) :
    (byteAt (bytes s) (p + 1) &&& ~~~0x3).toNat = nextPtr 0xfc s p := by
  have hdword : (p + 1) / 4 = p / 4 ∧ (p + 1) % 4 = 1 := by omega
  have hbyte : (s (p / 4) >>> 8 &&& 0xff).toNat = ((s (p / 4) >>> 8).setWidth 8).toNat := by
    rw [BitVec.toNat_and, BitVec.toNat_setWidth]
    exact Nat.and_two_pow_sub_one_eq_mod _ 8
  rw [nextPtr_fc, nextPtr, capNext, hbyte, byteAt_bytes hp, hdword.1, hdword.2, BitVec.toNat_and]
  exact byte_mask (BitVec.isLt _)

theorem first_eq (s : Space) : (byteAt (bytes s) 0x34 &&& ~~~0x3).toNat = firstPtr s / 4 * 4 := by
  have hbyte : firstPtr s = ((s 13).setWidth 8).toNat := by
    rw [firstPtr, BitVec.toNat_and, BitVec.toNat_setWidth]
    exact Nat.and_two_pow_sub_one_eq_mod _ 8
  rw [byteAt_bytes (by decide), BitVec.toNat_and, hbyte]
  exact byte_mask (BitVec.isLt _)

theorem iommuBase_eq (hiommu : IsIommu s) (hlist : HasList s) (haligned : firstPtr s % 4 = 0) :
    iommuBase (bytes s) = iommuLoop (bytes s) 48 (firstPtr s) := by
  have hclass : byteAt (bytes s) 0x0b = 0x08 ∧ byteAt (bytes s) 0x0a = 0x06 ∧
    byteAt (bytes s) 0x09 = 0x00 := by
    have hshift : ∀ k, s 2 >>> (8 + k) = (0x080600 : Word) >>> k := by
      intro k
      rw [BitVec.shiftRight_add, show s 2 >>> 8 = 0x080600 from hiommu]
    rw [byteAt_bytes (by decide), byteAt_bytes (by decide), byteAt_bytes (by decide)]
    refine ⟨?_, ?_, ?_⟩
    · exact congrArg (BitVec.setWidth 8) (hshift 16)
    · exact congrArg (BitVec.setWidth 8) (hshift 8)
    · exact congrArg (BitVec.setWidth 8) (hshift 0)
  have hstatus : ¬ (byteAt (bytes s) 0x07 ++ byteAt (bytes s) 0x06 : BitVec 16) &&& 0x10 = 0 := by
    intro hzero
    refine hlist ?_
    have hbit : ((byteAt (bytes s) 0x07 ++ byteAt (bytes s) 0x06 : BitVec 16) &&& 0x10).getLsbD 4 =
      false := by
      rw [hzero]
      rfl
    have hclear : (s 1 >>> 16).getLsbD 4 = false := by
      rw [BitVec.getLsbD_and, BitVec.getLsbD_append, if_pos (by decide), byteAt_bytes (by decide),
        BitVec.getLsbD_setWidth] at hbit
      have hone : (0x10 : BitVec 16).getLsbD 4 = true := by decide
      rw [hone, Bool.and_true] at hbit
      exact hbit
    have hpow : (1 : Word) <<< 4 = BitVec.twoPow 32 4 := rfl
    rw [hpow, BitVec.and_twoPow, hclear]
    rfl
  have hfirst : (byteAt (bytes s) 0x34 &&& ~~~0x3).toNat = firstPtr s := by
    rw [first_eq]
    omega
  have hlen : ¬ (bytes s).length < 0x40 := by
    rw [length_bytes]
    decide
  simp only [iommuBase, hclass.1, hclass.2.1, hclass.2.2, hlen, ne_eq, not_true_eq_false, or_self,
    if_false, if_neg hstatus, hfirst]

theorem iommuLoop_chain {q left : Nat} (hchain : Chain s p ptrs) (hnodup : ptrs.Nodup)
    (haligned : ∀ r ∈ ptrs, r % 4 = 0)
    (hlower : ∀ r ∈ ptrs, 0x40 ≤ r) (hfits : ∀ r ∈ ptrs, r + 4 * lastDword (s (r / 4)) < 256)
      (hleft : ptrs.length ≤ left)
    (hfind : ptrs.find? (idAt s · = capIommu) = some q) :
    iommuLoop (bytes s) left p =
      if ∀ r ∈ ptrs.takeWhile (idAt s · ≠ capIommu), r + 12 ≤ 256 then
        some (baseOf (s (q / 4 + 1)) (s (q / 4 + 2))) else none := by
  induction ptrs generalizing p left with
  | nil => cases hfind
  | cons r rs ih =>
    obtain ⟨rfl, hne, hrest⟩ := hchain
    have hmod := haligned p List.mem_cons_self
    have hlow := hlower p List.mem_cons_self
    have hend := hfits p List.mem_cons_self
    cases left with
    | zero => cases hleft
    | succ left =>
      rw [iommuLoop, length_bytes]
      by_cases hid : idAt s p = capIommu
      · rw [List.find?_cons_of_pos (by simpa using hid)] at hfind
        obtain rfl := Option.some.inj hfind
        have hlast : lastDword (s (p / 4)) = 2 := by
          have hid' : capId (s (p / 4)) = capIommu := hid
          rw [lastDword, hid', if_neg (by decide), if_pos (.inr rfl)]
        rw [hlast] at hend
        rw [if_neg (by omega), if_pos ((byteAt_id (by omega) hmod).mpr hid),
          List.takeWhile_cons_of_neg (by simpa using hid), if_pos (by simp)]
        have h4 : p + 4 = 4 * (p / 4 + 1) := by omega
        have h8 : p + 8 = 4 * (p / 4 + 2) := by omega
        rw [baseAt, h4, h8, u32At_bytes (by omega), u32At_bytes (by omega)]
        rfl
      · rw [List.find?_cons_of_neg (by simpa using hid)] at hfind
        rw [List.takeWhile_cons_of_pos (by simpa using hid)]
        by_cases hroom : p + 12 ≤ 256
        · have hmem : nextPtr 0xff s p ∈ rs := by
            rcases hrest.first_mem with hzero | hmem
            · cases rs with
              | nil => cases hfind
              | cons t ts => exact absurd (hrest.1.symm.trans hzero) hrest.2.1
            · exact hmem
          have hmask := hrest.mask fun x hx => haligned x (List.mem_cons_of_mem _ hx)
          have hnext : ¬ (nextPtr 0xfc s p = 0 ∨ nextPtr 0xfc s p = p) := by
            rw [hmask]
            rintro (hzero | hsame)
            · have := hlower _ (List.mem_cons_of_mem _ hmem)
              omega
            · rw [hsame] at hmem
              exact (List.nodup_cons.mp hnodup).1 hmem
          have hbyte : ¬ byteAt (bytes s) p = 0x0f := mt (byteAt_id (by omega) hmod).mp hid
          rw [if_neg (by omega), if_neg hbyte]
          simp only [byteAt_next (show p + 1 < 256 by omega) hmod]
          rw [if_neg hnext, hmask, ih hrest (List.nodup_cons.mp hnodup).2
            (fun x hx => haligned x (List.mem_cons_of_mem _ hx))
            (fun x hx => hlower x (List.mem_cons_of_mem _ hx))
              (fun x hx => hfits x (List.mem_cons_of_mem _ hx))
            (Nat.le_of_succ_le_succ hleft) hfind]
          refine if_congr ?_ rfl rfl
          rw [List.forall_mem_cons]
          exact ⟨fun h => ⟨hroom, h⟩, fun h => h.2⟩
        · rw [if_pos (by omega), if_neg (fun h => hroom (h p List.mem_cons_self))]

theorem meets_iff : Meets s ↔ (HasList s → IsIommu s → ∀ ptrs, WellFormed s ptrs → Roomy s ptrs) := by
  have hrun : ∀ {ptrs p}, WellFormed s ptrs → HasList s → IsIommu s →
    ptrs.find? (idAt s · = capIommu) = some p →
      iommuBase (bytes s) = if ∀ r ∈ ptrs.takeWhile (idAt s · ≠ capIommu), r + 12 ≤ 256 then
        some (baseOf (s (p / 4 + 1)) (s (p / 4 + 2))) else none := by
    intro ptrs p hwf hlist hiommu hfind
    have hfirst : firstPtr s % 4 = 0 := by
      rcases hwf.chain.first_mem with hzero | hmem
      · rw [hzero]
      · exact hwf.aligned _ hmem
    rw [iommuBase_eq hiommu hlist hfirst]
    exact iommuLoop_chain hwf.chain hwf.nodup hwf.aligned hwf.lower hwf.fits hwf.length_le hfind
  constructor
  · intro h hlist hiommu ptrs hwf p hfind
    have hsome := h ptrs hwf hlist hiommu p hfind
    rw [hrun hwf hlist hiommu hfind] at hsome
    by_contra hroom
    rw [if_neg hroom] at hsome
    cases hsome
  · intro h ptrs hwf hlist hiommu p hfind
    rw [hrun hwf hlist hiommu hfind, if_pos (h hlist hiommu ptrs hwf p hfind)]

end Swift

/-- What is asked of the walks holds exactly when the AHCI walk comes to an end, the registers that
the AHCI and the console driver program are in the space, the capability of the console driver is
early enough on its list, and no capability in front of that of the IOMMU is at the end of the
space. The 82574 driver needs no condition. -/
theorem walks_meet_iff (s : Space) (mmioLen : Nat) :
    (Ahci.Meets s ∧ E1000e.Meets s ∧ Console.Meets s mmioLen ∧ Swift.Meets s) ↔
      Ahci.Ends s (firstPtr s) ∧ (HasList s → Console.Reaches s ∧ ∀ ptrs, WellFormed s ptrs →
        Console.Early s ptrs) ∧
        (HasList s → Swift.IsIommu s → ∀ ptrs, WellFormed s ptrs → Swift.Roomy s ptrs) := by
  rw [Ahci.meets_iff, Console.meets_iff, Swift.meets_iff]
  exact ⟨fun ⟨hahci, _, hconsole, hswift⟩ => ⟨hahci, hconsole, hswift⟩,
    fun ⟨hahci, hconsole, hswift⟩ => ⟨hahci, E1000e.meets s, hconsole, hswift⟩⟩

/-- One capability, which points to itself. -/
def selfLinked (i : Nat) : Word := if i = 13 then 0x40 else if i = 16 then 0x4001 else 0

theorem walk_endless : ¬ ∀ s mmioLen, Ahci.Meets s ∧ E1000e.Meets s ∧ Console.Meets s mmioLen ∧
    Swift.Meets s := by
  intro h
  obtain ⟨n, -, hend⟩ := Ahci.meets_iff.mp (h selfLinked 0).1
  have hself : ∀ n, Ahci.ptrAt selfLinked 0x40 n = 0x40 := by
    intro n
    induction n with
    | zero => rfl
    | succ n ih => exact ih
  have hfirst : firstPtr selfLinked = 0x40 := rfl
  rw [hfirst, hself] at hend
  rcases hend with hzero | ⟨hid, -⟩
  · cases hzero
  · revert hid
    decide

end Lerux.Pci

import Mathlib.Data.BitVec
import Mathlib.Data.List.Basic
import Mathlib.Logic.Function.Basic

/-!
# Walks of the PCI capability list

Four functions follow the list of capabilities that a device presents: `enable_msi` of the AHCI
driver, `force_pin` of the 82574 driver, `program_msi` of the console driver, and `iommu_base` of
lerux-swift. They differ in how often they go on, in how they mask a pointer, and in what they check
of it.

The configuration space is 64 dwords, and a configuration cycle addresses the dword of a register.
`Config` is a computation on it that stops where the sum of a pointer and an offset does not fit in
eight bits; what was written until then is kept.
-/

namespace Lerux.Pci

abbrev Word := BitVec 32

/-- The configuration space by dwords. -/
abbrev Space := Nat → Word

structure Bus where
  space : Space
  writes : List (Nat × Word)
  mmio : List (Word × Word)

def Bus.opened (s : Space) : Bus := ⟨s, [], []⟩

def Config (α : Type) : Type := Bus → Option α × Bus

namespace Config

instance instMonad : Monad Config where
  pure a bus := (some a, bus)
  bind m f bus :=
    match m bus with
    | (none, bus) => (none, bus)
    | (some a, bus) => f a bus

def readConfig (reg : Nat) : Config Word := fun bus => (some (bus.space (reg / 4)), bus)

def writeConfig (reg : Nat) (value : Word) : Config Unit := fun bus =>
  (some (), { bus with
    space := Function.update bus.space (reg / 4) value
    writes := bus.writes ++ [(reg / 4, value)] })

/-- A register of the device's memory. -/
def write32 (reg value : Word) : Config Unit :=
  fun bus => (some (), { bus with mmio := bus.mmio ++ [(reg, value)] })

/-- The sum of a pointer and an offset, in eight bits. -/
def offset (capPtr k : Nat) : Config Nat := fun bus => (if capPtr + k < 256 then some (capPtr + k)
    else none, bus)

end Config

open Config

def capMsi : Nat := 0x05
def capMsix : Nat := 0x11
def capIommu : Nat := 0x0f

def capId (header : Word) : Nat := (header &&& 0xff).toNat

/-- The byte behind the id, under a mask. -/
def capNext (mask header : Word) : Nat := ((header >>> 8) &&& mask).toNat

def msiAddress : Word := 0xfee00000

def msiData (sdfVector : Word) : Word := sdfVector + 0x30

/-! ### The AHCI driver -/

namespace Ahci

def ahciIoapicVector : Word := 51

def programCap (capPtr : Nat) (header : Word) : Config Unit := do
  let msgCtl := header >>> 16
  let data := msiData ahciIoapicVector
  writeConfig (← offset capPtr 4) msiAddress
  if msgCtl &&& 0x80 ≠ 0 then
    writeConfig (← offset capPtr 8) 0
    writeConfig (← offset capPtr 0xc) data
  else
    writeConfig (← offset capPtr 8) data
  let enabled := (header &&& (0xffff : Word)) ||| (msgCtl ||| (1 : Word)) <<< 16
  writeConfig capPtr enabled

/-- The loop has no bound of its own: `none` is that it still runs after `fuel` rounds. -/
def enableMsiLoop : Nat → Nat → Config (Option Bool)
  | 0, _ => pure none
  | fuel + 1, capPtr =>
    if capPtr = 0 then pure (some false)
    else do
      let header ← readConfig capPtr
      let next := capNext 0xfc header
      if capId header = capMsi then
        programCap capPtr header
        pure (some true)
      else enableMsiLoop fuel next

def enableMsi (fuel : Nat) : Config (Option Bool) := do
  let header ← readConfig 0x34
  enableMsiLoop fuel (header &&& 0xff).toNat

end Ahci

/-! ### The 82574 driver -/

namespace E1000e

def msiEnable : Word := 1 <<< 16
def msixEnable : Word := 1 <<< 31

/-- Whether the walk came to the end of the list. -/
def forcePinLoop : Nat → Nat → Config Bool
  | 0, _ => pure false
  | left + 1, capPtr =>
    if capPtr = 0 then pure true
    else do
      let header ← readConfig capPtr
      let next := capNext 0xfc header
      if capId header = capMsi then writeConfig capPtr (header &&& ~~~msiEnable)
      else if capId header = capMsix then writeConfig capPtr (header &&& ~~~msixEnable)
      forcePinLoop left next

def forcePin : Config Bool := do
  let header ← readConfig 0x34
  forcePinLoop 48 (header &&& 0xff).toNat

end E1000e

/-! ### The console driver -/

namespace Console

def sdfVector : Word := 50

def enableMsix (mmioLen : Nat) (cap : Nat) (hdr : Word) : Config Bool := do
  let masked := ((hdr >>> 16) ||| (1 : Word) <<< 14) &&& ~~~((1 : Word) <<< 15)
  writeConfig cap ((hdr &&& (0xffff : Word)) ||| masked <<< 16)
  let table ← readConfig (← offset cap 4)
  let bir := table &&& 0x7
  let off := table &&& ~~~0x7
  if bir ≠ 0 ∨ off.toNat + 16 > mmioLen then pure false
  else
    write32 off msiAddress
    write32 (off + 4) 0
    write32 (off + 8) (msiData sdfVector)
    write32 (off + 12) 0
    let hdr ← readConfig cap
    let enabled := ((hdr >>> 16) ||| (1 : Word) <<< 15) &&& ~~~((1 : Word) <<< 14)
    writeConfig cap ((hdr &&& (0xffff : Word)) ||| enabled <<< 16)
    pure true

def enableMsi (cap : Nat) (hdr : Word) : Config Unit := do
  let ctrl := (hdr >>> 16) &&& ~~~(1 : Word) &&& ~~~((0x7 : Word) <<< 4)
  writeConfig cap ((hdr &&& (0xffff : Word)) ||| ctrl <<< 16)
  let data := msiData sdfVector
  writeConfig (← offset cap 4) msiAddress
  if ctrl &&& (1 : Word) <<< 7 ≠ 0 then
    writeConfig (← offset cap 8) 0
    let prev ← readConfig (← offset cap 12)
    writeConfig (← offset cap 12) ((prev &&& (0xffff0000 : Word)) ||| data)
  else
    let prev ← readConfig (← offset cap 8)
    writeConfig (← offset cap 8) ((prev &&& (0xffff0000 : Word)) ||| data)
  let ctrl := ctrl ||| (1 : Word)
  let hdr ← readConfig cap
  writeConfig cap ((hdr &&& (0xffff : Word)) ||| ctrl <<< 16)

/-- Behind the loop MSI-X is tried, when a capability for it was seen. -/
def tryMsix (mmioLen : Nat) : Option (Nat × Word) → Config Bool
  | none => pure false
  | some (cap, hdr) => enableMsix mmioLen cap hdr

def programMsiLoop (mmioLen : Nat) : Nat → Nat → Option (Nat × Word) → Config Bool
  | 0, _, msix => tryMsix mmioLen msix
  | left + 1, cap, msix =>
    if cap < 0x40 then tryMsix mmioLen msix
    else do
      let hdr ← readConfig cap
      let next := capNext 0xff hdr
      if capId hdr = capMsi then
        enableMsi cap hdr
        pure true
      else
        let msix := if capId hdr = capMsix then some (cap, hdr) else msix
        if next = 0 then tryMsix mmioLen msix else programMsiLoop mmioLen left next msix

def programMsi (mmioLen : Nat) : Config Bool := do
  let status := (← readConfig 0x04) >>> 16
  if status &&& (1 : Word) <<< 4 = 0 then pure false
  else
    let header ← readConfig 0x34
    programMsiLoop mmioLen 32 (header &&& 0xff).toNat none

end Console

/-! ### lerux-swift -/

namespace Swift

def byteAt (config : List (BitVec 8)) (i : Nat) : BitVec 8 := config.getD i 0

def u32At (config : List (BitVec 8)) (i : Nat) : Word :=
  byteAt config (i + 3) ++ byteAt config (i + 2) ++ byteAt config (i + 1) ++ byteAt config i

/-- The two base address registers of the capability. -/
def baseAt (config : List (BitVec 8)) (ptr : Nat) : BitVec 64 :=
  (u32At config (ptr + 8)).setWidth 64 <<< 32 ||| (u32At config (ptr + 4) &&& 0xffffc000).setWidth 64

def iommuLoop (config : List (BitVec 8)) : Nat → Nat → Option (BitVec 64)
  | 0, _ => none
  | left + 1, ptr =>
    if ptr < 0x40 ∨ ptr + 12 > config.length then none
    else if byteAt config ptr = 0x0f then some (baseAt config ptr)
    else
      let next := (byteAt config (ptr + 1) &&& ~~~0x3).toNat
      if next = 0 ∨ next = ptr then none else iommuLoop config left next

def iommuBase (config : List (BitVec 8)) : Option (BitVec 64) :=
  if config.length < 0x40 ∨ byteAt config 0x0b ≠ 0x08 ∨ byteAt config 0x0a ≠ 0x06 ∨
    byteAt config 0x09 ≠ 0x00 then none
  else
    let status : BitVec 16 := byteAt config 0x07 ++ byteAt config 0x06
    if status &&& 0x10 = 0 then none
    else iommuLoop config 48 (byteAt config 0x34 &&& ~~~0x3).toNat

/-- The configuration space as bytes. -/
def bytes (s : Space) : List (BitVec 8) :=
  (List.range 256).map fun i => (s (i / 4) >>> (8 * (i % 4))).setWidth 8

end Swift

/-! ### The list -/

def firstPtr (s : Space) : Nat := (s 13 &&& 0xff).toNat

/-- The pointer in the header of the capability at a pointer. -/
def nextPtr (mask : Word) (s : Space) (p : Nat) : Nat := capNext mask (s (p / 4))

def idAt (s : Space) (p : Nat) : Nat := capId (s (p / 4))

/-- The function has a capability list. -/
def HasList (s : Space) : Prop := (s 1 >>> 16) &&& (1 : Word) <<< 4 ≠ 0

inductive OnList (s : Space) : Nat → Prop
  | first : firstPtr s ≠ 0 → OnList s (firstPtr s)
  | next {p : Nat} : OnList s p → nextPtr 0xff s p ≠ 0 → OnList s (nextPtr 0xff s p)

/-- The message of a capability has a 64-bit address. -/
def Wide (header : Word) : Prop := (header >>> 16) &&& 0x80 ≠ 0

instance instDecidableWide (header : Word) : Decidable (Wide header) :=
  inferInstanceAs (Decidable ((header >>> 16) &&& 0x80 ≠ 0))

/-- The last dword of a capability: of the message, of the MSI-X tables, or of the IOMMU base. -/
def lastDword (header : Word) : Nat :=
  if capId header = capMsi then if Wide header then 3 else 2
  else if capId header = capMsix ∨ capId header = capIommu then 2
  else 0

/-- A null-terminated chain. -/
def Chain (s : Space) : Nat → List Nat → Prop
  | p, [] => p = 0
  | p, q :: qs => p = q ∧ q ≠ 0 ∧ Chain s (nextPtr 0xff s q) qs

structure WellFormed (s : Space) (ptrs : List Nat) : Prop where
  chain : Chain s (firstPtr s) ptrs
  nodup : ptrs.Nodup
  aligned : ∀ p ∈ ptrs, p % 4 = 0
  lower : ∀ p ∈ ptrs, 0x40 ≤ p
  fits : ∀ p ∈ ptrs, p + 4 * lastDword (s (p / 4)) < 256

/-- What is written belongs to MSI and MSI-X capabilities on the list. -/
def WritesCaps (s : Space) (writes : List (Nat × Word)) : Prop :=
  ∀ w ∈ writes, ∃ p, OnList s p ∧ (idAt s p = capMsi ∨ idAt s p = capMsix) ∧ p / 4 ≤ w.1 ∧ w.1 ≤
    p / 4 + lastDword (s (p / 4))

end Lerux.Pci

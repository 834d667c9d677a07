import Lerux.Base.Text
import Mathlib.Logic.Function.Basic

/-!
# Images of the device framework

`render_image`: regions, protection domains and links, the channel ids that are assigned to them,
and the system description that is written. The elements of the description are a `System`, built
where the source writes them, and `System.text` is what it writes.

A number of 8 bits is a natural number, with its bound where the source checks it. The free ids are
a function from the names of the domains, which is 0 where the source's map has no entry.
-/

namespace Lerux.DeviceImage

abbrev Name := List Char

inductive ImageError
  | duplicateEnd (pd : Name) (id : Nat)
  | unknownRegion (name : Name)
  | channelOverflow (pd : Name)
  | missingIrq (pd : Name)
  deriving DecidableEq

structure Region where
  name : Name
  size : Nat
  vaddr : Nat
  physAddr : Option Name
  pageSize : Option Nat
  deriving DecidableEq

structure Qos where
  budget : Nat
  passive : Bool
  deriving DecidableEq

structure IoPort where
  /-- As it is spelled. -/
  addr : Name
  size : Nat
  idSymbol : Name
  addrSymbol : Name
  elementId : Option Nat
  deriving DecidableEq

inductive Trigger
  | level
  | edge
  deriving DecidableEq

inductive Polarity
  | high
  | low
  deriving DecidableEq

inductive Irq
  | line (line : Nat)
  | x86 (pin vector : Nat) (trigger : Trigger) (polarity : Polarity)
  | msi (bus device function handle vector : Nat)
  deriving DecidableEq

structure Map where
  region : Name
  cached : Option Bool
  setvar : Option Name
  deriving DecidableEq

inductive Slot
  | map (map : Map)
  | setvar (symbol region : Name)
  | port (port : IoPort)
  deriving DecidableEq

structure Domain where
  name : Name
  priority : Nat
  qos : Option Qos
  stack : Nat
  program : Name
  slots : List Slot
  irq : Option Irq
  deriving DecidableEq

structure Link where
  a : Name
  b : Name
  ppB : Bool
  order : Nat
  deriving DecidableEq

structure Image where
  groups : List (List Region)
  domains : List Domain
  links : List Link

structure AssignedChannel where
  aPd : Name
  aId : Nat
  bPd : Name
  bId : Nat
  ppB : Bool
  deriving DecidableEq

structure AssignedEnd where
  pd : Name
  id : Nat
  deriving DecidableEq

structure AssignedIrq where
  pd : Name
  id : Nat
  deriving DecidableEq

structure Assigned where
  channels : List AssignedChannel
  ends : List AssignedEnd
  irqs : List AssignedIrq
  deriving DecidableEq

/-! ### Assignment -/

/-- The next free id of each domain. -/
abbrev Next := Name → Nat

def takeId (next : Next) (pd : Name) : Except ImageError (Nat × Next) :=
  if next pd + 1 ≤ 255 then .ok (next pd, Function.update next pd (next pd + 1))
  else .error (.channelOverflow pd)

/-- What the loop over the domains carries. -/
structure IrqState where
  next : Next
  irqs : List AssignedIrq
  ends : List AssignedEnd

def irqStep (s : IrqState) (domain : Domain) : Except ImageError IrqState :=
  if domain.irq.isSome then do
    let (id, next) ← takeId s.next domain.name
    .ok { next, irqs := s.irqs ++ [⟨domain.name, id⟩], ends := s.ends ++ [⟨domain.name, id⟩] }
  else .ok s

def assignDomainIrqs (image : Image) : Except ImageError IrqState :=
  image.domains.foldlM irqStep ⟨fun _ => 0, [], []⟩

/-- The links by their places, in the order in which ids are assigned. -/
def sequence (links : List Link) : List (Fin links.length) :=
  (List.finRange links.length).mergeSort fun i j => (links.get i).order ≤ (links.get j).order

/-- What the loop over the links carries. -/
structure LinkState (links : List Link) where
  next : Next
  ids : Fin links.length → Nat × Nat
  ends : List AssignedEnd

def linkStep {links : List Link} (s : LinkState links) (index : Fin links.length) :
    Except ImageError (LinkState links) := do
  let link := links.get index
  let (aId, next) ← takeId s.next link.a
  let (bId, next) ← takeId next link.b
  .ok { next, ids := Function.update s.ids index (aId, bId), ends := s.ends ++ [⟨link.a, aId⟩, ⟨link.b, bId⟩] }

def assignLinkIds (image : Image) (next : Next) (ends : List AssignedEnd) :
    Except ImageError (LinkState image.links) :=
  (sequence image.links).foldlM linkStep ⟨next, fun _ => (0, 0), ends⟩

def assignedChannel {links : List Link} (ids : Fin links.length → Nat × Nat)
    (index : Fin links.length) : AssignedChannel :=
  let link := links.get index
  { aPd := link.a, aId := (ids index).1, bPd := link.b, bId := (ids index).2, ppB := link.ppB }

def assignedChannels (image : Image) (ids : Fin image.links.length → Nat × Nat) : List AssignedChannel :=
  (List.finRange image.links.length).map (assignedChannel ids)

def assign (image : Image) : Except ImageError Assigned := do
  let s ← assignDomainIrqs image
  let t ← assignLinkIds image s.next s.ends
  .ok { channels := assignedChannels image t.ids, ends := t.ends, irqs := s.irqs }

/-- The loop of `validate`, with the ends that it has seen. -/
def validateFrom : List AssignedEnd → List AssignedEnd → Except ImageError Unit
  | _, [] => .ok ()
  | seen, e :: ends => if e ∈ seen then .error (.duplicateEnd e.pd e.id) else validateFrom (e :: seen) ends

def validate (ends : List AssignedEnd) : Except ImageError Unit := validateFrom [] ends

/-! ### The elements of the description -/

/-- What stands in the element of a protection domain behind its program. -/
inductive Child
  | map (region : Region) (map : Map)
  | setvar (symbol region : Name)
  | ioport (id : Nat) (port : IoPort)
  | irq (irq : Irq) (id : Nat)
  deriving DecidableEq

structure DomainBlock where
  domain : Domain
  children : List Child
  deriving DecidableEq

structure System where
  groups : List (List Region)
  domains : List DomainBlock
  channels : List AssignedChannel
  deriving DecidableEq

def findRegion (groups : List (List Region)) (name : Name) : Except ImageError Region :=
  match groups.flatten.find? (·.name = name) with
  | some region => .ok region
  | none => .error (.unknownRegion name)

def irqId (irqs : List AssignedIrq) (pd : Name) : Except ImageError Nat :=
  match irqs.find? (·.pd = pd) with
  | some irq => .ok irq.id
  | none => .error (.missingIrq pd)

/-- The elements of the slots and the id of the next port. -/
def slotStep (image : Image) (domain : Domain) (s : List Child × Nat) :
    Slot → Except ImageError (List Child × Nat)
  | .map map => do
    let region ← findRegion image.groups map.region
    .ok (s.1 ++ [.map region map], s.2)
  | .setvar symbol region => .ok (s.1 ++ [.setvar symbol region], s.2)
  | .port port =>
    let id := port.elementId.getD s.2
    if id + 1 ≤ 255 then .ok (s.1 ++ [.ioport id port], id + 1) else .error (.channelOverflow domain.name)

def irqChildren (domain : Domain) (irqs : List AssignedIrq) : Except ImageError (List Child) :=
  match domain.irq with
  | none => .ok []
  | some irq => do
    let id ← irqId irqs domain.name
    .ok [.irq irq id]

def domainBlock (image : Image) (assigned : Assigned) (domain : Domain) :
    Except ImageError DomainBlock := do
  let (children, _) ← domain.slots.foldlM (slotStep image domain) ([], 0)
  let irqs ← irqChildren domain assigned.irqs
  .ok { domain, children := children ++ irqs }

def domainBlocks (image : Image) (assigned : Assigned) : List Domain → Except ImageError (List DomainBlock)
  | [] => .ok []
  | domain :: domains => do
    let block ← domainBlock image assigned domain
    let blocks ← domainBlocks image assigned domains
    .ok (block :: blocks)

def writeSystem (image : Image) (assigned : Assigned) : Except ImageError System := do
  let domains ← domainBlocks image assigned image.domains
  .ok { groups := image.groups, domains, channels := assigned.channels }

/-- `render_assigned` up to the text. -/
def renderSystem (image : Image) : Except ImageError System := do
  let assigned ← assign image
  validate assigned.ends
  writeSystem image assigned

/-! ### The text -/

/-- Digits from the last one on, with a mark before each third one. -/
def grouped (digits : List Char) : List Char :=
  digits.zipIdx.flatMap fun p => if 0 < p.2 ∧ p.2 % 3 = 0 then ['_', p.1] else [p.1]

def hexGroup (value : Nat) : List Char := "0x".toList ++ (grouped (Nat.toDigits 16 value).reverse).reverse

def quoted (text : List Char) : List Char := '"' :: text ++ ['"']

def regionLine (region : Region) : List Char :=
  let size := quoted (hexGroup region.size)
  match region.physAddr, region.pageSize with
  | some phys, _ => "    <memory_region name=".toList ++ quoted region.name ++ " size=".toList ++
    size ++ " phys_addr=".toList ++ quoted phys ++ " />".toList
  | none, some page =>
    "    <memory_region name=".toList ++ quoted region.name ++ " size=".toList ++ size ++
      " page_size=".toList ++ quoted (hexGroup page) ++ " />".toList
  | none, none => "    <memory_region name=".toList ++ quoted region.name ++ " size=".toList ++
    size ++ " />".toList

def domainAttrs (domain : Domain) : List Char :=
  let priority := "priority=".toList ++ quoted (decimal domain.priority)
  match domain.qos with
  | none => priority
  | some qos =>
    let budget := priority ++ " budget=".toList ++ quoted (decimal qos.budget) ++
      " period=".toList ++ quoted (decimal qos.budget)
    if qos.passive then budget ++ " passive=\"true\"".toList else budget

def mapLine (region : Region) (map : Map) : List Char :=
  "        <map mr=".toList ++ quoted map.region ++ " vaddr=".toList ++
    quoted (hexGroup region.vaddr) ++ " perms=\"rw\"".toList ++
    (match map.cached with
      | some cached => " cached=".toList ++ quoted (if cached then "true".toList else "false".toList)
      | none => []) ++
    (match map.setvar with
      | some setvar => " setvar_vaddr=".toList ++ quoted setvar
      | none => []) ++ " />".toList

def portLine (index : Nat) (port : IoPort) : List Char :=
  "        <ioport id=".toList ++ quoted (decimal index) ++ " addr=".toList ++ quoted port.addr ++
    " size=".toList ++ quoted (decimal port.size) ++
    " setvar_id=".toList ++ quoted port.idSymbol ++ " setvar_addr=".toList ++
      quoted port.addrSymbol ++ " />".toList

def x86Trigger : Trigger → List Char
  | .level => "level".toList
  | .edge => "edge".toList

def x86Polarity : Polarity → List Char
  | .high => "high".toList
  | .low => "low".toList

def bdf (bus device function : Nat) : List Char :=
  let hex := Nat.toDigits 16 bus
  (if hex.length < 2 then '0' :: hex else hex) ++ ':' :: Nat.toDigits 16 device ++ '.' :: decimal function

def irqLine (irq : Irq) (channel : Nat) : List Char :=
  match irq with
  | .line line => "        <irq irq=".toList ++ quoted (decimal line) ++ " id=".toList ++
    quoted (decimal channel) ++ " />\n".toList
  | .x86 pin vector trigger polarity =>
    "        <irq pin=".toList ++ quoted (decimal pin) ++ " vector=".toList ++
      quoted (decimal vector) ++ " id=".toList ++ quoted (decimal channel) ++
      " trigger=".toList ++ quoted (x86Trigger trigger) ++ " polarity=".toList ++
        quoted (x86Polarity polarity) ++ " />\n".toList
  | .msi bus device function handle vector =>
    "        <irq pcidev=".toList ++ quoted (bdf bus device function) ++ " handle=".toList ++
      quoted (decimal handle) ++ " vector=".toList ++
      quoted (decimal vector) ++ " id=".toList ++ quoted (decimal channel) ++ " />\n".toList

def Child.text : Child → List Char
  | .map region m => mapLine region m ++ ['\n']
  | .setvar symbol region => "        <setvar symbol=".toList ++ quoted symbol ++
    " region_paddr=".toList ++ quoted region ++ " />\n".toList
  | .ioport id port => portLine id port ++ ['\n']
  | .irq line id => irqLine line id

def DomainBlock.text (block : DomainBlock) : List Char :=
  "    <protection_domain name=".toList ++ quoted block.domain.name ++ ' ' ::
    domainAttrs block.domain ++ " stack_size=".toList ++
    quoted (hexGroup block.domain.stack) ++ ">\n        <program_image path=".toList ++
      quoted block.domain.program ++ " />\n".toList ++
    block.children.flatMap Child.text ++ "    </protection_domain>\n".toList

def channelBlock (channel : AssignedChannel) : List Char :=
  "    <channel>\n        <end pd=".toList ++ quoted channel.aPd ++ " id=".toList ++
    quoted (decimal channel.aId) ++
    " />\n        <end pd=".toList ++ quoted channel.bPd ++ " id=".toList ++ quoted (decimal channel.bId) ++
    (if channel.ppB then " pp=\"true\"".toList else []) ++ " />\n    </channel>\n".toList

def System.text (system : System) : List Char :=
  "<?xml version=\"1.0\" encoding=\"UTF-8\"?>\n<system>\n".toList ++
    ['\n'].intercalate (system.groups.map fun group => group.flatMap fun region =>
      regionLine region ++ ['\n']) ++ ['\n'] ++
    (system.domains.flatMap fun block => block.text ++ ['\n']) ++
      system.channels.flatMap channelBlock ++ "</system>\n".toList

def renderImage (image : Image) : Except ImageError (List Char) := System.text <$> renderSystem image

end Lerux.DeviceImage

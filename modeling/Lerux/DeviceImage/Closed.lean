import Lerux.DeviceImage.Assign

/-!
# What a system description refers to

A description is closed if it names only regions and domains that it declares, and if no id of a
domain is used twice. The region of a map is looked up, and ids of channels are counted, but the
region of a variable, the ends of a link and the given ids of ports are taken as they are.
`closed_exact` says which images are described by closed systems, if at all.
-/

namespace Lerux.DeviceImage

/-! ### Closed systems -/

/-- The region that an element names. -/
def Child.region? : Child → Option Name
  | .map _ m => some m.region
  | .setvar _ region => some region
  | .ioport _ _ => none
  | .irq _ _ => none

def Child.port? : Child → Option Nat
  | .ioport id _ => some id
  | _ => none

def Child.irq? : Child → Option Nat
  | .irq _ id => some id
  | _ => none

def declared (groups : List (List Region)) : List Name := groups.flatten.map (·.name)

/-- The ids of the channels at a domain. -/
def channelIds (channels : List AssignedChannel) (pd : Name) : List Nat :=
  idsOf (channels.flatMap fun c => [⟨c.aPd, c.aId⟩, ⟨c.bPd, c.bId⟩]) pd

structure Closed (system : System) : Prop where
  regions : ∀ block ∈ system.domains, ∀ r ∈ block.children.filterMap Child.region?,
    r ∈ declared system.groups
  ends : ∀ c ∈ system.channels, c.aPd ∈ system.domains.map (·.domain.name) ∧ c.bPd ∈
    system.domains.map (·.domain.name)
  ids : ∀ block ∈ system.domains,
    (block.children.filterMap Child.irq? ++ channelIds system.channels block.domain.name).Nodup
  ports : ∀ block ∈ system.domains, (block.children.filterMap Child.port?).Nodup

/-! ### Conditions on an image -/

def Slot.region? : Slot → Option Name
  | .map m => some m.region
  | .setvar _ region => some region
  | .port _ => none

def Slot.map? : Slot → Option Name
  | .map m => some m.region
  | _ => none

def Slot.setvar? : Slot → Option Name
  | .setvar _ region => some region
  | _ => none

/-- The ids of the ports: each its own, or one more than that of the port before. -/
def portIds : Nat → List Slot → List Nat
  | _, [] => []
  | next, .port port :: slots => port.elementId.getD next :: portIds (port.elementId.getD next + 1) slots
  | next, _ :: slots => portIds next slots

/-- What the slots of a domain must be. -/
def SlotsOk (groups : List (List Region)) (next : Nat) (slots : List Slot) : Prop :=
  (∀ r ∈ slots.filterMap Slot.map?, r ∈ declared groups) ∧ ∀ id ∈ portIds next slots, id ≤ 254

/-- The images that are rendered. -/
structure Accepted (image : Image) : Prop where
  uses : ∀ pd, uses image pd ≤ 255
  slots : ∀ d ∈ image.domains, SlotsOk image.groups 0 d.slots

/-- The images whose other names and ids are as they should be. -/
structure Resolved (image : Image) : Prop where
  setvars : ∀ d ∈ image.domains, ∀ r ∈ d.slots.filterMap Slot.setvar?, r ∈ declared image.groups
  ends : ∀ link ∈ image.links, link.a ∈ image.domains.map (·.name) ∧ link.b ∈ image.domains.map (·.name)
  ports : ∀ d ∈ image.domains, (portIds 0 d.slots).Nodup

/-! ### Slots -/

section slots

variable {image : Image} {domain : Domain}

theorem findRegion_ok {groups : List (List Region)} {name : Name} (h : name ∈ declared groups) :
    ∃ region, findRegion groups name = .ok region := by
  obtain ⟨region, hregion, rfl⟩ := List.mem_map.mp h
  have hsome : (groups.flatten.find? (·.name = region.name)).isSome :=
    List.find?_isSome.mpr ⟨region, hregion, decide_eq_true rfl⟩
  obtain ⟨found, hfound⟩ := Option.isSome_iff_exists.mp hsome
  exact ⟨found, by rw [findRegion, hfound]⟩

theorem findRegion_error {groups : List (List Region)} {name : Name} (h : name ∉ declared groups) :
    findRegion groups name = .error (.unknownRegion name) := by
  have hnone : groups.flatten.find? (·.name = name) = none := by
    rw [List.find?_eq_none]
    intro region hregion heq
    exact h (List.mem_map.mpr ⟨region, hregion, of_decide_eq_true heq⟩)
  rw [findRegion, hnone]

/-- The elements of the slots, if these are what they must be. -/
theorem slots_spec (image : Image) (domain : Domain) (slots : List Slot) :
    ∀ (acc : List Child) (next : Nat),
    (SlotsOk image.groups next slots → ∃ children next', slots.foldlM (slotStep image domain)
      (acc, next) = .ok (acc ++ children, next') ∧
      children.filterMap Child.region? = slots.filterMap Slot.region? ∧
        children.filterMap Child.port? = portIds next slots ∧
      children.filterMap Child.irq? = []) ∧
    (¬SlotsOk image.groups next slots → ∃ e,
      slots.foldlM (slotStep image domain) (acc, next) = .error e) := by
  induction slots with
  | nil =>
    intro acc next
    refine ⟨fun _ => ⟨[], next, by rw [List.append_nil]; rfl, rfl, rfl, rfl⟩,
      fun hnot => absurd ⟨?_, ?_⟩ hnot⟩
    · intro r hr
      cases hr
    · intro id hid
      cases hid
  | cons slot slots ih =>
    intro acc next
    rw [List.foldlM_cons]
    cases slot with
    | map m =>
      by_cases hm : m.region ∈ declared image.groups
      · obtain ⟨region, hregion⟩ := findRegion_ok hm
        have hstep : slotStep image domain (acc, next) (.map m) = .ok (acc ++ [.map region m], next) := by
          rw [slotStep, hregion]
          rfl
        have hiff : SlotsOk image.groups next (.map m :: slots) ↔ SlotsOk image.groups next slots := by
          simp [SlotsOk, Slot.map?, portIds, hm]
        rw [hstep, hiff]
        obtain ⟨hok, herror⟩ := ih (acc ++ [.map region m]) next
        refine ⟨fun h => ?_, herror⟩
        obtain ⟨children, next', hrun, hregions, hports, hirqs⟩ := hok h
        refine ⟨.map region m :: children, next', ?_, ?_, hports, hirqs⟩
        · rw [List.append_assoc] at hrun
          exact hrun
        · rw [List.filterMap_cons, List.filterMap_cons, hregions]
          rfl
      · have hstep : slotStep image domain (acc, next) (.map m) = .error (.unknownRegion m.region) := by
          rw [slotStep, findRegion_error hm]
          rfl
        rw [hstep]
        refine ⟨fun h => absurd (h.1 m.region ?_) hm, fun _ => ⟨_, rfl⟩⟩
        exact List.mem_filterMap.mpr ⟨.map m, List.mem_cons_self, rfl⟩
    | setvar symbol region =>
      obtain ⟨hok, herror⟩ := ih (acc ++ [.setvar symbol region]) next
      have hiff : SlotsOk image.groups next (.setvar symbol region :: slots) ↔
        SlotsOk image.groups next slots := Iff.rfl
      have hstep : slotStep image domain (acc, next) (.setvar symbol region) =
        .ok (acc ++ [.setvar symbol region], next) := rfl
      rw [hstep, hiff]
      refine ⟨fun h => ?_, herror⟩
      obtain ⟨children, next', hrun, hregions, hports, hirqs⟩ := hok h
      refine ⟨.setvar symbol region :: children, next', ?_, ?_, hports, hirqs⟩
      · rw [List.append_assoc] at hrun
        exact hrun
      · rw [List.filterMap_cons, List.filterMap_cons, hregions]
        rfl
    | port port =>
      by_cases hid : port.elementId.getD next + 1 ≤ 255
      · have hstep : slotStep image domain (acc, next) (.port port) =
            .ok (acc ++ [.ioport (port.elementId.getD next) port], port.elementId.getD next + 1) :=
              if_pos hid
        have hiff : SlotsOk image.groups next (.port port :: slots) ↔
          SlotsOk image.groups (port.elementId.getD next + 1) slots := by
          have hone : port.elementId.getD next ≤ 254 := by omega
          simp [SlotsOk, Slot.map?, portIds, hone]
        rw [hstep, hiff]
        obtain ⟨hok, herror⟩ := ih (acc ++ [.ioport (port.elementId.getD next) port])
          (port.elementId.getD next + 1)
        refine ⟨fun h => ?_, herror⟩
        obtain ⟨children, next', hrun, hregions, hports, hirqs⟩ := hok h
        refine ⟨.ioport (port.elementId.getD next) port :: children, next', ?_, hregions, ?_, hirqs⟩
        · rw [List.append_assoc] at hrun
          exact hrun
        · rw [List.filterMap_cons, hports]
          rfl
      · have hstep : slotStep image domain (acc, next) (.port port) =
          .error (.channelOverflow domain.name) := if_neg hid
        rw [hstep]
        refine ⟨fun h => ?_, fun _ => ⟨_, rfl⟩⟩
        have := h.2 (port.elementId.getD next) List.mem_cons_self
        omega

end slots

/-! ### Domains -/

/-- What the element of a domain holds. -/
structure Describes (irqs : List AssignedIrq) (block : DomainBlock) : Prop where
  regions : block.children.filterMap Child.region? = block.domain.slots.filterMap Slot.region?
  ports : block.children.filterMap Child.port? = portIds 0 block.domain.slots
  ids : (block.children.filterMap Child.irq?).Sublist (idsOf (irqEnds irqs) block.domain.name)

section domains

variable {image : Image} {assigned : Assigned}

theorem irqId_spec {irqs : List AssignedIrq} {pd : Name} (h : pd ∈ irqs.map (·.pd)) :
    ∃ id, irqId irqs pd = .ok id ∧ id ∈ idsOf (irqEnds irqs) pd := by
  obtain ⟨irq, hirq, rfl⟩ := List.mem_map.mp h
  have hsome : (irqs.find? (·.pd = irq.pd)).isSome := List.find?_isSome.mpr ⟨irq, hirq, decide_eq_true rfl⟩
  obtain ⟨found, hfound⟩ := Option.isSome_iff_exists.mp hsome
  have hpd : found.pd = irq.pd := by simpa using List.find?_some hfound
  refine ⟨found.id,
    by rw [irqId, hfound], List.mem_map.mpr ⟨⟨found.pd, found.id⟩, List.mem_filter.mpr ⟨?_, decide_eq_true hpd⟩, rfl⟩⟩
  exact List.mem_map.mpr ⟨found, List.mem_of_find?_eq_some hfound, rfl⟩

theorem domainBlock_spec {domain : Domain} (hirqs : domain.irq.isSome → domain.name ∈
    assigned.irqs.map (·.pd)) :
    (SlotsOk image.groups 0 domain.slots → ∃ block, domainBlock image assigned domain = .ok block ∧
      block.domain = domain ∧
      Describes assigned.irqs block) ∧
    (¬SlotsOk image.groups 0 domain.slots → ∃ e, domainBlock image assigned domain = .error e) := by
  obtain ⟨hok, herror⟩ := slots_spec image domain domain.slots [] 0
  unfold domainBlock
  constructor
  · intro h
    obtain ⟨children, next, hrun, hregions, hports, hnone⟩ := hok h
    rw [hrun]
    obtain ⟨irqs, hirq, hirqRegions, hirqPorts, hirqIds⟩ : ∃ irqs,
      irqChildren domain assigned.irqs = .ok irqs ∧
        irqs.filterMap Child.region? = [] ∧ irqs.filterMap Child.port? = [] ∧
        (irqs.filterMap Child.irq?).Sublist (idsOf (irqEnds assigned.irqs) domain.name) := by
      unfold irqChildren
      cases hline : domain.irq with
      | none => exact ⟨[], rfl, rfl, rfl, List.nil_sublist _⟩
      | some line =>
        obtain ⟨id, hid, hmem⟩ := irqId_spec (hirqs (by rw [hline]; rfl))
        dsimp only
        rw [hid]
        exact ⟨[.irq line id], rfl, rfl, rfl, List.singleton_sublist.mpr hmem⟩
    change ∃ block, (irqChildren domain assigned.irqs >>= _) = _ ∧ _
    rw [hirq]
    refine ⟨_, rfl, rfl, ?_, ?_, ?_⟩
    · rw [List.nil_append, List.filterMap_append, hregions, hirqRegions, List.append_nil]
    · rw [List.nil_append, List.filterMap_append, hports, hirqPorts, List.append_nil]
    · rw [List.nil_append, List.filterMap_append, hnone, List.nil_append]
      exact hirqIds
  · intro h
    obtain ⟨e, he⟩ := herror h
    rw [he]
    exact ⟨e, rfl⟩

theorem domainBlocks_spec {domains : List Domain} (hirqs : ∀ d ∈ domains, d.irq.isSome → d.name ∈
    assigned.irqs.map (·.pd)) :
    ((∀ d ∈ domains, SlotsOk image.groups 0 d.slots) → ∃ blocks,
      domainBlocks image assigned domains = .ok blocks ∧
      blocks.map (·.domain) = domains ∧ ∀ block ∈ blocks, Describes assigned.irqs block) ∧
    ((¬∀ d ∈ domains, SlotsOk image.groups 0 d.slots) → ∃ e,
      domainBlocks image assigned domains = .error e) := by
  induction domains with
  | nil =>
    refine ⟨fun _ => ⟨[], rfl, rfl, fun b hb => ?_⟩, fun hnot => absurd (fun d hd => ?_) hnot⟩
    · cases hb
    · cases hd
  | cons domain domains ih =>
    obtain ⟨hok, herror⟩ := @domainBlock_spec image assigned domain (hirqs domain List.mem_cons_self)
    obtain ⟨ihok, iherror⟩ := ih fun d hd => hirqs d (List.mem_cons_of_mem domain hd)
    rw [domainBlocks]
    by_cases hfirst : SlotsOk image.groups 0 domain.slots
    · obtain ⟨block, hblock, hdomain, hdescribes⟩ := hok hfirst
      rw [hblock]
      change (_ → ∃ blocks, (domainBlocks image assigned domains >>= _) = _ ∧ _) ∧
        (_ → ∃ e, (domainBlocks image assigned domains >>= _) = _)
      constructor
      · intro h
        obtain ⟨blocks, hblocks, hdomains, hall⟩ := ihok fun d hd => h d (List.mem_cons_of_mem domain hd)
        rw [hblocks]
        refine ⟨block :: blocks, rfl, by rw [List.map_cons, hdomain, hdomains], fun b hb => ?_⟩
        rcases List.mem_cons.mp hb with rfl | hb
        · exact hdescribes
        · exact hall b hb
      · intro h
        obtain ⟨e, he⟩ := iherror fun hrest => h fun d hd => by
          rcases List.mem_cons.mp hd with rfl | hd
          · exact hfirst
          · exact hrest d hd
        rw [he]
        exact ⟨e, rfl⟩
    · obtain ⟨e, he⟩ := herror hfirst
      rw [he]
      exact ⟨fun h => absurd (h domain List.mem_cons_self) hfirst, fun _ => ⟨e, rfl⟩⟩

end domains

/-! ### Whole images -/

section images

variable (image : Image)

theorem irqs_named : ∀ d ∈ image.domains, d.irq.isSome → d.name ∈ (assignDone image).irqs.map (·.pd) := by
  intro d hd hirq
  change d.name ∈ (irqsDone image).irqs.map (·.pd)
  rw [(irqsDone_good image).pds]
  exact List.mem_map.mpr ⟨d, List.mem_filter.mpr ⟨hd, hirq⟩, rfl⟩

/-- An accepted image is described by its domains, and another one is not described. -/
theorem renderSystem_spec :
    (Accepted image → ∃ blocks,
      renderSystem image = .ok ⟨image.groups, blocks, (assignDone image).channels⟩ ∧
      blocks.map (·.domain) = image.domains ∧ ∀ block ∈ blocks, Describes (assignDone image).irqs block) ∧
    (¬Accepted image → ∃ e, renderSystem image = .error e) := by
  obtain ⟨hok, herror⟩ := assign_eq image
  obtain ⟨hblocks, hblocksError⟩ := @domainBlocks_spec image (assignDone image) image.domains
    (irqs_named image)
  unfold renderSystem writeSystem
  by_cases huses : ∀ pd, uses image pd ≤ 255
  · rw [hok huses]
    change (_ → ∃ blocks, (validate (assignDone image).ends >>= _) = _ ∧ _) ∧
      (_ → ∃ e, (validate (assignDone image).ends >>= _) = _)
    rw [validate_done]
    change (_ → ∃ blocks, (domainBlocks image (assignDone image) image.domains >>= _) = _ ∧ _) ∧
      (_ → ∃ e, (domainBlocks image (assignDone image) image.domains >>= _) = _)
    constructor
    · intro h
      obtain ⟨blocks, hrun, hdomains, hall⟩ := hblocks h.slots
      rw [hrun]
      exact ⟨blocks, rfl, hdomains, hall⟩
    · intro h
      obtain ⟨e, he⟩ := hblocksError fun hslots => h ⟨huses, hslots⟩
      rw [he]
      exact ⟨e, rfl⟩
  · obtain ⟨e, he⟩ := herror huses
    rw [he]
    exact ⟨fun h => absurd h.uses huses, fun _ => ⟨e, rfl⟩⟩

/-- No id of a domain is used twice, whatever the image. -/
theorem ids_nodup {block : DomainBlock} (h : Describes (assignDone image).irqs block) :
    (block.children.filterMap Child.irq? ++
      channelIds (assignDone image).channels block.domain.name).Nodup := by
  have hwritten := (written_ids image block.domain.name).nodup_iff.mpr List.nodup_range
  rw [Assigned.written, idsOf_append] at hwritten
  exact hwritten.sublist (h.ids.append_right _)

theorem mem_regions {slots : List Slot} {r : Name} :
    r ∈ slots.filterMap Slot.region? ↔ r ∈ slots.filterMap Slot.map? ∨
      r ∈ slots.filterMap Slot.setvar? := by
  simp only [List.mem_filterMap, ← exists_or, ← and_or_left]
  refine exists_congr fun slot => and_congr_right fun _ => ?_
  cases slot with
  | map m => simp [Slot.region?, Slot.map?, Slot.setvar?]
  | setvar symbol region => simp [Slot.region?, Slot.map?, Slot.setvar?]
  | port port => simp [Slot.region?, Slot.map?, Slot.setvar?]

/-- The ends of the channels are those of the links. -/
theorem channel_ends {names : List Name} :
    (∀ c ∈ (assignDone image).channels, c.aPd ∈ names ∧ c.bPd ∈ names) ↔
    ∀ link ∈ image.links, link.a ∈ names ∧ link.b ∈ names := by
  change (∀ c ∈ (List.finRange image.links.length).map (assignedChannel (linksDone image).ids), _) ↔ _
  rw [List.forall_mem_map]
  constructor
  · intro h link hlink
    obtain ⟨i, rfl⟩ := List.mem_iff_get.mp hlink
    exact h i (List.mem_finRange i)
  · intro h i _
    exact h _ (List.get_mem image.links i)

/-- A description of an accepted image is closed if what is not checked is as it should be. -/
theorem closed_iff_resolved {blocks : List DomainBlock} (haccepted : Accepted image)
    (hdomains : blocks.map (·.domain) = image.domains)
    (hall : ∀ block ∈ blocks, Describes (assignDone image).irqs block) :
    Closed ⟨image.groups, blocks, (assignDone image).channels⟩ ↔ Resolved image := by
  have hnames : blocks.map (·.domain.name) = image.domains.map (·.name) := by
    rw [← hdomains, List.map_map]
    rfl
  have hback : ∀ d ∈ image.domains, ∃ block ∈ blocks, block.domain = d := by
    rw [← hdomains]
    exact fun d hd => List.mem_map.mp hd
  have hforth : ∀ block ∈ blocks, block.domain ∈ image.domains := by
    intro block hblock
    rw [← hdomains]
    exact List.mem_map.mpr ⟨block, hblock, rfl⟩
  constructor
  · intro h
    refine ⟨fun d hd r hr => ?_, (channel_ends image).mp (hnames ▸ h.ends), fun d hd => ?_⟩
    · obtain ⟨block, hblock, rfl⟩ := hback d hd
      apply h.regions block hblock
      rw [(hall block hblock).regions]
      exact (mem_regions).mpr (Or.inr hr)
    · obtain ⟨block, hblock, rfl⟩ := hback d hd
      rw [← (hall block hblock).ports]
      exact h.ports block hblock
  · intro h
    refine ⟨fun block hblock r hr => ?_, hnames.symm ▸ (channel_ends image).mpr h.ends,
      fun block hblock => ids_nodup image (hall block hblock),
      fun block hblock => ?_⟩
    · rw [(hall block hblock).regions] at hr
      rcases (mem_regions).mp hr with hr | hr
      · exact (haccepted.slots _ (hforth block hblock)).1 r hr
      · exact h.setvars _ (hforth block hblock) r hr
    · rw [(hall block hblock).ports]
      exact h.ports _ (hforth block hblock)

end images

/-- What is rendered is closed if and only if the image is refused, or its variables name regions,
its links name domains, and its ports have distinct ids. -/
theorem closed_exact (image : Image) :
    (∀ text, renderImage image = .ok text → ∃ system, renderSystem image = .ok system ∧
      text = system.text ∧ Closed system) ↔
      (Accepted image → Resolved image) := by
  obtain ⟨hok, herror⟩ := renderSystem_spec image
  unfold renderImage
  by_cases haccepted : Accepted image
  · obtain ⟨blocks, hrun, hdomains, hall⟩ := hok haccepted
    have hclosed := closed_iff_resolved image haccepted hdomains hall
    rw [hrun]
    constructor
    · intro h _
      obtain ⟨system, hsystem, -, hsystemClosed⟩ := h _ rfl
      cases hsystem
      exact hclosed.mp hsystemClosed
    · intro h text htext
      cases htext
      exact ⟨_, rfl, rfl, hclosed.mpr (h haccepted)⟩
  · obtain ⟨e, he⟩ := herror haccepted
    rw [he]
    refine iff_of_true (fun text htext => ?_) fun h => absurd h haccepted
    cases htext

/-- A variable of a region that there is none of. -/
def danglingImage : Image where
  groups := [[⟨['r'], 4096, 8192, none, none⟩]]
  domains := [⟨['d'], 3, none, 4096, ['d'], [.setvar ['v'] ['x']], none⟩]
  links := []

theorem dangling_rendered : ¬∀ text, renderImage danglingImage = .ok text →
    ∃ system, renderSystem danglingImage = .ok system ∧ text = system.text ∧ Closed system := by
  have haccepted : Accepted danglingImage := by
    refine ⟨fun pd => (uses_le danglingImage pd).trans (by decide), fun d hd => ?_⟩
    rw [List.mem_singleton.mp hd]
    exact ⟨by decide, by decide⟩
  obtain ⟨blocks, hrun, hdomains, hall⟩ := (renderSystem_spec danglingImage).1 haccepted
  intro h
  obtain ⟨system, hsystem, -, hclosed⟩ := h _ (by rw [renderImage, hrun]; rfl)
  rw [hrun] at hsystem
  cases hsystem
  have hresolved := (closed_iff_resolved danglingImage haccepted hdomains hall).mp hclosed
  exact absurd (hresolved.setvars _ List.mem_cons_self ['x'] (by decide)) (by decide)

end Lerux.DeviceImage

import Lerux.Base.Records

/-!
# The walks over a configuration descriptor

The console driver looks for the boot keyboard, and lerux-swift for the Bluetooth interface, its
interrupt endpoint and the class of the first interface. All four follow the lengths of the
descriptors in the bytes that the device has sent.

None of them ever reads out of range. On descriptors of the usual lengths both searches for an
endpoint yield the first interrupt-IN endpoint of the last interface that is wanted and has one,
with the value of the last configuration descriptor in front of it. Where the search for the
endpoint finds one, so does the search for the interface.
-/

namespace Lerux.Usb

open Lerux.Base (Record)
open Lerux.Base.Record (Visit walk run recordsFrom)

/-- An interrupt-IN endpoint of an interface. -/
structure IntrEndpoint where
  config_value : UInt8
  interface : UInt8
  ep_addr : UInt8
  max_packet : UInt16
  interval : UInt8
deriving DecidableEq, Repr

abbrev BootKeyboard := IntrEndpoint

abbrev HciIntr := IntrEndpoint

/-- What the search for an endpoint keeps from one descriptor to the next. -/
structure Search where
  config_value : UInt8 := 0
  interface : Option UInt8 := none
  found : Option IntrEndpoint := none
deriving DecidableEq, Repr

/-- The class, subclass and protocol of an interface. -/
abbrev Fits := UInt8 → UInt8 → UInt8 → Bool

/-- One descriptor in the search for an endpoint, with the least length of an interface descriptor. -/
def visitEndpoint (least : Nat) (fits : Fits) : Visit Search (Option IntrEndpoint) :=
  fun read len search => do
  let kind ← read 1
  if kind = 2 ∧ len ≥ 6 then
    let value ← read 5
    pure (.inr { search with config_value := value })
  else if kind = 4 ∧ len ≥ least then
    let kept := fits (← read 5) (← read 6) (← read 7)
    let number ← read 2
    pure (.inr { search with interface := if kept then some number else none })
  else if kind = 5 ∧ len ≥ 7 then
    match search.interface with
    | some interface =>
      let addr ← read 2
      let attr ← read 3
      if addr &&& 0x80 ≠ 0 ∧ attr &&& 0x03 = 3 then
        let max_packet := (← read 4).toUInt16 ||| ((← read 5).toUInt16 <<< 8)
        let interval ← read 6
        let endpoint := { config_value := search.config_value, interface, ep_addr := addr, max_packet, interval }
        pure (.inr { search with interface := none, found := some endpoint })
      else pure (.inr search)
    | none => pure (.inr search)
  else pure (.inr search)

def isBootKeyboard : Fits := fun cls subclass protocol => cls == 3 && subclass == 1 && protocol == 1

def findBootKeyboard (config : List UInt8) : Option (Option BootKeyboard) :=
  -- the limit is the end of the bytes
  walk config config.length Search.found Search.found (visitEndpoint 8 isBootKeyboard) 0 {}

def isBluetoothInterface : Fits := fun cls subclass protocol =>
    cls == 0xe0 && subclass == 0x01 && protocol == 0x01

/-- The bytes begin with a configuration descriptor, whose total length is the limit of the walk. -/
def withTotal {ρ : Type} (config : List UInt8) (none : ρ) (search : Nat → Option ρ) : Option ρ := do
  if config.length < 4 then pure none
  else if (← config[1]?) ≠ 0x02 then pure none
  else search ((← config[2]?).toNat + 256 * (← config[3]?).toNat)

def findHciInterrupt (config : List UInt8) : Option (Option HciIntr) :=
  withTotal config none fun total =>
    walk config total Search.found Search.found (visitEndpoint 9 isBluetoothInterface) 0 {}

def visitClass : Visit Unit (Option UInt8) := fun read len state => do
  if (← read 1) = 0x04 ∧ len ≥ 6 then pure (.inl (some (← read 5)))
  else pure (.inr state)

def firstInterfaceClass (config : List UInt8) : Option (Option UInt8) :=
  withTotal config none fun total => walk config total (fun _ => none) (fun _ => none) visitClass 0 ()

def visitBluetooth : Visit Unit Bool := fun read len state => do
  if (← read 1) = 0x04 ∧ len ≥ 9 then
    if isBluetoothInterface (← read 5) (← read 6) (← read 7) then pure (.inl true)
    else pure (.inr state)
  else pure (.inr state)

def findBluetoothInterface (config : List UInt8) : Option Bool :=
  withTotal config false fun total => walk config total (fun _ => false)
    (fun _ => false) visitBluetooth 0 ()

/-! ### What the visits look at -/

/-- What an endpoint descriptor says, for an interface of a configuration. -/
def endpointOf (config_value interface : UInt8) (record : Record) : IntrEndpoint where
  config_value := config_value
  interface := interface
  ep_addr := record.byte 2
  max_packet := (record.byte 4).toUInt16 ||| ((record.byte 5).toUInt16 <<< 8)
  interval := record.byte 6

def lookEndpoint (least : Nat) (fits : Fits) (record : Record) (search : Search) :
    Option IntrEndpoint ⊕ Search :=
  if record.byte 1 = 2 ∧ record.bytes.length ≥ 6 then .inr { search with config_value := record.byte 5 }
  else if record.byte 1 = 4 ∧ record.bytes.length ≥ least then
    .inr { search with
      interface := if fits (record.byte 5) (record.byte 6) (record.byte 7) then some (record.byte 2)
        else none }
  else if record.byte 1 = 5 ∧ record.bytes.length ≥ 7 then
    match search.interface with
    | some interface =>
      if record.byte 2 &&& 0x80 ≠ 0 ∧ record.byte 3 &&& 0x03 = 3 then
        .inr { search with interface := none, found := some (endpointOf search.config_value interface record) }
      else .inr search
    | none => .inr search
  else .inr search

theorem visitEndpoint_looks {least : Nat} (hleast : 8 ≤ least) (fits : Fits) :
    Record.Looks (visitEndpoint least fits) (lookEndpoint least fits) := by
  intro record read search hread
  have htwo := record.two
  rw [visitEndpoint, lookEndpoint, hread 1 (by omega)]
  change (if record.byte 1 = 2 ∧ _ then _ else _) = _
  by_cases hconfig : record.byte 1 = 2 ∧ record.bytes.length ≥ 6
  · rw [if_pos hconfig, if_pos hconfig, hread 5 (by omega)]
    rfl
  rw [if_neg hconfig, if_neg hconfig]
  by_cases hinterface : record.byte 1 = 4 ∧ record.bytes.length ≥ least
  · rw [if_pos hinterface, if_pos hinterface, hread 5 (by omega), hread 6 (by omega),
      hread 7 (by omega), hread 2 (by omega)]
    rfl
  rw [if_neg hinterface, if_neg hinterface]
  by_cases hendpoint : record.byte 1 = 5 ∧ record.bytes.length ≥ 7
  · rw [if_pos hendpoint, if_pos hendpoint]
    cases search.interface with
    | none => rfl
    | some interface =>
      simp only [hread 2 (by omega), hread 3 (by omega), hread 4 (by omega), hread 5 (by omega),
        hread 6 (by omega)]
      change (if record.byte 2 &&& 0x80 ≠ 0 ∧ _ then _ else _) = _
      split_ifs <;> rfl
  · rw [if_neg hendpoint, if_neg hendpoint]
    rfl

def lookClass (record : Record) (_ : Unit) : Option UInt8 ⊕ Unit :=
  if record.byte 1 = 0x04 ∧ record.bytes.length ≥ 6 then .inl (some (record.byte 5)) else .inr ()

theorem visitClass_looks : Record.Looks visitClass lookClass := by
  intro record read _ hread
  have htwo := record.two
  rw [visitClass, lookClass, hread 1 (by omega)]
  change (if record.byte 1 = 0x04 ∧ _ then _ else _) = _
  by_cases h : record.byte 1 = 0x04 ∧ record.bytes.length ≥ 6
  · rw [if_pos h, if_pos h, hread 5 (by omega)]
    rfl
  · rw [if_neg h, if_neg h]
    rfl

def lookBluetooth (record : Record) (_ : Unit) : Bool ⊕ Unit :=
  if record.byte 1 = 0x04 ∧ record.bytes.length ≥ 9 then
    if isBluetoothInterface (record.byte 5) (record.byte 6) (record.byte 7) then .inl true else .inr ()
  else .inr ()

theorem visitBluetooth_looks : Record.Looks visitBluetooth lookBluetooth := by
  intro record read _ hread
  have htwo := record.two
  rw [visitBluetooth, lookBluetooth, hread 1 (by omega)]
  change (if record.byte 1 = 0x04 ∧ _ then _ else _) = _
  by_cases h : record.byte 1 = 0x04 ∧ record.bytes.length ≥ 9
  · rw [if_pos h, if_pos h, hread 5 (by omega), hread 6 (by omega), hread 7 (by omega)]
    change (if isBluetoothInterface _ _ _ = true then _ else _) = _
    split_ifs <;> rfl
  · rw [if_neg h, if_neg h]
    rfl

/-! ### The total length -/

/-- The bytes begin like a configuration descriptor. -/
def HasTotal (config : List UInt8) : Prop := 4 ≤ config.length ∧ config.getD 1 0 = 0x02

def totalLength (config : List UInt8) : Nat := (config.getD 2 0).toNat + 256 * (config.getD 3 0).toNat

section withTotal

variable {ρ : Type} {config : List UInt8} (none : ρ) (search : Nat → Option ρ)

theorem withTotal_pos (h : HasTotal config) : withTotal config none search =
    search (totalLength config) := by
  obtain ⟨hlen, hkind⟩ := h
  have hread : ∀ k < 4, config[k]? = some (config.getD k 0) := by
    intro k hk
    rw [List.getD_eq_getElem?_getD, List.getElem?_eq_getElem (by omega)]
    rfl
  rw [withTotal, if_neg (by omega), hread 1 (by omega), hread 2 (by omega), hread 3 (by omega), hkind]
  rfl

theorem withTotal_neg (h : ¬ HasTotal config) : withTotal config none search = some none := by
  by_cases hlen : config.length < 4
  · rw [withTotal, if_pos hlen]
    rfl
  · have hread : config[1]? = some (config.getD 1 0) := by
      rw [List.getD_eq_getElem?_getD, List.getElem?_eq_getElem (by omega)]
      rfl
    have hkind : config.getD 1 0 ≠ 0x02 := fun heq => h ⟨by omega, heq⟩
    rw [withTotal, if_neg hlen, hread]
    change (if config.getD 1 0 ≠ 0x02 then _ else _) = _
    rw [if_pos hkind]
    rfl

end withTotal

/-! ### The walks on the records -/

theorem findBootKeyboard_eq (config : List UInt8) : findBootKeyboard config =
    some (run Search.found Search.found (lookEndpoint 8 isBootKeyboard)
      (recordsFrom config config.length 0) {}) :=
  Record.walk_eq (visitEndpoint_looks (by decide) isBootKeyboard) config config.length _ _ 0 _

theorem findHciInterrupt_eq {config : List UInt8} (h : HasTotal config) : findHciInterrupt config =
    some (run Search.found Search.found (lookEndpoint 9 isBluetoothInterface)
      (recordsFrom config (totalLength config) 0) {}) := by
  rw [findHciInterrupt, withTotal_pos _ _ h]
  exact Record.walk_eq (visitEndpoint_looks (by decide) isBluetoothInterface) config _ _ _ 0 _

theorem findBluetoothInterface_eq {config : List UInt8} (h : HasTotal config) :
    findBluetoothInterface config =
    some (run (fun _ => false) (fun _ => false) lookBluetooth
      (recordsFrom config (totalLength config) 0) ()) := by
  rw [findBluetoothInterface, withTotal_pos _ _ h]
  exact Record.walk_eq visitBluetooth_looks config _ _ _ 0 _

/-- No search ever reads out of range. -/
theorem searches_end (config : List UInt8) :
    (∃ found, findBootKeyboard config = some found) ∧ (∃ found, findHciInterrupt config = some found) ∧
      (∃ found, findBluetoothInterface config = some found) ∧ ∃ found,
        firstInterfaceClass config = some found := by
  refine ⟨⟨_, findBootKeyboard_eq config⟩, ?_⟩
  by_cases h : HasTotal config
  · refine ⟨⟨_, findHciInterrupt_eq h⟩, ⟨_, findBluetoothInterface_eq h⟩, ?_⟩
    rw [firstInterfaceClass, withTotal_pos _ _ h]
    exact ⟨_, Record.walk_eq visitClass_looks config _ _ _ 0 _⟩
  · exact ⟨⟨_, withTotal_neg _ _ h⟩, ⟨_, withTotal_neg _ _ h⟩, ⟨_, withTotal_neg _ _ h⟩⟩

/-- On the same records the search for the interface stops at the interface that the search for the
endpoint has taken. -/
theorem run_bluetooth {e : IntrEndpoint} (records : List Record) (wasCut : Bool) (search : Search)
    (hinterface : search.interface = none) (hfound : search.found = none)
    (h : run Search.found Search.found (lookEndpoint 9 isBluetoothInterface)
      (records, wasCut) search = some e) :
    run (fun _ => false) (fun _ => false) lookBluetooth (records, wasCut) () = true := by
  induction records generalizing search with
  | nil =>
    rw [run, ite_self, hfound] at h
    cases h
  | cons record records ih =>
    rw [run, lookEndpoint] at h
    rw [run, lookBluetooth]
    by_cases hconfig : record.byte 1 = 2 ∧ record.bytes.length ≥ 6
    · have hother : ¬ (record.byte 1 = 0x04 ∧ record.bytes.length ≥ 9) := by
        rintro ⟨hkind, _⟩
        rw [hconfig.1] at hkind
        exact absurd hkind (by decide)
      rw [if_pos hconfig] at h
      rw [if_neg hother]
      exact ih { search with config_value := record.byte 5 } hinterface hfound h
    rw [if_neg hconfig] at h
    by_cases hkind : record.byte 1 = 4 ∧ record.bytes.length ≥ 9
    · rw [if_pos hkind] at h
      rw [if_pos hkind]
      by_cases hfits : isBluetoothInterface (record.byte 5) (record.byte 6) (record.byte 7) = true
      · rw [if_pos hfits]
      · rw [if_neg hfits] at h
        rw [if_neg hfits]
        exact ih { search with interface := none } rfl hfound h
    rw [if_neg hkind, hinterface] at h
    rw [if_neg hkind]
    by_cases hendpoint : record.byte 1 = 5 ∧ record.bytes.length ≥ 7
    · rw [if_pos hendpoint] at h
      exact ih search hinterface hfound h
    · rw [if_neg hendpoint] at h
      exact ih search hinterface hfound h

/-! ### The endpoint that is due -/

def IsInterface (record : Record) : Prop := record.byte 1 = 4

def IsInterruptIn (record : Record) : Prop :=
  record.byte 1 = 5 ∧ record.byte 2 &&& 0x80 ≠ 0 ∧ record.byte 3 &&& 0x03 = 3

instance instDecidableInterface (record : Record) : Decidable (IsInterface record) :=
  inferInstanceAs (Decidable (record.byte 1 = 4))

instance instDecidableInterruptIn (record : Record) : Decidable (IsInterruptIn record) :=
  inferInstanceAs (Decidable (record.byte 1 = 5 ∧ record.byte 2 &&& 0x80 ≠ 0 ∧ record.byte 3 &&& 0x03 = 3))

/-- The first interrupt-IN endpoint before the next interface, and the descriptors in front of it. -/
def firstEndpoint : List Record → Option (List Record × Record)
  | [] => none
  | record :: rest =>
    if IsInterface record then none
    else if IsInterruptIn record then some ([], record)
    else (firstEndpoint rest).map fun (between, endpoint) => (record :: between, endpoint)

/-- The value of the last configuration descriptor. -/
def valueOf (seen : List Record) : UInt8 :=
  ((seen.filter fun record => record.byte 1 == 2).getLast?.map fun record => record.byte 5).getD 0

/-- The first endpoint of each interface that is wanted and has one. -/
def candidates (fits : Fits) (seen : List Record) : List Record → List IntrEndpoint
  | [] => []
  | record :: rest =>
    (if IsInterface record ∧ fits (record.byte 5) (record.byte 6) (record.byte 7) = true then
      ((firstEndpoint rest).map fun (between, endpoint) =>
        endpointOf (valueOf (seen ++ record :: between)) (record.byte 2) endpoint).toList
    else []) ++ candidates fits (seen ++ [record]) rest

/-- The usual least lengths of the descriptors. -/
def WellFormed (record : Record) : Prop :=
  (record.byte 1 = 2 → 9 ≤ record.bytes.length) ∧ (record.byte 1 = 4 → 9 ≤ record.bytes.length) ∧
    (record.byte 1 = 5 → 7 ≤ record.bytes.length)

/-- Descriptors as a device should send them: a configuration descriptor whose total length covers
them all comes first. -/
structure Configuration where
  head : Record
  rest : List Record
  configuration : head.byte 1 = 2
  wellFormed : ∀ record ∈ head :: rest, WellFormed record
  covers : (((head :: rest).map Record.bytes).flatten).length ≤ (head.byte 2).toNat +
    256 * (head.byte 3).toNat

namespace Configuration

def records (c : Configuration) : List Record := c.head :: c.rest

def bytes (c : Configuration) : List UInt8 := (c.records.map Record.bytes).flatten

end Configuration

theorem valueOf_config {record : Record} (h : record.byte 1 = 2) (seen : List Record) :
    valueOf (seen ++ [record]) = record.byte 5 := by
  simp [valueOf, List.filter_append, h]

theorem valueOf_other {record : Record} (h : record.byte 1 ≠ 2) (seen : List Record) :
    valueOf (seen ++ [record]) = valueOf seen := by
  simp [valueOf, List.filter_append, h]

/-- What an interface that is still open will find. -/
def pending (seen : List Record) (interface : Option UInt8) (records : List Record) : Option IntrEndpoint :=
  interface.bind fun number => (firstEndpoint records).map fun (between, endpoint) =>
    endpointOf (valueOf (seen ++ between)) number endpoint

section pending

variable {record : Record} (seen rest : List Record) (interface : Option UInt8)

theorem pending_interface (h : IsInterface record) : pending seen interface (record :: rest) = none := by
  rw [pending, firstEndpoint, if_pos h]
  cases interface <;> rfl

theorem pending_found (hkind : ¬ IsInterface record) (hin : IsInterruptIn record) (number : UInt8) :
    pending seen (some number) (record :: rest) = some (endpointOf (valueOf seen) number record) := by
  rw [pending, firstEndpoint, if_neg hkind, if_pos hin]
  simp

theorem pending_passes (hkind : ¬ IsInterface record) (hin : ¬ IsInterruptIn record) :
    pending seen interface (record :: rest) = pending (seen ++ [record]) interface rest := by
  rw [pending, pending, firstEndpoint, if_neg hkind, if_neg hin]
  congr 1
  funext number
  rw [Option.map_map]
  congr 1
  funext ⟨between, endpoint⟩
  simp

theorem candidates_other {fits : Fits} (hkind : ¬ IsInterface record) :
    candidates fits seen (record :: rest) = candidates fits (seen ++ [record]) rest := by
  rw [candidates, if_neg fun h => hkind h.1]
  rfl

theorem candidates_interface {fits : Fits} (hkind : IsInterface record) :
    candidates fits seen (record :: rest) =
      (pending (seen ++ [record])
        (if fits (record.byte 5) (record.byte 6) (record.byte 7) then some (record.byte 2)
          else none) rest).toList ++
      candidates fits (seen ++ [record]) rest := by
  rw [candidates]
  by_cases hfits : fits (record.byte 5) (record.byte 6) (record.byte 7) = true
  · rw [if_pos ⟨hkind, hfits⟩, if_pos hfits, pending]
    simp
  · rw [if_neg fun h => hfits h.2, if_neg hfits]
    rfl

end pending

/-- The search goes through the candidates, and keeps the last. -/
theorem run_candidates {least : Nat} (hleast : least ≤ 9) (fits : Fits) {records : List Record}
    (hwell : ∀ record ∈ records, WellFormed record) (seen : List Record) (interface : Option UInt8)
      (found : Option IntrEndpoint) :
    run Search.found Search.found (lookEndpoint least fits) (records, false)
        { config_value := valueOf seen, interface, found } =
      ((candidates fits seen records).getLast?.or (pending seen interface records)).or found := by
  induction records generalizing seen interface found with
  | nil =>
    have hnone : pending seen interface [] = none := by cases interface <;> rfl
    rw [run, ite_self, hnone]
    rfl
  | cons record rest ih =>
    obtain ⟨hconfigLen, hinterfaceLen, hendpointLen⟩ := hwell record List.mem_cons_self
    have hrest := ih fun other hin => hwell other (List.mem_cons_of_mem _ hin)
    rw [run, lookEndpoint]
    by_cases hconfig : record.byte 1 = 2
    · have hkind : ¬ IsInterface record := by rw [IsInterface, hconfig]; decide
      have hin : ¬ IsInterruptIn record := fun h => absurd (hconfig.symm.trans h.1) (by decide)
      have hlen := hconfigLen hconfig
      rw [if_pos ⟨hconfig, by omega⟩, candidates_other seen rest hkind,
        pending_passes seen rest interface hkind hin,
        ← hrest, valueOf_config hconfig]
    rw [if_neg fun h => hconfig h.1]
    by_cases hkind : IsInterface record
    · have hlen := hinterfaceLen hkind
      rw [if_pos ⟨hkind, by omega⟩, candidates_interface seen rest hkind,
        pending_interface seen rest interface hkind]
      have hnext := hrest (seen ++ [record])
        (if fits (record.byte 5) (record.byte 6) (record.byte 7) then some (record.byte 2) else none) found
      rw [valueOf_other hconfig] at hnext
      rw [List.getLast?_append, Option.or_none]
      refine hnext.trans ?_
      congr 2
      cases pending (seen ++ [record]) _ rest <;> rfl
    rw [if_neg fun h => hkind h.1]
    by_cases hin : IsInterruptIn record
    · have hlen := hendpointLen hin.1
      rw [if_pos ⟨hin.1, hlen⟩, candidates_other seen rest hkind]
      cases interface with
      | none =>
        have hnext := hrest (seen ++ [record]) none found
        rw [valueOf_other hconfig] at hnext
        exact hnext
      | some number =>
        have hnext := hrest (seen ++ [record]) none (some (endpointOf (valueOf seen) number record))
        rw [valueOf_other hconfig] at hnext
        simp only [if_pos hin.2]
        rw [pending_found seen rest hkind hin, hnext]
        simp [pending]
    · have hnext := hrest (seen ++ [record]) interface found
      rw [valueOf_other hconfig] at hnext
      rw [candidates_other seen rest hkind, pending_passes seen rest interface hkind hin, ← hnext]
      by_cases hendpoint : record.byte 1 = 5 ∧ record.bytes.length ≥ 7
      · rw [if_pos hendpoint]
        cases interface with
        | none => rfl
        | some number => simp only [if_neg fun h => hin ⟨hendpoint.1, h⟩]
      · rw [if_neg hendpoint]

/-- The descriptors in front of an endpoint are some of those that follow the interface. -/
theorem firstEndpoint_between {records between : List Record} {endpoint : Record}
    (h : firstEndpoint records = some (between, endpoint)) : ∀ record ∈ between, record ∈ records := by
  induction records generalizing between with
  | nil => cases h
  | cons first rest ih =>
    rw [firstEndpoint] at h
    split_ifs at h with hkind hin
    · obtain ⟨rfl, rfl⟩ := Prod.mk.inj (Option.some.inj h)
      exact fun record hmem => nomatch hmem
    · obtain ⟨⟨inner, last⟩, hinner, heq⟩ := Option.map_eq_some_iff.mp h
      obtain ⟨rfl, rfl⟩ := Prod.mk.inj heq
      intro record hmem
      rcases List.mem_cons.mp hmem with rfl | hmem
      · exact List.mem_cons_self
      · exact List.mem_cons_of_mem _ (ih hinner record hmem)

theorem valueOf_append {more : List Record} (hmore : ∀ record ∈ more, record.byte 1 ≠ 2)
    (seen : List Record) :
    valueOf (seen ++ more) = valueOf seen := by
  have hnil : more.filter (fun record => record.byte 1 == 2) = [] := by
    rw [List.filter_eq_nil_iff]
    intro record hmem
    simpa using hmore record hmem
  rw [valueOf, List.filter_append, hnil, List.append_nil]
  rfl

/-- Without a further configuration descriptor every candidate has the value of the last one seen. -/
theorem candidates_value {fits : Fits} {records : List Record} (hnone : ∀ record ∈ records,
    record.byte 1 ≠ 2)
    (seen : List Record) {endpoint : IntrEndpoint} (h : endpoint ∈ candidates fits seen records) :
    endpoint.config_value = valueOf seen := by
  induction records generalizing seen with
  | nil => cases h
  | cons record rest ih =>
    have hrecord := hnone record List.mem_cons_self
    have hrest : ∀ other ∈ rest, other.byte 1 ≠ 2 :=
      fun other hmem => hnone other (List.mem_cons_of_mem _ hmem)
    rw [candidates] at h
    rcases List.mem_append.mp h with h | h
    · split_ifs at h
      · obtain ⟨⟨between, found⟩, hfound, rfl⟩ := Option.map_eq_some_iff.mp (Option.mem_toList.mp h)
        apply valueOf_append
        intro other hmem
        rcases List.mem_cons.mp hmem with rfl | hmem
        · exact hrecord
        · exact hrest other (firstEndpoint_between hfound other hmem)
      · cases h
    · rw [ih hrest (seen ++ [record]) h, valueOf_other hrecord]

/-! ### The searches -/

namespace Configuration

theorem hasTotal (c : Configuration) : HasTotal c.bytes ∧
    totalLength c.bytes = (c.head.byte 2).toNat + 256 * (c.head.byte 3).toNat := by
  have hlen := (c.wellFormed c.head List.mem_cons_self).1 c.configuration
  have hbytes : c.bytes = c.head.bytes ++ (c.rest.map Record.bytes).flatten := rfl
  have hread : ∀ k < 9, c.bytes.getD k 0 = c.head.byte k := by
    intro k hk
    rw [hbytes, Record.byte, List.getD_eq_getElem?_getD, List.getElem?_append_left (by omega),
      List.getD_eq_getElem?_getD]
  refine ⟨⟨?_, ?_⟩, ?_⟩
  · rw [hbytes, List.length_append]
    omega
  · rw [hread 1 (by omega)]
    exact c.configuration
  · rw [totalLength, hread 2 (by omega), hread 3 (by omega)]

theorem records_eq (c : Configuration) {limit : Nat} (hlimit : c.bytes.length ≤ limit) :
    recordsFrom c.bytes limit 0 = (c.records, false) :=
  Record.recordsFrom_flatten [] c.records hlimit

/-- The last endpoint of the candidates. -/
def due (c : Configuration) (fits : Fits) : Option IntrEndpoint := (candidates fits [] c.records).getLast?

theorem run_due (c : Configuration) {least : Nat} (hleast : least ≤ 9) (fits : Fits) :
    run Search.found Search.found (lookEndpoint least fits) (c.records, false) {} = c.due fits := by
  have hrun := run_candidates hleast fits c.wellFormed [] none none
  rw [Option.or_none] at hrun
  exact hrun.trans (Option.or_none)

/-- The value is that of the first descriptor where there is no other configuration descriptor. -/
theorem due_value (c : Configuration) {fits : Fits} (hnone : ∀ record ∈ c.rest, record.byte 1 ≠ 2)
    {endpoint : IntrEndpoint}
    (h : c.due fits = some endpoint) : endpoint.config_value = c.head.byte 5 := by
  have hhead : ¬ IsInterface c.head := by
    rw [IsInterface, c.configuration]
    decide
  have hmem : endpoint ∈ candidates fits [c.head] c.rest := by
    have := List.mem_of_getLast? h
    rwa [records, candidates_other [] c.rest hhead] at this
  rw [candidates_value hnone [c.head] hmem]
  exact valueOf_config c.configuration []

end Configuration

/-- No search reads out of range. Each search for an endpoint yields the last of the candidates,
with the value of the last configuration descriptor in front of it, which is the first descriptor
where there is no other. An interrupt endpoint is found only where a Bluetooth interface is. -/
theorem searches (config : List UInt8) (c : Configuration) :
    ((∃ found, findBootKeyboard config = some found) ∧ (∃ found, findHciInterrupt config = some found) ∧
      (∃ found, findBluetoothInterface config = some found) ∧ ∃ found,
        firstInterfaceClass config = some found) ∧
    (findBootKeyboard c.bytes = some (c.due isBootKeyboard) ∧
      findHciInterrupt c.bytes = some (c.due isBluetoothInterface) ∧
      ((∀ record ∈ c.rest, record.byte 1 ≠ 2) →
        ∀ fits endpoint, c.due fits = some endpoint → endpoint.config_value = c.head.byte 5)) ∧
    ∀ endpoint, findHciInterrupt config = some (some endpoint) →
      findBluetoothInterface config = some true := by
  refine ⟨searches_end config, ⟨?_, ?_, fun hnone fits endpoint => c.due_value hnone⟩, fun endpoint h => ?_⟩
  · rw [findBootKeyboard_eq, c.records_eq (Nat.le_refl _), c.run_due (by decide)]
  · obtain ⟨htotal, hsize⟩ := c.hasTotal
    rw [findHciInterrupt_eq htotal, c.records_eq (hsize ▸ c.covers), c.run_due (by decide)]
  · by_cases htotal : HasTotal config
    · rw [findHciInterrupt_eq htotal] at h
      rw [findBluetoothInterface_eq htotal]
      exact congrArg some (run_bluetooth _ _ {} rfl rfl (Option.some.inj h))
    · rw [findHciInterrupt, withTotal_neg _ _ htotal] at h
      cases h

/-- A device with a Bluetooth interface and a boot keyboard. -/
def composite : Configuration where
  head := ⟨[9, 2, 41, 0, 2, 1, 0, 0xa0, 50], by decide, by decide⟩
  rest :=
    [⟨[9, 4, 0, 0, 1, 0xe0, 1, 1, 0], by decide, by decide⟩,
      ⟨[7, 5, 0x81, 3, 16, 0, 1], by decide, by decide⟩,
     ⟨[9, 4, 1, 0, 1, 3, 1, 1, 0], by decide, by decide⟩, ⟨[7, 5, 0x82, 3, 8, 0, 4], by decide, by decide⟩]
  configuration := by decide
  wellFormed := by unfold WellFormed; decide
  covers := by decide

theorem searches_composite :
    findHciInterrupt composite.bytes =
      some (some { config_value := 1, interface := 0, ep_addr := 0x81, max_packet := 16, interval := 1 }) ∧
    findBluetoothInterface composite.bytes = some true ∧
    (composite.due isBluetoothInterface).map IntrEndpoint.config_value = some (composite.head.byte 5) := by
  obtain ⟨_, ⟨_, hhci, hvalue⟩, hinterface⟩ := searches composite.bytes composite
  have hdue : composite.due isBluetoothInterface =
      some { config_value := 1, interface := 0, ep_addr := 0x81, max_packet := 16, interval := 1 } := by decide
  rw [hdue] at hhci
  refine ⟨hhci, hinterface _ hhci, ?_⟩
  rw [hdue, ← hvalue (by decide) isBluetoothInterface _ hdue]
  rfl

/-- A second configuration descriptor among the descriptors of the first. -/
def twice : Configuration where
  head := ⟨[9, 2, 34, 0, 1, 1, 0, 0xa0, 50], by decide, by decide⟩
  rest :=
    [⟨[9, 2, 25, 0, 1, 2, 0, 0xa0, 50], by decide, by decide⟩,
      ⟨[9, 4, 0, 0, 1, 3, 1, 1, 0], by decide, by decide⟩,
     ⟨[7, 5, 0x81, 3, 8, 0, 4], by decide, by decide⟩]
  configuration := by decide
  wellFormed := by unfold WellFormed; decide
  covers := by decide

/-- The keyboard comes with the value 2 of the second descriptor, where the first one has 1. -/
theorem twice_value :
    twice.bytes = [9, 2, 34, 0, 1, 1, 0, 0xa0, 50, 9, 2, 25, 0, 1, 2, 0, 0xa0, 50, 9, 4, 0, 0, 1, 3,
      1, 1, 0, 7, 5, 0x81, 3, 8, 0, 4] ∧
    twice.head.byte 5 = 1 ∧
    findBootKeyboard twice.bytes =
      some (some { config_value := 2, interface := 0, ep_addr := 0x81, max_packet := 8, interval := 4 }) := by
  refine ⟨rfl, rfl, ?_⟩
  rw [findBootKeyboard_eq, twice.records_eq (Nat.le_refl _), twice.run_due (by decide)]
  decide

end Lerux.Usb

import Lerux.Swift.Nvme

/-!
# The loader as a reader asks

`load_named` gets its sectors one by one from a function that may do anything in between. `Reading`
is a computation that asks for sectors and goes on with what it is given; `Reading.loadNamed` is the
loader as such a computation.

`mirrors_loadNamed` is that over any reader it is the loader of `nvme.rs` as it stands in
`Lerux.Swift.Nvme`, and `until_loadNamed` that it asks for nothing more once it has been given
nothing.
-/

namespace Lerux.Swift

open Check (slice add64 mul64 leValue)

/-- A computation that asks for sectors. -/
inductive Reading (α : Type)
  | ret (a : α)
  | crash
  | read (lba : Nat) (k : Option Sector → Reading α)

namespace Reading

variable {α β : Type}

def bind : Reading α → (α → Reading β) → Reading β
  | ret a, f => f a
  | crash, _ => crash
  | read lba k, f => read lba fun r => (k r).bind f

instance instMonad : Monad Reading where
  pure := ret
  bind := bind

/-- A computation that asks for nothing. -/
def pureOf (x : Check α) : Reading α :=
  match x with
  | none => crash
  | some (a, _) => ret a

def ask (lba : Nat) : Reading (Option Sector) := read lba ret

/-- What the computation gives over a reader. -/
def through (reader : Reader) : Reading α → Check α
  | ret a => pure a
  | crash => Check.crash
  | read lba k => reader lba >>= fun r => through reader (k r)

/-! ### The loader -/

abbrev Asker := Nat → Reading (Option Sector)

def readBytes (read : Asker) (lba size : Nat) : Reading DiskReport :=
  if size = 0 then pure (filled [])
  else do
    let some sector ← read lba | pure .admin
    let n := min (min size 256) sector.bytes.length
    return filled (sector.bytes.take n)

def scanRoot (read : Asker) (want : List UInt8) (rootLba rootSectors : Nat) : Nat → Nat → Reading DiskReport
  | 0, _ => pure .missing
  | n + 1, sector => do
    let lba ← pureOf (add64 rootLba sector)
    let some dir ← read lba | pure .admin
    match ← pureOf (scanSlots dir.bytes want (List.range 16)) with
    | .ends => return .missing
    | .found cluster size =>
      let data ← pureOf (add64 rootLba rootSectors)
      let dataLba ← pureOf (add64 data (cluster - 2))
      readBytes read dataLba (min size 256)
    | .more => scanRoot read want rootLba rootSectors n (sector + 1)

def loadFat (boot : Sector) (read : Asker) : Reading DiskReport := do
  let reserved := boot.field 14 16
  let fats := (boot.byte 16).toNat
  let rootEntries := boot.field 17 19
  let fatSectors := boot.field 22 24
  if fats = 0 ∨ rootEntries = 0 ∨ fatSectors = 0 then return .raw
  else
    let tables ← pureOf (mul64 fats fatSectors)
    let rootLba ← pureOf (add64 reserved tables)
    let rootBytes ← pureOf (mul64 rootEntries 32)
    scanRoot read (fatName namedFile) rootLba (rootBytes / 512) (rootBytes / 512) 0

def readRecord (read : Asker) (lba : Nat) : Nat → Nat → List UInt8 → Reading (Option (List UInt8))
  | 0, _, raw => pure (some raw)
  | n + 1, s, raw => do
    let at_ ← pureOf (add64 lba s)
    let some sector ← read at_ | return none
    readRecord read lba n (s + 1) (raw ++ sector.bytes)

def loadRecords (read : Asker) (shape : NtfsShape) : Nat → Nat → Reading DiskReport
  | 0, _ => pure .missing
  | n + 1, index => do
    let base ← pureOf (mul64 shape.mftLcn shape.spc)
    let offset ← pureOf (mul64 index (shape.record / 512))
    let lba ← pureOf (add64 base offset)
    let some raw ← readRecord read lba (shape.record / 512) 0 [] | return .admin
    let padded := raw ++ List.replicate (4096 - raw.length) 0
    match ← pureOf (fileInRecord (padded.take shape.record) (utf16 namedFile)) with
    | some found => return found
    | none => loadRecords read shape n (index + 1)

def loadNtfs (boot : Sector) (read : Asker) : Reading DiskReport :=
  if boot.field 0x0b 0x0d ≠ 512 then pure .raw
  else if boot.byte 0x0d = 0 then pure .raw
  else do
    let spc := (boot.byte 0x0d).toNat
    let record ← pureOf (mftRecordBytes (boot.byte 0x40) spc)
    if record = 0 ∨ 4096 < record then return .raw
    else loadRecords read ⟨boot.field 0x30 0x38, spc, record⟩ 64 0

/-- A file system that begins at a sector: its reads are relative to it. -/
def partition (start : Nat) (read : Asker) : Asker := fun lba =>
  if start + lba < 2 ^ 64 then read (start + lba) else pure none

def loadVolume (start : Nat) (read : Asker) : Reading DiskReport := do
  let some boot ← read start | return .admin
  if isNtfs boot then loadNtfs boot (partition start read)
  else if isFat boot then loadFat boot (partition start read)
  else return .raw

def readGptEntry (read : Asker) (entryLba index : Nat) : Reading (Option (List UInt8)) :=
  if entryLba + index / 4 < 2 ^ 64 then do
    let some sector ← read (entryLba + index / 4) | return none
    let entry ← pureOf (slice sector.bytes (index % 4 * 128) (index % 4 * 128 + 128))
    return some entry
  else pure none

def loadPartitions (read : Asker) (entryLba : Nat) : Nat → Nat → Bool → Reading DiskReport
  | 0, _, sawFs => pure (if sawFs then .missing else .raw)
  | n + 1, index, sawFs => do
    let some entry ← readGptEntry read entryLba index | return .admin
    let start := leValue ((entry.take 40).drop 32)
    if entry.take 16 = List.replicate 16 0 ∨ start = 0 then loadPartitions read entryLba n (index + 1) sawFs
    else
      match ← loadVolume start read with
      | .bytes buf len => return .bytes buf len
      | .missing => loadPartitions read entryLba n (index + 1) true
      | .admin => return .admin
      | _ => loadPartitions read entryLba n (index + 1) sawFs

def loadGpt (read : Asker) : Reading DiskReport := do
  let some header ← read 1 | return .admin
  match gptEntries header with
  | none => return .raw
  | some (entryLba, count) => loadPartitions read entryLba count 0 false

def loadNamed : Reading DiskReport := do
  let some boot ← ask 0 | return .admin
  if isNtfs boot then loadNtfs boot ask
  else if isFat boot then loadFat boot ask
  else if isProtectiveMbr boot then loadGpt ask
  else return .raw

/-! ### It is the loader -/

/-- The computation gives over the reader what the other one does. -/
def Mirrors (reader : Reader) (p : Reading α) (x : Check α) : Prop :=
  ∀ a, (p.through reader).Gives a ↔ x.Gives a

section mirrors

variable {reader : Reader} {rd : Asker} {rd' : Reader}

theorem over_bind (p : Reading α) (f : α → Reading β) (b : β) :
    ((p >>= f).through reader).Gives b ↔ ∃ a, (p.through reader).Gives a ∧
      ((f a).through reader).Gives b := by
  change ((p.bind f).through reader).Gives b ↔ _
  induction p with
  | ret a =>
    have hret : ∀ a', ((ret a).through reader).Gives a' ↔ a = a' := fun a' => Check.gives_pure
    simp only [hret, exists_eq_left']
    exact Iff.rfl
  | crash =>
    have hcrash : ∀ a', ¬((crash : Reading α).through reader).Gives a' := fun a' => Check.not_gives_crash
    simp only [hcrash, false_and, exists_false, iff_false]
    exact Check.not_gives_crash
  | read lba k ih =>
    simp only [bind, through, Check.gives_bind, ih]
    constructor
    · rintro ⟨r, hr, a, ha, hb⟩
      exact ⟨a, ⟨r, hr, ha⟩, hb⟩
    · rintro ⟨a, ⟨r, hr, ha⟩, hb⟩
      exact ⟨r, hr, a, ha, hb⟩

theorem Mirrors.bind {p : Reading α} {x : Check α} {f : α → Reading β} {g : α → Check β}
    (hp : Mirrors reader p x)
    (hf : ∀ a, Mirrors reader (f a) (g a)) : Mirrors reader (p >>= f) (x >>= g) := by
  intro b
  rw [over_bind, Check.gives_bind]
  simp only [hp _, hf _ _]

theorem mirrors_pure (a : α) : Mirrors reader (pure a) (pure a) := fun _ => Iff.rfl

theorem mirrors_pureOf (x : Check α) : Mirrors reader (pureOf x) x := by
  intro a
  cases x with
  | none => exact Iff.rfl
  | some p =>
    obtain ⟨a', n⟩ := p
    have hret : ((ret a').through reader).Gives a ↔ a' = a := Check.gives_pure
    refine hret.trans ⟨?_, ?_⟩
    · rintro rfl
      exact ⟨n, rfl⟩
    · rintro ⟨m, hm⟩
      cases hm
      rfl

theorem mirrors_ask (lba : Nat) : Mirrors reader (ask lba) (reader lba) := by
  intro a
  have hread : ((ask lba).through reader).Gives a ↔ ∃ r, (reader lba).Gives r ∧ r = a := by
    change (reader lba >>= fun r => pure r).Gives a ↔ _
    simp only [Check.gives_bind, Check.gives_pure]
  simp [hread]

theorem Mirrors.ite {c : Prop} [Decidable c] {p q : Reading α} {x y : Check α}
    (hp : Mirrors reader p x) (hq : Mirrors reader q y) :
    Mirrors reader (if c then p else q) (if c then x else y) := by
  split
  · exact hp
  · exact hq

/-- What the loader asks is what it reads. -/
def Asks (reader : Reader) (rd : Asker) (rd' : Reader) : Prop := ∀ lba, Mirrors reader (rd lba) (rd' lba)

theorem mirrors_readBytes (h : Asks reader rd rd') (lba size : Nat) :
    Mirrors reader (readBytes rd lba size) (Swift.readBytes rd' lba size) := by
  refine Mirrors.ite (mirrors_pure _) ((h lba).bind fun r => ?_)
  cases r with
  | none => exact mirrors_pure _
  | some sector => exact mirrors_pure _

theorem mirrors_scanRoot (h : Asks reader rd rd') (want : List UInt8) (rootLba rootSectors n sector : Nat) :
    Mirrors reader (scanRoot rd want rootLba rootSectors n sector)
      (Swift.scanRoot rd' want rootLba rootSectors n sector) := by
  induction n generalizing sector with
  | zero => exact mirrors_pure _
  | succ n ih =>
    refine (mirrors_pureOf _).bind fun lba => (h lba).bind fun r => ?_
    cases r with
    | none => exact mirrors_pure _
    | some dir =>
      refine (mirrors_pureOf _).bind fun found => ?_
      cases found with
      | ends => exact mirrors_pure _
      | found cluster size =>
        exact (mirrors_pureOf _).bind fun data => (mirrors_pureOf _).bind fun dataLba =>
          mirrors_readBytes h dataLba _
      | more => exact ih (sector + 1)

theorem mirrors_loadFat (h : Asks reader rd rd') (boot : Sector) :
    Mirrors reader (loadFat boot rd) (Swift.loadFat boot rd') := by
  refine Mirrors.ite (mirrors_pure _) ?_
  exact (mirrors_pureOf _).bind fun tables => (mirrors_pureOf _).bind fun rootLba =>
    (mirrors_pureOf _).bind fun rootBytes =>
    mirrors_scanRoot h _ _ _ _ _

theorem mirrors_readRecord (h : Asks reader rd rd') (lba n s : Nat) (raw : List UInt8) :
    Mirrors reader (readRecord rd lba n s raw) (Swift.readRecord rd' lba n s raw) := by
  induction n generalizing s raw with
  | zero => exact mirrors_pure _
  | succ n ih =>
    refine (mirrors_pureOf _).bind fun at_ => (h at_).bind fun r => ?_
    cases r with
    | none => exact mirrors_pure _
    | some sector => exact ih _ _

theorem mirrors_loadRecords (h : Asks reader rd rd') (shape : NtfsShape) (n index : Nat) :
    Mirrors reader (loadRecords rd shape n index) (Swift.loadRecords rd' shape n index) := by
  induction n generalizing index with
  | zero => exact mirrors_pure _
  | succ n ih =>
    refine (mirrors_pureOf _).bind fun base => (mirrors_pureOf _).bind fun offset =>
      (mirrors_pureOf _).bind fun lba =>
      (mirrors_readRecord h lba _ 0 []).bind fun r => ?_
    cases r with
    | none => exact mirrors_pure _
    | some raw =>
      refine (mirrors_pureOf _).bind fun found => ?_
      cases found with
      | none => exact ih (index + 1)
      | some found => exact mirrors_pure _

theorem mirrors_loadNtfs (h : Asks reader rd rd') (boot : Sector) :
    Mirrors reader (loadNtfs boot rd) (Swift.loadNtfs boot rd') := by
  refine Mirrors.ite (mirrors_pure _) (Mirrors.ite (mirrors_pure _)
    ((mirrors_pureOf _).bind fun record => ?_))
  exact Mirrors.ite (mirrors_pure _) (mirrors_loadRecords h _ _ _)

theorem mirrors_partition (h : Asks reader rd rd') (start : Nat) :
    Asks reader (partition start rd) (Swift.partition start rd') :=
  fun lba => Mirrors.ite (h (start + lba)) (mirrors_pure none)

theorem mirrors_loadVolume (h : Asks reader rd rd') (start : Nat) :
    Mirrors reader (loadVolume start rd) (Swift.loadVolume start rd') := by
  refine (h start).bind fun r => ?_
  cases r with
  | none => exact mirrors_pure _
  | some boot =>
    have hpart := mirrors_partition h start
    exact Mirrors.ite (mirrors_loadNtfs hpart boot)
      (Mirrors.ite (mirrors_loadFat hpart boot) (mirrors_pure _))

theorem mirrors_readGptEntry (h : Asks reader rd rd') (entryLba index : Nat) :
    Mirrors reader (readGptEntry rd entryLba index) (Swift.readGptEntry rd' entryLba index) := by
  refine Mirrors.ite ((h _).bind fun r => ?_) (mirrors_pure _)
  cases r with
  | none => exact mirrors_pure _
  | some sector => exact (mirrors_pureOf _).bind fun entry => mirrors_pure _

theorem mirrors_loadPartitions (h : Asks reader rd rd') (entryLba n index : Nat) (sawFs : Bool) :
    Mirrors reader (loadPartitions rd entryLba n index sawFs)
      (Swift.loadPartitions rd' entryLba n index sawFs) := by
  induction n generalizing index sawFs with
  | zero => exact mirrors_pure _
  | succ n ih =>
    refine (mirrors_readGptEntry h entryLba index).bind fun r => ?_
    cases r with
    | none => exact mirrors_pure _
    | some entry =>
      refine Mirrors.ite (ih _ _) ((mirrors_loadVolume h _).bind fun report => ?_)
      cases report with
      | bytes buf len => exact mirrors_pure _
      | missing => exact ih _ _
      | admin => exact mirrors_pure _
      | _ => exact ih _ _

theorem mirrors_loadGpt (h : Asks reader rd rd') : Mirrors reader (loadGpt rd) (Swift.loadGpt rd') := by
  refine (h 1).bind fun r => ?_
  cases r with
  | none => exact mirrors_pure _
  | some header =>
    cases hentries : gptEntries header with
    | none =>
      simp only [hentries]
      exact mirrors_pure _
    | some entries =>
      simp only [hentries]
      exact mirrors_loadPartitions h _ _ _ _

/-- The loader over a reader is the loader that asks. -/
theorem mirrors_loadNamed (reader : Reader) : Mirrors reader loadNamed (Swift.loadNamed reader) := by
  refine (mirrors_ask 0).bind fun r => ?_
  cases r with
  | none => exact mirrors_pure _
  | some boot =>
    exact Mirrors.ite (mirrors_loadNtfs mirrors_ask boot) (Mirrors.ite (mirrors_loadFat mirrors_ask boot)
      (Mirrors.ite (mirrors_loadGpt mirrors_ask) (mirrors_pure _)))

end mirrors

/-! ### It stops at the first read that fails -/

/-- The computation ends here, badly if at all. -/
def Ends (bad : α → Prop) : Reading α → Prop
  | ret a => bad a
  | crash => True
  | read _ _ => False

/-- Each sector asked for has a 64-bit number, and when one is not given the computation ends. -/
def Until (bad : α → Prop) : Reading α → Prop
  | ret _ => True
  | crash => True
  | read lba k => lba < 2 ^ 64 ∧ Ends bad (k none) ∧ ∀ s, Until bad (k (some s))

section stops

variable {bad : α → Prop} {bad' : β → Prop} {rd : Asker}

theorem until_pure (a : α) : Until bad (pure a : Reading α) := trivial

theorem Ends.until {p : Reading α} (h : Ends bad p) : Until bad p := by
  cases p with
  | ret a => trivial
  | crash => trivial
  | read lba k => exact h.elim

theorem Ends.bind {p : Reading α} {f : α → Reading β} (hp : Ends bad p)
    (hf : ∀ a, bad a → Ends bad' (f a)) : Ends bad' (p >>= f) := by
  cases p with
  | ret a => exact hf a hp
  | crash => trivial
  | read lba k => exact hp.elim

theorem Until.bind {p : Reading α} {f : α → Reading β} (hp : Until bad p)
    (hbad : ∀ a, bad a → Ends bad' (f a))
    (hf : ∀ a, ¬bad a → Until bad' (f a)) : Until bad' (p >>= f) := by
  induction p with
  | ret a =>
    by_cases ha : bad a
    · exact (hbad a ha).until
    · exact hf a ha
  | crash => trivial
  | read lba k ih => exact ⟨hp.1, hp.2.1.bind hbad, fun s => ih (some s) (hp.2.2 s)⟩

/-- A part that asks for nothing. -/
theorem until_pureOf_bind {x : Check α} {f : α → Reading β} (hf : ∀ a, x.Gives a → Until bad' (f a)) :
    Until bad' (pureOf x >>= f) := by
  cases x with
  | none => trivial
  | some p => exact hf p.1 ⟨p.2, rfl⟩

theorem Until.ite {c : Prop} [Decidable c] {p q : Reading α} (hp : c → Until bad p)
    (hq : ¬c → Until bad q) :
    Until bad (if c then p else q) := by
  split
  · exact hp ‹_›
  · exact hq ‹_›

/-- A way to ask for sectors with 64-bit numbers. -/
def Stops (rd : Asker) : Prop := ∀ lba < 2 ^ 64, Until (· = none) (rd lba)

theorem stops_ask : Stops ask := fun _ h => ⟨h, rfl, fun _ => trivial⟩

/-- Go on with a sector, or end with a report. -/
theorem Stops.bind (h : Stops rd) {lba : Nat} (hlba : lba < 2 ^ 64) {f : Option Sector → Reading β}
    (hnone : Ends bad' (f none))
    (hsome : ∀ s, Until bad' (f (some s))) : Until bad' (rd lba >>= f) := by
  refine (h lba hlba).bind ?_ ?_
  · rintro a rfl
    exact hnone
  · intro a ha
    cases a with
    | none => exact (ha rfl).elim
    | some s => exact hsome s

theorem until_readBytes (h : Stops rd) {lba : Nat} (hlba : lba < 2 ^ 64) (size : Nat) :
    Until (· = .admin) (readBytes rd lba size) :=
  Until.ite (fun _ => until_pure _) fun _ => h.bind hlba rfl fun _ => until_pure _

theorem add64_lt {a b n : Nat} (h : (add64 a b).Gives n) : n < 2 ^ 64 := by
  obtain ⟨hlt, rfl⟩ := Check.gives_add64.mp h
  exact hlt

theorem until_scanRoot (h : Stops rd) (want : List UInt8) (rootLba rootSectors n sector : Nat) :
    Until (· = .admin) (scanRoot rd want rootLba rootSectors n sector) := by
  induction n generalizing sector with
  | zero => exact until_pure _
  | succ n ih =>
    refine until_pureOf_bind fun lba hlba => h.bind (add64_lt hlba) rfl fun dir => until_pureOf_bind
      fun found _ => ?_
    cases found with
    | ends => exact until_pure _
    | found cluster size =>
      exact until_pureOf_bind fun data _ => until_pureOf_bind fun dataLba hdata => until_readBytes h
        (add64_lt hdata) _
    | more => exact ih (sector + 1)

theorem until_loadFat (h : Stops rd) (boot : Sector) : Until (· = .admin) (loadFat boot rd) := by
  refine Until.ite (fun _ => until_pure _) fun _ => ?_
  exact until_pureOf_bind fun tables _ => until_pureOf_bind fun rootLba _ => until_pureOf_bind
    fun rootBytes _ =>
    until_scanRoot h _ _ _ _ _

theorem until_readRecord (h : Stops rd) (lba n s : Nat) (raw : List UInt8) :
    Until (· = none) (readRecord rd lba n s raw) := by
  induction n generalizing s raw with
  | zero => exact until_pure _
  | succ n ih => exact until_pureOf_bind fun at_ hat => h.bind (add64_lt hat) rfl fun sector => ih _ _

theorem until_loadRecords (h : Stops rd) (shape : NtfsShape) (n index : Nat) :
    Until (· = .admin) (loadRecords rd shape n index) := by
  induction n generalizing index with
  | zero => exact until_pure _
  | succ n ih =>
    refine until_pureOf_bind fun base _ => until_pureOf_bind fun offset _ => until_pureOf_bind fun lba _ =>
      (until_readRecord h lba _ 0 []).bind ?_ ?_
    · rintro _ rfl
      exact rfl
    · intro r hr
      cases r with
      | none => exact (hr rfl).elim
      | some raw =>
        refine until_pureOf_bind fun found _ => ?_
        cases found with
        | none => exact ih (index + 1)
        | some found => exact until_pure _

theorem until_loadNtfs (h : Stops rd) (boot : Sector) : Until (· = .admin) (loadNtfs boot rd) := by
  refine Until.ite (fun _ => until_pure _) fun _ => Until.ite (fun _ => until_pure _) fun _ =>
    until_pureOf_bind fun record _ => ?_
  exact Until.ite (fun _ => until_pure _) fun _ => until_loadRecords h _ _ _

theorem stops_partition (h : Stops rd) (start : Nat) : Stops (partition start rd) :=
  fun lba _ => Until.ite (fun hlt => h (start + lba) hlt) fun _ => until_pure none

theorem until_loadVolume (h : Stops rd) {start : Nat} (hstart : start < 2 ^ 64) :
    Until (· = .admin) (loadVolume start rd) := by
  have hpart := stops_partition h start
  exact h.bind hstart rfl fun boot => Until.ite (fun _ => until_loadNtfs hpart boot) fun _ =>
    Until.ite (fun _ => until_loadFat hpart boot) fun _ => until_pure _

theorem until_readGptEntry (h : Stops rd) (entryLba index : Nat) :
    Until (· = none) (readGptEntry rd entryLba index) :=
  Until.ite (fun hlt => h.bind hlt rfl fun _ => until_pureOf_bind fun _ _ => until_pure _) fun _ =>
    until_pure _

/-- The first sector of a partition is a 64-bit number. -/
theorem start_lt (entry : List UInt8) : leValue ((entry.take 40).drop 32) < 2 ^ 64 := by
  have hlen : ((entry.take 40).drop 32).length ≤ 8 := by
    rw [List.length_drop, List.length_take]
    omega
  have hpow : (256 : Nat) ^ ((entry.take 40).drop 32).length ≤ 256 ^ 8 :=
    Nat.pow_le_pow_right (by decide) hlen
  have := Check.leValue_lt ((entry.take 40).drop 32)
  omega

theorem until_loadPartitions (h : Stops rd) (entryLba n index : Nat) (sawFs : Bool) :
    Until (· = .admin) (loadPartitions rd entryLba n index sawFs) := by
  induction n generalizing index sawFs with
  | zero => exact until_pure _
  | succ n ih =>
    refine (until_readGptEntry h entryLba index).bind ?_ ?_
    · rintro _ rfl
      exact rfl
    · intro r hr
      cases r with
      | none => exact (hr rfl).elim
      | some entry =>
        refine Until.ite (fun _ => ih _ _) fun _ => (until_loadVolume h (start_lt entry)).bind ?_ ?_
        · rintro _ rfl
          exact rfl
        · intro report _
          cases report with
          | bytes buf len => exact until_pure _
          | missing => exact ih _ _
          | admin => exact until_pure _
          | _ => exact ih _ _

theorem until_loadGpt (h : Stops rd) : Until (· = .admin) (loadGpt rd) := by
  refine h.bind (by decide) rfl fun header => ?_
  cases hentries : gptEntries header with
  | none =>
    simp only [hentries]
    exact until_pure _
  | some entries =>
    simp only [hentries]
    exact until_loadPartitions h _ _ _ _

/-- The loader asks for nothing after a sector it is not given. -/
theorem until_loadNamed : Until (· = .admin) loadNamed :=
  stops_ask.bind (by decide) rfl fun boot => Until.ite (fun _ => until_loadNtfs stops_ask boot) fun _ =>
    Until.ite (fun _ => until_loadFat stops_ask boot) fun _ => Until.ite
      (fun _ => until_loadGpt stops_ask) fun _ => until_pure _

end stops

end Reading

end Lerux.Swift

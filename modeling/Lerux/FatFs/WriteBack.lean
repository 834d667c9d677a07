import Lerux.FatFs.Cache

/-!
# The cached block over a device that may fail

Each transfer may fail, and a failed one moves nothing. What the server sees then changes as a plain
array of blocks would under direct writes: a call that returns false leaves it, and a call that
returns true does its work on it. The array meets the device when a flush returns true.
-/

namespace Lerux.FatFs

/-- A plain array of transfer blocks. -/
abbrev Blocks : Type := Nat → Fin transfer → UInt8

def blocks (s : Fs) : Blocks := fun n i => view s n i

/-- An edit of a sector, and of nothing beside it. -/
abbrev SectorEdit : Type := (Fin sectorBytes → UInt8) → Fin sectorBytes → UInt8

/-- The edit as it runs on the bytes of a sector. -/
def SectorEdit.onBytes (edit : SectorEdit) (b : Bytes) : Bytes := fun i =>
  if h : i < sectorBytes then edit (fun j => b j) ⟨i, h⟩ else b i

inductive CacheCall
  | loadBlock (number : Nat)
  | editSector (lba : Nat) (edit : SectorEdit)
  | stageZero (number : Nat)
  | flushBlock

def CacheCall.run : CacheCall → M Bool
  | loadBlock number => FatFs.loadBlock number
  | editSector lba edit => FatFs.editSector lba edit.onBytes
  | stageZero number => FatFs.stageZero number
  | flushBlock => FatFs.flushBlock

theorem sectorOffset_le (lba : Nat) : sectorOffset lba + sectorBytes ≤ transfer := by
  simp only [sectorOffset, sectorsPerTransfer, sectorBytes, transfer]
  omega

/-- A sector of a block. -/
def sectorOf (lba : Nat) (b : Fin transfer → UInt8) (j : Fin sectorBytes) : UInt8 :=
  b ⟨sectorOffset lba + j, by have := sectorOffset_le lba; omega⟩

/-- The call on the array itself. -/
def CacheCall.direct : CacheCall → Blocks → Blocks
  | loadBlock _, b => b
  | editSector lba edit, b => Function.update b (lba / sectorsPerTransfer) fun i =>
      if h : sectorOffset lba ≤ i ∧ i < sectorOffset lba + sectorBytes then
        edit (sectorOf lba (b (lba / sectorsPerTransfer))) ⟨i - sectorOffset lba, by omega⟩
      else b (lba / sectorsPerTransfer) i
  | stageZero number, b => Function.update b number fun _ => 0
  | flushBlock, b => b

/-- A dirty block is a valid one, and a clean one is the device's. -/
structure Coherent (s : Fs) : Prop where
  valid_of_dirty : s.blockDirty = true → s.blockValid = true
  clean : s.blockDirty = false → s.blockValid = true → ∀ i, i < transfer → s.block i = s.device s.blockNo i

/-- What a call that ends in a state has done. -/
structure Done (call : CacheCall) (s : Fs) (done : Bool) (s' : Fs) : Prop where
  coherent : Coherent s'
  blocks : blocks s' = if done then call.direct (blocks s) else blocks s
  /-- A dirty block leaves the cache only for the device. -/
  kept : s.blockDirty = true → (s'.blockDirty = true ∧ s'.blockNo = s.blockNo) ∨ ∀ i, i < transfer →
    s'.device s.blockNo i = s.block i
  /-- The device changes in the cached block only. -/
  device : ∀ n, s'.device n ≠ s.device n → n = s.blockNo ∧ s.blockDirty = true
  /-- What is read is the block, and a flush leaves nothing behind. -/
  loaded : ∀ number, call = .loadBlock number → done = true → ∀ i : Fin transfer, s'.block i =
    FatFs.blocks s number i
  flushed : call = .flushBlock → done = true → ∀ n, ∀ i : Fin transfer, s'.device n i = FatFs.blocks s' n i

section calls

variable {s s' : Fs}

/-- Nothing has changed but the count of the transfers. -/
theorem Coherent.counted (h : Coherent s) (count : Nat) : Coherent { s with transfers := count } :=
  ⟨h.valid_of_dirty, h.clean⟩

/-- A call that has failed at a transfer before it did anything. -/
theorem Done.failed (h : Coherent s) (call : CacheCall) (count : Nat) :
    Done call s false { s with transfers := count } where
  coherent := h.counted count
  blocks := rfl
  kept hdirty := .inl ⟨hdirty, rfl⟩
  device _ hne := absurd rfl hne
  loaded _ _ hdone := by cases hdone
  flushed _ hdone := by cases hdone

theorem andThen_of_false {x y : M Bool} (h : x s = (false, s')) : andThen x y s = (false, s') := by
  rw [andThen, bind_of_eq h]
  rfl

/-- What a flush that returns true leaves. -/
structure Flushed (s s' : Fs) : Prop where
  clean : s'.blockDirty = false
  valid : s'.blockValid = s.blockValid
  number : s'.blockNo = s.blockNo
  block : s'.block = s.block
  coherent : Coherent s'
  blocks : blocks s' = FatFs.blocks s
  kept : s.blockDirty = true → s'.device s.blockNo = s.block
  device : ∀ n, s'.device n ≠ s.device n → n = s.blockNo ∧ s.blockDirty = true

theorem flushBlock_cases (h : Coherent s) :
    (∃ s', FatFs.flushBlock s = (true, s') ∧ Flushed s s') ∨ ∃ count,
      FatFs.flushBlock s = (false, { s with transfers := count }) := by
  by_cases hdirty : s.blockDirty = true
  · cases hperforms : s.performs s.transfers with
    | false =>
      have htransfer : blkTransfer true s.blockNo s = (false, { s with transfers := s.transfers + 1 }) := by
        simp [blkTransfer, hperforms]
      exact .inr ⟨s.transfers + 1, by simp [FatFs.flushBlock, hdirty, bind_of_eq htransfer]⟩
    | true =>
      have htransfer : blkTransfer true s.blockNo s = (true, { s with
          transfers := s.transfers + 1, device := Function.update s.device s.blockNo s.block }) := by
        simp [blkTransfer, hperforms]
      refine .inl ⟨{ s with
        transfers := s.transfers + 1, device := Function.update s.device s.blockNo s.block,
          blockDirty := false }, ?_, ?_⟩
      · simp [FatFs.flushBlock, hdirty, bind_of_eq htransfer]
      · have hself : Function.update s.device s.blockNo s.block s.blockNo = s.block :=
          Function.update_self _ _ _
        refine ⟨rfl, rfl, rfl, rfl, ⟨(fun hdirty => by cases hdirty),
          fun _ _ i _ => congrFun hself.symm i⟩, ?_, fun _ => hself, fun n hne => ?_⟩
        · -- the cached block is what the server sees of its place, before and after
          funext n i
          by_cases hn : s.blockNo = n
          · simp [FatFs.blocks, view, hn, h.valid_of_dirty hdirty]
          · simp [FatFs.blocks, view, hn, Function.update_of_ne (Ne.symm hn)]
        · by_contra hout
          exact hne (Function.update_of_ne (fun heq => hout ⟨heq, hdirty⟩) _ _)
  · have hclean : s.blockDirty = false := Bool.eq_false_iff.mpr hdirty
    refine .inl ⟨s,
      by simp [FatFs.flushBlock, hclean], hclean, rfl, rfl, rfl, h, rfl, fun hd => absurd hd hdirty, fun n hne => absurd rfl hne⟩

theorem flushBlock_done (h : Coherent s) :
    Done .flushBlock s (FatFs.flushBlock s).1 (FatFs.flushBlock s).2 := by
  obtain ⟨s', heq, hf⟩ | ⟨count, heq⟩ := flushBlock_cases h
  · rw [heq]
    refine ⟨hf.coherent, hf.blocks, fun hdirty => .inr fun i _ => congrFun (hf.kept hdirty) i,
      hf.device, nofun, fun _ _ n i => ?_⟩
    by_cases hcached : s'.blockValid = true ∧ s'.blockNo = n
    · have hblock := hf.coherent.clean hf.clean hcached.1 i i.isLt
      rw [hcached.2] at hblock
      simp [FatFs.blocks, view, hcached, hblock]
    · simp [FatFs.blocks, view, hcached]
  · rw [heq]
    exact Done.failed h _ count

/-- A read after a flush fills the cache, or it fails and the clean block stays. -/
theorem loadBlock_done (h : Coherent s) (number : Nat) :
    Done (.loadBlock number) s (FatFs.loadBlock number s).1 (FatFs.loadBlock number s).2 := by
  by_cases hhit : s.blockValid = true ∧ s.blockNo = number
  · have heq : FatFs.loadBlock number s = (true, s) := by simp [FatFs.loadBlock, hhit]
    rw [heq]
    refine ⟨h, rfl, fun hdirty => .inl ⟨hdirty, rfl⟩, fun n hne => absurd rfl hne,
      fun n hn _ i => ?_, (fun hcall => by cases hcall)⟩
    cases hn
    simp [FatFs.blocks, view, hhit]
  · obtain ⟨s₁, hflush, hf⟩ | ⟨count, hflush⟩ := flushBlock_cases h
    · have hmiss : ¬(s₁.blockValid = true ∧ s₁.blockNo = number) := by rwa [hf.valid, hf.number]
      have hdevice : ∀ i : Fin transfer, s₁.device number i = FatFs.blocks s number i := fun i => by
        rw [← hf.blocks]
        simp [FatFs.blocks, view, hmiss]
      cases hperforms : s₁.performs s₁.transfers with
      | false =>
        have htransfer : blkTransfer false number s₁ =
          (false, { s₁ with transfers := s₁.transfers + 1 }) := by
          simp [blkTransfer, hperforms]
        have heq : FatFs.loadBlock number s = (false, { s₁ with transfers := s₁.transfers + 1 }) := by
          simp only [FatFs.loadBlock, get_bind, ite_run, if_neg hhit,
            bind_of_eq ((andThen_of_true hflush).trans htransfer)]
          simp
        rw [heq]
        exact ⟨hf.coherent.counted _, hf.blocks,
          fun hdirty => .inr fun i _ => congrFun (hf.kept hdirty) i, hf.device,
          (fun _ _ hdone => by cases hdone), (fun hcall => by cases hcall)⟩
      | true =>
        have htransfer : blkTransfer false number s₁ = (true, { s₁ with
            transfers := s₁.transfers + 1, block := fun i => if i < transfer then s₁.device number i
              else s₁.block i }) := by
          simp [blkTransfer, hperforms]
        have heq : FatFs.loadBlock number s = (true, { s₁ with
            transfers := s₁.transfers + 1, block := fun i => if i < transfer then s₁.device number i
              else s₁.block i,
            blockNo := number, blockValid := true, blockDirty := false }) := by
          simp only [FatFs.loadBlock, get_bind, ite_run, if_neg hhit,
            bind_of_eq ((andThen_of_true hflush).trans htransfer)]
          simp
        rw [heq]
        refine ⟨⟨(fun hdirty => by cases hdirty), fun _ _ i hi => if_pos hi⟩, ?_,
          fun hdirty => .inr fun i _ => congrFun (hf.kept hdirty) i, hf.device,
          fun n hn _ i => ?_, (fun hcall => by cases hcall)⟩
        · -- the block that leaves the cache is clean by now, so the device has it
          refine Eq.trans ?_ hf.blocks
          funext m i
          by_cases hm : number = m
          · simp [FatFs.blocks, view, hm, hm ▸ hmiss]
          · by_cases hold : s₁.blockValid = true ∧ s₁.blockNo = m
            · have hblock := hf.coherent.clean hf.clean hold.1 i i.isLt
              rw [hold.2] at hblock
              simp [FatFs.blocks, view, hm, hold, hblock]
            · simp [FatFs.blocks, view, hm, hold]
        · cases hn
          exact (if_pos i.isLt).trans (hdevice i)
    · have heq : FatFs.loadBlock number s = (false, { s with transfers := count }) := by
        simp only [FatFs.loadBlock, get_bind, ite_run, if_neg hhit, bind_of_eq (andThen_of_false hflush)]
        simp
      rw [heq]
      exact Done.failed h _ count

/-- A zeroed block takes the place of one that has been flushed. -/
theorem stageZero_done (h : Coherent s) (number : Nat) :
    Done (.stageZero number) s (FatFs.stageZero number s).1 (FatFs.stageZero number s).2 := by
  obtain ⟨s₁, hflush, hf⟩ | ⟨count, hflush⟩ := flushBlock_cases h
  · have heq : FatFs.stageZero number s = (true, { s₁ with
        block := fun i => if i < transfer then 0 else s₁.block i, blockNo := number, blockValid :=
          true, blockDirty := true }) := by
      simp [FatFs.stageZero, bind_of_eq hflush]
    rw [heq]
    refine ⟨⟨fun _ => rfl, nofun⟩, ?_, fun hdirty => .inr fun i _ => congrFun (hf.kept hdirty) i,
      hf.device, nofun, nofun⟩
    show _ = Function.update (FatFs.blocks s) number fun _ => 0
    rw [← hf.blocks]
    funext m i
    by_cases hm : m = number
    · simp [FatFs.blocks, view, hm]
    · rw [Function.update_of_ne hm]
      by_cases hold : s₁.blockValid = true ∧ s₁.blockNo = m
      · have hblock := hf.coherent.clean hf.clean hold.1 i i.isLt
        rw [hold.2] at hblock
        simp [FatFs.blocks, view, Ne.symm hm, hold, hblock]
      · simp [FatFs.blocks, view, Ne.symm hm, hold]
  · have heq : FatFs.stageZero number s = (false, { s with transfers := count }) := by
      simp [FatFs.stageZero, bind_of_eq hflush]
    rw [heq]
    exact Done.failed h _ count

theorem cached_of_loadBlock {number : Nat} (h : FatFs.loadBlock number s = (true, s')) :
    s'.blockValid = true ∧ s'.blockNo = number := by
  by_cases hhit : s.blockValid = true ∧ s.blockNo = number
  · have heq : FatFs.loadBlock number s = (true, s) := by simp [FatFs.loadBlock, hhit]
    cases heq.symm.trans h
    exact hhit
  · cases hread : andThen FatFs.flushBlock (blkTransfer false number) s with
    | mk done s₁ =>
      simp only [FatFs.loadBlock, get_bind, ite_run, if_neg hhit, bind_of_eq hread] at h
      cases done with
      | false => cases h
      | true =>
        cases h
        exact ⟨rfl, rfl⟩

/-- An edit changes the block that was loaded, in one sector. -/
theorem editSector_done (h : Coherent s) (lba : Nat) (edit : SectorEdit) :
    Done (.editSector lba edit) s (FatFs.editSector lba edit.onBytes s).1
      (FatFs.editSector lba edit.onBytes s).2 := by
  have hload := loadBlock_done h (lba / sectorsPerTransfer)
  cases hresult : FatFs.loadBlock (lba / sectorsPerTransfer) s with
  | mk done s₁ =>
    rw [hresult] at hload
    cases done with
    | false =>
      have heq : FatFs.editSector lba edit.onBytes s = (false, s₁) := by
        simp [FatFs.editSector, bind_of_eq hresult]
      rw [heq]
      exact ⟨hload.coherent, hload.blocks, hload.kept, hload.device,
        (fun _ hcall => by cases hcall), (fun hcall => by cases hcall)⟩
    | true =>
      have heq : FatFs.editSector lba edit.onBytes s =
          (true, { s₁ with block := editAt (sectorOffset lba) edit.onBytes s₁.block, blockDirty := true }) := by
        simp [FatFs.editSector, bind_of_eq hresult]
      rw [heq]
      obtain ⟨hvalid, hnumber⟩ := cached_of_loadBlock hresult
      refine ⟨⟨fun _ => hvalid, (fun hclean => by cases hclean)⟩, ?_, fun hdirty => ?_, hload.device,
        (fun _ hcall => by cases hcall), (fun hcall => by cases hcall)⟩
      · have hblocks : FatFs.blocks s₁ = FatFs.blocks s := hload.blocks
        show _ = (CacheCall.editSector lba edit).direct (FatFs.blocks s)
        rw [← hblocks]
        funext m i
        by_cases hm : m = lba / sectorsPerTransfer
        · subst hm
          have hself : ∀ i : Fin transfer, FatFs.blocks s₁ (lba / sectorsPerTransfer) i =
            s₁.block i := fun i => by
            simp [FatFs.blocks, view, hvalid, hnumber]
          have hsector : (fun j : Fin sectorBytes => window s₁.block (sectorOffset lba) sectorBytes j) =
              sectorOf lba (FatFs.blocks s₁ (lba / sectorsPerTransfer)) := by
            funext j
            exact (if_pos j.isLt).trans (hself ⟨sectorOffset lba + j, _⟩).symm
          have hcached : FatFs.blocks { s₁ with block := editAt (sectorOffset lba) edit.onBytes s₁.block, blockDirty := true }
              (lba / sectorsPerTransfer) i = editAt (sectorOffset lba) edit.onBytes s₁.block i := by
            simp [FatFs.blocks, view, hvalid, hnumber]
          rw [hcached, CacheCall.direct, Function.update_self]
          unfold editAt
          split
          · rename_i hin
            have hlt : i - sectorOffset lba < sectorBytes := by omega
            rw [SectorEdit.onBytes, dif_pos hlt, hsector]
          · exact (hself i).symm
        · have hother : s₁.blockNo ≠ m := fun heq => hm (heq.symm.trans hnumber)
          rw [CacheCall.direct, Function.update_of_ne hm]
          simp [FatFs.blocks, view, hother]
      · obtain ⟨_, hno⟩ | hdevice := hload.kept hdirty
        · exact .inl ⟨rfl, hno⟩
        · exact .inr hdevice

end calls

/-! ### Runs -/

/-- The calls one after the other, with what each returned. -/
def runCalls : List CacheCall → Fs → List (CacheCall × Bool) × Fs
  | [], s => ([], s)
  | call :: calls, s => ((call, (call.run s).1) :: (runCalls calls (call.run s).2).1,
      (runCalls calls (call.run s).2).2)

/-- The calls that returned true, on the array itself. -/
def runDirect (b : Blocks) (calls : List (CacheCall × Bool)) : Blocks :=
  calls.foldl (fun b p => if p.2 then p.1.direct b else b) b

/-- The server at its start. -/
def started (device : Nat → Bytes) (performs : Nat → Bool) : Fs where
  device
  performs
  transfers := 0
  block := fun _ => 0
  blockNo := 0
  blockValid := false
  blockDirty := false
  file := none
  dir := none
  share := fun _ => 0
  completions := []

theorem run_done {s : Fs} (h : Coherent s) (call : CacheCall) :
    Done call s (call.run s).1 (call.run s).2 := by
  cases call with
  | loadBlock number => exact loadBlock_done h number
  | editSector lba edit => exact editSector_done h lba edit
  | stageZero number => exact stageZero_done h number
  | flushBlock => exact flushBlock_done h

theorem runCalls_blocks (calls : List CacheCall) : ∀ {s : Fs}, Coherent s →
    Coherent (runCalls calls s).2 ∧
      blocks (runCalls calls s).2 = runDirect (blocks s) (runCalls calls s).1 := by
  induction calls with
  | nil => exact fun h => ⟨h, rfl⟩
  | cons call calls ih =>
    intro s h
    have hdone := run_done h call
    obtain ⟨hcoherent, hblocks⟩ := ih hdone.coherent
    refine ⟨hcoherent, hblocks.trans ?_⟩
    rw [hdone.blocks]
    rfl

/-- Over every device and every pattern of failures, the server sees the plain array that the calls
that returned true would have made of the device, and every further call does what it says. -/
theorem cache_refines (device : Nat → Bytes) (performs : Nat → Bool) (calls : List CacheCall) :
    let run := runCalls calls (started device performs)
    blocks (run).2 = runDirect (fun n i => device n i) (run).1 ∧ ∀ call,
      Done call (run).2 (call.run (run).2).1 (call.run (run).2).2 := by
  have hstart : Coherent (started device performs) := ⟨nofun, nofun⟩
  obtain ⟨hcoherent, hblocks⟩ := runCalls_blocks calls hstart
  exact ⟨hblocks, run_done hcoherent⟩

end Lerux.FatFs

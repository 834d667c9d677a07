import Lerux.FatFs.Server

/-!
# The cached block over a working device

`sector s lba` is what the server sees of a sector: the cached block where it is valid for that place,
the device elsewhere. On a device that performs every transfer, loading and flushing move blocks about
and change no sector (`Same`), and an edit changes the one sector it names (`Edited`). Everything above
the cache is then about sectors only.
-/

namespace Lerux.FatFs

/-- The transfer block `n` as the server sees it. -/
def view (s : Fs) (n : Nat) : Bytes := if s.blockValid ∧ s.blockNo = n then s.block else s.device n

/-- One sector as the server sees it. -/
def sector (s : Fs) (lba : Nat) : Bytes :=
  window (view s (lba / sectorsPerTransfer)) (sectorOffset lba) sectorBytes

/-- A device that performs every transfer, under a cache whose dirty block is a valid one and whose clean
block is the device's. -/
structure Working (s : Fs) : Prop where
  performs : ∀ k, s.performs k = true
  valid_of_dirty : s.blockDirty = true → s.blockValid = true
  coherent : s.blockDirty = false → s.blockValid = true → ∀ i, i < transfer → s.block i =
    s.device s.blockNo i

/-- Equal in everything above the cache. -/
structure Same (s s' : Fs) : Prop where
  sector : sector s' = sector s
  file : s'.file = s.file
  dir : s'.dir = s.dir
  share : s'.share = s.share
  completions : s'.completions = s.completions

/-- Equal above the cache but for one sector. -/
structure Edited (lba : Nat) (edit : Bytes → Bytes) (s s' : Fs) : Prop where
  sector : sector s' = Function.update (sector s) lba (window (edit (sector s lba)) 0 sectorBytes)
  file : s'.file = s.file
  dir : s'.dir = s.dir
  share : s'.share = s.share
  completions : s'.completions = s.completions

theorem Same.refl (s : Fs) : Same s s := ⟨rfl, rfl, rfl, rfl, rfl⟩

theorem Same.trans {s s' s'' : Fs} (h : Same s s') (h' : Same s' s'') : Same s s'' :=
  ⟨h'.sector.trans h.sector, h'.file.trans h.file, h'.dir.trans h.dir, h'.share.trans h.share,
    h'.completions.trans h.completions⟩

theorem Same.edited {lba : Nat} {edit : Bytes → Bytes} {s s' s'' : Fs} (h : Same s s')
    (h' : Edited lba edit s' s'') : Edited lba edit s s'' :=
  ⟨by rw [h'.sector, h.sector], h'.file.trans h.file, h'.dir.trans h.dir, h'.share.trans h.share,
    h'.completions.trans h.completions⟩

theorem sectorOffset_add_lt {lba i : Nat} (hi : i < sectorBytes) : sectorOffset lba + i < transfer := by
  simp only [sectorOffset, sectorsPerTransfer, sectorBytes, transfer] at *
  omega

/-- The sectors are those of the transfer blocks. -/
theorem sector_eq_of_view_eq {s s' : Fs} (h : ∀ n i, i < transfer → view s' n i = view s n i) :
    sector s' = sector s := by
  funext lba i
  simp only [sector, window]
  split
  · next hi => exact h _ _ (sectorOffset_add_lt hi)
  · rfl

/-! ### Running the model -/

@[simp] theorem get_bind {α : Type} (f : Fs → M α) (s : Fs) : (get >>= f) s = f s s := rfl

@[simp] theorem modify_bind {α : Type} (g : Fs → Fs) (x : M α) (s : Fs) :
    ((modify g : M PUnit) >>= fun _ => x) s = x (g s) := rfl

@[simp] theorem modify_apply (g : Fs → Fs) (s : Fs) : (modify g : M PUnit) s = (⟨⟩, g s) := rfl

@[simp] theorem pure_apply {α : Type} (a : α) (s : Fs) : (pure a : M α) s = (a, s) := rfl

@[simp] theorem map_apply {α β : Type} (f : α → β) (x : M α) (s : Fs) :
    (f <$> x) s = (f (x s).1, (x s).2) := rfl

@[simp] theorem ite_run {α : Type} (c : Prop) [Decidable c] (x y : M α) (s : Fs) :
    (if c then x else y) s = if c then x s else y s := by
  split <;> rfl

/-- Running a call whose outcome is known. -/
theorem bind_of_eq {α β : Type} {x : M α} {f : α → M β} {s s' : Fs} {a : α} (h : x s = (a, s')) :
    (x >>= f) s = f a s' := by
  rw [show (x >>= f) s = f (x s).1 (x s).2 from rfl, h]

theorem andThen_of_true {x y : M Bool} {s s' : Fs} (h : x s = (true, s')) : andThen x y s = y s' := by
  rw [andThen, bind_of_eq h]
  rfl

section working

variable {s : Fs}

theorem flushBlock_spec (hw : Working s) :
    ∃ s', flushBlock s = (true, s') ∧ Working s' ∧ Same s s' ∧ s'.blockDirty = false ∧
      s'.blockValid = s.blockValid ∧ s'.blockNo = s.blockNo := by
  by_cases hd : s.blockDirty = true
  · have hv := hw.valid_of_dirty hd
    have htransfer : blkTransfer true s.blockNo s = (true, { s with
        transfers := s.transfers + 1, device := Function.update s.device s.blockNo s.block }) := by
      simp [blkTransfer, hw.performs]
    refine ⟨{ s with
      transfers := s.transfers + 1, device := Function.update s.device s.blockNo s.block,
        blockDirty := false },
      ?_, ⟨hw.performs, by simp, fun _ _ i _ => by simp⟩, ⟨?_, rfl, rfl, rfl, rfl⟩, rfl, rfl, rfl⟩
    · simp [flushBlock, hd, bind_of_eq htransfer]
    · refine sector_eq_of_view_eq fun n i _ => ?_
      by_cases hn : s.blockNo = n
      · simp [view, hn, hv]
      · simp [view, hn, Function.update_of_ne (Ne.symm hn)]
  · refine ⟨s, by simp [flushBlock, hd], hw, Same.refl s, by simpa using hd, rfl, rfl⟩

theorem loadBlock_spec (hw : Working s) (n : Nat) :
    ∃ s', loadBlock n s = (true, s') ∧ Working s' ∧ Same s s' ∧ s'.blockValid = true ∧ s'.blockNo = n := by
  by_cases hhit : s.blockValid ∧ s.blockNo = n
  · exact ⟨s, by simp [loadBlock, hhit], hw, Same.refl s, hhit.1, hhit.2⟩
  obtain ⟨s₁, hflush, hw₁, hsame, hclean, hvalid, hno⟩ := flushBlock_spec hw
  have htransfer : blkTransfer false n s₁ = (true, { s₁ with
      transfers := s₁.transfers + 1, block := fun i => if i < transfer then s₁.device n i
        else s₁.block i }) := by
    simp [blkTransfer, hw₁.performs]
  refine ⟨{ s₁ with
    transfers := s₁.transfers + 1, block := fun i => if i < transfer then s₁.device n i else s₁.block i,
    blockNo := n, blockValid := true, blockDirty := false },
    ?_, ⟨hw₁.performs, by simp, fun _ _ i hi => by simp [hi]⟩, hsame.trans ⟨?_, rfl, rfl, rfl, rfl⟩,
      rfl, rfl⟩
  · simp only [loadBlock, get_bind, ite_run, if_neg hhit,
      bind_of_eq ((andThen_of_true hflush).trans htransfer)]
    simp
  -- the block that leaves the cache is clean by now, so the device has it
  · refine sector_eq_of_view_eq fun m i hi => ?_
    rw [← hvalid, ← hno] at hhit
    by_cases hm : n = m
    · subst hm
      simp [view, hhit, hi]
    · by_cases hold : s₁.blockValid = true ∧ s₁.blockNo = m
      · have := hw₁.coherent hclean hold.1 i hi
        rw [hold.2] at this
        simp [view, hm, hold, this]
      · simp [view, hm, hold]

/-- What a loaded block holds. -/
theorem window_block {lba off len : Nat} (hv : s.blockValid = true)
    (hn : s.blockNo = lba / sectorsPerTransfer)
    (hlen : off + len ≤ sectorBytes) : window s.block (sectorOffset lba + off) len =
      window (sector s lba) off len := by
  funext i
  simp only [window, sector, view, hv, hn, and_self, if_true]
  split
  · rw [if_pos (by omega), Nat.add_assoc]
  · rfl

/-- Editing one sector of the cached block. -/
theorem edited_of_loaded {lba : Nat} (edit : Bytes → Bytes) (hw : Working s) (hv : s.blockValid = true)
    (hn : s.blockNo = lba / sectorsPerTransfer) :
    Working { s with block := editAt (sectorOffset lba) edit s.block, blockDirty := true } ∧
      Edited lba edit s { s with block := editAt (sectorOffset lba) edit s.block, blockDirty := true } := by
  refine ⟨⟨hw.performs, fun _ => hv, by simp⟩, ?_, rfl, rfl, rfl, rfl⟩
  funext l i
  by_cases hi : i < sectorBytes
  swap
  · by_cases hl : l = lba
    · simp [hl, sector, window, hi]
    · simp [hl, sector, window, hi]
  by_cases hl : l = lba
  · subst hl
    have hin : sectorOffset l ≤ sectorOffset l + i ∧ sectorOffset l + i < sectorOffset l +
      sectorBytes := by omega
    simp [sector, view, hv, hn, window, hi, editAt, hin]
  · rw [Function.update_of_ne hl]
    by_cases hb : s.blockNo = l / sectorsPerTransfer
    · -- another sector of the same transfer block
      have hout : ¬(sectorOffset lba ≤ sectorOffset l + i ∧ sectorOffset l + i < sectorOffset lba +
        sectorBytes) := by
        simp only [sectorOffset, sectorsPerTransfer, sectorBytes] at *
        omega
      simp [sector, view, hv, hb, window, hi, editAt, hout]
    · simp [sector, view, hb, window, hi]

theorem editSector_spec (hw : Working s) (lba : Nat) (edit : Bytes → Bytes) :
    ∃ s', editSector lba edit s = (true, s') ∧ Working s' ∧ Edited lba edit s s' := by
  obtain ⟨s₁, hload, hw₁, hsame, hv, hn⟩ := loadBlock_spec hw (lba / sectorsPerTransfer)
  obtain ⟨hw₂, hedit⟩ := edited_of_loaded edit hw₁ hv hn
  refine ⟨_, ?_, hw₂, hsame.edited hedit⟩
  simp [editSector, bind_of_eq hload]

end working

end Lerux.FatFs

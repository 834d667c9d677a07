import Lerux.FatFs.Effect

/-!
# Runs on any volume

The server on whatever device it is given: a volume that `volume_ok` accepts is taken as it is, with its
tables, entries and sizes, any other one is formatted, and transfers may fail at any point. With the state
goes a record of how the open file handle was obtained. The invariants here hold of all these runs.
-/

namespace Lerux.FatFs

open SlotTable

/-- The flags the open handle was obtained with, after a command. -/
def heldAfter (s : Fs) (held : Option Nat) (command : Command) (s' : Fs) : Option Nat :=
  if s'.file.isNone then none
  else match s.file, command with
    | none, .fileOpen _ flags => some flags
    | _, _ => held

/-- The states of a server after `prepare`, with the flags its open file was opened with. -/
inductive Mounted : Fs → Option Nat → Prop
  | start {s s' : Fs} (invalid : s.blockValid = false) (clean : s.blockDirty = false) (file : s.file = none)
      (dir : s.dir = none) (run : prepare true s = (true, s')) : Mounted s' none
  | serve {s : Fs} {held : Option Nat} (h : Mounted s held) (id : Nat) (command : Command) :
      Mounted (serveOne id command s).2 (heldAfter s held command (serveOne id command s).2)
  | client {s : Fs} {held : Option Nat} (h : Mounted s held) (share : Bytes) (taken : Nat) :
      Mounted { s with share, completions := s.completions.drop taken } held

/-- What no call of the cache changes, and that a dirty block stays a valid one. -/
structure Moved (s s' : Fs) : Prop where
  file : s'.file = s.file
  performs : s'.performs = s.performs
  dirty : (s.blockDirty = true → s.blockValid = true) → s'.blockDirty = true → s'.blockValid = true

theorem Moved.refl (s : Fs) : Moved s s := ⟨rfl, rfl, fun h => h⟩

theorem Moved.trans {s s₁ s' : Fs} (h : Moved s s₁) (h' : Moved s₁ s') : Moved s s' :=
  ⟨h'.file.trans h.file, h'.performs.trans h.performs, fun hd => h'.dirty (h.dirty hd)⟩

section moved

theorem blkTransfer_moved (write : Bool) (number : Nat) (s : Fs) :
    Moved s (blkTransfer write number s).2 := by
  unfold blkTransfer
  dsimp only
  split
  · split
    · exact ⟨rfl, rfl, fun h => h⟩
    · exact ⟨rfl, rfl, fun h => h⟩
  · exact ⟨rfl, rfl, fun h => h⟩

theorem flushBlock_moved (s : Fs) : Moved s (flushBlock s).2 := by
  unfold flushBlock
  rw [get_bind, ite_run]
  split
  · have hmoved := blkTransfer_moved true s.blockNo s
    cases hrun : blkTransfer true s.blockNo s with
    | mk ok s₁ =>
      rw [hrun] at hmoved
      rw [bind_of_eq hrun, ite_run]
      split
      · exact hmoved.trans ⟨rfl, rfl, fun _ hd => by cases hd⟩
      · exact hmoved
  · exact Moved.refl s

theorem andThen_moved {x y : M Bool} (hx : ∀ s, Moved s (x s).2) (hy : ∀ s, Moved s (y s).2) (s : Fs) :
    Moved s (andThen x y s).2 := by
  unfold andThen
  cases hrun : x s with
  | mk ok s₁ =>
    have hmoved := hx s
    rw [hrun] at hmoved
    rw [bind_of_eq hrun, ite_run]
    split
    · exact hmoved.trans (hy s₁)
    · exact hmoved

theorem loadBlock_moved (number : Nat) (s : Fs) : Moved s (loadBlock number s).2 := by
  unfold loadBlock
  rw [get_bind, ite_run]
  split
  · exact Moved.refl s
  have hmoved := andThen_moved flushBlock_moved (blkTransfer_moved false number) s
  cases hrun : andThen flushBlock (blkTransfer false number) s with
  | mk ok s₁ =>
    rw [hrun] at hmoved
    rw [bind_of_eq hrun, ite_run]
    split
    · exact hmoved.trans ⟨rfl, rfl, fun _ _ => rfl⟩
    · exact hmoved

theorem loadBlock_valid {number : Nat} {s s₁ : Fs} (h : loadBlock number s = (true, s₁)) :
    s₁.blockValid = true := by
  unfold loadBlock at h
  rw [get_bind, ite_run] at h
  split at h
  · next hhit =>
    cases h
    exact hhit.1
  cases hrun : andThen flushBlock (blkTransfer false number) s with
  | mk ok s₂ =>
    rw [bind_of_eq hrun, ite_run] at h
    split at h
    · cases h
      rfl
    · cases h

theorem editSector_moved (lba : Nat) (edit : Bytes → Bytes) (s : Fs) :
    Moved s (editSector lba edit s).2 := by
  unfold editSector
  have hmoved := loadBlock_moved (lba / sectorsPerTransfer) s
  cases hrun : loadBlock (lba / sectorsPerTransfer) s with
  | mk ok s₁ =>
    rw [hrun] at hmoved
    rw [bind_of_eq hrun, ite_run]
    split
    · next hok =>
      subst hok
      have hvalid := loadBlock_valid hrun
      exact hmoved.trans ⟨rfl, rfl, fun _ _ => hvalid⟩
    · exact hmoved

theorem stageZero_moved (number : Nat) (s : Fs) : Moved s (stageZero number s).2 := by
  unfold stageZero
  have hmoved := flushBlock_moved s
  cases hrun : flushBlock s with
  | mk ok s₁ =>
    rw [hrun] at hmoved
    rw [bind_of_eq hrun, ite_run]
    split
    · exact hmoved.trans ⟨rfl, rfl, fun _ _ => rfl⟩
    · exact hmoved

theorem stageZeros_moved (numbers : List Nat) (s : Fs) : Moved s (stageZeros numbers s).2 := by
  induction numbers generalizing s with
  | nil => exact Moved.refl s
  | cons number rest ih => exact andThen_moved (stageZero_moved number) ih s

theorem formatVolume_moved (s : Fs) : Moved s (formatVolume s).2 := by
  have hedit : ∀ (edit : Bytes → Bytes) (s : Fs), Moved s (editStaged edit s).2 :=
    fun edit s => ⟨rfl, rfl, fun h => h⟩
  exact andThen_moved (stageZero_moved _) (andThen_moved (hedit _) (andThen_moved (stageZeros_moved _)
    (andThen_moved (stageZero_moved _) (andThen_moved (hedit _)
      (andThen_moved (stageZeros_moved _) flushBlock_moved))))) s

end moved

/-- A property of what the cache does not change is kept by every call that leaves the file handle alone. -/
theorem cacheClosed_of_moved {P : Fs → Prop} (hmoved : ∀ s s', Moved s s' → P s → P s')
    (habove : ∀ s s', Beside s s' → s'.file = s.file → P s → P s') : CacheClosed P where
  flush := fun s => hmoved s _ (flushBlock_moved s)
  load := fun n s => hmoved s _ (loadBlock_moved n s)
  edit := fun lba edit s => hmoved s _ (editSector_moved lba edit s)
  above := habove

theorem prepare_preserves {P : Fs → Prop} (hP : CacheClosed P) (hformat : Preserves P formatVolume) :
    Preserves P (prepare true) :=
  (hP.load 0).andThen ((Preserves.get.bind fun _ => .ite (.pure _) hformat).andThen
    (seedHostname_preserves hP))

/-! ### Invariants -/

/-- A dirty block is a valid one. -/
def DirtyValid (s : Fs) : Prop := s.blockDirty = true → s.blockValid = true

theorem dirtyValid_closed : HandleClosed DirtyValid where
  toCacheClosed := cacheClosed_of_moved (fun _ _ h hd => h.dirty hd) fun s s' h _ hd => by
    unfold DirtyValid
    rw [h.blockDirty, h.blockValid]
    exact hd
  handle := fun s s' h hd => by
    unfold DirtyValid
    rw [h.blockDirty, h.blockValid]
    exact hd

theorem Mounted.dirtyValid {s : Fs} {held : Option Nat} (h : Mounted s held) : DirtyValid s := by
  induction h with
  | @start s s' invalid clean file dir run =>
    have hs : DirtyValid s := by
      intro hd
      rw [clean] at hd
      cases hd
    have hkept := prepare_preserves dirtyValid_closed.cache (fun s => (formatVolume_moved s).dirty) s hs
    rw [run] at hkept
    exact hkept
  | serve _ id command ih => exact serveOne_preserves dirtyValid_closed id command _ ih
  | client _ share taken ih => exact ih

/-- A handle on the root is on one of its entries, and has a cluster of its own. -/
def HandleOk (s : Fs) : Prop := ∀ f, s.file = some f → f.parent = 0 → f.dirIndex < rootEntries ∧
    2 ≤ f.cluster

theorem handleOk_of_file {s s' : Fs} (h : s'.file = s.file) (hs : HandleOk s) : HandleOk s' := by
  unfold HandleOk
  rw [h]
  exact hs

theorem handleOk_closed : CacheClosed HandleOk :=
  cacheClosed_of_moved (fun _ _ h => handleOk_of_file h.file) fun _ _ _ h => handleOk_of_file h

section handleOk

variable {α β : Type} {P : Fs → Prop}

/-- Running on with what a call answered. -/
theorem Preserves.bind_answer {x : M α} {f : α → M β} (hx : Preserves P x)
    (hf : ∀ s a, (x s).1 = a → Preserves P (f a)) : Preserves P (x >>= f) :=
      fun s hs => hf s _ rfl _ (hx s hs)

theorem scanName_index {read : Nat → M (Option Bytes)} {name : Name} {hit : DirHit} (left : Nat) :
    ∀ (index : Nat) (s : Fs),
    (scanName read name left index s).1 = .hit hit → hit.index < index + left := by
  induction left with
  | zero =>
    intro index s h
    cases h
  | succ left ih =>
    intro index s h
    cases hrun : read index s with
    | mk e s₁ =>
      rw [scanName, bind_of_eq hrun] at h
      cases e with
      | none => cases h
      | some e =>
        dsimp only at h
        rw [ite_run] at h
        split at h
        · cases h
        rw [ite_run] at h
        split at h
        · have := ih (index + 1) s₁ h
          omega
        rw [ite_run] at h
        split at h
        · cases h
          change index < _
          omega
        · have := ih (index + 1) s₁ h
          omega

theorem scanFree_index {read : Nat → M (Option Bytes)} {slot : Nat} (left : Nat) : ∀ (index : Nat) (s : Fs),
    (scanFree read left index s).1 = .hit slot → slot < index + left := by
  induction left with
  | zero =>
    intro index s h
    cases h
  | succ left ih =>
    intro index s h
    cases hrun : read index s with
    | mk e s₁ =>
      rw [scanFree, bind_of_eq hrun] at h
      cases e with
      | none => cases h
      | some e =>
        dsimp only at h
        rw [ite_run] at h
        split at h
        · cases h
          omega
        · have := ih (index + 1) s₁ h
          omega

theorem scanCluster_low {c : Nat} (left : Nat) : ∀ (cluster : Nat) (s : Fs),
    (scanCluster left cluster s).1 = .hit c → cluster ≤ c := by
  induction left with
  | zero =>
    intro cluster s h
    cases h
  | succ left ih =>
    intro cluster s h
    cases hrun : readFat cluster s with
    | mk r s₁ =>
      rw [scanCluster, bind_of_eq hrun] at h
      cases r with
      | missing | failed => cases h
      | hit value =>
        dsimp only at h
        rw [ite_run] at h
        split at h
        · cases h
          exact le_rfl
        · have := ih (cluster + 1) s₁ h
          omega

theorem reserveFile_range {id : Nat} {name : Name} {s : Fs} {slot cluster : Nat}
    (h : (reserveFile id name s).1 = .ok (slot, cluster)) : slot < rootEntries ∧ 2 ≤ cluster := by
  cases hfind : findName name s with
  | mk r s₁ =>
    rw [reserveFile, bind_of_eq hfind] at h
    cases r with
    | hit hit => cases h
    | failed => cases h
    | missing =>
      cases hfree : findFree s₁ with
      | mk r₁ s₂ =>
        dsimp only at h
        rw [bind_of_eq hfree] at h
        cases r₁ with
        | missing | failed => cases h
        | hit slot' =>
          cases halloc : allocCluster s₂ with
          | mk r₂ s₃ =>
            dsimp only at h
            rw [bind_of_eq halloc] at h
            cases r₂ with
            | missing | failed => cases h
            | hit cluster' =>
              cases h
              have hslot := scanFree_index rootEntries 0 s₁ (congrArg Prod.fst hfree)
              exact ⟨by omega, scanCluster_low (clusterScan - 2) 2 s₂ (congrArg Prod.fst halloc)⟩

theorem openHit_handleOk (id parent : Nat) (hit : DirHit) (hindex : parent = 0 → hit.index < rootEntries) :
    Preserves HandleOk (openHit id parent hit) := by
  intro s hs
  unfold openHit
  rw [ite_run]
  split
  · exact complete_preserves handleOk_closed _ _ _ s hs
  · next hplain =>
    rw [not_or, Nat.not_lt] at hplain
    refine complete_preserves handleOk_closed _ _ _ _ fun f heq hroot => ?_
    cases heq
    exact ⟨hindex hroot, hplain.2⟩

theorem handleOpen_handleOk (id : Nat) (path : Buffer) (flags : Nat) :
    Preserves HandleOk (handleOpen id path flags) := by
  have hanswer := complete_preserves handleOk_closed id
  have hfault := fault_preserves handleOk_closed id
  have hread : ∀ name, Preserves HandleOk (openRead id name) := by
    intro name
    refine Preserves.get.bind fun s => .ite (hanswer _ _)
      ((findName_preserves handleOk_closed name).bind_answer fun s₁ r hr => ?_)
    cases r with
    | hit hit =>
      refine openHit_handleOk _ _ _ fun _ => ?_
      have := scanName_index rootEntries 0 s₁ hr
      omega
    | missing => exact hanswer _ _
    | failed => exact hfault
  have hnested : ∀ dirName fileName, Preserves HandleOk (openNestedRead id dirName fileName) := by
    intro dirName fileName
    refine Preserves.get.bind fun s => .ite (hanswer _ _)
      ((findName_preserves handleOk_closed dirName).bind fun r => ?_)
    cases r with
    | missing => exact hanswer _ _
    | failed => exact hfault
    | hit parent =>
      dsimp only
      split
      swap
      · exact hanswer _ _
      next hparent =>
      refine (findInCluster_preserves handleOk_closed _ _).bind fun r => ?_
      cases r with
      | hit hit => exact openHit_handleOk _ _ _ fun h0 => by omega
      | missing => exact hanswer _ _
      | failed => exact hfault
  have hcreate : ∀ name, Preserves HandleOk (createFile id name) := by
    intro name
    refine Preserves.get.bind fun s => .ite (hanswer _ _)
      ((reserveFile_preserves handleOk_closed id name).bind_answer fun s₁ r hr => ?_)
    cases r with
    | error done => exact .pure _
    | ok pair =>
      obtain ⟨slot, cluster⟩ := pair
      obtain ⟨hslot, hc⟩ := reserveFile_range hr
      refine ((setFat_preserves handleOk_closed _ _).andThen
        ((handleOk_closed.edit _ _).andThen handleOk_closed.flush)).bind
        fun _ => .ite (fun s₂ _ => ?_) hfault
      refine hanswer _ _ _ fun f heq _ => ?_
      cases heq
      exact ⟨hslot, hc⟩
  refine Preserves.get.bind fun s => .ite (hanswer _ _) ?_
  split
  · exact hanswer _ _
  · refine .ite (.ite (hanswer _ _) ?_) (.ite (hanswer _ _) ?_)
    · split
      · exact hanswer _ _
      · split
        · exact hnested _ _
        · exact hanswer _ _
    · split
      · exact hanswer _ _
      · exact .ite (hcreate _) (.ite (hread _) (hanswer _ _))

theorem serveOne_handleOk (id : Nat) (command : Command) : Preserves HandleOk (serveOne id command) := by
  have hanswer := complete_preserves handleOk_closed id
  have hfault := fault_preserves handleOk_closed id
  cases command with
  | fileOpen path flags => exact handleOpen_handleOk _ _ _
  | fileClose fd =>
    refine Preserves.get.bind fun s => .ite (hanswer _ _) fun s _ => hanswer _ _ _ fun f heq => ?_
    cases heq
  | fileWrite fd offset buf =>
    refine Preserves.get.bind fun s => ?_
    split
    · exact hanswer _ _
    · refine .ite (hanswer _ _) (.ite (hanswer _ _) (.ite (hanswer _ _) ?_))
      split
      · exact hanswer _ _
      · refine ((handleOk_closed.edit _ _).andThen ((updateSize_preserves handleOk_closed _ _ _).andThen
          handleOk_closed.flush)).bind fun _ =>
            .ite (fun s hs => hanswer _ _ _ fun f heq hroot => ?_) hfault
        obtain ⟨g, hg, rfl⟩ := Option.map_eq_some_iff.mp heq
        exact hs g hg hroot
  | fileRead fd offset buf => exact handleRead_preserves handleOk_closed _ _ _ _
  | stat path buf => exact handleStat_preserves handleOk_closed _ _ _
  | rename oldPath newPath => exact handleRename_preserves handleOk_closed _ _ _
  | fileRemove path =>
    have hremove : ∀ hit, Preserves HandleOk (removeHit id hit) := by
      intro hit
      refine ((Preserves.ite (setFat_preserves handleOk_closed _ _) (.pure _)).andThen
        ((handleOk_closed.edit _ _).andThen
        handleOk_closed.flush)).bind fun _ => .ite (fun s hs => hanswer _ _ _ ?_) hfault
      dsimp only
      split
      · intro f heq
        cases heq
      · exact hs
    refine Preserves.get.bind fun s => ?_
    split
    · exact hanswer _ _
    · refine (findName_preserves handleOk_closed _).bind fun r => ?_
      cases r with
      | missing => exact hanswer _ _
      | failed => exact hfault
      | hit hit =>
        refine .ite ((directoryEmpty_preserves handleOk_closed _).bind fun r => ?_) (hremove _)
        split
        · exact hremove _
        · exact hanswer _ _
        · exact hanswer _ _
        · exact hfault
  | dirCreate path => exact handleMkdir_preserves handleOk_closed _ _
  | dirOpen path => exact handleDirOpen_preserves handleOk_closed _ _
  | dirRead fd buf => exact handleDirRead_preserves handleOk_closed _ _ _
  | dirClose fd => exact handleDirClose_preserves handleOk_closed _ _
  | other => exact hanswer _ _

theorem Mounted.handleOk {s : Fs} {held : Option Nat} (h : Mounted s held) : HandleOk s := by
  induction h with
  | @start s s' invalid clean file dir run =>
    have hs : HandleOk s := by
      intro f heq
      rw [file] at heq
      cases heq
    have hkept := prepare_preserves handleOk_closed
      (fun s => handleOk_of_file (formatVolume_moved s).file) s hs
    rw [run] at hkept
    exact hkept
  | serve _ id command ih => exact serveOne_handleOk id command _ ih
  | client _ share taken ih => exact ih

end handleOk

/-- In working order if the device performs every transfer, as `p` says of it. -/
def WorkingIf (p : Nat → Bool) (s : Fs) : Prop := s.performs = p ∧ ((∀ k, p k = true) → Working s)

theorem workingIf_closed (p : Nat → Bool) : HandleClosed (WorkingIf p) where
  flush := fun s hs => ⟨(flushBlock_moved s).performs.trans hs.1, fun hp => flushBlock_keeps s (hs.2 hp)⟩
  load := fun n s hs => ⟨(loadBlock_moved n s).performs.trans hs.1, fun hp => loadBlock_keeps n s (hs.2 hp)⟩
  edit := fun lba edit s hs => ⟨(editSector_moved lba edit s).performs.trans hs.1,
    fun hp => editSector_keeps lba edit s (hs.2 hp)⟩
  above := fun s s' h hfile hs => ⟨h.performs.trans hs.1,
    fun hp => working_closed.above s s' h hfile (hs.2 hp)⟩
  handle := fun s s' h hs => ⟨h.performs.trans hs.1, fun hp => working_closed.handle s s' h (hs.2 hp)⟩

theorem Mounted.working {s : Fs} {held : Option Nat} (h : Mounted s held)
    (hperforms : ∀ k, s.performs k = true) :
    Working s := by
  have hall : WorkingIf s.performs s := by
    clear hperforms
    have hex : ∃ p, WorkingIf p s := by
      induction h with
      | @start s s' invalid clean file dir run =>
        refine ⟨s.performs, ?_⟩
        have hs : WorkingIf s.performs s := ⟨rfl, fun hp => ⟨hp, by simp [clean], by simp [invalid]⟩⟩
        have hformat : Preserves (WorkingIf s.performs) formatVolume := fun s₁ hs₁ =>
          ⟨(formatVolume_moved s₁).performs.trans hs₁.1, fun hp => formatVolume_keeps s₁ (hs₁.2 hp)⟩
        have hkept := prepare_preserves (workingIf_closed s.performs).cache hformat s hs
        rw [run] at hkept
        exact hkept
      | serve _ id command ih =>
        obtain ⟨p, hp⟩ := ih
        exact ⟨p, serveOne_preserves (workingIf_closed p) id command _ hp⟩
      | client _ share taken ih =>
        obtain ⟨p, hp⟩ := ih
        refine ⟨p, hp.1, fun hall => ?_⟩
        have hw := hp.2 hall
        exact ⟨hw.performs, hw.valid_of_dirty, hw.coherent⟩
    obtain ⟨p, hp⟩ := hex
    rw [hp.1]
    exact hp
  exact hall.2 hperforms

end Lerux.FatFs

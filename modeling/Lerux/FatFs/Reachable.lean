import Lerux.FatFs.Directory

/-!
# Reachable states

The states of the server from a formatted volume on, over a device that performs every transfer. Every
call of the server keeps the cache in working order (`Keeps`), so every reachable state has it.
-/

namespace Lerux.FatFs

/-- The call leaves a working device and cache as it found them. -/
def Keeps {α : Type} (x : M α) : Prop := ∀ s, Working s → Working (x s).2

section preserves

variable {α β : Type} {P : Fs → Prop}

/-- The call keeps what `P` says of the state. -/
def Preserves (P : Fs → Prop) (x : M α) : Prop := ∀ s, P s → P (x s).2

theorem Preserves.pure (a : α) : Preserves P (pure a : M α) := fun _ hs => hs

theorem Preserves.bind {x : M α} {f : α → M β} (hx : Preserves P x) (hf : ∀ a, Preserves P (f a)) :
    Preserves P (x >>= f) := fun s hs => hf _ _ (hx s hs)

theorem Preserves.map {x : M α} (f : α → β) (hx : Preserves P x) : Preserves P (f <$> x) :=
  fun s hs => hx s hs

theorem Preserves.get : Preserves P (get : M Fs) := fun _ hs => hs

theorem Preserves.ite {c : Prop} [Decidable c] {x y : M α} (hx : Preserves P x) (hy : Preserves P y) :
    Preserves P (if c then x else y) := by
  split
  · exact hx
  · exact hy

theorem Preserves.andThen {x y : M Bool} (hx : Preserves P x) (hy : Preserves P y) :
    Preserves P (andThen x y) :=
  hx.bind fun _ => hy.ite (.pure _)

/-- The device and the cache are as they were. -/
structure Beside (s s' : Fs) : Prop where
  device : s'.device = s.device
  performs : s'.performs = s.performs
  block : s'.block = s.block
  blockNo : s'.blockNo = s.blockNo
  blockValid : s'.blockValid = s.blockValid
  blockDirty : s'.blockDirty = s.blockDirty

/-- The cache keeps `P`, and so does a change of anything but the device, the cache and the file handle. -/
structure CacheClosed (P : Fs → Prop) : Prop where
  flush : Preserves P flushBlock
  load : ∀ n, Preserves P (loadBlock n)
  edit : ∀ lba edit, Preserves P (editSector lba edit)
  above : ∀ s s', Beside s s' → s'.file = s.file → P s → P s'

/-- A change of the file handle keeps `P` too. -/
structure HandleClosed (P : Fs → Prop) : Prop extends CacheClosed P where
  handle : ∀ s s', Beside s s' → P s → P s'

theorem HandleClosed.cache (hF : HandleClosed P) : CacheClosed P := hF.toCacheClosed

theorem CacheClosed.aside (hP : CacheClosed P) {f : Fs → Fs} (h : ∀ s, Beside s (f s))
    (hfile : ∀ s, (f s).file = s.file) :
    Preserves P (modify f : M PUnit) := fun s hs => hP.above s _ (h s) (hfile s) hs

theorem HandleClosed.beside (hF : HandleClosed P) {f : Fs → Fs} (h : ∀ s, Beside s (f s)) :
    Preserves P (modify f : M PUnit) := fun s hs => hF.handle s _ (h s) hs

section calls

variable (hP : CacheClosed P)
include hP

theorem complete_preserves (id : Nat) (status : Status) (data : Completion) :
    Preserves P (complete id status data) := by
  intro s hs
  rw [complete]
  split
  · exact hs
  · exact hP.above s _ ⟨rfl, rfl, rfl, rfl, rfl, rfl⟩ rfl hs

/-- A change above the cache, and then the answer. -/
theorem CacheClosed.answer {f : Fs → Fs} (h : ∀ s, Beside s (f s))
    (hfile : ∀ s, (f s).file = s.file) (id : Nat)
    (status : Status) (data : Completion) : Preserves P ((modify f : M PUnit) >>=
      fun _ => complete id status data) :=
  (hP.aside h hfile).bind fun _ => complete_preserves hP id status data

theorem fault_preserves (id : Nat) : Preserves P (fault id) :=
  (complete_preserves hP id _ _).bind fun _ => .pure _

theorem copyToShare_preserves (offset : Nat) (src : List UInt8) : Preserves P (copyToShare offset src) := by
  intro s hs
  rw [copyToShare]
  split
  · exact hs
  · exact hP.above s _ ⟨rfl, rfl, rfl, rfl, rfl, rfl⟩ rfl hs

theorem readEntry_preserves (index : Nat) : Preserves P (readEntry index) :=
  (hP.load _).bind fun _ => .ite (Preserves.get.bind fun _ => .pure _) (.pure _)

theorem readPlaced_preserves (cluster index : Nat) : Preserves P (readPlaced cluster index) := by
  rw [readPlaced]
  exact .ite (readEntry_preserves hP index)
    ((hP.load _).bind fun _ => .ite (Preserves.get.bind fun _ => .pure _) (.pure _))

omit hP in
theorem scanName_preserves {read : Nat → M (Option Bytes)} (hread : ∀ i, Preserves P (read i))
    (name : Name) (left index : Nat) :
    Preserves P (scanName read name left index) := by
  induction left generalizing index with
  | zero => exact .pure _
  | succ left ih =>
    refine (hread index).bind fun e => ?_
    cases e with
    | none => exact .pure _
    | some e => exact .ite (.pure _) (.ite (ih _) (.ite (.pure _) (ih _)))

omit hP in
theorem scanFree_preserves {read : Nat → M (Option Bytes)} (hread : ∀ i, Preserves P (read i))
    (left index : Nat) :
    Preserves P (scanFree read left index) := by
  induction left generalizing index with
  | zero => exact .pure _
  | succ left ih =>
    refine (hread index).bind fun e => ?_
    cases e with
    | none => exact .pure _
    | some e => exact .ite (.pure _) (ih _)

theorem findName_preserves (name : Name) : Preserves P (findName name) :=
  scanName_preserves (readEntry_preserves hP) _ _ _

theorem findFree_preserves : Preserves P findFree := scanFree_preserves (readEntry_preserves hP) _ _

theorem findInCluster_preserves (cluster : Nat) (name : Name) :
    Preserves P (findInCluster cluster name) := by
  rw [findInCluster]
  exact .ite (.pure _) (scanName_preserves (readPlaced_preserves hP cluster) _ _ _)

theorem findFreeInCluster_preserves (cluster : Nat) : Preserves P (findFreeInCluster cluster) := by
  rw [findFreeInCluster]
  exact .ite (.pure _) (scanFree_preserves (readPlaced_preserves hP cluster) _ _)

theorem allocCluster_preserves : Preserves P allocCluster := by
  have hscan : ∀ left cluster, Preserves P (scanCluster left cluster) := by
    intro left
    induction left with
    | zero => exact fun _ => .pure _
    | succ left ih =>
      intro cluster
      have hread : Preserves P (readFat cluster) :=
        (hP.load _).bind fun _ => .ite (Preserves.get.bind fun _ => .pure _) (.pure _)
      refine hread.bind fun r => ?_
      cases r with
      | hit value => exact .ite (.pure _) (ih _)
      | missing | failed => exact .pure _
  exact hscan _ _

theorem setFat_preserves (cluster value : Nat) : Preserves P (setFat cluster value) :=
  (hP.edit _ _).andThen (hP.edit _ _)

theorem writeInCluster_preserves (parent index : Nat) (name : Name) (cluster size : Nat) (attr : UInt8) :
    Preserves P (writeInCluster parent index name cluster size attr) := by
  rw [writeInCluster]
  exact .ite (.pure _) (hP.edit _ _)

theorem updateSize_preserves (parent index size : Nat) : Preserves P (updateSize parent index size) := by
  rw [updateSize]
  exact .ite (hP.edit _ _) (.ite (.pure _) (hP.edit _ _))

theorem directoryEmpty_preserves (cluster : Nat) : Preserves P (directoryEmpty cluster) := by
  have hscan : ∀ left index, Preserves P (scanEmpty cluster left index) := by
    intro left
    induction left with
    | zero => exact fun _ => .pure _
    | succ left ih =>
      intro index
      refine (readPlaced_preserves hP cluster index).bind fun e => ?_
      cases e with
      | none => exact .pure _
      | some e => exact .ite (.pure _) (.ite (ih _) (.pure _))
  rw [directoryEmpty]
  exact .ite (.pure _) (hscan _ _)

theorem reserveFile_preserves (id : Nat) (name : Name) : Preserves P (reserveFile id name) := by
  refine (findName_preserves hP _).bind fun r => ?_
  cases r with
  | hit hit => exact (complete_preserves hP _ _ _).map _
  | failed => exact (fault_preserves hP _).map _
  | missing =>
    refine (findFree_preserves hP).bind fun r => ?_
    cases r with
    | missing => exact (complete_preserves hP _ _ _).map _
    | failed => exact (fault_preserves hP _).map _
    | hit slot =>
      refine (allocCluster_preserves hP).bind fun r => ?_
      cases r with
      | hit cluster => exact .pure _
      | missing => exact (complete_preserves hP _ _ _).map _
      | failed => exact (fault_preserves hP _).map _

theorem handleMkdir_preserves (id : Nat) (path : Buffer) : Preserves P (handleMkdir id path) := by
  refine Preserves.get.bind fun s => ?_
  cases readPackedName s path with
  | none => exact complete_preserves hP _ _ _
  | some name =>
    refine (reserveFile_preserves hP _ _).bind fun r => ?_
    cases r with
    | error done => exact .pure _
    | ok pair =>
      exact ((setFat_preserves hP _ _).andThen ((hP.edit _ _).andThen
        ((hP.edit _ _).andThen hP.flush))).bind fun _ => .ite (complete_preserves hP _ _ _)
          (fault_preserves hP _)

theorem handleRead_preserves (id fd offset : Nat) (buf : Buffer) :
    Preserves P (handleRead id fd offset buf) := by
  have hstage : ∀ file bufOff copied, Preserves P (stageFileBytes id file bufOff copied) := by
    intro file bufOff copied
    rw [stageFileBytes]
    exact .ite ((complete_preserves hP _ _ _).map _) ((hP.load _).bind fun _ =>
      .ite ((hP.aside (fun _ => by exact ⟨rfl, rfl, rfl, rfl, rfl, rfl⟩) fun _ => by rfl).bind
        fun _ => .pure _) ((fault_preserves hP _).map _))
  refine Preserves.get.bind fun s => ?_
  split
  · exact complete_preserves hP _ _ _
  · refine .ite (complete_preserves hP _ _ _) (.ite (complete_preserves hP _ _ _) ?_)
    split
    · exact complete_preserves hP _ _ _
    · refine .ite (complete_preserves hP _ _ _) ((hstage _ _ _).bind fun r => ?_)
      split
      · exact .pure _
      · exact complete_preserves hP _ _ _

theorem answerStat_preserves (id : Nat) (buf : Buffer) (ino mode size : Nat) :
    Preserves P (answerStat id buf ino mode size) := by
  have hwrite : Preserves P (writeShare buf (statBytes ino mode size)) := by
    rw [writeShare]
    exact .ite (.pure _) (copyToShare_preserves hP _ _)
  exact hwrite.bind fun _ => .ite (complete_preserves hP _ _ _) (complete_preserves hP _ _ _)

theorem handleStat_preserves (id : Nat) (path buf : Buffer) : Preserves P (handleStat id path buf) := by
  refine Preserves.get.bind fun s => .ite (complete_preserves hP _ _ _)
    (.ite (answerStat_preserves hP _ _ _ _ _) ?_)
  split
  · exact complete_preserves hP _ _ _
  · refine (findName_preserves hP _).bind fun r => ?_
    cases r with
    | missing => exact complete_preserves hP _ _ _
    | failed => exact fault_preserves hP _
    | hit hit => exact answerStat_preserves hP _ _ _ _ _

theorem renameHit_preserves (id : Nat) (hit : DirHit) (name : Name) : Preserves P (renameHit id hit name) :=
  ((hP.edit _ _).andThen hP.flush).bind fun _ => .ite (complete_preserves hP _ _ _) (fault_preserves hP _)

theorem handleRename_preserves (id : Nat) (oldPath newPath : Buffer) :
    Preserves P (handleRename id oldPath newPath) := by
  refine Preserves.get.bind fun s => ?_
  split
  · refine (findName_preserves hP _).bind fun r => ?_
    cases r with
    | missing => exact complete_preserves hP _ _ _
    | failed => exact fault_preserves hP _
    | hit hit =>
      refine .ite (renameHit_preserves hP _ _ _) ((findName_preserves hP _).bind fun r => ?_)
      cases r with
      | hit _ => exact complete_preserves hP _ _ _
      | missing => exact renameHit_preserves hP _ _ _
      | failed => exact fault_preserves hP _
  · exact complete_preserves hP _ _ _

theorem handleDirOpen_preserves (id : Nat) (path : Buffer) : Preserves P (handleDirOpen id path) := by
  have hopen : ∀ opened, Preserves P (openDir id opened) := fun opened =>
    hP.answer (fun _ => by exact ⟨rfl, rfl, rfl, rfl, rfl, rfl⟩) (fun _ => by rfl) _ _ _
  refine Preserves.get.bind fun s => .ite (complete_preserves hP _ _ _) (.ite (hopen _) ?_)
  split
  · exact complete_preserves hP _ _ _
  · refine (findName_preserves hP _).bind fun r => ?_
    cases r with
    | missing => exact complete_preserves hP _ _ _
    | failed => exact fault_preserves hP _
    | hit hit => exact .ite (hopen _) (complete_preserves hP _ _ _)

theorem handleDirRead_preserves (id fd : Nat) (buf : Buffer) : Preserves P (handleDirRead id fd buf) := by
  have hset : ∀ index, Preserves P (setDirIndex index) :=
    fun index => hP.aside (fun _ => by exact ⟨rfl, rfl, rfl, rfl, rfl, rfl⟩) fun _ => by rfl
  have hloop : ∀ cluster left index, Preserves P (dirReadFrom id cluster buf left index) := by
    intro cluster left
    induction left with
    | zero => exact fun _ => complete_preserves hP _ _ _
    | succ left ih =>
      intro index
      refine (readPlaced_preserves hP cluster index).bind fun e => ?_
      cases e with
      | none => exact fault_preserves hP _
      | some e =>
        exact .ite ((hset _).bind fun _ => complete_preserves hP _ _ _)
          (.ite (ih _) (.ite (complete_preserves hP _ _ _)
          ((copyToShare_preserves hP _ _).bind fun _ =>
            .ite ((hset _).bind fun _ => complete_preserves hP _ _ _)
            (complete_preserves hP _ _ _))))
  refine Preserves.get.bind fun s => ?_
  split
  · exact complete_preserves hP _ _ _
  · exact .ite (complete_preserves hP _ _ _) (hloop _ _ _)

theorem handleDirClose_preserves (id fd : Nat) : Preserves P (handleDirClose id fd) :=
  Preserves.get.bind fun _ => .ite (complete_preserves hP _ _ _)
    (hP.answer (fun _ => by exact ⟨rfl, rfl, rfl, rfl, rfl, rfl⟩) (fun _ => by rfl) _ _ _)

theorem createDirectory_preserves (name : Name) : Preserves P (createDirectory name) := by
  refine (findFree_preserves hP).bind fun r => ?_
  cases r with
  | missing | failed => exact .pure _
  | hit slot =>
    refine (allocCluster_preserves hP).bind fun r => ?_
    cases r with
    | missing | failed => exact .pure _
    | hit cluster =>
      exact ((setFat_preserves hP _ _).andThen ((hP.edit _ _).andThen
        ((hP.edit _ _).andThen hP.flush))).bind fun _ => .ite (.pure _) (.pure _)

theorem writeSeedFile_preserves (parent : Nat) (name : Name) : Preserves P (writeSeedFile parent name) := by
  refine (findFreeInCluster_preserves hP parent).bind fun r => ?_
  cases r with
  | missing | failed => exact .pure _
  | hit slot =>
    refine (allocCluster_preserves hP).bind fun r => ?_
    cases r with
    | missing | failed => exact .pure _
    | hit cluster =>
      exact (setFat_preserves hP _ _).andThen ((hP.edit _ _).andThen
        ((writeInCluster_preserves hP _ _ _ _ _ _).andThen hP.flush))

theorem seedHostname_preserves : Preserves P seedHostname := by
  have hinto : ∀ dirCluster fileName, Preserves P (seedInto dirCluster fileName) := by
    intro dirCluster fileName
    refine (findInCluster_preserves hP _ _).bind fun r => ?_
    cases r with
    | hit _ => exact .pure _
    | missing => exact writeSeedFile_preserves hP _ _
    | failed => exact .pure _
  rw [seedHostname]
  split
  · refine (findName_preserves hP _).bind fun r => ?_
    cases r with
    | hit hit => exact .ite (.pure _) (hinto _ _)
    | missing =>
      refine (createDirectory_preserves hP _).bind fun r => ?_
      cases r with
      | some cluster => exact hinto _ _
      | none => exact .pure _
    | failed => exact .pure _
  · exact .pure _

end calls

section handles

variable (hF : HandleClosed P)
include hF

theorem HandleClosed.answer {f : Fs → Fs} (h : ∀ s, Beside s (f s)) (id : Nat) (status : Status)
    (data : Completion) :
    Preserves P ((modify f : M PUnit) >>= fun _ => complete id status data) :=
  (hF.beside h).bind fun _ => complete_preserves hF.cache id status data

theorem openHit_preserves (id parent : Nat) (hit : DirHit) : Preserves P (openHit id parent hit) :=
  .ite (complete_preserves hF.cache _ _ _)
    (hF.answer (fun _ => by exact ⟨rfl, rfl, rfl, rfl, rfl, rfl⟩) _ _ _)

theorem openNestedRead_preserves (id : Nat) (dirName fileName : Name) :
    Preserves P (openNestedRead id dirName fileName) := by
  refine Preserves.get.bind fun s => .ite (complete_preserves hF.cache _ _ _)
    ((findName_preserves hF.cache _).bind fun r => ?_)
  cases r with
  | missing => exact complete_preserves hF.cache _ _ _
  | failed => exact fault_preserves hF.cache _
  | hit parent =>
    refine .ite ((findInCluster_preserves hF.cache _ _).bind fun r => ?_)
      (complete_preserves hF.cache _ _ _)
    cases r with
    | hit hit => exact openHit_preserves hF _ _ _
    | missing => exact complete_preserves hF.cache _ _ _
    | failed => exact fault_preserves hF.cache _

theorem openRead_preserves (id : Nat) (name : Name) : Preserves P (openRead id name) := by
  refine Preserves.get.bind fun s => .ite (complete_preserves hF.cache _ _ _)
    ((findName_preserves hF.cache _).bind fun r => ?_)
  cases r with
  | hit hit => exact openHit_preserves hF _ _ _
  | missing => exact complete_preserves hF.cache _ _ _
  | failed => exact fault_preserves hF.cache _

theorem createFile_preserves (id : Nat) (name : Name) : Preserves P (createFile id name) := by
  refine Preserves.get.bind fun s => .ite (complete_preserves hF.cache _ _ _)
    ((reserveFile_preserves hF.cache _ _).bind fun r => ?_)
  cases r with
  | error done => exact .pure _
  | ok pair =>
    exact ((setFat_preserves hF.cache _ _).andThen
      ((hF.cache.edit _ _).andThen hF.cache.flush)).bind fun _ =>
      .ite (hF.answer (fun _ => by exact ⟨rfl, rfl, rfl, rfl, rfl, rfl⟩) _ _ _) (fault_preserves hF.cache _)

theorem handleOpen_preserves (id : Nat) (path : Buffer) (flags : Nat) :
    Preserves P (handleOpen id path flags) := by
  refine Preserves.get.bind fun s => .ite (complete_preserves hF.cache _ _ _) ?_
  split
  · exact complete_preserves hF.cache _ _ _
  · refine .ite (.ite (complete_preserves hF.cache _ _ _) ?_) (.ite (complete_preserves hF.cache _ _ _) ?_)
    · split
      · exact complete_preserves hF.cache _ _ _
      · split
        · exact openNestedRead_preserves hF _ _ _
        · exact complete_preserves hF.cache _ _ _
    · split
      · exact complete_preserves hF.cache _ _ _
      · exact .ite (createFile_preserves hF _ _)
          (.ite (openRead_preserves hF _ _) (complete_preserves hF.cache _ _ _))

theorem handleClose_preserves (id fd : Nat) : Preserves P (handleClose id fd) :=
  Preserves.get.bind fun _ => .ite (complete_preserves hF.cache _ _ _)
    (hF.answer (fun _ => by exact ⟨rfl, rfl, rfl, rfl, rfl, rfl⟩) _ _ _)

theorem handleWrite_preserves (id fd offset : Nat) (buf : Buffer) :
    Preserves P (handleWrite id fd offset buf) := by
  refine Preserves.get.bind fun s => ?_
  split
  · exact complete_preserves hF.cache _ _ _
  · refine .ite (complete_preserves hF.cache _ _ _)
      (.ite (complete_preserves hF.cache _ _ _) (.ite (complete_preserves hF.cache _ _ _) ?_))
    split
    · exact complete_preserves hF.cache _ _ _
    · exact ((hF.cache.edit _ _).andThen ((updateSize_preserves hF.cache _ _ _).andThen
        hF.cache.flush)).bind fun _ =>
        .ite (hF.answer (fun _ => by exact ⟨rfl, rfl, rfl, rfl, rfl, rfl⟩) _ _ _)
          (fault_preserves hF.cache _)

theorem handleRemove_preserves (id : Nat) (path : Buffer) : Preserves P (handleRemove id path) := by
  have hremove : ∀ hit, Preserves P (removeHit id hit) := by
    intro hit
    refine ((Preserves.ite (setFat_preserves hF.cache _ _) (.pure _)).andThen
      ((hF.cache.edit _ _).andThen hF.cache.flush)).bind
      fun _ => .ite ((hF.beside fun s => ?_).bind fun _ => complete_preserves hF.cache _ _ _)
        (fault_preserves hF.cache _)
    split
    · exact ⟨rfl, rfl, rfl, rfl, rfl, rfl⟩
    · exact ⟨rfl, rfl, rfl, rfl, rfl, rfl⟩
  refine Preserves.get.bind fun s => ?_
  split
  · exact complete_preserves hF.cache _ _ _
  · refine (findName_preserves hF.cache _).bind fun r => ?_
    cases r with
    | missing => exact complete_preserves hF.cache _ _ _
    | failed => exact fault_preserves hF.cache _
    | hit hit =>
      refine .ite ((directoryEmpty_preserves hF.cache _).bind fun r => ?_) (hremove _)
      split
      · exact hremove _
      · exact complete_preserves hF.cache _ _ _
      · exact complete_preserves hF.cache _ _ _
      · exact fault_preserves hF.cache _

theorem serveOne_preserves (id : Nat) (command : Command) : Preserves P (serveOne id command) := by
  cases command with
  | fileOpen path flags => exact handleOpen_preserves hF _ _ _
  | fileClose fd => exact handleClose_preserves hF _ _
  | fileWrite fd offset buf => exact handleWrite_preserves hF _ _ _ _
  | fileRead fd offset buf => exact handleRead_preserves hF.cache _ _ _ _
  | stat path buf => exact handleStat_preserves hF.cache _ _ _
  | rename oldPath newPath => exact handleRename_preserves hF.cache _ _ _
  | fileRemove path => exact handleRemove_preserves hF _ _
  | dirCreate path => exact handleMkdir_preserves hF.cache _ _
  | dirOpen path => exact handleDirOpen_preserves hF.cache _ _
  | dirRead fd buf => exact handleDirRead_preserves hF.cache _ _ _
  | dirClose fd => exact handleDirClose_preserves hF.cache _ _
  | other => exact complete_preserves hF.cache _ _ _

end handles

end preserves

section keeps

variable {α β : Type}

theorem Keeps.pure (a : α) : Keeps (pure a : M α) := fun _ hw => hw

theorem Keeps.bind {x : M α} {f : α → M β} (hx : Keeps x) (hf : ∀ a, Keeps (f a)) : Keeps (x >>= f) :=
  fun s hw => hf _ _ (hx s hw)

theorem Keeps.ite {c : Prop} [Decidable c] {x y : M α} (hx : Keeps x) (hy : Keeps y) :
    Keeps (if c then x else y) := by
  split
  · exact hx
  · exact hy

theorem Keeps.andThen {x y : M Bool} (hx : Keeps x) (hy : Keeps y) : Keeps (andThen x y) :=
  hx.bind fun _ => hy.ite (.pure _)

theorem Keeps.of_spec {x : M α} (h : ∀ s, Working s → ∃ a s', x s = (a, s') ∧ Working s') : Keeps x := by
  intro s hw
  obtain ⟨a, s', hx, hw'⟩ := h s hw
  rwa [hx]

theorem flushBlock_keeps : Keeps flushBlock := .of_spec fun s hw => by
  obtain ⟨s', h, hw', -⟩ := flushBlock_spec hw
  exact ⟨_, s', h, hw'⟩

theorem loadBlock_keeps (n : Nat) : Keeps (loadBlock n) := .of_spec fun s hw => by
  obtain ⟨s', h, hw', -⟩ := loadBlock_spec hw n
  exact ⟨_, s', h, hw'⟩

theorem editSector_keeps (lba : Nat) (edit : Bytes → Bytes) : Keeps (editSector lba edit) :=
  .of_spec fun s hw => by
  obtain ⟨s', h, hw', -⟩ := editSector_spec hw lba edit
  exact ⟨_, s', h, hw'⟩

theorem working_closed : HandleClosed Working where
  flush := flushBlock_keeps
  load := loadBlock_keeps
  edit := editSector_keeps
  above := fun s s' h _ hw => ⟨by rw [h.performs]; exact hw.performs,
    by rw [h.blockDirty, h.blockValid]; exact hw.valid_of_dirty,
    by rw [h.blockDirty, h.blockValid, h.block, h.blockNo, h.device]; exact hw.coherent⟩
  handle := fun s s' h hw => ⟨by rw [h.performs]; exact hw.performs,
    by rw [h.blockDirty, h.blockValid]; exact hw.valid_of_dirty,
    by rw [h.blockDirty, h.blockValid, h.block, h.blockNo, h.device]; exact hw.coherent⟩

theorem serveOne_keeps (id : Nat) (command : Command) : Keeps (serveOne id command) :=
  serveOne_preserves working_closed id command

theorem seedHostname_keeps : Keeps seedHostname := seedHostname_preserves working_closed.toCacheClosed

/-! ### Formatting -/

/-- A staged block is dirty, and stays in working order whatever is written into it. -/
def Staged (s : Fs) : Prop := Working s ∧ s.blockDirty = true

theorem stageZero_spec {s : Fs} (hw : Working s) (n : Nat) : ∃ s', stageZero n s = (true, s') ∧
    Staged s' := by
  obtain ⟨s₁, hflush, hw₁, -⟩ := flushBlock_spec hw
  refine ⟨{ s₁ with
    block := fun i => if i < transfer then 0 else s₁.block i, blockNo := n, blockValid :=
      true, blockDirty := true },
    ?_, ⟨hw₁.performs, by simp, by simp⟩, rfl⟩
  simp [stageZero, bind_of_eq hflush]

theorem editStaged_spec {s : Fs} (hs : Staged s) (edit : Bytes → Bytes) :
    ∃ s', editStaged edit s = (true, s') ∧ Staged s' := by
  refine ⟨{ s with block := edit s.block }, rfl, ⟨hs.1.performs, hs.1.valid_of_dirty, ?_⟩, hs.2⟩
  simp [hs.2]

theorem stageZeros_keeps (numbers : List Nat) : Keeps (stageZeros numbers) := by
  induction numbers with
  | nil => exact .pure _
  | cons n rest ih =>
    refine Keeps.andThen (.of_spec fun s hw => ?_) ih
    obtain ⟨s', h, hs'⟩ := stageZero_spec hw n
    exact ⟨_, s', h, hs'.1⟩

/-- Staging a block, editing it in place, and going on. -/
theorem staged_keeps (n : Nat) (edit : Bytes → Bytes) {rest : M Bool} (hrest : Keeps rest) :
    Keeps (FatFs.andThen (stageZero n) (FatFs.andThen (editStaged edit) rest)) := by
  intro s hw
  obtain ⟨s₁, h₁, hs₁⟩ := stageZero_spec hw n
  obtain ⟨s₂, h₂, hs₂⟩ := editStaged_spec hs₁ edit
  rw [andThen_of_true h₁, andThen_of_true h₂]
  exact hrest s₂ hs₂.1

theorem formatVolume_keeps : Keeps formatVolume :=
  staged_keeps _ _ ((stageZeros_keeps _).andThen
    (staged_keeps _ _ ((stageZeros_keeps _).andThen flushBlock_keeps)))

end keeps

/-- The states of a server that found an unformatted volume: `prepare` loads the first block and formats.
From there on it seeds the hostname file, serves commands, and its client writes the share and takes
completions. -/
inductive Reachable : Fs → Prop
  | format {s s' : Fs} (performs : ∀ k, s.performs k = true) (invalid : s.blockValid = false)
      (clean : s.blockDirty = false) (run : andThen (loadBlock 0) formatVolume s =
        (true, s')) : Reachable s'
  | seed {s : Fs} (h : Reachable s) : Reachable (seedHostname s).2
  | serve {s : Fs} (h : Reachable s) (id : Nat) (command : Command) : Reachable (serveOne id command s).2
  | client {s : Fs} (h : Reachable s) (share : Bytes) (taken : Nat) :
      Reachable { s with share, completions := s.completions.drop taken }

theorem Reachable.working {s : Fs} (h : Reachable s) : Working s := by
  induction h with
  | @format s s' performs invalid clean run =>
    have hw : Working s := ⟨performs, by simp [clean], by simp [invalid]⟩
    have := (loadBlock_keeps 0).andThen formatVolume_keeps s hw
    rwa [run] at this
  | seed _ ih => exact seedHostname_keeps _ ih
  | serve _ id command ih => exact serveOne_keeps id command _ ih
  | client _ share taken ih => exact ⟨ih.performs, ih.valid_of_dirty, ih.coherent⟩

end Lerux.FatFs

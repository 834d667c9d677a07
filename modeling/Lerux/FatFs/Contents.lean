import Lerux.FatFs.Names

/-!
# Contents of a file

A file written through its handle keeps its bytes and its size until it is written again or removed:
every other command leaves its entry (up to its name), its cluster and its sector alone. Whether it
can be opened again is a matter of its name: `rename` stores a name with a slash, and `FILE_OPEN`
takes a path with a slash for one of two components.
-/

namespace Lerux.FatFs

open SlotTable

/-- The command writes or removes the file of a root slot. -/
def Touches (slot : Nat) (s : Fs) : Command → Prop
  | .fileWrite fd offset buf => ∃ file, WriteAccepted s fd offset buf file ∧ file.dirIndex = slot
  | .fileRemove path => ∃ name hit, readPackedName s path = some name ∧
    (findName name s).1 = .hit hit ∧ hit.index = slot
  | _ => False

/-- The states after `s`, under commands that `may` lets through, with the client at work in between. -/
inductive Later (may : Fs → Command → Prop) (s : Fs) : Fs → Prop
  | here : Later may s s
  | serve {s' : Fs} (h : Later may s s') (id : Nat) (command : Command) (hm : may s' command) :
      Later may s (serveOne id command s').2
  | client {s' : Fs} (h : Later may s s') (share : Bytes) (taken : Nat) :
      Later may s { s' with share, completions := s'.completions.drop taken }

/-- The root file in `slot` holds these bytes. -/
def Stored (v : Volume) (slot : Nat) (bytes : List UInt8) : Prop :=
  ∃ name m, v.root slot = .live name m ∧ m.attr = attrArchive ∧ m.size = bytes.length ∧
    slice (v.data m.cluster) 0 bytes.length = bytes

section stored

variable {v v' : Volume} {slot : Nat} {bytes : List UInt8}

/-- The entry and the sector are as they were, whatever the name. -/
theorem Stored.of_same (h : Stored v slot bytes)
    (hroot : ∀ name m, v.root slot = .live name m → ∃ name', v'.root slot = .live name' m)
    (hdata : ∀ name m, v.root slot = .live name m →
      v'.data m.cluster = v.data m.cluster) : Stored v' slot bytes := by
  obtain ⟨name, m, hat, hattr, hsize, hbytes⟩ := h
  obtain ⟨name', hat'⟩ := hroot name m hat
  exact ⟨name', m, hat', hattr, hsize, by rw [hdata name m hat, hbytes]⟩

theorem stored_step {s : Fs} {command : Command} {file : Option OpenFile} {dir : Option OpenDir}
    (hw : Working s)
    (hn : Named s command) (hfree : ¬Touches slot s command) (ht : Tidy (volume s))
      (hf : FileOk (volume s) s.file)
    (h : Stored (volume s) slot bytes) (he : Effect s command v file dir) : Stored v slot bytes := by
  cases he with
  | nothing | openRoot | openNested | close | dirOpenRoot | dirOpen | dirMove | dirClose => exact h
  | create target hlen hslash closed absent free alloc =>
    refine h.of_same (fun name m hat => ⟨name, ?_⟩) fun _ _ _ => rfl
    exact live_update_of_live (firstFree_eq_some free).2.2.1 hat
  | mkdir target hlen absent free alloc =>
    refine h.of_same (fun name m hat => ⟨name, ?_⟩) fun name m hat => ?_
    · exact live_update_of_live (firstFree_eq_some free).2.2.1 hat
    · -- the new cluster is nobody's
      apply Function.update_of_ne
      intro heq
      have htaken := ht.taken slot name m hat
      rw [heq, firstCluster_zero alloc] at htaken
      cases htaken
  | @write fd offset buf opened data handle inRoot hfd hoff hsize hbytes =>
    have hne : opened.dirIndex ≠ slot := by
      intro heq
      refine hfree ⟨opened, ⟨handle, inRoot, hfd, hoff, hsize.1, hsize.2, ?_⟩, heq⟩
      unfold copyShare at hbytes
      split at hbytes
      · cases hbytes
      · omega
    refine h.of_same (fun name m hat => ⟨name, ?_⟩) fun name m hat => ?_
    · rw [Volume.setRoot_root, Function.update_of_ne hne.symm]
      exact hat
    · apply Function.update_of_ne
      intro heq
      rcases hf opened handle with ⟨-, n, k, hk, -, hc⟩ | ⟨hp, -⟩
      · exact hne (ht.apart opened.dirIndex slot n name k m hk hat (hc.trans heq.symm))
      · rw [inRoot] at hp
        cases hp
  | @rename oldPath newPath at_ old new k source target hlen found absent =>
    obtain ⟨-, -, hold, -⟩ := (lookup_eq_some).mp found
    rw [slotFor_of_nameable (hn _ target)]
    refine h.of_same (fun name m hat => ?_) fun _ _ _ => rfl
    by_cases heq : slot = at_
    · subst heq
      rw [hold] at hat
      cases hat
      exact ⟨new, Function.update_self _ _ _⟩
    · refine ⟨name, ?_⟩
      rw [Volume.setRoot_root, Function.update_of_ne heq]
      exact hat
  | @remove path at_ name k hname found empty =>
    have hne : at_ ≠ slot := by
      intro heq
      exact hfree ⟨name, ⟨at_, k.cluster, k.size, k.attr⟩, hname, (findName_eq_hit hw).mpr found, heq⟩
    obtain ⟨-, -, hold, -⟩ := (lookup_eq_some).mp found
    rw [if_pos (ht.range _ _ _ hold).1]
    refine h.of_same (fun n m hat => ⟨n, ?_⟩) fun _ _ _ => rfl
    rw [Volume.setRoot_root, Function.update_of_ne hne.symm]
    exact hat

end stored

/-- The bytes fill the sector from its start. -/
theorem slice_written {bytes : List UInt8} (hle : bytes.length ≤ sectorBytes) (b : Bytes) :
    slice (window (copyAt 0 bytes b) 0 sectorBytes) 0 bytes.length = bytes := by
  have hwindow : slice (window (copyAt 0 bytes b) 0 sectorBytes) 0 bytes.length =
    slice (copyAt 0 bytes b) 0 bytes.length := by
    apply slice_congr
    intro i hi
    rw [window, if_pos (by omega), Nat.zero_add, Nat.zero_add]
  rw [hwindow, slice_copyAt_self]

/-- What the write leaves in the file. -/
theorem stored_of_write {s : Fs} (hw : Working s) (ht : Tidy (volume s)) (hf : FileOk (volume s) s.file)
    {f : OpenFile} (hopen : s.file = some f) (hroot : f.parent = 0) {buf : Buffer} {bytes : List UInt8}
    (hbuf : Holds s.share buf bytes) (hpos : 0 < bytes.length) (hle : bytes.length ≤ sectorBytes)
      (id : Nat) :
    Stored (volume (serveOne id (.fileWrite fdFile 0 buf) s).2) f.dirIndex bytes := by
  obtain ⟨hindex, hc⟩ := (inRange_of_tidy ht hf).file f hopen hroot
  rw [← hbuf.size] at hpos hle
  obtain ⟨s', hrun, -, hb⟩ := handleWrite_writes hw hopen hroot hindex hc hpos hle hbuf.copyShare
  have hvolume : volume (serveOne id (.fileWrite fdFile 0 buf) s).2 =
    written (volume s) f buf.size bytes := by
    have hstill := complete_still { s' with file := some { f with size := buf.size } } id .success
      (.write buf.size)
    rw [serveOne, hrun, hstill.volume]
    exact hb.volume
  rw [hvolume]
  rcases hf f hopen with ⟨-, name, m, hat, hattr, hcluster⟩ | ⟨hp, -⟩
  swap
  · rw [hroot] at hp
    cases hp
  refine ⟨name, { m with size := buf.size }, ?_, hattr, hbuf.size, ?_⟩
  · rw [written, Volume.setRoot_root, Function.update_self, hat]
    rfl
  · rw [hbuf.size] at hle
    change slice (Function.update (volume s).data f.cluster _ m.cluster) 0 bytes.length = bytes
    rw [hcluster, Function.update_self]
    exact slice_written hle _

/-! ### Whole runs -/

theorem Served.indexed {s : Fs} (h : Served Named s) : Indexed (volume s) := by
  have hall : (Tidy (volume s) ∧ FileOk (volume s) s.file) ∧ Indexed (volume s) := by
    refine Served.invariant (I := fun v file _ => (Tidy v ∧ FileOk v file) ∧ Indexed v) ?_ ?_ ?_ h
    · intro s hs
      exact ⟨⟨tidy_of_seeded hs, fun f heq => by cases heq⟩, indexed_of_seeded hs⟩
    · intro s hs
      exact inRange_of_tidy hs.1.1 hs.1.2
    · intro s command v file dir _ hm hs he
      exact ⟨tidy_step hm hs.1.1 hs.1.2 he, indexed_step hm.noHole hs.2 he⟩
  exact hall.2

theorem Later.stored {s s' : Fs} {slot : Nat} {bytes : List UInt8}
    (h : Later (fun s command => Named s command ∧ ¬Touches slot s command) s s') (hs : Served Named s)
    (hstored : Stored (volume s) slot bytes) : Served Named s' ∧ Stored (volume s') slot bytes := by
  induction h with
  | here => exact ⟨hs, hstored⟩
  | serve _ id command hm ih =>
    obtain ⟨hserved, hst⟩ := ih
    obtain ⟨ht, hf⟩ := hserved.tidy fun _ _ h => h
    have he := serveOne_effect hserved.working (inRange_of_tidy ht hf) id command
    exact ⟨.serve hserved id command hm.1, stored_step hserved.working hm.1 hm.2 ht hf hst he⟩
  | client _ share taken ih => exact ⟨.client ih.1 share taken, ih.2⟩

/-- `STAT` of any path for the name reports this size. -/
def Reports (s : Fs) (name : Name) (size : Nat) : Prop :=
  ∀ share id path buf raw, packName raw = some name → Holds share path raw → statSize ≤ buf.size →
    buf.offset + buf.size ≤ fsRegionSize →
    (request share id (.stat path buf) s).completions = [⟨id, .success, .empty⟩] ∧
    slice (request share id (.stat path buf) s).share (buf.offset + 56) 8 = le64 size

/-- Any path for the name opens the entry, a read of the whole file then answers these bytes, and
`STAT` reports their number, before and after. -/
structure ReadsBack (s : Fs) (slot : Nat) (name : Name) (bytes : List UInt8) : Prop where
  reports : Reports s name bytes.length
  reads : ∀ share id path raw, packName raw = some name → Holds share path raw →
    (request share id (.fileOpen path openFlagsReadOnly) s).completions = [⟨id, .success, .fd fdFile⟩] ∧
    (request share id (.fileOpen path openFlagsReadOnly) s).file.any (OnRoot slot) ∧
    ∀ share' id' buf, bytes.length ≤ buf.size → buf.offset + buf.size ≤ fsRegionSize →
      (request share' id' (.fileRead fdFile 0 buf)
        (request share id (.fileOpen path openFlagsReadOnly) s)).completions =
        [⟨id', .success, .read bytes.length⟩] ∧
      slice (request share' id' (.fileRead fdFile 0 buf)
        (request share id (.fileOpen path openFlagsReadOnly) s)).share
        buf.offset bytes.length = bytes ∧
      Reports (request share' id' (.fileRead fdFile 0 buf)
        (request share id (.fileOpen path openFlagsReadOnly) s)) name
        bytes.length

section readsBack

variable {s : Fs} {slot : Nat} {name : Name} {m : Meta} {bytes : List UInt8}

theorem working_request (hw : Working s) (share : Bytes) : Working { s with share, completions := [] } :=
  ⟨hw.performs, hw.valid_of_dirty, hw.coherent⟩

theorem reports_of_found (hw : Working s) (hfound : lookup (volume s).root name rootEntries 0 =
    some (slot, m))
    (hslash : slash ∉ name) : Reports s name m.size := by
  intro share id path buf raw hname hpath hbuf hin
  have hroot : raw ≠ [slash] := by
    rintro rfl
    exact hslash ((slash_mem_packName hname).mpr List.mem_cons_self)
  have hstat : ∃ s' mode, handleStat id path buf { s with share, completions := [] } = (true, s') ∧
      s'.completions = [⟨id, .success, .empty⟩] ∧
      s'.share = copyAt buf.offset (statBytes (slot + 2) mode m.size) share :=
    handleStat_answers (working_request hw share) rfl hpath hroot hname hfound hbuf hin
  obtain ⟨s', mode, hrun, hdone, hshare⟩ := hstat
  have hrun : request share id (.stat path buf) s = s' := congrArg Prod.snd hrun
  have hlen : 56 + 8 ≤ (statBytes (slot + 2) mode m.size).length := by
    rw [statBytes_length]
    decide
  rw [hrun, hshare, slice_copyAt hlen]
  exact ⟨hdone, rfl⟩

theorem readsBack_of_stored (hw : Working s) (hclosed : s.file = none) (hi : Indexed (volume s))
    (hat : (volume s).root slot = .live name m) (hattr : m.attr = attrArchive) (hc : 2 ≤ m.cluster)
    (hsize : m.size = bytes.length) (hbytes : slice ((volume s).data m.cluster) 0 bytes.length = bytes)
    (hpos : 0 < bytes.length) (hle : bytes.length ≤ sectorBytes)
      (hslash : slash ∉ name) : ReadsBack s slot name bytes := by
  have hfound := hi.found hat
  have hplain : m.attr &&& attrDir = 0 := by
    rw [hattr]
    decide
  refine ⟨by rw [← hsize]; exact reports_of_found hw hfound hslash, fun share id path raw hname hpath => ?_⟩
  have hraw : slash ∉ raw := fun hin => hslash ((slash_mem_packName hname).mpr hin)
  have hopen : ∃ s', handleOpen id path openFlagsReadOnly { s with share, completions := [] } =
    (true, s') ∧ Working s' ∧
      volume s' = volume s ∧ s'.file = some ⟨m.cluster, m.size, slot, 0⟩ ∧
      s'.completions = [⟨id, .success, .fd fdFile⟩] :=
    handleOpen_answers (working_request hw share) rfl hclosed hpath hraw hname hfound hplain hc
  obtain ⟨s₁, hrun₁, hw₁, hvolume₁, hfile₁, hdone₁⟩ := hopen
  have hrun₁ : request share id (.fileOpen path openFlagsReadOnly) s = s₁ := congrArg Prod.snd hrun₁
  rw [hrun₁]
  refine ⟨hdone₁, by rw [hfile₁]; exact decide_eq_true ⟨rfl, rfl⟩, fun share' id' buf hbuf hin => ?_⟩
  have hread : ∃ s', handleRead id' fdFile 0 buf { s₁ with share := share', completions := [] } =
    (true, s') ∧ Working s' ∧
      volume s' = volume s₁ ∧ s'.completions = [⟨id', .success, .read m.size⟩] ∧
      s'.share = copyAt buf.offset (slice ((volume s₁).data m.cluster) 0 m.size) share' :=
    handleRead_answers (working_request hw₁ share') rfl hfile₁ hc (by rw [hsize]; exact hpos)
      (by rw [hsize]; exact hle) hin
      (by rw [hsize]; exact hbuf)
  obtain ⟨s₂, hrun₂, hw₂, hvolume₂, hdone₂, hshare₂⟩ := hread
  have hrun₂ : request share' id' (.fileRead fdFile 0 buf) s₁ = s₂ := congrArg Prod.snd hrun₂
  rw [hvolume₁, hsize, hbytes] at hshare₂
  rw [hsize] at hdone₂
  rw [hrun₂, hshare₂, slice_copyAt_self]
  refine ⟨hdone₂, rfl, ?_⟩
  rw [← hsize]
  rw [← hvolume₁, ← hvolume₂] at hfound
  exact reports_of_found hw₂ hfound hslash

/-- A path with a slash opens no entry of the root for reading. -/
theorem Effect.not_onRoot {path : Buffer} {raw : List UInt8} {v : Volume} {file : Option OpenFile}
    {dir : Option OpenDir}
    (he : Effect s (.fileOpen path openFlagsReadOnly) v file dir) (hclosed : s.file = none)
    (hpath : openPath s path = some raw) (hslash : slash ∈ raw) : ¬file.any (OnRoot slot) := by
  cases he with
  | nothing =>
    rw [hclosed]
    exact Bool.false_ne_true
  | openRoot hraw hnot hname closed found plain hc =>
    rw [hpath] at hraw
    cases hraw
    exact absurd hslash hnot
  | openNested closed parent isDir hp found plain hc =>
    intro hon
    have hparent := (of_decide_eq_true hon).1
    dsimp only at hparent
    omega
  | create target hlen hnot closed absent free alloc => cases target

/-- A name with a slash in it is one that the file cannot be opened under. -/
theorem not_readsBack_of_slash (hw : Working s) (hin : InRange s) (hclosed : s.file = none)
    (hi : Indexed (volume s))
    (hat : (volume s).root slot = .live name m) (hslash : slash ∈ name) : ¬ReadsBack s slot name bytes := by
  intro hback
  obtain ⟨raw, hraw⟩ := hi.packed slot name m hat
  have hlen := (packName_some_length hraw).2
  have hpath : Holds (copyAt 0 raw fun _ => 0) ⟨0, raw.length⟩ raw := by
    refine ⟨?_, slice_copyAt_self _⟩
    simp only [fsRegionSize]
    omega
  obtain ⟨-, hon, -⟩ := hback.reads _ 0 _ raw hraw hpath
  have hin' : InRange { s with share := copyAt 0 raw fun _ => 0, completions := [] } := ⟨hin.root, hin.file⟩
  have he := serveOne_effect (working_request hw (copyAt 0 raw fun _ => 0)) hin' 0
    (.fileOpen ⟨0, raw.length⟩ openFlagsReadOnly)
  exact he.not_onRoot hclosed hpath.openPath ((slash_mem_packName hraw).mp hslash) hon

end readsBack

/-- A root file written with these bytes, then any commands that do not write or remove it: under
its current name it is read back, whole and of that size, exactly when the name has no slash. -/
theorem contents_kept_iff {s s' : Fs} {f : OpenFile} {buf : Buffer} {bytes : List UInt8} {id : Nat}
    (hs : Served Named s)
    (hopen : s.file = some f) (hroot : f.parent = 0) (hbuf : Holds s.share buf bytes)
      (hpos : 0 < bytes.length)
    (hle : bytes.length ≤ sectorBytes)
    (hlater : Later (fun s command => Named s command ∧ ¬Touches f.dirIndex s command)
      (serveOne id (.fileWrite fdFile 0 buf) s).2 s')
    (hclosed : s'.file = none) :
    ∃ name m, rootTable s' f.dirIndex = .live name m ∧
      (ReadsBack s' f.dirIndex name bytes ↔ slash ∉ name) := by
  obtain ⟨ht, hf⟩ := hs.tidy fun _ _ h => h
  have hwritten : Served Named (serveOne id (.fileWrite fdFile 0 buf) s).2 := by
    refine .serve hs id _ fun name hname => ?_
    cases hname
  obtain ⟨hserved, name, m, hat, hattr, hsize, hbytes⟩ :=
    hlater.stored hwritten (stored_of_write hs.working ht hf hopen hroot hbuf hpos hle id)
  obtain ⟨ht', hf'⟩ := hserved.tidy fun _ _ h => h
  have hi := hserved.indexed
  refine ⟨name, m, hat, fun hback hslash => ?_, fun hslash => ?_⟩
  · exact not_readsBack_of_slash hserved.working (inRange_of_tidy ht' hf') hclosed hi hat hslash hback
  · exact readsBack_of_stored hserved.working hclosed hi hat hattr
      (ht'.range _ _ _ hat).1 hsize hbytes hpos hle hslash

/-! ### A file written and renamed -/

/-- The names `f` and `a/b`, and the byte that is written. -/
def renameShare : Bytes := copyAt 0 [0x66, 0x61, 0x2F, 0x62] fun _ => 0

/-- The file `f` made. -/
def fileMade : Fs := (serveOne 1 (.fileOpen ⟨0, 1⟩ 5)
  { seeded with share := renameShare, completions := seeded.completions.drop 0 }).2

theorem fileMade_served : Served Named fileMade := by
  have htarget : Command.target { seeded with share := renameShare, completions := seeded.completions.drop 0 }
      (.fileOpen ⟨0, 1⟩ 5) = some (0x46 :: List.replicate 10 space) := by decide +kernel
  refine .serve (.client (seeded_served _) renameShare 0) 1 _ fun name hname => ?_
  rw [htarget] at hname
  cases hname
  decide

/-- The file with its first byte written, and closed. -/
def fileWritten : Fs := (serveOne 2 (.fileWrite fdFile 0 ⟨0, 1⟩) fileMade).2
def fileClosed : Fs := (serveOne 3 (.fileClose fdFile) fileWritten).2

theorem fileClosed_later : Later (fun s command => Named s command ∧
    ¬Touches 1 s command) fileWritten fileClosed := by
  refine .serve .here 3 _ ⟨fun name hname => ?_, fun htouch => htouch⟩
  cases hname

theorem contents_kept_closed : ∃ name m, rootTable fileClosed 1 = .live name m ∧
    (ReadsBack fileClosed 1 name [0x66] ↔ slash ∉ name) := by
  have hopen : fileMade.file = some ⟨4, 0, 1, 0⟩ := by decide +kernel
  have hbuf : Holds fileMade.share ⟨0, 1⟩ [0x66] := ⟨by decide, by decide +kernel⟩
  have hclosed : fileClosed.file = none := by decide +kernel
  have hlater : Later (fun s command => Named s command ∧
    ¬Touches (OpenFile.dirIndex ⟨4, 0, 1, 0⟩) s command)
      (serveOne 2 (.fileWrite fdFile 0 ⟨0, 1⟩) fileMade).2 fileClosed := fileClosed_later
  have hkept := contents_kept_iff fileMade_served hopen rfl hbuf (by decide) (by decide) hlater hclosed
  exact hkept

/-- The file renamed to `a/b`. -/
def fileRenamed : Fs := (serveOne 4 (.rename ⟨0, 1⟩ ⟨1, 3⟩) fileClosed).2

theorem volume_root (s : Fs) : (volume s).root = rootTable s := rfl

/-- The packed name of `a/b`. -/
def slashName : Name := [0x41, 0x2F, 0x42, 0x20, 0x20, 0x20, 0x20, 0x20, 0x20, 0x20, 0x20]

/-- It is there under that name, and cannot be read back. -/
theorem fileRenamed_not_readsBack : Served Named fileMade ∧ fileMade.file = some ⟨4, 0, 1, 0⟩ ∧
    Holds fileMade.share ⟨0, 1⟩ [0x66] ∧
    Later (fun s command => Named s command ∧ ¬Touches 1 s command) fileWritten fileRenamed ∧
      fileRenamed.file = none ∧
    rootTable fileRenamed 1 = .live slashName ⟨4, 1, attrArchive⟩ ∧
      ¬ReadsBack fileRenamed 1 slashName [0x66] := by
  have htarget : readPackedName fileClosed ⟨1, 3⟩ = some slashName := by decide +kernel
  have hnamed : Named fileClosed (.rename ⟨0, 1⟩ ⟨1, 3⟩) := by
    intro name hname
    rw [Command.target, htarget] at hname
    cases hname
    decide
  have hwritten : Served Named fileWritten := by
    refine .serve fileMade_served 2 (.fileWrite fdFile 0 ⟨0, 1⟩) fun name hname => ?_
    cases hname
  have hclosed : Served Named fileClosed := by
    refine .serve hwritten 3 (.fileClose fdFile) fun name hname => ?_
    cases hname
  have hserved : Served Named fileRenamed := .serve hclosed 4 (.rename ⟨0, 1⟩ ⟨1, 3⟩) hnamed
  have hlater : Later (fun s command => Named s command ∧ ¬Touches 1 s command) fileWritten fileRenamed :=
    .serve fileClosed_later 4 (.rename ⟨0, 1⟩ ⟨1, 3⟩) ⟨hnamed, fun h => h⟩
  have hopen : fileMade.file = some ⟨4, 0, 1, 0⟩ := by decide +kernel
  have hbuf : Holds fileMade.share ⟨0, 1⟩ [0x66] := ⟨by decide, by decide +kernel⟩
  have hroot : rootTable fileRenamed 1 = .live slashName ⟨4, 1, attrArchive⟩ := by decide +kernel
  have hat : (volume fileRenamed).root 1 = .live slashName ⟨4, 1, attrArchive⟩ := by
    rw [volume_root]
    exact hroot
  have hnone : fileRenamed.file = none := by decide +kernel
  obtain ⟨ht, hf⟩ := hserved.tidy fun _ _ h => h
  have hback : ¬ReadsBack fileRenamed 1 slashName [0x66] :=
    not_readsBack_of_slash hserved.working (inRange_of_tidy ht hf) hnone hserved.indexed hat (by decide)
  exact ⟨fileMade_served, hopen, hbuf, hlater, hnone, hroot, hback⟩

end Lerux.FatFs

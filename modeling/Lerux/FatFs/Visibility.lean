import Lerux.FatFs.Reachable

/-!
# Directory visibility

A command that creates or renames a root entry answers success after writing one slot of the root table.
The slot is live under the packed name exactly when the name's first byte is neither of the two bytes the
scans give a meaning of their own; `pack_name` lets both through. So the new entry is found, and every
other one stays found, exactly for the names with another first byte.
-/

namespace Lerux.FatFs

open SlotTable

theorem padded_length {width : Nat} {bytes : List UInt8} (h : bytes.length ≤ width) :
    (padded width bytes).length = width := by
  simp only [padded, List.length_append, List.length_map, List.length_replicate]
  omega

/-- The two parts a raw name is packed from: what is before the first dot and what is after it. -/
inductive Parts : List UInt8 → List UInt8 → List UInt8 → Prop
  | plain (base : List UInt8) : Parts base base []
  | dotted (base ext : List UInt8) : Parts (base ++ dot :: ext) base ext

theorem packName_eq_some {raw : List UInt8} {name : Name} :
    packName raw = some name ↔ ∃ base ext, Parts raw base ext ∧ dot ∉ base ∧ base ≠ [] ∧ base.length ≤ 8 ∧
      ext.length ≤ 3 ∧ raw.length ≤ 11 ∧ name = padded 8 base ++ padded 3 ext := by
  constructor
  · intro h
    unfold packName at h
    split at h
    · cases h
    next hraw =>
    rw [not_or, Nat.not_lt] at hraw
    split at h
    · next hdot =>
      split at h
      · cases h
      · next hlen =>
        cases h
        rw [List.findIdx?_eq_none_iff] at hdot
        exact ⟨raw, [], .plain raw, fun hin =>
          by simpa using hdot _ hin, hraw.1, by omega, by simp, hraw.2, rfl⟩
    · next at_ hdot =>
      dsimp only at h
      split at h
      · cases h
      · next hlen =>
        cases h
        simp only [not_or, Nat.not_lt] at hlen
        obtain ⟨hlt, hat, hbefore⟩ := List.findIdx?_eq_some_iff_getElem.mp hdot
        have hsplit : raw = raw.take at_ ++ dot :: raw.drop (at_ + 1) := by
          have hd : raw[at_] = dot := by simpa using hat
          rw [← hd, ← List.drop_eq_getElem_cons hlt, List.take_append_drop]
        refine ⟨raw.take at_, raw.drop (at_ + 1), ?_, ?_, hlen.1, hlen.2.1, hlen.2.2, hraw.2, rfl⟩
        · conv => arg 1; rw [hsplit]
          exact .dotted _ _
        · intro hin
          obtain ⟨i, hi, heq⟩ := List.getElem_of_mem hin
          rw [List.length_take] at hi
          rw [List.getElem_take] at heq
          have := hbefore i (by omega)
          simp [heq] at this
  · rintro ⟨base, ext, hparts, hdot, hne, hbase, hext, hlen, rfl⟩
    have hnone : base.findIdx? (· == dot) = none := by
      rw [List.findIdx?_eq_none_iff]
      intro x hx
      have : x ≠ dot := fun heq => hdot (heq ▸ hx)
      simpa using this
    cases hparts with
    | plain =>
      rw [packName, if_neg (by simp [hne]; omega), hnone]
      dsimp only
      rw [if_neg (by omega)]
    | dotted =>
      have hsome : (base ++ dot :: ext).findIdx? (· == dot) = some base.length := by
        rw [List.findIdx?_append, hnone, List.findIdx?_cons, beq_self_eq_true, if_pos rfl]
        simp
      rw [packName, if_neg (by simp at hlen ⊢; omega), hsome]
      dsimp only
      rw [List.take_left, if_neg]
      · simp
      · simp [hne]
        omega

theorem upper_eq {b c : UInt8} (hc : c < 0x41) : upper b = c ↔ b = c := by
  unfold upper
  split
  · next h =>
    rw [UInt8.le_iff_toNat_le, UInt8.le_iff_toNat_le] at h
    rw [UInt8.lt_iff_toNat_lt] at hc
    have h1 : UInt8.toNat 0x61 = 97 := rfl
    have h2 : UInt8.toNat 0x7A = 122 := rfl
    have h3 : UInt8.toNat 0x41 = 65 := rfl
    have h4 : UInt8.toNat 0x20 = 32 := rfl
    constructor
    · intro heq
      rw [← heq, UInt8.toNat_sub_of_le _ _ (by rw [UInt8.le_iff_toNat_le]; omega)] at hc
      omega
    · rintro rfl
      omega
  · rfl

theorem mem_padded {width : Nat} {bytes : List UInt8} {c : UInt8} (hc : c < 0x41) (hs : c ≠ space) :
    c ∈ padded width bytes ↔ c ∈ bytes := by
  unfold padded
  rw [List.mem_append, List.mem_map, List.mem_replicate]
  constructor
  · rintro (⟨b, hb, heq⟩ | ⟨-, heq⟩)
    · rwa [← (upper_eq hc).mp heq]
    · exact absurd heq hs
  · intro h
    exact Or.inl ⟨c, h, (upper_eq hc).mpr rfl⟩

/-- Packing keeps the slashes of a name. -/
theorem slash_mem_packName {raw : List UInt8} {name : Name} (h : packName raw = some name) :
    slash ∈ name ↔ slash ∈ raw := by
  obtain ⟨base, ext, hparts, -, -, -, -, -, rfl⟩ := (packName_eq_some).mp h
  rw [List.mem_append, mem_padded (by decide) (by decide), mem_padded (by decide) (by decide)]
  cases hparts with
  | plain => simp
  | dotted =>
    have : slash ≠ dot := by decide
    simp [this]

theorem packName_length {raw : List UInt8} {name : Name} (h : packName raw = some name) :
    name.length = 11 := by
  obtain ⟨base, ext, -, -, -, hbase, hext, -, rfl⟩ := (packName_eq_some).mp h
  rw [List.length_append, padded_length hbase, padded_length hext]

theorem readPackedName_length {s : Fs} {path : Buffer} {name : Name}
    (h : readPackedName s path = some name) :
    name.length = 11 := by
  rw [readPackedName] at h
  split at h
  · cases h
  · split at h
    · cases h
    · exact packName_length h

/-! ### Answers -/

/-- The command got one completion, a successful one. -/
def Succeeds (s s' : Fs) : Prop := ∃ c, c.status = Status.success ∧ s'.completions = s.completions ++ [c]

theorem complete_succeeds {s : Fs} {id : Nat} {status : Status} {data : Completion}
    (h : Succeeds s (complete id status data s).2) :
    status = .success ∧ (complete id status data s).2 =
      { s with completions := s.completions ++ [⟨id, status, data⟩] } := by
  obtain ⟨c, hc, happ⟩ := h
  rw [complete] at happ ⊢
  split
  · next hfull =>
    rw [if_pos hfull] at happ
    simpa using congrArg List.length happ
  · next hfull =>
    rw [if_neg hfull] at happ
    simp only [List.append_cancel_left_eq, List.cons.injEq, and_true] at happ
    rw [← happ] at hc
    exact ⟨hc, rfl⟩

theorem Succeeds.of_completions {s s₁ s' : Fs} (h : Succeeds s s') (heq : s₁.completions = s.completions) :
    Succeeds s₁ s' := by
  obtain ⟨c, hc, happ⟩ := h
  exact ⟨c, hc, by rw [happ, heq]⟩

/-! ### What a successful command wrote -/

section written

variable {s : Fs}

/-- An answer that is no success, given in a state the scans left as it was. -/
theorem not_succeeds_answer {s₁ : Fs} {id : Nat} {status : Status} (hsame : Same s s₁)
    (hstatus : status ≠ .success) :
    ¬Succeeds s (complete id status .empty s₁).2 := fun h =>
  hstatus (complete_succeeds (h.of_completions hsame.completions)).1

theorem reserveFile_spec (hw : Working s) (id : Nat) (name : Name) :
    (∃ slot cluster s', reserveFile id name s = (.ok (slot, cluster), s') ∧ Working s' ∧ Same s s' ∧
      lookup (rootTable s) name rootEntries 0 = none ∧ firstFree (rootTable s) rootEntries 0 = some slot ∧
      firstCluster (fatEntry s) (clusterScan - 2) 2 = some cluster) ∨
    ∃ status s₁, status ≠ .success ∧ Same s s₁ ∧ reserveFile id name s =
      (.error (complete id status .empty s₁).1, (complete id status .empty s₁).2) := by
  obtain ⟨s₁, hfind, hw₁, hsame₁⟩ := findName_spec hw name
  rw [reserveFile, bind_of_eq hfind]
  cases hlookup : lookup (rootTable s) name rootEntries 0 with
  | some r => exact Or.inr ⟨.alreadyExists, s₁, by decide, hsame₁, rfl⟩
  | none =>
    obtain ⟨s₂, hfree, hw₂, hsame₂⟩ := findFree_spec hw₁
    rw [hsame₁.rootTable] at hfree
    simp only [hitOf]
    rw [bind_of_eq hfree]
    have hsame₂ := hsame₁.trans hsame₂
    cases hslot : firstFree (rootTable s) rootEntries 0 with
    | none => exact Or.inr ⟨.directoryIsFull, s₂, by decide, hsame₂, rfl⟩
    | some slot =>
      obtain ⟨s₃, halloc, hw₃, hsame₃⟩ := allocCluster_spec hw₂
      have hfat : fatEntry s₂ = fatEntry s := by
        funext c
        simp only [fatEntry, hsame₂.sector]
      rw [hfat] at halloc
      simp only [freeOf]
      rw [bind_of_eq halloc]
      have hsame₃ := hsame₂.trans hsame₃
      cases hcluster : firstCluster (fatEntry s) (clusterScan - 2) 2 with
      | none => exact Or.inr ⟨.directoryIsFull, s₃, by decide, hsame₃, rfl⟩
      | some cluster => exact Or.inl ⟨slot, cluster, s₃, rfl, hw₃, hsame₃, by simp⟩

/-- Equal root tables and completions. -/
def SameRoot (s s' : Fs) : Prop := rootTable s' = rootTable s ∧ s'.completions = s.completions

/-- An edit outside the root region, as a step of a longer write. -/
theorem editSector_outside (hw : Working s) (lba : Nat) (hout : lba < rootLba ∨ dataLba ≤ lba)
    (edit : Bytes → Bytes) :
    ∃ s', editSector lba edit s = (true, s') ∧ Working s' ∧ SameRoot s s' := by
  obtain ⟨s', h, hw', hedit⟩ := editSector_spec hw lba edit
  exact ⟨s', h, hw', hedit.rootTable_of_outside hout, hedit.completions⟩

theorem SameRoot.trans {s s' s'' : Fs} (h : SameRoot s s') (h' : SameRoot s' s'') : SameRoot s s'' :=
  ⟨h'.1.trans h.1, h'.2.trans h.2⟩

theorem setFat_spec (hw : Working s) {cluster : Nat} (hc : cluster < clusterScan) (value : Nat) :
    ∃ s', setFat cluster value s = (true, s') ∧ Working s' ∧ SameRoot s s' := by
  have hsector : fatSector cluster = 0 := by
    simp only [fatSector, sectorBytes, clusterScan] at *
    omega
  obtain ⟨s₁, h₁, hw₁, hroot₁⟩ := editSector_outside hw (fat1Lba + fatSector cluster)
    (by rw [hsector]; decide) (copyAt (fatOffset cluster) (le16 value))
  obtain ⟨s₂, h₂, hw₂, hroot₂⟩ := editSector_outside hw₁ (fat2Lba + fatSector cluster)
    (by rw [hsector]; decide) (copyAt (fatOffset cluster) (le16 value))
  exact ⟨s₂, by rw [setFat, andThen_of_true h₁, h₂], hw₂, hroot₁.trans hroot₂⟩

theorem formatDirectory_spec (hw : Working s) (cluster : Nat) :
    ∃ s', formatDirectory cluster s = (true, s') ∧ Working s' ∧ SameRoot s s' :=
  editSector_outside hw _ (Or.inr (Nat.le_add_right _ _)) _

theorem writeDir_flush_spec (hw : Working s) {slot cluster : Nat} (hslot : slot < rootEntries) {name : Name}
    (hname : name.length = 11) (hc : cluster < clusterScan) (attr : UInt8) :
    ∃ s', andThen (writeDir slot name cluster 0 attr) flushBlock s = (true, s') ∧
      rootTable s' = Function.update (rootTable s) slot (slotFor name ⟨cluster, 0, attr⟩) ∧
      s'.completions = s.completions := by
  obtain ⟨s₁, h₁, hw₁, hedit⟩ := editSector_spec hw (entryLba slot)
    (putEntry (entryOffset slot) name cluster 0 attr)
  obtain ⟨s₂, h₂, -, hsame, -⟩ := flushBlock_spec hw₁
  have hc : cluster < 65536 := by
    simp only [clusterScan] at hc
    omega
  refine ⟨s₂, by rw [writeDir, andThen_of_true h₁, h₂], ?_, hsame.completions.trans hedit.completions⟩
  rw [hsame.rootTable, hedit.rootTable_update hslot (putEntry_staysIn _ hname _ _ _),
    slotOf_putEntry hname hc (by omega)]

/-- A new root entry `name` went to the first free slot. -/
structure Inserted (s s' : Fs) (name : Name) (attr : UInt8) (slot cluster : Nat) : Prop where
  absent : lookup (rootTable s) name rootEntries 0 = none
  free : firstFree (rootTable s) rootEntries 0 = some slot
  alloc : firstCluster (fatEntry s) (clusterScan - 2) 2 = some cluster
  table : rootTable s' = Function.update (rootTable s) slot (slotFor name ⟨cluster, 0, attr⟩)

theorem slot_lt (h : firstFree (rootTable s) rootEntries 0 = some slot) : slot < rootEntries := by
  have := (firstFree_eq_some h).2.1
  omega

theorem cluster_lt (h : firstCluster (fatEntry s) (clusterScan - 2) 2 = some cluster) :
    cluster < clusterScan := by
  have := firstCluster_range h
  simp only [clusterScan] at *
  omega

theorem createFile_success (hw : Working s) {id : Nat} {name : Name} (hname : name.length = 11)
    (h : Succeeds s (createFile id name s).2) :
    ∃ slot cluster, Inserted s (createFile id name s).2 name attrArchive slot cluster := by
  rw [createFile, get_bind, ite_run] at h ⊢
  split at h
  · cases (complete_succeeds h).1
  next hbusy =>
  rw [if_neg hbusy]
  rcases reserveFile_spec hw id name with ⟨slot, cluster, s₁, hres, hw₁, hsame₁, habsent, hfree, halloc⟩ |
    ⟨status, s₁, hstatus, hsame₁, hres⟩
  swap
  · rw [bind_of_eq hres] at h
    exact absurd h (not_succeeds_answer hsame₁ hstatus)
  have hc := cluster_lt halloc
  obtain ⟨s₂, hfat, hw₂, hroot₂⟩ := setFat_spec hw₁ hc 0xFFFF
  obtain ⟨s₃, hdir, htable, hcmpl⟩ := writeDir_flush_spec hw₂ (slot_lt hfree) hname hc attrArchive
  rw [bind_of_eq hres] at h ⊢
  simp only at h ⊢
  rw [bind_of_eq ((andThen_of_true hfat).trans hdir)] at h ⊢
  simp only [ite_run, if_true, modify_bind] at h ⊢
  have hcompletions : s₃.completions = s.completions := hcmpl.trans (hroot₂.2.trans hsame₁.completions)
  refine ⟨slot, cluster, habsent, hfree, halloc, ?_⟩
  rw [(complete_succeeds (h.of_completions hcompletions)).2, ← hsame₁.rootTable, ← hroot₂.1, ← htable]
  rfl

theorem handleMkdir_success (hw : Working s) {id : Nat} {path : Buffer} {name : Name}
    (hname : readPackedName s path = some name) (h : Succeeds s (handleMkdir id path s).2) :
    ∃ slot cluster, Inserted s (handleMkdir id path s).2 name attrDir slot cluster := by
  simp only [handleMkdir, get_bind, hname] at h ⊢
  rcases reserveFile_spec hw id name with ⟨slot, cluster, s₁, hres, hw₁, hsame₁, habsent, hfree, halloc⟩ |
    ⟨status, s₁, hstatus, hsame₁, hres⟩
  swap
  · rw [bind_of_eq hres] at h
    exact absurd h (not_succeeds_answer hsame₁ hstatus)
  have hc := cluster_lt halloc
  obtain ⟨s₂, hfat, hw₂, hroot₂⟩ := setFat_spec hw₁ hc 0xFFFF
  obtain ⟨s₃, hformat, hw₃, hroot₃⟩ := formatDirectory_spec hw₂ cluster
  obtain ⟨s₄, hdir, htable, hcmpl⟩ :=
    writeDir_flush_spec hw₃ (slot_lt hfree) (readPackedName_length hname) hc attrDir
  rw [bind_of_eq hres] at h ⊢
  simp only at h ⊢
  rw [bind_of_eq ((andThen_of_true hfat).trans ((andThen_of_true hformat).trans hdir))] at h ⊢
  simp only [ite_run, if_true] at h ⊢
  have hcompletions : s₄.completions = s.completions :=
    hcmpl.trans (hroot₃.2.trans (hroot₂.2.trans hsame₁.completions))
  refine ⟨slot, cluster, habsent, hfree, halloc, ?_⟩
  rw [(complete_succeeds (h.of_completions hcompletions)).2, ← hsame₁.rootTable, ← hroot₂.1,
    ← hroot₃.1, ← htable]
  rfl

/-- The entry found under `old` got the name `new`. -/
structure Renamed (s s' : Fs) (old new : Name) (slot : Nat) (m : Meta) : Prop where
  found : lookup (rootTable s) old rootEntries 0 = some (slot, m)
  absent : old = new ∨ lookup (rootTable s) new rootEntries 0 = none
  table : rootTable s' = Function.update (rootTable s) slot (slotFor new m)

theorem renameHit_success (hw : Working s) {id : Nat} {old new : Name} (hnew : new.length = 11)
    {slot : Nat} {m : Meta}
    (hfound : lookup (rootTable s) old rootEntries 0 = some (slot, m))
    (h : Succeeds s (renameHit id (DirHit.ofSlot (slot, m)) new s).2) :
    rootTable (renameHit id (DirHit.ofSlot (slot, m)) new s).2 =
      Function.update (rootTable s) slot (slotFor new m) := by
  obtain ⟨s₁, h₁, hw₁, hedit⟩ := editSector_spec hw (entryLba slot) (copyAt (entryOffset slot) new)
  obtain ⟨s₂, h₂, -, hsame, -⟩ := flushBlock_spec hw₁
  have hrename : renameEntry (DirHit.ofSlot (slot, m)).index new s = (true, s₁) := h₁
  have hcompletions : s₂.completions = s.completions := hsame.completions.trans hedit.completions
  obtain ⟨-, hlt, hat, -⟩ := (lookup_eq_some).mp hfound
  have hslot : slot < rootEntries := by omega
  rw [rootTable, if_pos hslot] at hat
  rw [renameHit, bind_of_eq ((andThen_of_true hrename).trans h₂)] at h ⊢
  simp only [ite_run, if_true] at h ⊢
  rw [(complete_succeeds (h.of_completions hcompletions)).2]
  change rootTable s₂ = _
  rw [hsame.rootTable, hedit.rootTable_update hslot
    (copyAt_staysIn le_rfl (by simp [hnew, dirEntry])), slotOf_rename hnew hat]

theorem handleRename_success (hw : Working s) {id : Nat} {oldPath newPath : Buffer} {old new : Name}
    (hold : readPackedName s oldPath = some old) (hnew : readPackedName s newPath = some new)
    (h : Succeeds s (handleRename id oldPath newPath s).2) :
    ∃ slot m, Renamed s (handleRename id oldPath newPath s).2 old new slot m := by
  obtain ⟨s₁, hfind, hw₁, hsame₁⟩ := findName_spec hw old
  simp only [handleRename, get_bind, hold, hnew] at h ⊢
  rw [bind_of_eq hfind] at h ⊢
  cases hlookup : lookup (rootTable s) old rootEntries 0 with
  | none =>
    rw [hlookup] at h
    cases (complete_succeeds (h.of_completions hsame₁.completions)).1
  | some r =>
    obtain ⟨slot, m⟩ := r
    rw [hlookup] at h
    simp only [hitOf, ite_run] at h ⊢
    have hlen := readPackedName_length hnew
    by_cases heq : old = new
    · rw [if_pos heq] at h ⊢
      have htable := renameHit_success hw₁ hlen (by rw [hsame₁.rootTable]; exact hlookup)
        (h.of_completions hsame₁.completions)
      exact ⟨slot, m, hlookup, Or.inl heq, by rw [htable, hsame₁.rootTable]⟩
    · rw [if_neg heq] at h ⊢
      obtain ⟨s₂, hfind₂, hw₂, hsame₂⟩ := findName_spec hw₁ new
      rw [hsame₁.rootTable] at hfind₂
      rw [bind_of_eq hfind₂] at h ⊢
      have hsame₂ := hsame₁.trans hsame₂
      cases hlookup₂ : lookup (rootTable s) new rootEntries 0 with
      | some r =>
        rw [hlookup₂] at h
        cases (complete_succeeds (h.of_completions hsame₂.completions)).1
      | none =>
        rw [hlookup₂] at h
        simp only [hitOf] at h ⊢
        have htable := renameHit_success hw₂ hlen (by rw [hsame₂.rootTable]; exact hlookup)
          (h.of_completions hsame₂.completions)
        exact ⟨slot, m, hlookup, Or.inr hlookup₂, by rw [htable, hsame₂.rootTable]⟩

theorem handleOpen_success {id : Nat} {path : Buffer} {raw : List UInt8} {name : Name}
    (hraw : (if path.size = 0 then some [] else copyShare s path.offset path.size) = some raw)
    (hname : packName raw = some name)
    (h : Succeeds s (handleOpen id path (openFlagsCreate ||| openFlagsWriteOnly) s).2) :
    handleOpen id path (openFlagsCreate ||| openFlagsWriteOnly) s = createFile id name s := by
  simp only [handleOpen, get_bind, ite_run, hraw, hname] at h ⊢
  by_cases hlong : pathMax < path.size
  · rw [if_pos hlong] at h
    cases (complete_succeeds h).1
  rw [if_neg hlong] at h ⊢
  by_cases hslash : slash ∈ raw
  · rw [if_pos hslash, if_pos (by decide)] at h
    cases (complete_succeeds h).1
  rw [if_neg hslash] at h ⊢
  by_cases hsize : 11 < path.size
  · rw [if_pos hsize] at h
    cases (complete_succeeds h).1
  rw [if_neg hsize, if_pos trivial]

end written

/-! ### Visibility -/

/-- The packed name a command creates or renames to. -/
def Command.target (s : Fs) : Command → Option Name
  | .fileOpen path flags =>
    if flags = openFlagsCreate ||| openFlagsWriteOnly then
      (if path.size = 0 then some [] else copyShare s path.offset path.size).bind packName
    else none
  | .dirCreate path => readPackedName s path
  | .rename _ newPath => readPackedName s newPath
  | _ => none

/-- The entry such a command writes, from the state it starts in. -/
def Command.Writes (s : Fs) : Command → DirHit → Prop
  | .fileOpen _ _, hit => (findFree s).1 = .hit hit.index ∧ (allocCluster s).1 = .hit hit.cluster ∧
    hit.size = 0 ∧
      hit.attr = attrArchive
  | .dirCreate _, hit => (findFree s).1 = .hit hit.index ∧ (allocCluster s).1 = .hit hit.cluster ∧
    hit.size = 0 ∧
      hit.attr = attrDir
  | .rename oldPath _, hit => ∃ old, readPackedName s oldPath = some old ∧ (findName old s).1 = .hit hit
  | _, _ => False

/-- The name an entry found under `m` has after the command. -/
def Command.nameAfter (s : Fs) (n : Name) : Command → Name → Name
  | .rename oldPath _, m => if readPackedName s oldPath = some m then n else m
  | _, m => m

/-- The entry just written is found under `n`, and every entry found before under another name is found
still, with its cluster, size and attribute. -/
def Visible (s s' : Fs) (command : Command) (n : Name) : Prop :=
  (∃ hit, command.Writes s hit ∧ (findName n s').1 = .hit hit) ∧
  ∀ m hit, m ≠ n → (findName m s).1 = .hit hit → (findName (command.nameAfter s n m) s').1 = .hit hit

theorem findName_eq_hit {s : Fs} (hw : Working s) {name : Name} {hit : DirHit} :
    (findName name s).1 = .hit hit ↔ lookup (rootTable s) name rootEntries 0 =
      some (hit.index, ⟨hit.cluster, hit.size, hit.attr⟩) := by
  obtain ⟨s', h, -⟩ := findName_spec hw name
  rw [h]
  cases lookup (rootTable s) name rootEntries 0 with
  | none => simp [hitOf]
  | some r =>
    obtain ⟨index, m⟩ := r
    cases hit
    cases m
    simp [hitOf, DirHit.ofSlot]

theorem findFree_eq_hit {s : Fs} (hw : Working s) {index : Nat} :
    (findFree s).1 = .hit index ↔ firstFree (rootTable s) rootEntries 0 = some index := by
  obtain ⟨s', h, -⟩ := findFree_spec hw
  rw [h]
  cases firstFree (rootTable s) rootEntries 0 <;> simp [freeOf]

theorem allocCluster_eq_hit {s : Fs} (hw : Working s) {cluster : Nat} :
    (allocCluster s).1 = .hit cluster ↔ firstCluster (fatEntry s) (clusterScan - 2) 2 = some cluster := by
  obtain ⟨s', h, -⟩ := allocCluster_spec hw
  rw [h]
  cases firstCluster (fatEntry s) (clusterScan - 2) 2 <;> simp [freeOf]

section visible

variable {s s' : Fs} {n : Name}

theorem Inserted.visible_iff (hw : Working s) (hw' : Working s') {attr : UInt8} {slot cluster : Nat}
    (h : Inserted s s' n attr slot cluster) {command : Command}
    (hwrites : ∀ hit, command.Writes s hit ↔ (findFree s).1 = .hit hit.index ∧
      (allocCluster s).1 = .hit hit.cluster ∧ hit.size = 0 ∧ hit.attr = attr)
    (hsame : ∀ m, command.nameAfter s n m = m) : Visible s s' command n ↔ Nameable n := by
  constructor
  · rintro ⟨⟨hit, hwritten, hfound⟩, -⟩
    by_contra hbad
    obtain ⟨hindex, -⟩ := (hwrites hit).mp hwritten
    rw [findFree_eq_hit hw, h.free, Option.some.injEq] at hindex
    rw [findName_eq_hit hw', ← hindex] at hfound
    refine lookup_ne_of_not_live ?_ hfound
    rw [h.table, Function.update_self]
    exact slotFor_not_live hbad
  · intro hgood
    have htable := h.table
    rw [slotFor_of_nameable hgood] at htable
    refine ⟨⟨⟨slot, cluster, 0, attr⟩, (hwrites _).mpr ⟨?_, ?_, rfl, rfl⟩, ?_⟩, fun m hit hm hfound => ?_⟩
    · exact (findFree_eq_hit hw).mpr h.free
    · exact (allocCluster_eq_hit hw).mpr h.alloc
    · rw [findName_eq_hit hw', htable]
      exact lookup_insert_self h.free h.absent
    · rw [findName_eq_hit hw] at hfound
      rw [hsame, findName_eq_hit hw', htable]
      exact lookup_insert_of_ne h.free hm.symm hfound

theorem Renamed.visible_iff (hw : Working s) (hw' : Working s') {old : Name} {slot : Nat} {m : Meta}
    (h : Renamed s s' old n slot m) {oldPath newPath : Buffer} (hold : readPackedName s oldPath =
      some old) :
    Visible s s' (.rename oldPath newPath) n ↔ Nameable n := by
  have hmoved : (findName old s).1 = .hit ⟨slot, m.cluster, m.size, m.attr⟩ :=
    (findName_eq_hit hw).mpr h.found
  constructor
  · rintro ⟨⟨hit, ⟨old', hold', hwritten⟩, hfound⟩, -⟩
    by_contra hbad
    obtain rfl : old = old' := by
      rw [hold] at hold'
      exact Option.some.inj hold'
    rw [hmoved] at hwritten
    obtain rfl := Scan.hit.inj hwritten
    rw [findName_eq_hit hw'] at hfound
    refine lookup_ne_of_not_live ?_ hfound
    rw [h.table, Function.update_self]
    exact slotFor_not_live hbad
  · intro hgood
    have htable := h.table
    rw [slotFor_of_nameable hgood] at htable
    have hself : (findName n s').1 = .hit ⟨slot, m.cluster, m.size, m.attr⟩ := by
      rw [findName_eq_hit hw', htable]
      exact lookup_rename_self h.found h.absent
    refine ⟨⟨_, ⟨old, hold, hmoved⟩, hself⟩, fun k hit hk hfound => ?_⟩
    simp only [Command.nameAfter, hold, Option.some.injEq]
    split
    · next hkold =>
      rw [← hkold, hmoved] at hfound
      rw [hself, hfound]
    · next hkold =>
      rw [findName_eq_hit hw] at hfound
      rw [findName_eq_hit hw', htable]
      exact lookup_rename_of_ne h.found hkold hk.symm hfound

end visible

/-- After a successful create, mkdir or rename to the packed name `n`, in any reachable state, the
directory is as the command's answer promises exactly when the first byte of `n` is neither `0x00` nor
`0xE5`. -/
theorem visible_iff_nameable {s : Fs} (hs : Reachable s) (id : Nat) (command : Command) (n : Name)
    (hn : command.target s = some n) (hok : Succeeds s (serveOne id command s).2) :
    Visible s (serveOne id command s).2 command n ↔ Nameable n := by
  have hw := hs.working
  have hw' := (hs.serve id command).working
  cases command with
  | fileOpen path flags =>
    rw [Command.target] at hn
    split at hn
    swap
    · cases hn
    next hflags =>
    subst hflags
    obtain ⟨raw, hraw, hname⟩ := Option.bind_eq_some_iff.mp hn
    have hcreate := handleOpen_success hraw hname hok
    rw [serveOne, hcreate] at hok hw' ⊢
    obtain ⟨slot, cluster, hins⟩ := createFile_success hw (packName_length hname) hok
    exact hins.visible_iff hw hw' (fun _ => Iff.rfl) (fun _ => rfl)
  | dirCreate path =>
    obtain ⟨slot, cluster, hins⟩ := handleMkdir_success hw hn hok
    exact hins.visible_iff hw hw' (fun _ => Iff.rfl) (fun _ => rfl)
  | rename oldPath newPath =>
    cases hold : readPackedName s oldPath with
    | none =>
      simp only [serveOne, handleRename, get_bind, hold] at hok
      cases (complete_succeeds hok).1
    | some old =>
      obtain ⟨slot, m, hren⟩ := handleRename_success hw hold hn hok
      exact hren.visible_iff hw hw' hold
  | fileClose | fileWrite | fileRead | stat | fileRemove | dirOpen | dirRead | dirClose | other => cases hn

/-- A server at its start over a blank device. -/
def blank : Fs where
  device := fun _ _ => 0
  performs := fun _ => true
  transfers := 0
  block := fun _ => 0
  blockNo := 0
  blockValid := false
  blockDirty := false
  file := none
  dir := none
  share := fun _ => 0
  completions := []

/-- The blank device formatted. -/
def fresh : Fs := (andThen (loadBlock 0) formatVolume blank).2

theorem fresh_reachable : Reachable fresh := by
  have hrun : (andThen (loadBlock 0) formatVolume blank).1 = true := by decide +kernel
  have heta : ∀ p : Bool × Fs, p.1 = true → p = (true, p.2) := fun p h => by rw [← h]
  exact .format (fun _ => rfl) rfl rfl (heta _ hrun)

/-- A formatted volume, with a share that holds `byte` everywhere. -/
def formatted (byte : UInt8) : Fs := { fresh with share := fun _ => byte, completions := fresh.completions.drop 0 }

theorem formatted_reachable (byte : UInt8) : Reachable (formatted byte) :=
  fresh_reachable.client (fun _ => byte) 0

/-- Creating the file `a` on a fresh volume. -/
theorem visible_iff_nameable_a :
    Visible (formatted 0x61) (serveOne 1 (.fileOpen ⟨0, 1⟩ 5) (formatted 0x61)).2 (.fileOpen ⟨0, 1⟩ 5)
      (0x41 :: List.replicate 10 space) ↔ Nameable (0x41 :: List.replicate 10 space) :=
  visible_iff_nameable (formatted_reachable 0x61) 1 (.fileOpen ⟨0, 1⟩ 5) _ (by decide +kernel)
    ⟨⟨1, .success, .fd fdFile⟩, rfl, by decide +kernel⟩

/-- Creating a file whose name is the byte zero: the answer is success, and the file is not there. -/
theorem created_zero_name_missing : Reachable (formatted 0x00) ∧
    Command.target (formatted 0x00) (.fileOpen ⟨0, 1⟩ 5) = some (0x00 :: List.replicate 10 space) ∧
    Succeeds (formatted 0x00) (serveOne 1 (.fileOpen ⟨0, 1⟩ 5) (formatted 0x00)).2 ∧
    ¬Visible (formatted 0x00) (serveOne 1 (.fileOpen ⟨0, 1⟩ 5) (formatted 0x00)).2 (.fileOpen ⟨0, 1⟩ 5)
      (0x00 :: List.replicate 10 space) := by
  refine ⟨formatted_reachable 0x00,
    by decide +kernel, ⟨⟨1, .success, .fd fdFile⟩, rfl, by decide +kernel⟩, ?_⟩
  rintro ⟨⟨hit, -, hfound⟩, -⟩
  have hmissing : (findName (0x00 :: List.replicate 10 space)
      (serveOne 1 (.fileOpen ⟨0, 1⟩ 5) (formatted 0x00)).2).1 = .missing := by decide +kernel
  rw [hmissing] at hfound
  cases hfound

end Lerux.FatFs

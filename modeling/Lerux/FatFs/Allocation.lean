import Lerux.FatFs.Format

/-!
# Clusters and their owners

Every live entry of the two-level tree, root or inside a directory, owns one cluster of the scanned range,
both allocation tables say so, and the open file and the open directory are on owned clusters. The one way
out is `handle_remove`: it drops a file handle on the entry it removes, but not a directory handle, so an
open directory that is removed leaves a handle on a free cluster.

The invariant of the runs is `Tidy`. It is sharper than what is claimed, since no command creates an entry
inside a directory: the seeded directory keeps its one file, every other one stays empty.
-/

namespace Lerux.FatFs

open SlotTable

/-! ### Directory clusters -/

theorem dirTable_window (b : Bytes) : dirTable (window b 0 sectorBytes) = dirTable b := by
  funext index
  unfold dirTable
  split
  · next hindex =>
    congr 1
    funext i
    simp only [window, Nat.zero_add]
    split
    · next hi =>
      rw [if_pos]
      simp only [entriesPerSector, dirEntry, sectorBytes] at *
      omega
    · rfl
  · rfl

/-- Putting an entry into a directory cluster. -/
theorem dirTable_putEntry {index : Nat} (hindex : index < entriesPerSector) {name : Name}
    (hname : name.length = 11)
    {cluster size : Nat} (hc : cluster < 65536) (hs : size < 4294967296) (attr : UInt8) (b : Bytes) :
    dirTable (putEntry (index * dirEntry) name cluster size attr b) =
      Function.update (dirTable b) index (slotFor name ⟨cluster, size, attr⟩) := by
  funext i
  by_cases hi : i = index
  · subst hi
    rw [Function.update_self, dirTable, if_pos hindex, slotOf_putEntry hname hc hs]
  rw [Function.update_of_ne hi]
  unfold dirTable
  split
  swap
  · rfl
  congr 1
  funext k
  simp only [window]
  split
  · next hk =>
    apply putEntry_staysIn _ hname
    simp only [dirEntry] at *
    omega
  · rfl

theorem dirTable_zero : dirTable (fun _ => 0) = fun _ => .vacant := by
  funext i
  unfold dirTable
  split
  · have hz : window (fun _ => (0 : UInt8)) (i * dirEntry) dirEntry = fun _ => 0 := window_zeros _ _
    rw [hz]
    rfl
  · rfl

/-- The table of a new directory. -/
def emptyTable (cluster : Nat) : Nat → Slot Name Meta :=
  Function.update (Function.update (fun _ => .vacant) 0 (.live (dotName 1) ⟨cluster, 0, attrDir⟩)) 1
    (.live (dotName 2) ⟨0, 0, attrDir⟩)

theorem dirTable_emptyDirectory {cluster : Nat} (hc : cluster < clusterScan) :
    dirTable (emptyDirectory cluster) = emptyTable cluster := by
  have hword : cluster < 65536 := hc.trans (by decide)
  have hdot : ∀ m : Meta, slotFor (dotName 1) m = .live (dotName 1) m :=
    fun m => slotFor_of_nameable (by decide)
  have hdots : ∀ m : Meta, slotFor (dotName 2) m = .live (dotName 2) m :=
    fun m => slotFor_of_nameable (by decide)
  have hfirst := dirTable_putEntry (show 0 < entriesPerSector by decide)
    (show (dotName 1).length = 11 from rfl) hword
    (show 0 < 4294967296 by decide) attrDir fun _ => 0
  have hsecond := dirTable_putEntry (show 1 < entriesPerSector by decide)
    (show (dotName 2).length = 11 from rfl)
    (show 0 < 65536 by decide) (show 0 < 4294967296 by decide) attrDir
    (putEntry (0 * dirEntry) (dotName 1) cluster 0 attrDir fun _ => 0)
  rw [Nat.one_mul] at hsecond
  unfold emptyDirectory
  rw [dirTable_window, emptyTable, ← hdot, ← hdots, ← dirTable_zero, ← hfirst, ← hsecond, Nat.zero_mul]

/-- The table of the seeded directory. -/
def homeTable : Nat → Slot Name Meta :=
  Function.update (emptyTable 2) 2 (.live hostnameName ⟨3, hostname.length, attrArchive⟩)

theorem dirTable_homeDirectory : dirTable homeDirectory = homeTable := by
  have hname : ∀ m : Meta, slotFor hostnameName m = .live hostnameName m :=
    fun m => slotFor_of_nameable (by decide)
  have hput := dirTable_putEntry (show 2 < entriesPerSector by decide)
    (show hostnameName.length = 11 from rfl)
    (show 3 < 65536 by decide) (show hostname.length < 4294967296 by decide) attrArchive (emptyDirectory 2)
  unfold homeDirectory homeTable
  rw [dirTable_window, hput, dirTable_emptyDirectory (by decide), hname]

/-- What a live slot of a new directory is. -/
theorem emptyTable_live {cluster i : Nat} {name : Name} {m : Meta}
    (h : emptyTable cluster i = .live name m) :
    dotted name = true ∧ m.attr = attrDir := by
  unfold emptyTable at h
  by_cases h1 : i = 1
  · subst h1
    rw [Function.update_self] at h
    cases h
    decide
  rw [Function.update_of_ne h1] at h
  by_cases h0 : i = 0
  · subst h0
    rw [Function.update_self] at h
    cases h
    exact ⟨by decide, rfl⟩
  rw [Function.update_of_ne h0] at h
  cases h

theorem homeTable_live {i : Nat} {name : Name} {m : Meta} (h : homeTable i = .live name m) :
    (dotted name = true ∧ m.attr = attrDir) ∨ (i = 2 ∧ m = ⟨3, hostname.length, attrArchive⟩) := by
  unfold homeTable at h
  by_cases h2 : i = 2
  · subst h2
    rw [Function.update_self] at h
    cases h
    exact Or.inr ⟨rfl, rfl⟩
  rw [Function.update_of_ne h2] at h
  exact Or.inl (emptyTable_live h)

theorem homeTable_not_empty : emptyFrom homeTable entriesPerSector 0 = false := by decide

theorem firstCluster_zero {fat : Nat → Nat} {left cluster c : Nat}
    (h : firstCluster fat left cluster = some c) :
    fat c = 0 := by
  induction left generalizing cluster with
  | zero => cases h
  | succ left ih =>
    rw [firstCluster] at h
    split at h
    · next hz =>
      cases h
      exact hz
    · exact ih h

/-! ### The invariant -/

/-- The volume of a run: the seeded directory in slot 0 with its file, every other entry on a cluster of its
own, and tables that say which clusters are taken. -/
structure Tidy (v : Volume) : Prop where
  range : ∀ i name m, v.root i = .live name m → 2 ≤ m.cluster ∧ m.cluster < clusterScan ∧ m.cluster ≠ 3
  kind : ∀ i name m, v.root i = .live name m → m.attr = attrDir ∨ m.attr = attrArchive
  apart : ∀ i j n n' m m', v.root i = .live n m → v.root j = .live n' m' → m.cluster = m'.cluster → i = j
  taken : ∀ i name m, v.root i = .live name m → v.fat1 m.cluster = 0xFFFF
  nested : v.fat1 3 = 0xFFFF
  free : ∀ c, 2 ≤ c → c < clusterScan → c ≠ 3 →
    (∀ i name m, v.root i = .live name m → m.cluster ≠ c) → v.fat1 c = 0
  agree : v.fat2 = v.fat1
  home : ∃ name, v.root 0 = .live name ⟨2, 0, attrDir⟩
  dirs : ∀ i name m, v.root i = .live name m → m.attr = attrDir →
    dirTable (v.data m.cluster) = if m.cluster = 2 then homeTable else emptyTable m.cluster
  inside : ∀ i name m, v.root i = .live name m → i < rootEntries

/-- The open file is on a plain root entry, or on the file of the seeded directory. -/
def FileOk (v : Volume) (file : Option OpenFile) : Prop :=
  ∀ f, file = some f →
    (f.parent = 0 ∧ ∃ name m, v.root f.dirIndex = .live name m ∧ m.attr = attrArchive ∧ m.cluster =
      f.cluster) ∨
    (f.parent = 2 ∧ f.dirIndex = 2 ∧ f.cluster = 3)

/-- The open directory is the root or a directory entry. -/
def DirOk (v : Volume) (dir : Option OpenDir) : Prop :=
  ∀ d, dir = some d →
    d.cluster = 0 ∨ ∃ i name m, v.root i = .live name m ∧ m.attr = attrDir ∧ m.cluster = d.cluster

/-! ### Steps -/

section steps

variable {v v' : Volume}

theorem live_of_update {root : Nat → Slot Name Meta} {slot i : Nat} {x : Slot Name Meta}
    {name : Name} {m : Meta}
    (h : Function.update root slot x i = .live name m) :
    (i = slot ∧ x = .live name m) ∨ (i ≠ slot ∧ root i = .live name m) := by
  by_cases hi : i = slot
  · subst hi
    rw [Function.update_self] at h
    exact Or.inl ⟨rfl, h⟩
  · rw [Function.update_of_ne hi] at h
    exact Or.inr ⟨hi, h⟩

/-- A new entry in the first free slot, on the first free cluster. -/
theorem Tidy.insert (h : Tidy v) {slot cluster : Nat} {name : Name} {attr : UInt8}
    (hfree : firstFree v.root rootEntries 0 = some slot)
    (halloc : firstCluster v.fat1 (clusterScan - 2) 2 = some cluster)
      (hattr : attr = attrDir ∨ attr = attrArchive)
    (hroot : v'.root = Function.update v.root slot (.live name ⟨cluster, 0, attr⟩))
    (hfat1 : v'.fat1 = Function.update v.fat1 cluster 0xFFFF)
      (hfat2 : v'.fat2 = Function.update v.fat2 cluster 0xFFFF)
    (hdata : ∀ c, c ≠ cluster → v'.data c = v.data c)
    (hempty : attr = attrDir → dirTable (v'.data cluster) = emptyTable cluster) : Tidy v' := by
  obtain ⟨-, hslot, hvacant, -⟩ := firstFree_eq_some hfree
  have hzero := firstCluster_zero halloc
  have hc : 2 ≤ cluster ∧ cluster < clusterScan := by
    have := firstCluster_range halloc
    simp only [clusterScan] at *
    omega
  have hne3 : cluster ≠ 3 := by
    intro h3
    rw [h3, h.nested] at hzero
    cases hzero
  -- nobody owns the cluster yet
  have hnew : ∀ i n m, v.root i = .live n m → m.cluster ≠ cluster := by
    intro i n m hi heq
    have := h.taken i n m hi
    rw [heq, hzero] at this
    cases this
  obtain ⟨homeName, hhome⟩ := h.home
  have hslot0 : slot ≠ 0 := by
    intro h0
    rw [h0, hhome] at hvacant
    exact hvacant ⟨_, _, rfl⟩
  refine ⟨?_, ?_, ?_, ?_, ?_, ?_, ?_, ⟨homeName, ?_⟩, ?_, ?_⟩
  · intro i n m hi
    rw [hroot] at hi
    rcases live_of_update hi with ⟨-, hx⟩ | ⟨-, hi⟩
    · cases hx
      exact ⟨hc.1, hc.2, hne3⟩
    · exact h.range i n m hi
  · intro i n m hi
    rw [hroot] at hi
    rcases live_of_update hi with ⟨-, hx⟩ | ⟨-, hi⟩
    · cases hx
      exact hattr
    · exact h.kind i n m hi
  · intro i j n n' m m' hi hj heq
    rw [hroot] at hi hj
    rcases live_of_update hi with ⟨his, hx⟩ | ⟨-, hi⟩
    · rcases live_of_update hj with ⟨hjs, -⟩ | ⟨-, hj⟩
      · rw [his, hjs]
      · cases hx
        exact absurd heq.symm (hnew j n' m' hj)
    · rcases live_of_update hj with ⟨-, hx⟩ | ⟨-, hj⟩
      · cases hx
        exact absurd heq (hnew i n m hi)
      · exact h.apart i j n n' m m' hi hj heq
  · intro i n m hi
    rw [hroot] at hi
    rw [hfat1]
    rcases live_of_update hi with ⟨-, hx⟩ | ⟨-, hi⟩
    · cases hx
      exact Function.update_self _ _ _
    · rw [Function.update_of_ne (hnew i n m hi)]
      exact h.taken i n m hi
  · rw [hfat1, Function.update_of_ne hne3.symm]
    exact h.nested
  · intro c h2 hscan h3 hnone
    have hother : c ≠ cluster := by
      intro heq
      apply hnone slot name ⟨cluster, 0, attr⟩ _ heq.symm
      rw [hroot, Function.update_self]
    rw [hfat1, Function.update_of_ne hother]
    refine h.free c h2 hscan h3 fun i n m hi => ?_
    by_cases his : i = slot
    · rw [his] at hi
      exact absurd ⟨n, m, hi⟩ hvacant
    · apply hnone i n m
      rw [hroot, Function.update_of_ne his]
      exact hi
  · rw [hfat1, hfat2, h.agree]
  · rw [hroot, Function.update_of_ne hslot0.symm]
    exact hhome
  · intro i n m hi hdir
    rw [hroot] at hi
    rcases live_of_update hi with ⟨-, hx⟩ | ⟨-, hi⟩
    · cases hx
      -- cluster 2 is the seeded directory's
      have h2 : cluster ≠ 2 := fun heq => hnew 0 _ _ hhome heq.symm
      rw [if_neg h2]
      exact hempty hdir
    · rw [hdata _ (hnew i n m hi)]
      exact h.dirs i n m hi hdir
  · intro i n m hi
    rw [hroot] at hi
    rcases live_of_update hi with ⟨his, -⟩ | ⟨-, hi⟩
    · omega
    · exact h.inside i n m hi

/-- Another name, or another size of a file. -/
theorem Tidy.relabel (h : Tidy v) {slot : Nat} {old new : Name} {m m' : Meta}
    (hat : v.root slot = .live old m)
    (hroot : v'.root = Function.update v.root slot (.live new m'))
    (hcluster : m'.cluster = m.cluster) (hattr : m'.attr = m.attr)
      (hsize : m.attr = attrDir → m' = m) (hfat1 : v'.fat1 = v.fat1) (hfat2 : v'.fat2 = v.fat2)
    (hdata : ∀ i n k, v.root i = .live n k → k.attr = attrDir →
      v'.data k.cluster = v.data k.cluster) : Tidy v' := by
  -- an entry has the cluster and the kind it had, under whatever name
  have hwas : ∀ i n k, v'.root i = .live n k → ∃ n' k', v.root i = .live n' k' ∧
    k.cluster = k'.cluster ∧ k.attr = k'.attr ∧
      (k.attr = attrDir → k = k') := by
    intro i n k hi
    rw [hroot] at hi
    rcases live_of_update hi with ⟨his, hx⟩ | ⟨-, hi⟩
    · cases hx
      rw [his]
      exact ⟨old, m, hat, hcluster, hattr, fun hdir => hsize (hattr.symm.trans hdir)⟩
    · exact ⟨n, k, hi, rfl, rfl, fun _ => rfl⟩
  refine ⟨?_, ?_, ?_, ?_, ?_, ?_, ?_, ?_, ?_, ?_⟩
  · intro i n k hi
    obtain ⟨n', k', hi', heq, -⟩ := hwas i n k hi
    rw [heq]
    exact h.range i n' k' hi'
  · intro i n k hi
    obtain ⟨n', k', hi', -, heq, -⟩ := hwas i n k hi
    rw [heq]
    exact h.kind i n' k' hi'
  · intro i j n n' k k' hi hj heq
    obtain ⟨a, b, hi', hb, -⟩ := hwas i n k hi
    obtain ⟨a', b', hj', hb', -⟩ := hwas j n' k' hj
    exact h.apart i j a a' b b' hi' hj' (by rw [← hb, ← hb', heq])
  · intro i n k hi
    obtain ⟨n', k', hi', heq, -⟩ := hwas i n k hi
    rw [hfat1, heq]
    exact h.taken i n' k' hi'
  · rw [hfat1]
    exact h.nested
  · intro c h2 hscan h3 hnone
    rw [hfat1]
    refine h.free c h2 hscan h3 fun i n k hi => ?_
    by_cases his : i = slot
    · rw [his, hat] at hi
      cases hi
      rw [← hcluster]
      apply hnone slot new m'
      rw [hroot, Function.update_self]
    · apply hnone i n k
      rw [hroot, Function.update_of_ne his]
      exact hi
  · rw [hfat1, hfat2]
    exact h.agree
  · obtain ⟨homeName, hhome⟩ := h.home
    by_cases h0 : slot = 0
    · subst h0
      rw [hhome] at hat
      cases hat
      rw [hroot, Function.update_self, hsize rfl]
      exact ⟨new, rfl⟩
    · rw [hroot, Function.update_of_ne (Ne.symm h0)]
      exact ⟨homeName, hhome⟩
  · intro i n k hi hdir
    obtain ⟨n', k', hi', -, -, heq⟩ := hwas i n k hi
    obtain rfl := heq hdir
    rw [hdata i n' k hi' hdir]
    exact h.dirs i n' k hi' hdir
  · intro i n k hi
    obtain ⟨n', k', hi', -⟩ := hwas i n k hi
    exact h.inside i n' k' hi'

/-- An entry removed and its cluster freed. -/
theorem Tidy.remove (h : Tidy v) {slot : Nat} {name : Name} {m : Meta} (hat : v.root slot = .live name m)
    (hempty : m.attr &&& attrDir ≠ 0 → emptyFrom (dirTable (v.data m.cluster)) entriesPerSector 0 = true) :
    Tidy ((v.setFat m.cluster 0).setRoot slot .deleted) := by
  obtain ⟨h2, hscan, h3⟩ := h.range slot name m hat
  obtain ⟨homeName, hhome⟩ := h.home
  -- the seeded directory is never empty
  have hslot0 : slot ≠ 0 := by
    intro h0
    rw [h0, hhome] at hat
    cases hat
    have hall := hempty (by decide)
    rw [h.dirs 0 _ _ hhome rfl, if_pos rfl, homeTable_not_empty] at hall
    cases hall
  have hother : ∀ i n k, i ≠ slot → v.root i = .live n k → k.cluster ≠ m.cluster := by
    intro i n k hi hk heq
    exact hi (h.apart i slot n name k m hk hat heq)
  have hwas : ∀ i n k, ((v.setFat m.cluster 0).setRoot slot .deleted).root i = .live n k →
      i ≠ slot ∧ v.root i = .live n k := by
    intro i n k hi
    rcases live_of_update hi with ⟨-, hx⟩ | hi
    · cases hx
    · exact hi
  refine ⟨?_, ?_, ?_, ?_, ?_, ?_, ?_, ⟨homeName, ?_⟩, ?_, ?_⟩
  · intro i n k hi
    exact h.range i n k (hwas i n k hi).2
  · intro i n k hi
    exact h.kind i n k (hwas i n k hi).2
  · intro i j n n' k k' hi hj heq
    exact h.apart i j n n' k k' (hwas i n k hi).2 (hwas j n' k' hj).2 heq
  · intro i n k hi
    obtain ⟨hne, hi⟩ := hwas i n k hi
    simp only [Volume.setRoot_fat1, Volume.setFat_fat1, Function.update_of_ne (hother i n k hne hi)]
    exact h.taken i n k hi
  · simp only [Volume.setRoot_fat1, Volume.setFat_fat1, Function.update_of_ne h3.symm]
    exact h.nested
  · intro c hc2 hcscan hc3 hnone
    simp only [Volume.setRoot_fat1, Volume.setFat_fat1]
    by_cases heq : c = m.cluster
    · rw [heq, Function.update_self]
    · rw [Function.update_of_ne heq]
      refine h.free c hc2 hcscan hc3 fun i n k hi => ?_
      by_cases his : i = slot
      · rw [his, hat] at hi
        cases hi
        exact Ne.symm heq
      · apply hnone i n k
        rw [Volume.setRoot_root, Function.update_of_ne his]
        exact hi
  · simp only [Volume.setRoot_fat1, Volume.setFat_fat1, Volume.setRoot_fat2, Volume.setFat_fat2, h.agree]
  · rw [Volume.setRoot_root, Function.update_of_ne hslot0.symm]
    exact hhome
  · intro i n k hi hdir
    exact h.dirs i n k (hwas i n k hi).2 hdir
  · intro i n k hi
    exact h.inside i n k (hwas i n k hi).2

/-- A handle stays good while its root entry keeps its cluster and its kind. -/
theorem FileOk.of_root {file : Option OpenFile} (h : FileOk v file)
    (hroot : ∀ f name m, file = some f → f.parent = 0 → v.root f.dirIndex = .live name m →
      ∃ name' m', v'.root f.dirIndex = .live name' m' ∧ m'.attr = m.attr ∧
        m'.cluster = m.cluster) : FileOk v' file := by
  intro f hf
  rcases h f hf with ⟨hp, name, m, hat, hattr, hc⟩ | hin
  · obtain ⟨name', m', hat', hattr', hc'⟩ := hroot f name m hf hp hat
    exact Or.inl ⟨hp, name', m', hat', hattr'.trans hattr, hc'.trans hc⟩
  · exact Or.inr hin

theorem DirOk.of_root {dir : Option OpenDir} (h : DirOk v dir)
    (hroot : ∀ d i name m, dir = some d → v.root i = .live name m → m.cluster = d.cluster →
      ∃ name' m', v'.root i = .live name' m' ∧ m'.attr = m.attr ∧
        m'.cluster = m.cluster) : DirOk v' dir := by
  intro d hd
  rcases h d hd with h0 | ⟨i, name, m, hat, hattr, hc⟩
  · exact Or.inl h0
  · obtain ⟨name', m', hat', hattr', hc'⟩ := hroot d i name m hd hat hc
    exact Or.inr ⟨i, name', m', hat', hattr'.trans hattr, hc'.trans hc⟩

/-- A slot that was not live is nobody's entry. -/
theorem live_update_of_live {root : Nat → Slot Name Meta} {slot i : Nat} {x : Slot Name Meta}
    {name : Name} {m : Meta}
    (hnot : ¬Slot.IsLive (root slot)) (h : root i = .live name m) : Function.update root slot x i =
      .live name m := by
  have hne : i ≠ slot := by
    rintro rfl
    exact hnot ⟨name, m, h⟩
  rw [Function.update_of_ne hne]
  exact h

/-- Changing an entry that keeps its cluster and its kind. -/
theorem live_update_same {root : Nat → Slot Name Meta} {slot i : Nat} {old new name : Name} {m m' k : Meta}
    (hat : root slot = .live old m) (hattr : m'.attr = m.attr) (hc : m'.cluster = m.cluster)
      (h : root i = .live name k) :
    ∃ name' k', Function.update root slot (.live new m') i = .live name' k' ∧ k'.attr = k.attr ∧
      k'.cluster = k.cluster := by
  by_cases hi : i = slot
  · subst hi
    rw [hat] at h
    cases h
    exact ⟨new, m', Function.update_self _ _ _, hattr, hc⟩
  · rw [Function.update_of_ne hi]
    exact ⟨name, k, h, rfl, rfl⟩

end steps

/-- Names that make a live entry. -/
def Named (s : Fs) (command : Command) : Prop := ∀ name, command.target s = some name → Nameable name

theorem attr_of_plain {v : Volume} (h : Tidy v) {i : Nat} {name : Name} {m : Meta}
    (hat : v.root i = .live name m)
    (hplain : m.attr &&& attrDir = 0) : m.attr = attrArchive := by
  rcases h.kind i name m hat with hdir | harch
  · rw [hdir] at hplain
    exact absurd hplain (by decide)
  · exact harch

theorem attr_of_dir {v : Volume} (h : Tidy v) {i : Nat} {name : Name} {m : Meta}
    (hat : v.root i = .live name m)
    (hdir : m.attr &&& attrDir ≠ 0) : m.attr = attrDir := by
  rcases h.kind i name m hat with hd | harch
  · exact hd
  · rw [harch] at hdir
    exact absurd (by decide) hdir

/-- A file found inside a directory is the seeded one. -/
theorem Tidy.found_inside {v : Volume} (h : Tidy v) {i index : Nat} {name fileName : Name} {m m' : Meta}
    (hat : v.root i = .live name m) (hdir : m.attr &&& attrDir ≠ 0)
    (hfound : lookup (dirTable (v.data m.cluster)) fileName entriesPerSector 0 = some (index, m'))
    (hplain : m'.attr &&& attrDir = 0) : m.cluster = 2 ∧ index = 2 ∧ m'.cluster = 3 := by
  obtain ⟨-, -, hlive, -⟩ := (lookup_eq_some).mp hfound
  rw [h.dirs i name m hat (attr_of_dir h hat hdir)] at hlive
  have hnot : m'.attr ≠ attrDir := by
    intro heq
    rw [heq] at hplain
    exact absurd hplain (by decide)
  split at hlive
  · next hc =>
    rcases homeTable_live hlive with ⟨-, hattr⟩ | ⟨hindex, hm⟩
    · exact absurd hattr hnot
    · exact ⟨hc, hindex, by rw [hm]⟩
  · exact absurd (emptyTable_live hlive).2 hnot

theorem tidy_step {s : Fs} {command : Command} {v : Volume} {file : Option OpenFile} {dir : Option OpenDir}
    (hn : Named s command) (h : Tidy (volume s)) (hf : FileOk (volume s) s.file)
      (he : Effect s command v file dir) :
    Tidy v ∧ FileOk v file := by
  cases he with
  | nothing command => exact ⟨h, hf⟩
  | openRoot hraw hslash hname closed found plain hc =>
    obtain ⟨-, -, hat, -⟩ := (lookup_eq_some).mp found
    refine ⟨h, fun f heq => Or.inl ?_⟩
    cases heq
    exact ⟨rfl, _, _, hat, attr_of_plain h hat plain, rfl⟩
  | openNested closed parent isDir hp found plain hc =>
    obtain ⟨-, -, hat, -⟩ := (lookup_eq_some).mp parent
    refine ⟨h, fun f heq => Or.inr ?_⟩
    cases heq
    exact h.found_inside hat isDir found plain
  | close =>
    refine ⟨h, fun f heq => ?_⟩
    cases heq
  | create target hlen hslash closed absent free alloc =>
    rw [slotFor_of_nameable (hn _ target)]
    refine ⟨h.insert free alloc (Or.inr rfl) rfl rfl rfl (fun c _ => rfl)
      (fun hdir => absurd hdir (by decide)),
      fun f heq => Or.inl ?_⟩
    cases heq
    exact ⟨rfl, _, _, Function.update_self _ _ _, rfl, rfl⟩
  | mkdir target hlen absent free alloc =>
    rw [slotFor_of_nameable (hn _ target)]
    obtain ⟨-, hscan⟩ := firstCluster_fat1_range alloc
    refine ⟨h.insert free alloc (Or.inl rfl) rfl rfl rfl (fun c hc => Function.update_of_ne hc _ _)
      (fun _ => by
        rw [Volume.setRoot_data, Volume.setData_data, Function.update_self, dirTable_emptyDirectory hscan]),
      hf.of_root fun f name m _ _ hat => ⟨name, m, ?_, rfl, rfl⟩⟩
    exact live_update_of_live (firstFree_eq_some free).2.2.1 hat
  | @write fd offset buf opened bytes handle inRoot hfd hoff hsize hbytes =>
    rcases hf opened handle with ⟨-, name, m, hat, hattr, hc⟩ | ⟨hp, -⟩
    swap
    · rw [inRoot] at hp
      cases hp
    have hslot : resized buf.size ((volume s).root opened.dirIndex) =
      .live name { m with size := buf.size } := by
      rw [hat]
      rfl
    rw [hslot]
    have hnot : m.attr ≠ attrDir := by
      rw [hattr]
      decide
    refine ⟨h.relabel hat rfl rfl rfl (fun hdir => absurd hdir hnot) rfl rfl fun i n k hi hdir => ?_, ?_⟩
    · -- the file's cluster is no directory's
      apply Function.update_of_ne
      intro heq
      have hsame := h.apart i opened.dirIndex n name k m hi hat (heq.trans hc.symm)
      rw [hsame, hat] at hi
      cases hi
      exact hnot hdir
    · intro f heq
      cases heq
      exact Or.inl ⟨inRoot, name, { m with size := buf.size }, Function.update_self _ _ _, hattr, hc⟩
  | rename source target hlen found absent =>
    obtain ⟨-, -, hat, -⟩ := (lookup_eq_some).mp found
    rw [slotFor_of_nameable (hn _ target)]
    refine ⟨h.relabel hat rfl rfl rfl (fun _ => rfl) rfl rfl fun _ _ _ _ _ => rfl, ?_⟩
    exact hf.of_root fun f name m _ _ hi => live_update_same hat rfl rfl hi
  | @remove path slot name m hname found empty =>
    obtain ⟨-, -, hat, -⟩ := (lookup_eq_some).mp found
    rw [if_pos (h.range _ _ _ hat).1]
    refine ⟨h.remove hat fun hdir => (empty hdir).2, ?_⟩
    split
    · intro f heq
      cases heq
    · next hkeep =>
      refine hf.of_root fun f n k hfile hp hi => ⟨n, k, ?_, rfl, rfl⟩
      have hne : f.dirIndex ≠ slot := by
        intro heq
        rw [hfile] at hkeep
        exact hkeep (decide_eq_true (show OnRoot slot f from ⟨hp, heq⟩))
      rw [Volume.setRoot_root, Function.update_of_ne hne]
      exact hi
  | dirOpenRoot | dirOpen | dirMove | dirClose => exact ⟨h, hf⟩

/-- The command removes the empty directory that the open directory handle is on. -/
def RemovesOpenDir (s : Fs) : Command → Prop
  | .fileRemove path => ∃ name hit d, readPackedName s path = some name ∧ (findName name s).1 = .hit hit ∧
      (directoryEmpty hit.cluster s).1 = .hit true ∧ s.dir = some d ∧ d.cluster = hit.cluster
  | _ => False

theorem dirOk_step {s : Fs} {command : Command} {v : Volume} {file : Option OpenFile} {dir : Option OpenDir}
    (hw : Working s) (hn : Named s command) (hkeep : ¬RemovesOpenDir s command) (h : Tidy (volume s))
    (hf : FileOk (volume s) s.file) (hd : DirOk (volume s) s.dir)
      (he : Effect s command v file dir) : DirOk v dir := by
  cases he with
  | nothing | openRoot | openNested | close => exact hd
  | create target hlen hslash closed absent free alloc | mkdir target hlen absent free alloc =>
    refine hd.of_root fun d i name m _ hat _ => ⟨name, m, ?_, rfl, rfl⟩
    exact live_update_of_live (firstFree_eq_some free).2.2.1 hat
  | @write fd offset buf opened bytes handle inRoot hfd hoff hsize hbytes =>
    rcases hf opened handle with ⟨-, name, m, hat, -⟩ | ⟨hp, -⟩
    swap
    · rw [inRoot] at hp
      cases hp
    have hslot : resized buf.size ((volume s).root opened.dirIndex) =
      .live name { m with size := buf.size } := by
      rw [hat]
      rfl
    rw [hslot]
    exact hd.of_root fun d i n k _ hi _ => live_update_same hat rfl rfl hi
  | rename source target hlen found absent =>
    obtain ⟨-, -, hat, -⟩ := (lookup_eq_some).mp found
    rw [slotFor_of_nameable (hn _ target)]
    exact hd.of_root fun d i n k _ hi _ => live_update_same hat rfl rfl hi
  | @remove path slot name m hname found empty =>
    obtain ⟨-, -, hat, -⟩ := (lookup_eq_some).mp found
    rw [if_pos (h.range _ _ _ hat).1]
    intro d heq
    rcases hd d heq with h0 | ⟨i, n, k, hi, hattr, hc⟩
    · exact Or.inl h0
    by_cases his : i = slot
    swap
    · refine Or.inr ⟨i, n, k, ?_, hattr, hc⟩
      rw [Volume.setRoot_root, Function.update_of_ne his]
      exact hi
    -- the removed entry is the directory of the handle
    subst his
    rw [hat] at hi
    cases hi
    refine absurd ⟨name, ⟨i, m.cluster, m.size, m.attr⟩, d, hname, ?_, ?_, heq, hc.symm⟩ hkeep
    · exact (findName_eq_hit hw).mpr found
    · obtain ⟨h2, hall⟩ := empty (by rw [hattr]; decide)
      obtain ⟨s', hrun, -⟩ := directoryEmpty_spec hw h2
      rw [hrun, hall]
  | dirOpenRoot closed =>
    intro d heq
    cases heq
    exact Or.inl rfl
  | dirOpen closed found isDir hc =>
    obtain ⟨-, -, hat, -⟩ := (lookup_eq_some).mp found
    intro d heq
    cases heq
    exact Or.inr ⟨_, _, _, hat, attr_of_dir h hat isDir, rfl⟩
  | dirMove index =>
    intro d heq
    obtain ⟨d', hd', rfl⟩ := Option.map_eq_some_iff.mp heq
    exact hd d' hd'
  | dirClose =>
    intro d heq
    cases heq

/-! ### Whole runs -/

theorem tidy_of_seeded {s : Fs} (h : Seeded s) : Tidy (volume s) := by
  -- the only entry
  have honly : ∀ i name m, (volume s).root i = .live name m → i = 0 ∧ m = ⟨2, 0, attrDir⟩ := by
    intro i name m hi
    rw [h.root] at hi
    rcases live_of_update hi with ⟨h0, hx⟩ | ⟨-, hx⟩
    · cases hx
      exact ⟨h0, rfl⟩
    · cases hx
  refine ⟨?_, ?_, ?_, ?_, ?_, ?_, ?_, ?_, ?_, ?_⟩
  · intro i name m hi
    rw [(honly i name m hi).2]
    decide
  · intro i name m hi
    rw [(honly i name m hi).2]
    exact Or.inl rfl
  · intro i j n n' m m' hi hj _
    rw [(honly i n m hi).1, (honly j n' m' hj).1]
  · intro i name m hi
    rw [(honly i name m hi).2, h.fat1]
    rfl
  · rw [h.fat1]
    rfl
  · intro c h2 hscan h3 hnone
    have hne : c ≠ 2 := fun heq => hnone 0 configName ⟨2, 0, attrDir⟩ (by rw [h.root]; rfl) heq.symm
    rw [h.fat1, Function.update_of_ne h3, Function.update_of_ne hne, fatHeader, if_neg (by omega),
      if_neg (by omega)]
  · rw [h.fat1, h.fat2]
  · exact ⟨configName, by rw [h.root]; rfl⟩
  · intro i name m hi _
    rw [(honly i name m hi).2, if_pos rfl, h.home, dirTable_homeDirectory]
  · intro i name m hi
    rw [(honly i name m hi).1]
    decide

theorem inRange_of_tidy {s : Fs} (h : Tidy (volume s)) (hf : FileOk (volume s) s.file) : InRange s := by
  refine ⟨fun i name m hi => (h.range i name m hi).2.1, fun f heq hp => ?_⟩
  rcases hf f heq with ⟨-, name, m, hat, -, hc⟩ | ⟨h2, -⟩
  · rw [← hc]
    exact ⟨h.inside _ _ _ hat, (h.range _ _ _ hat).1⟩
  · rw [hp] at h2
    cases h2

theorem Served.tidy {may : Fs → Command → Prop} (hn : ∀ s command, may s command → Named s command) {s : Fs}
    (h : Served may s) : Tidy (volume s) ∧ FileOk (volume s) s.file := by
  refine Served.invariant (I := fun v file _ => Tidy v ∧ FileOk v file) ?_ ?_ ?_ h
  · intro s hs
    exact ⟨tidy_of_seeded hs, fun f heq => by cases heq⟩
  · intro s hs
    exact inRange_of_tidy hs.1 hs.2
  · intro s command v file dir _ hm hs he
    exact tidy_step (hn s command hm) hs.1 hs.2 he

/-- Where an entry is: in the root, or in the directory of a root slot. -/
inductive Place
  | root (index : Nat)
  | inside (parent index : Nat)
  deriving DecidableEq

/-- A live entry. Those a directory has for itself and its parent are no entries of their own. -/
def LiveAt (v : Volume) : Place → Name → Meta → Prop
  | .root index, name, m => v.root index = .live name m
  | .inside parent index, name, m => ∃ dirName d, v.root parent = .live dirName d ∧ d.attr &&& attrDir ≠ 0 ∧
      dirTable (v.data d.cluster) index = .live name m ∧ dotted name = false

/-- The entries, the tables and the handles agree on who owns which cluster. -/
structure Allocated (s : Fs) : Prop where
  owns : ∀ p name m, LiveAt (volume s) p name m → 2 ≤ m.cluster ∧ m.cluster < clusterScan
  alone : ∀ p p' n n' m m', LiveAt (volume s) p n m → LiveAt (volume s) p' n' m' →
    m.cluster = m'.cluster → p = p'
  taken : ∀ p name m, LiveAt (volume s) p name m →
    (volume s).fat1 m.cluster = 0xFFFF ∧ (volume s).fat2 m.cluster = 0xFFFF
  free : ∀ c, 2 ≤ c → c < clusterScan → (∀ p name m, LiveAt (volume s) p name m → m.cluster ≠ c) →
    (volume s).fat1 c = 0 ∧ (volume s).fat2 c = 0
  agree : ∀ c, (volume s).fat1 c = (volume s).fat2 c
  file : ∀ f, s.file = some f → ∃ p name m, LiveAt (volume s) p name m ∧ m.cluster = f.cluster
  dir : ∀ d, s.dir = some d → d.cluster = 0 ∨ ∃ p name m, LiveAt (volume s) p name m ∧ m.cluster = d.cluster

/-- The live entries of a tidy volume. -/
theorem Tidy.live {v : Volume} (h : Tidy v) {p : Place} {name : Name} {m : Meta} (hp : LiveAt v p name m) :
    (∃ i, p = .root i ∧ v.root i = .live name m) ∨
      (p = .inside 0 2 ∧ m = ⟨3, hostname.length, attrArchive⟩) := by
  cases p with
  | root i => exact Or.inl ⟨i, rfl, hp⟩
  | inside parent index =>
    obtain ⟨dirName, d, hat, hdir, hlive, hdots⟩ := hp
    obtain ⟨homeName, hhome⟩ := h.home
    rw [h.dirs parent dirName d hat (attr_of_dir h hat hdir)] at hlive
    split at hlive
    · next h2 =>
      have h0 := h.apart parent 0 dirName homeName d _ hat hhome h2
      rcases homeTable_live hlive with ⟨hdot, -⟩ | ⟨hindex, hm⟩
      · rw [hdots] at hdot
        cases hdot
      · rw [h0, hindex]
        exact Or.inr ⟨rfl, hm⟩
    · have hdot := (emptyTable_live hlive).1
      rw [hdots] at hdot
      cases hdot

theorem Tidy.live_hostname {v : Volume} (h : Tidy v) :
    LiveAt v (.inside 0 2) hostnameName ⟨3, hostname.length, attrArchive⟩ := by
  obtain ⟨homeName, hhome⟩ := h.home
  refine ⟨homeName, _, hhome, by decide, ?_, by decide⟩
  rw [h.dirs 0 _ _ hhome rfl]
  rfl

theorem Tidy.allocated {s : Fs} (h : Tidy (volume s)) (hf : FileOk (volume s) s.file)
    (hd : DirOk (volume s) s.dir) :
    Allocated s := by
  have htaken : ∀ p name m, LiveAt (volume s) p name m → (volume s).fat1 m.cluster = 0xFFFF := by
    intro p name m hp
    rcases h.live hp with ⟨i, -, hi⟩ | ⟨-, hm⟩
    · exact h.taken i name m hi
    · rw [hm]
      exact h.nested
  refine ⟨?_, ?_, ?_, ?_, ?_, ?_, ?_⟩
  · intro p name m hp
    rcases h.live hp with ⟨i, -, hi⟩ | ⟨-, hm⟩
    · obtain ⟨h2, hscan, -⟩ := h.range i name m hi
      exact ⟨h2, hscan⟩
    · rw [hm]
      decide
  · intro p p' n n' m m' hp hp' heq
    rcases h.live hp with ⟨i, rfl, hi⟩ | ⟨rfl, hm⟩
    · rcases h.live hp' with ⟨j, rfl, hj⟩ | ⟨rfl, hm'⟩
      · rw [h.apart i j n n' m m' hi hj heq]
      · rw [hm'] at heq
        exact absurd heq (h.range i n m hi).2.2
    · rcases h.live hp' with ⟨j, rfl, hj⟩ | ⟨rfl, -⟩
      · rw [hm] at heq
        exact absurd heq.symm (h.range j n' m' hj).2.2
      · rfl
  · intro p name m hp
    rw [h.agree]
    exact ⟨htaken p name m hp, htaken p name m hp⟩
  · intro c h2 hscan hnone
    have hzero : (volume s).fat1 c = 0 := by
      apply h.free c h2 hscan
      · exact Ne.symm (hnone _ _ _ h.live_hostname)
      · intro i name m hi
        exact hnone (.root i) name m hi
    rw [h.agree]
    exact ⟨hzero, hzero⟩
  · intro c
    rw [h.agree]
  · intro f heq
    rcases hf f heq with ⟨-, name, m, hat, -, hc⟩ | ⟨-, -, hc⟩
    · exact ⟨.root f.dirIndex, name, m, hat, hc⟩
    · exact ⟨_, _, _, h.live_hostname, hc.symm⟩
  · intro d heq
    rcases hd d heq with h0 | ⟨i, name, m, hat, -, hc⟩
    · exact Or.inl h0
    · exact Or.inr ⟨.root i, name, m, hat, hc⟩

/-- From a formatted and seeded volume on, under any commands whose new names are live ones and that do not
remove the open directory, the clusters are where the entries, the tables and the handles say. -/
theorem allocated_of_served {s : Fs} (h : Served (fun s command => Named s command ∧
    ¬RemovesOpenDir s command) s) :
    Allocated s := by
  have hall : (Tidy (volume s) ∧ FileOk (volume s) s.file) ∧ DirOk (volume s) s.dir := by
    refine Served.invariant (I := fun v file dir => (Tidy v ∧ FileOk v file) ∧ DirOk v dir) ?_ ?_ ?_ h
    · intro s hs
      exact ⟨⟨tidy_of_seeded hs, fun f heq => by cases heq⟩, fun d heq => by cases heq⟩
    · intro s hs
      exact inRange_of_tidy hs.1.1 hs.1.2
    · intro s command v file dir hw hm hs he
      exact ⟨tidy_step hm.1 hs.1.1 hs.1.2 he, dirOk_step hw hm.1 hm.2 hs.1.1 hs.1.2 hs.2 he⟩
  exact hall.1.1.allocated hall.1.2 hall.2

/-- A blank device, formatted and seeded. -/
def seeded : Fs := (andThen (loadBlock 0) (andThen formatVolume seedHostname) blank).2

theorem seeded_served (may : Fs → Command → Prop) : Served may seeded := by
  have hrun : (andThen (loadBlock 0) (andThen formatVolume seedHostname) blank).1 = true := by
    decide +kernel
  have heta : ∀ p : Bool × Fs, p.1 = true → p = (true, p.2) := fun p h => by rw [← h]
  exact .start (fun _ => rfl) rfl rfl rfl rfl (heta _ hrun)

/-- The seeded server with a share that holds `byte` everywhere. -/
def shared (byte : UInt8) : Fs := { seeded with share := fun _ => byte, completions := seeded.completions.drop 0 }

theorem shared_served (may : Fs → Command → Prop) (byte : UInt8) : Served may (shared byte) :=
  (seeded_served may).client (fun _ => byte) 0

/-- The directory `d` made. -/
def made : Fs := (serveOne 1 (.dirCreate ⟨0, 1⟩) (shared 0x64)).2

theorem named_made : Named (shared 0x64) (.dirCreate ⟨0, 1⟩) := by
  have htarget : readPackedName (shared 0x64) ⟨0, 1⟩ = some (0x44 :: List.replicate 10 space) := by
    decide +kernel
  intro name hname
  rw [Command.target, htarget] at hname
  cases hname
  decide

theorem allocated_made : Allocated made := by
  refine allocated_of_served (.serve (shared_served _ _) 1 _ ⟨named_made, ?_⟩)
  intro hremoves
  exact hremoves

/-- The directory opened, and then removed. -/
def removedOpen : Fs := (serveOne 3 (.fileRemove ⟨0, 1⟩) (serveOne 2 (.dirOpen ⟨0, 1⟩) made).2).2

/-- There the directory handle is on a cluster that both tables have as free. -/
theorem removedOpen_not_allocated : Served Named removedOpen ∧ ¬Allocated removedOpen := by
  have hnone : ∀ s command, Command.target s command = none → Named s command := by
    intro s command hnone name hname
    rw [hnone] at hname
    cases hname
  constructor
  · have hmade : Served Named made := .serve (shared_served _ _) 1 _ named_made
    exact .serve (.serve hmade 2 _ (hnone _ _ rfl)) 3 _ (hnone _ _ rfl)
  · intro h
    have hdir : removedOpen.dir = some ⟨4, 0, entriesPerSector⟩ := by decide +kernel
    have hfat : (volume removedOpen).fat1 4 = 0 := by decide +kernel
    rcases h.dir _ hdir with h0 | ⟨p, name, m, hp, hc⟩
    · cases h0
    · have htaken := (h.taken p name m hp).1
      rw [hc, hfat] at htaken
      cases htaken

end Lerux.FatFs

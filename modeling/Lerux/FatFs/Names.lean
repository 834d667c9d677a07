import Lerux.Base.Text
import Lerux.FatFs.Listing

/-!
# Names and how they are shown

`DIR_READ` shows a packed name without its padding: the base up to the first space, a dot, and the
extension up to the first space. `pack_name` takes any byte but a dot into the base, so a name with a space
inside is stored and then shown cut off, and a name with a slash is stored by `rename` and `mkdir` although
`FILE_OPEN` takes a path with a slash for one of two components. A name whose first byte is `0x00` makes an
end mark in the middle of the table. Under commands that make no such name, every name that is shown leads
back to its entry.
-/

namespace Lerux.FatFs

open SlotTable
open scoped Along

/-! ### Packing what is shown -/

/-- Spaces only as padding at the end. -/
def Tight (l : List UInt8) : Prop := ∀ b ∈ l.dropWhile (· ≠ space), b = space

instance (l : List UInt8) : Decidable (Tight l) := inferInstanceAs (Decidable (∀ b ∈ _, _))

/-- A name with a base, and with spaces only as padding of the base and of the extension. -/
def Legible (name : Name) : Prop := Tight (name.take 8) ∧ Tight (name.drop 8) ∧ name.getD 0 0 ≠ space

instance (name : Name) : Decidable (Legible name) := inferInstanceAs (Decidable (_ ∧ _ ∧ _))

theorem upper_upper (b : UInt8) : upper (upper b) = upper b := by
  unfold upper
  split
  · next h =>
    rw [if_neg]
    rw [UInt8.le_iff_toNat_le, UInt8.le_iff_toNat_le] at h
    have h1 : UInt8.toNat 0x61 = 97 := rfl
    have h2 : UInt8.toNat 0x7A = 122 := rfl
    have h3 : UInt8.toNat 0x20 = 32 := rfl
    rintro ⟨hlow, -⟩
    rw [UInt8.le_iff_toNat_le, UInt8.toNat_sub_of_le _ _ (by rw [UInt8.le_iff_toNat_le]; omega)] at hlow
    omega
  · next h => rfl

section padding

variable {width : Nat} {bytes : List UInt8}

theorem upper_of_mem_padded {b : UInt8} (h : b ∈ padded width bytes) : upper b = b := by
  unfold padded at h
  rcases List.mem_append.mp h with h | h
  · obtain ⟨a, -, rfl⟩ := List.mem_map.mp h
    exact upper_upper a
  · rw [(List.mem_replicate.mp h).2]
    decide

/-- The part of a field before its padding. -/
def unpadded (l : List UInt8) : List UInt8 := l.takeWhile (· ≠ space)

theorem unpadded_length_le : (unpadded (padded width bytes)).length ≤ bytes.length := by
  unfold unpadded padded
  rw [List.takeWhile_append]
  split
  · have hspaces : (List.replicate (width - bytes.length) space).takeWhile (· ≠ space) = [] := by
      cases width - bytes.length with
      | zero => rfl
      | succ n => simp [List.replicate_succ]
    rw [hspaces, List.append_nil, List.length_map]
  · refine (List.takeWhile_sublist _).length_le.trans ?_
    rw [List.length_map]

theorem mem_of_mem_unpadded {l : List UInt8} {b : UInt8} (h : b ∈ unpadded l) : b ∈ l :=
  (List.takeWhile_sublist _).mem h

/-- A tight field is its bytes before the padding, padded again. -/
theorem padded_unpadded (hwidth : bytes.length ≤ width) (h : Tight (padded width bytes)) :
    padded width (unpadded (padded width bytes)) = padded width bytes := by
  have hmap : (unpadded (padded width bytes)).map upper = unpadded (padded width bytes) := by
    conv => rhs; rw [← List.map_id (unpadded (padded width bytes))]
    apply List.map_congr_left
    intro b hb
    exact upper_of_mem_padded (mem_of_mem_unpadded hb)
  have hsplit : padded width bytes = unpadded (padded width bytes) ++
    (padded width bytes).dropWhile (· ≠ space) :=
    List.takeWhile_append_dropWhile.symm
  have hlen : (unpadded (padded width bytes)).length +
    ((padded width bytes).dropWhile (· ≠ space)).length = width := by
    rw [← List.length_append, ← hsplit, padded_length hwidth]
  have hrest : (padded width bytes).dropWhile (· ≠ space) =
      List.replicate (width - (unpadded (padded width bytes)).length) space := by
    refine List.eq_replicate_iff.mpr ⟨by omega, h⟩
  calc padded width (unpadded (padded width bytes))
      = (unpadded (padded width bytes)).map upper ++
          List.replicate (width - (unpadded (padded width bytes)).length) space := rfl
    _ = unpadded (padded width bytes) ++ (padded width bytes).dropWhile (· ≠ space) := by rw [hmap, hrest]
    _ = padded width bytes := hsplit.symm

end padding

/-- A legible name is packed from the way it is shown. -/
theorem packName_shownName {raw : List UInt8} {name : Name} (h : packName raw = some name)
    (hlegible : Legible name) :
    packName (shownName name) = some name := by
  obtain ⟨base, ext, hparts, hdot, -, hbase, hext, hlen, rfl⟩ := (packName_eq_some).mp h
  obtain ⟨htake, hdrop, hhead⟩ := hlegible
  have hbaseLen := padded_length hbase
  have hextLen := padded_length hext
  have hbaseEq : (padded 8 base ++ padded 3 ext).take 8 = padded 8 base := List.take_left' hbaseLen
  have hextEq : (padded 8 base ++ padded 3 ext).drop 8 = padded 3 ext := List.drop_left' hbaseLen
  rw [hbaseEq] at htake
  rw [hextEq] at hdrop
  have hbase' : (unpadded (padded 8 base)).length ≤ base.length := unpadded_length_le
  have hext' : (unpadded (padded 3 ext)).length ≤ ext.length := unpadded_length_le
  have hdot' : dot ∉ unpadded (padded 8 base) := fun hin =>
    hdot ((mem_padded (by decide) (by decide)).mp (mem_of_mem_unpadded hin))
  have hne : unpadded (padded 8 base) ≠ [] := by
    cases hp : padded 8 base with
    | nil =>
      rw [hp] at hbaseLen
      cases hbaseLen
    | cons b rest =>
      rw [hp] at hhead
      have hb : b ≠ space := hhead
      simp [unpadded, hb]
  have hgetD : (padded 8 base ++ padded 3 ext).getD 8 0 = (padded 3 ext).getD 0 0 := by
    rw [List.getD_eq_getElem?_getD, List.getElem?_append_right (by omega), hbaseLen,
      List.getD_eq_getElem?_getD]
  unfold shownName
  rw [hbaseEq, hextEq, hgetD]
  split
  · next hspace =>
    have hdotted : raw.length = base.length + 1 + ext.length := by
      cases hparts with
      | plain => exact absurd (by decide) hspace
      | dotted =>
        rw [List.length_append, List.length_cons]
        omega
    refine (packName_eq_some).mpr ⟨unpadded (padded 8 base), unpadded (padded 3 ext), .dotted _ _,
      hdot', hne, by omega,
      by omega, ?_, ?_⟩
    · rw [List.length_append, List.length_cons]
      unfold unpadded at hbase' hext'
      omega
    · rw [padded_unpadded hbase htake, padded_unpadded hext hdrop]
  · next hspace =>
    rw [not_not] at hspace
    have hnil : unpadded (padded 3 ext) = [] := by
      cases hp : padded 3 ext with
      | nil => rfl
      | cons b rest =>
        rw [hp] at hspace
        have hb : b = space := hspace
        simp [unpadded, hb]
    have hempty : padded 3 ext = padded 3 [] := by
      rw [← padded_unpadded hext hdrop, hnil]
    rw [List.append_nil]
    refine (packName_eq_some).mpr ⟨unpadded (padded 8 base), [], .plain _, hdot', hne,
      by omega, by simp, ?_, ?_⟩
    · unfold unpadded at hbase'
      omega
    · rw [padded_unpadded hbase htake, hempty]

/-! ### The root as an index of names -/

theorem readPackedName_raw {s : Fs} {path : Buffer} {name : Name} (h : readPackedName s path = some name) :
    ∃ raw, packName raw = some name := by
  rw [readPackedName] at h
  split at h
  · cases h
  · split at h
    · cases h
    · exact ⟨_, h⟩

theorem target_raw {s : Fs} {command : Command} {name : Name} (h : command.target s = some name) :
    ∃ raw, packName raw = some name := by
  cases command with
  | fileOpen path flags =>
    rw [Command.target] at h
    split at h
    · obtain ⟨raw, -, hname⟩ := Option.bind_eq_some_iff.mp h
      exact ⟨raw, hname⟩
    · cases h
  | dirCreate path => exact readPackedName_raw h
  | rename oldPath newPath => exact readPackedName_raw h
  | fileClose | fileWrite | fileRead | stat | fileRemove | dirOpen | dirRead | dirClose | other => cases h

/-- Every live root entry is found under its name, and the name is a packed one. -/
structure Indexed (v : Volume) : Prop where
  compact : Compact v.root
  distinct : Distinct v.root
  packed : ∀ i name m, v.root i = .live name m → ∃ raw, packName raw = some name
  inside : ∀ i name m, v.root i = .live name m → i < rootEntries

/-- The slot that a command writes when it makes or renames an entry. -/
def Command.slot (s : Fs) : Command → Option Nat
  | .fileOpen _ _ | .dirCreate _ => firstFree (volume s).root rootEntries 0
  | .rename oldPath _ => (readPackedName s oldPath).bind fun old =>
    (lookup (volume s).root old rootEntries 0).map Prod.fst
  | _ => none

/-- A name that starts with the end mark goes only to an entry behind which nothing is used. -/
def NoHole (s : Fs) (command : Command) : Prop :=
  ∀ name slot, command.target s = some name → command.slot s = some slot → name.getD 0 0 = 0x00 →
    ∀ j, slot < j → (volume s).root j = .vacant

/-- Names that make a live entry make no hole. -/
theorem Named.noHole {s : Fs} {command : Command} (h : Named s command) : NoHole s command := by
  intro name slot htarget _ h0
  exact absurd h0 (h name htarget).1

section indexed

variable {v v' : Volume}

theorem Indexed.found (h : Indexed v) {i : Nat} {name : Name} {m : Meta} (hat : v.root i = .live name m) :
    lookup v.root name rootEntries 0 = some (i, m) :=
      lookup_of_live h.compact h.distinct (h.inside i name m hat) hat

theorem live_of_slotFor {name n : Name} {m k : Meta} (h : slotFor name m = .live n k) :
    Nameable name ∧ n = name ∧ k = m := by
  have hn : Nameable name := by
    by_contra hnot
    exact slotFor_not_live hnot ⟨n, k, h⟩
  rw [slotFor_of_nameable hn] at h
  cases h
  exact ⟨hn, rfl, rfl⟩

/-- An entry written under a name that no other entry has. -/
theorem Indexed.put (h : Indexed v) {slot : Nat} {name : Name} {m : Meta} (hslot : slot < rootEntries)
    (hraw : ∃ raw, packName raw = some name) (hfree : firstFree v.root rootEntries 0 = some slot ∨
      v.root slot ≠ .vacant)
    (hhole : name.getD 0 0 = 0x00 → ∀ j, slot < j → v.root j = .vacant)
    (hnew : ∀ i w, i ≠ slot → v.root i ≠ .live name w)
    (hroot : v'.root = Function.update v.root slot (slotFor name m)) : Indexed v' := by
  refine ⟨?_, ?_, ?_, ?_⟩
  · rw [hroot]
    by_cases h0 : name.getD 0 0 = 0x00
    · rw [slotFor, if_pos h0]
      exact h.compact.vacate (hhole h0)
    · have hx : slotFor name m ≠ .vacant := by
        rw [slotFor, if_neg h0]
        split
        · intro hx
          cases hx
        · intro hx
          cases hx
      rcases hfree with hfree | hused
      · exact h.compact.insert hfree hx
      · exact h.compact.change hused hx
  · rw [hroot]
    refine h.distinct.update fun key value hx i w hi => ?_
    obtain ⟨-, rfl, -⟩ := live_of_slotFor hx
    exact hnew i w hi
  · intro i n k hi
    rw [hroot] at hi
    rcases live_of_update hi with ⟨-, hx⟩ | ⟨-, hi⟩
    · obtain ⟨-, rfl, -⟩ := live_of_slotFor hx
      exact hraw
    · exact h.packed i n k hi
  · intro i n k hi
    rw [hroot] at hi
    rcases live_of_update hi with ⟨his, -⟩ | ⟨-, hi⟩
    · omega
    · exact h.inside i n k hi

theorem Indexed.delete (h : Indexed v) {slot : Nat} (hused : v.root slot ≠ .vacant)
    (hroot : v'.root = Function.update v.root slot .deleted) : Indexed v' := by
  have hwas : ∀ i n k, v'.root i = .live n k → v.root i = .live n k := by
    intro i n k hi
    rw [hroot] at hi
    rcases live_of_update hi with ⟨-, hx⟩ | ⟨-, hi⟩
    · cases hx
    · exact hi
  refine ⟨?_, ?_, fun i n k hi => h.packed i n k (hwas i n k hi),
    fun i n k hi => h.inside i n k (hwas i n k hi)⟩
  · rw [hroot]
    exact h.compact.change hused (by intro hx; cases hx)
  · intro i j key w w' hi hj
    exact h.distinct i j key w w' (hwas i _ _ hi) (hwas j _ _ hj)

theorem resized_live {size : Nat} {x : Slot Name Meta} {name : Name} {m : Meta}
    (h : resized size x = .live name m) :
    ∃ k, x = .live name k ∧ k.cluster = m.cluster ∧ k.attr = m.attr := by
  cases x with
  | vacant | deleted => cases h
  | live n k =>
    cases h
    exact ⟨k, rfl, rfl, rfl⟩

/-- A new size in an entry. -/
theorem live_of_resize {slot size i : Nat} {name : Name} {m : Meta}
    (hroot : v'.root = Function.update v.root slot (resized size (v.root slot)))
      (h : v'.root i = .live name m) :
    ∃ k, v.root i = .live name k ∧ k.cluster = m.cluster ∧ k.attr = m.attr := by
  rw [hroot] at h
  rcases live_of_update h with ⟨rfl, hx⟩ | ⟨-, hi⟩
  · exact resized_live hx
  · exact ⟨m, hi, rfl, rfl⟩

theorem Indexed.resize (h : Indexed v) {slot size : Nat}
    (hroot : v'.root = Function.update v.root slot (resized size (v.root slot))) : Indexed v' := by
  refine ⟨?_, ?_, ?_, ?_⟩
  · rw [hroot]
    cases hx : v.root slot with
    | vacant =>
      have hsame : resized size .vacant = v.root slot := hx.symm
      rw [hsame, Function.update_eq_self]
      exact h.compact
    | deleted =>
      have hsame : resized size .deleted = v.root slot := hx.symm
      rw [hsame, Function.update_eq_self]
      exact h.compact
    | live name m => exact h.compact.change (by rw [hx]; intro hv; cases hv) (by intro hv; cases hv)
  · intro i j key w w' hi hj
    obtain ⟨k, hi, -⟩ := live_of_resize hroot hi
    obtain ⟨k', hj, -⟩ := live_of_resize hroot hj
    exact h.distinct i j key k k' hi hj
  · intro i n m hi
    obtain ⟨k, hi, -⟩ := live_of_resize hroot hi
    exact h.packed i n k hi
  · intro i n m hi
    obtain ⟨k, hi, -⟩ := live_of_resize hroot hi
    exact h.inside i n k hi

end indexed

theorem indexed_step {s : Fs} {command : Command} {v : Volume} {file : Option OpenFile}
    {dir : Option OpenDir}
    (hhole : NoHole s command) (h : Indexed (volume s)) (he : Effect s command v file dir) : Indexed v := by
  cases he with
  | nothing | openRoot | openNested | close | dirOpenRoot | dirOpen | dirMove | dirClose => exact h
  | create target hlen hslash closed absent free alloc =>
    exact h.put (slot_lt free) (target_raw target) (Or.inl free) (hhole _ _ target free)
      (fun i w _ hi => not_live_of_lookup_eq_none h.compact absent (h.inside i _ w hi) hi) rfl
  | mkdir target hlen absent free alloc =>
    exact h.put (slot_lt free) (readPackedName_raw target) (Or.inl free) (hhole _ _ target free)
      (fun i w _ hi => not_live_of_lookup_eq_none h.compact absent (h.inside i _ w hi) hi) rfl
  | write handle inRoot hfd hoff hsize hbytes => exact h.resize rfl
  | @rename oldPath newPath slot old new m source target hlen found absent =>
    obtain ⟨-, hlt, hat, -⟩ := (lookup_eq_some).mp found
    have hslot : Command.slot s (.rename oldPath newPath) = some slot := by
      rw [Command.slot, source, Option.bind_some, found]
      rfl
    refine h.put (by omega) (readPackedName_raw target) (Or.inr (by rw [hat]; intro hx; cases hx))
      (hhole _ _ target hslot) (fun i w hi hlive => ?_) rfl
    rcases absent with rfl | habsent
    · exact hi (h.distinct i slot _ _ _ hlive hat)
    · exact not_live_of_lookup_eq_none h.compact habsent (h.inside i _ w hlive) hlive
  | @remove path slot name m hname found empty =>
    obtain ⟨-, -, hat, -⟩ := (lookup_eq_some).mp found
    have hused : (volume s).root slot ≠ .vacant := by
      rw [hat]
      intro hx
      cases hx
    refine h.delete hused ?_
    split
    · rfl
    · rfl

theorem indexed_of_seeded {s : Fs} (h : Seeded s) : Indexed (volume s) := by
  have honly : ∀ i name m, (volume s).root i = .live name m → i = 0 ∧ name = configName := by
    intro i name m hi
    rw [h.root] at hi
    rcases live_of_update hi with ⟨h0, hx⟩ | ⟨-, hx⟩
    · cases hx
      exact ⟨h0, rfl⟩
    · cases hx
  refine ⟨?_, ?_, ?_, ?_⟩
  · intro i j hij hi
    rw [h.root] at hi ⊢
    have hne : i ≠ 0 := by
      rintro rfl
      cases hi
    rw [Function.update_of_ne (by omega)]
  · intro i j key w w' hi hj
    rw [(honly i key w hi).1, (honly j key w' hj).1]
  · intro i name m hi
    rw [(honly i name m hi).2]
    exact ⟨configPath, by decide⟩
  · intro i name m hi
    rw [(honly i name m hi).1]
    decide

/-! ### Names that lead back -/

/-- The packed form of the path `/`, which `STAT` takes for the root. -/
def rootName : Name := padded 8 [slash] ++ padded 3 []

/-- The command renames a file. -/
def RenamesFile (s : Fs) : Command → Prop
  | .rename oldPath _ => ∃ old slot m, readPackedName s oldPath = some old ∧
      lookup (volume s).root old rootEntries 0 = some (slot, m) ∧ m.attr &&& attrDir = 0
  | _ => False

/-- What the names of a run are asked: no hole in the table, spaces only as padding, no directory
called `/`, and no slash in the new name of a file. A name that starts with the byte of a deleted
entry makes no entry and is asked nothing more. -/
def Presentable (s : Fs) (command : Command) : Prop :=
  NoHole s command ∧ ∀ name, command.target s = some name → Nameable name →
    Legible name ∧ name ≠ rootName ∧ (RenamesFile s command → slash ∉ name)

/-- The root of such a run. -/
structure Presented (v : Volume) : Prop where
  indexed : Indexed v
  ranged : ∀ i name m, v.root i = .live name m → 2 ≤ m.cluster ∧ m.cluster < clusterScan
  legible : ∀ i name m, v.root i = .live name m → Legible name ∧ name ≠ rootName
  plain : ∀ i name m, v.root i = .live name m → m.attr &&& attrDir = 0 → slash ∉ name

/-- The handles of any run. -/
structure HandlesFit (file : Option OpenFile) (dir : Option OpenDir) : Prop where
  file : ∀ f, file = some f → f.parent = 0 → f.dirIndex < rootEntries ∧ 2 ≤ f.cluster
  dir : ∀ d, dir = some d → d.Fits

theorem presented_step {s : Fs} {command : Command} {v : Volume} {file : Option OpenFile}
    {dir : Option OpenDir}
    (hp : Presentable s command) (h : Presented (volume s))
      (he : Effect s command v file dir) : Presented v := by
  have hindexed := indexed_step hp.1 h.indexed he
  -- an entry written, and the others as they were
  have hput : ∀ (slot : Nat) (name : Name) (m : Meta), command.target s = some name →
      (2 ≤ m.cluster ∧ m.cluster < clusterScan) → (Nameable name → m.attr &&& attrDir = 0 → slash ∉ name) →
      v.root = Function.update (volume s).root slot (slotFor name m) → Presented v := by
    intro slot name m htarget hrange hplain hroot
    refine ⟨hindexed, fun i n k hi => ?_, fun i n k hi => ?_, fun i n k hi => ?_⟩
    all_goals
      rw [hroot] at hi
      rcases live_of_update hi with ⟨-, hx⟩ | ⟨-, hi⟩
    · obtain ⟨-, -, rfl⟩ := live_of_slotFor hx
      exact hrange
    · exact h.ranged i n k hi
    · obtain ⟨hn, rfl, -⟩ := live_of_slotFor hx
      obtain ⟨hlegible, hne, -⟩ := hp.2 _ htarget hn
      exact ⟨hlegible, hne⟩
    · exact h.legible i n k hi
    · obtain ⟨hn, rfl, rfl⟩ := live_of_slotFor hx
      exact hplain hn
    · exact h.plain i n k hi
  cases he with
  | nothing | openRoot | openNested | close | dirOpenRoot | dirOpen | dirMove | dirClose => exact h
  | create target hlen hslash closed absent free alloc =>
    exact hput _ _ _ target (firstCluster_fat1_range alloc) (fun _ _ => hslash) rfl
  | mkdir target hlen absent free alloc =>
    exact hput _ _ _ target (firstCluster_fat1_range alloc)
      (fun _ hfile => absurd (show attrDir &&& attrDir = 0 from hfile) (by decide)) rfl
  | @write fd offset buf opened bytes handle inRoot hfd hoff hsize hbytes =>
    refine ⟨hindexed, fun i n k hi => ?_, fun i n k hi => ?_, fun i n k hi => ?_⟩
    all_goals obtain ⟨k', hi, hc, hattr⟩ := live_of_resize rfl hi
    · rw [← hc]
      exact h.ranged i n k' hi
    · exact h.legible i n k' hi
    · rw [← hattr]
      exact h.plain i n k' hi
  | @rename oldPath newPath slot old new m source target hlen found absent =>
    obtain ⟨-, -, hat, -⟩ := (lookup_eq_some).mp found
    refine hput slot new m target (h.ranged slot old m hat) (fun hn hfile => ?_) rfl
    exact (hp.2 new target hn).2.2 ⟨old, slot, m, source, found, hfile⟩
  | @remove path slot name m hname found empty =>
    have hroot : ((if 2 ≤ m.cluster then (volume s).setFat m.cluster 0
      else volume s).setRoot slot .deleted).root =
        Function.update (volume s).root slot .deleted := by
      split
      · rfl
      · rfl
    have hwas : ∀ i n k, ((if 2 ≤ m.cluster then (volume s).setFat m.cluster 0
      else volume s).setRoot slot .deleted).root i =
        .live n k → (volume s).root i = .live n k := by
      intro i n k hi
      rw [hroot] at hi
      rcases live_of_update hi with ⟨-, hx⟩ | ⟨-, hi⟩
      · cases hx
      · exact hi
    exact ⟨hindexed, fun i n k hi => h.ranged i n k (hwas i n k hi),
      fun i n k hi => h.legible i n k (hwas i n k hi),
      fun i n k hi => h.plain i n k (hwas i n k hi)⟩

theorem handlesFit_step {s : Fs} {command : Command} {v : Volume} {file : Option OpenFile}
    {dir : Option OpenDir}
    (h : HandlesFit s.file s.dir) (he : Effect s command v file dir) : HandlesFit file dir := by
  -- the file handle after a successful open, and a directory handle that was closed
  have hopen : ∀ f : OpenFile, (f.parent = 0 → f.dirIndex < rootEntries ∧ 2 ≤ f.cluster) →
    HandlesFit (some f) s.dir := by
    intro f hf
    refine ⟨fun g heq => ?_, h.dir⟩
    cases heq
    exact hf
  have hnone : HandlesFit none s.dir := by
    refine ⟨fun g heq => ?_, h.dir⟩
    cases heq
  cases he with
  | nothing | mkdir | rename => exact h
  | openRoot hraw hslash hname closed found plain hc =>
    obtain ⟨-, hlt, -⟩ := (lookup_eq_some).mp found
    exact hopen _ fun _ => ⟨by dsimp only; omega, hc⟩
  | openNested closed parent isDir hp found plain hc =>
    refine hopen _ fun h0 => ?_
    dsimp only at h0
    omega
  | close => exact hnone
  | create target hlen hslash closed absent free alloc =>
    exact hopen _ fun _ => ⟨slot_lt free, (firstCluster_fat1_range alloc).1⟩
  | @write fd offset buf opened bytes handle inRoot hfd hoff hsize hbytes =>
    exact hopen _ (h.file opened handle)
  | remove hname found empty =>
    split
    · exact hnone
    · exact h
  | dirOpenRoot closed =>
    refine ⟨h.file, fun d heq => ?_⟩
    cases heq
    exact Or.inl ⟨rfl, rfl⟩
  | dirOpen closed found isDir hc =>
    refine ⟨h.file, fun d heq => ?_⟩
    cases heq
    exact Or.inr ⟨hc, rfl⟩
  | dirMove index =>
    refine ⟨h.file, fun d heq => ?_⟩
    obtain ⟨d', hd', rfl⟩ := Option.map_eq_some_iff.mp heq
    exact h.dir d' hd'
  | dirClose =>
    refine ⟨h.file, fun d heq => ?_⟩
    cases heq

theorem Served.presented {s : Fs} (h : Served Presentable s) : Presented (volume s) ∧
    HandlesFit s.file s.dir := by
  refine Served.invariant (I := fun v file dir => Presented v ∧ HandlesFit file dir) ?_ ?_ ?_ h
  · intro s hs
    have honly : ∀ i name m, (volume s).root i = .live name m → name = configName ∧
      m = ⟨2, 0, attrDir⟩ := by
      intro i name m hi
      rw [hs.root] at hi
      rcases live_of_update hi with ⟨-, hx⟩ | ⟨-, hx⟩
      · cases hx
        exact ⟨rfl, rfl⟩
      · cases hx
    refine ⟨⟨indexed_of_seeded hs, fun i name m hi => ?_, fun i name m hi => ?_, fun i name m hi => ?_⟩,
      ⟨fun f heq => ?_, fun d heq => ?_⟩⟩
    · rw [(honly i name m hi).2]
      decide
    · rw [(honly i name m hi).1]
      decide
    · rw [(honly i name m hi).1]
      intro _
      decide
    · cases heq
    · cases heq
  · intro s hs
    exact ⟨fun i name m hi => (hs.1.ranged i name m hi).2, hs.2.file⟩
  · intro s command v file dir _ hm hs he
    exact ⟨presented_step hm hs.1 he, handlesFit_step hs.2 he⟩

/-- A path with these bytes leads to the root entry `slot`: `FILE_OPEN` for reading, when it is a
file and no file is open, and `STAT`, whose record has the number of the entry. -/
structure Resolves (s : Fs) (slot : Nat) (m : Meta) (raw : List UInt8) : Prop where
  opens : m.attr &&& attrDir = 0 → s.file = none → ∀ share id path, Holds share path raw →
    (request share id (.fileOpen path openFlagsReadOnly) s).completions = [⟨id, .success, .fd fdFile⟩] ∧
    (request share id (.fileOpen path openFlagsReadOnly) s).file = some ⟨m.cluster, m.size, slot, 0⟩
  stats : ∀ share id path buf, Holds share path raw → statSize ≤ buf.size →
    buf.offset + buf.size ≤ fsRegionSize →
    (request share id (.stat path buf) s).completions = [⟨id, .success, .empty⟩] ∧
    slice (request share id (.stat path buf) s).share (buf.offset + 8) 8 = le64 (slot + 2)

theorem resolves_of_found {s : Fs} (hw : Working s) {slot : Nat} {m : Meta} {raw : List UInt8} {name : Name}
    (hfound : lookup (volume s).root name rootEntries 0 = some (slot, m)) (hname : packName raw = some name)
    (hc : 2 ≤ m.cluster) (hslash : m.attr &&& attrDir = 0 → slash ∉ raw) (hroot : raw ≠ [slash]) :
    Resolves s slot m raw := by
  have hw₀ : ∀ share, Working { s with share, completions := [] } := fun share =>
    ⟨hw.performs, hw.valid_of_dirty, hw.coherent⟩
  refine ⟨fun hplain hclosed share id path hpath => ?_, fun share id path buf hpath hbuf hin => ?_⟩
  · have hopen : ∃ s', handleOpen id path openFlagsReadOnly { s with share, completions := [] } =
      (true, s') ∧ Working s' ∧
        volume s' = volume s ∧ s'.file = some ⟨m.cluster, m.size, slot, 0⟩ ∧
        s'.completions = [⟨id, .success, .fd fdFile⟩] :=
      handleOpen_answers (hw₀ share) rfl hclosed hpath (hslash hplain) hname hfound hplain hc
    obtain ⟨s', hrun, -, -, hfile, hdone⟩ := hopen
    have hrun : request share id (.fileOpen path openFlagsReadOnly) s = s' := congrArg Prod.snd hrun
    rw [hrun]
    exact ⟨hdone, hfile⟩
  · have hstat : ∃ s' mode, handleStat id path buf { s with share, completions := [] } = (true, s') ∧
        s'.completions = [⟨id, .success, .empty⟩] ∧
        s'.share = copyAt buf.offset (statBytes (slot + 2) mode m.size) share :=
      handleStat_answers (hw₀ share) rfl hpath hroot hname hfound hbuf hin
    obtain ⟨s', mode, hrun, hdone, hshare⟩ := hstat
    have hrun : request share id (.stat path buf) s = s' := congrArg Prod.snd hrun
    have hlen : 8 + 8 ≤ (statBytes (slot + 2) mode m.size).length := by
      rw [statBytes_length]
      decide
    rw [hrun, hshare, slice_copyAt hlen]
    exact ⟨hdone, rfl⟩

/-- Every name that `DIR_READ` shows of the root leads back to the entry it was read from, and no two live
entries are shown alike. -/
structure RoundTrips (s : Fs) : Prop where
  shown : ∀ share id buf d n, s.dir = some d → d.cluster = 0 →
    (request share id (.dirRead fdDir buf) s).completions = [⟨id, .success, .dirRead n⟩] →
    ∃ slot name m, rootTable s slot = .live name m ∧
      (request share id (.dirRead fdDir buf) s).dir = some { d with index := slot + 1 } ∧
      Resolves (request share id (.dirRead fdDir buf) s) slot m
        (slice (request share id (.dirRead fdDir buf) s).share buf.offset n)
  apart : ∀ i j, Slot.IsLive (rootTable s i) → Slot.IsLive (rootTable s j) →
    displayName (entry s i) = displayName (entry s j) → i = j

theorem name_of_live {s : Fs} {i : Nat} {name : Name} {m : Meta} (h : rootTable s i = .live name m) :
    name = slice (entry s i) 0 11 := by
  unfold rootTable at h
  split at h
  · unfold slotOf at h
    split at h
    · cases h
    split at h
    · cases h
    · cases h
      rfl
  · cases h

theorem Presented.packs {v : Volume} (h : Presented v) {i : Nat} {name : Name} {m : Meta}
    (hat : v.root i = .live name m) :
    packName (shownName name) = some name := by
  obtain ⟨raw, hraw⟩ := h.indexed.packed i name m hat
  exact packName_shownName hraw (h.legible i name m hat).1

theorem Presented.shown_ne_slash {v : Volume} (h : Presented v) {i : Nat} {name : Name} {m : Meta}
    (hat : v.root i = .live name m) : shownName name ≠ [slash] := by
  intro heq
  have hpack := h.packs hat
  rw [heq] at hpack
  have hroot : packName [slash] = some rootName := by decide
  rw [hroot] at hpack
  cases hpack
  exact (h.legible i _ m hat).2 rfl

/-- From a formatted volume on, under commands whose names are presentable, names go round. -/
theorem names_round_trip {s : Fs} (h : Served Presentable s) : RoundTrips s := by
  obtain ⟨hv, hfit⟩ := h.presented
  have hw := h.working
  refine ⟨fun share id buf d n hdir hroot hok => ?_, fun i j hi hj heq => ?_⟩
  · have hw₀ : Working { s with share, completions := [] } := ⟨hw.performs, hw.valid_of_dirty, hw.coherent⟩
    have hspec : ∃ s₁, Working s₁ ∧ Same { s with share, completions := [] } s₁ ∧
        handleDirRead id fdDir buf { s with share, completions := [] } =
          (true, dirAnswer id buf (nextShown (handleTable (volume s) d) (d.limit - d.index) d.index) s₁) :=
      handleDirRead_spec hw₀ rfl hdir (hfit.dir d hdir)
    obtain ⟨s₁, hw₁, hsame, hrun⟩ := hspec
    have hrun : request share id (.dirRead fdDir buf) s =
        dirAnswer id buf (nextShown (handleTable (volume s) d) (d.limit - d.index) d.index) s₁ :=
          congrArg Prod.snd hrun
    have htable : handleTable (volume s) d = (volume s).root := if_pos hroot
    rw [htable] at hrun
    have hvolume : volume s₁ = volume s := hsame.volume
    have hdir₁ : s₁.dir = some d := hsame.dir.trans hdir
    rw [hrun] at hok ⊢
    rcases nextShown_cases (volume s).root (d.limit - d.index) d.index with ⟨hnext, -⟩ | ⟨i, hnext, -⟩ |
      ⟨i, name, m, hnext, -, hat, -⟩
    · rw [hnext] at hok
      cases hok
    · rw [hnext] at hok
      cases hok
    · rw [hnext] at hok ⊢
      simp only [dirAnswer] at hok ⊢
      split at hok
      · cases hok
      next hroom =>
      rw [if_neg hroom]
      cases hok
      refine ⟨i, name, m, hat, ?_, ?_⟩
      · simp only [Fs.advance, hdir₁, Option.map_some]
      dsimp only
      rw [slice_copyAt_self]
      refine resolves_of_found (by exact ⟨hw₁.performs, hw₁.valid_of_dirty, hw₁.coherent⟩) ?_ (hv.packs hat)
        (hv.ranged i name m hat).1 (fun hplain hin => ?_) (hv.shown_ne_slash hat)
      · have hfound := hv.indexed.found hat
        rw [← hvolume] at hfound
        exact hfound
      · exact hv.plain i name m hat hplain ((slash_mem_packName (hv.packs hat)).mpr hin)
  · obtain ⟨name, m, hi⟩ := hi
    obtain ⟨name', m', hj⟩ := hj
    rw [displayName_eq, displayName_eq, ← name_of_live hi, ← name_of_live hj] at heq
    have hpi := hv.packs hi
    rw [heq, hv.packs hj] at hpi
    cases hpi
    exact hv.indexed.distinct i j name m m' hi hj

/-- The directory `d` beside the seeded file, and the root opened for reading. -/
def rootOpen : Fs :=
  (serveOne 2 (.dirOpen ⟨0, 1⟩) { made with share := fun _ => slash, completions := made.completions.drop 0 }).2

theorem presentable_made : Presentable (shared 0x64) (.dirCreate ⟨0, 1⟩) := by
  refine ⟨named_made.noHole, ?_⟩
  have htarget : readPackedName (shared 0x64) ⟨0, 1⟩ = some (0x44 :: List.replicate 10 space) := by
    decide +kernel
  intro name hname _
  rw [Command.target, htarget] at hname
  cases hname
  exact ⟨by decide, by decide, fun hfile => hfile.elim⟩

theorem presentable_dirOpen (s : Fs) (path : Buffer) : Presentable s (.dirOpen path) := by
  constructor
  · intro name slot hname
    cases hname
  · intro name hname
    cases hname

theorem rootOpen_served : Served Presentable rootOpen := by
  have hmade : Served Presentable made := .serve (shared_served _ _) 1 _ presentable_made
  exact .serve (hmade.client (fun _ => slash) 0) 2 _ (presentable_dirOpen _ _)

/-- The first `DIR_READ` there shows the six letters of the seeded file. -/
theorem names_round_trip_made : RoundTrips rootOpen ∧ ∃ slot name m,
    rootTable rootOpen slot = .live name m ∧
    (request (fun _ => 0) 3 (.dirRead fdDir ⟨0, 12⟩) rootOpen).dir = some ⟨0, slot + 1, rootEntries⟩ := by
  have hround : RoundTrips rootOpen := names_round_trip rootOpen_served
  have hdir : rootOpen.dir = some ⟨0, 0, rootEntries⟩ := by decide +kernel
  have hread : (request (fun _ => 0) 3 (.dirRead fdDir ⟨0, 12⟩) rootOpen).completions =
    [⟨3, .success, .dirRead 6⟩] := by
    decide +kernel
  obtain ⟨slot, name, m, hlive, hnext, -⟩ :=
    hround.shown (fun _ => 0) 3 ⟨0, 12⟩ ⟨0, 0, rootEntries⟩ 6 hdir rfl hread
  exact ⟨hround, slot, name, m, hlive, hnext⟩

/-- Directories called `a b` and `a c`. -/
def cutNames : Fs :=
  (serveOne 2 (.dirCreate ⟨3, 3⟩) (serveOne 1 (.dirCreate ⟨0, 3⟩)
    { seeded with
      share := copyAt 0 [0x61, 0x20, 0x62, 0x61, 0x20, 0x63] fun _ => 0
      completions := seeded.completions.drop 0 }).2).2

/-- Both are shown as `A`. -/
theorem cutNames_not_round_trip : Served (fun _ _ => True) cutNames ∧ ¬RoundTrips cutNames := by
  constructor
  · exact .serve (.serve (.client (seeded_served _) _ 0) 1 _ trivial) 2 _ trivial
  · intro h
    have hfirst : rootTable cutNames 1 =
        .live [0x41, 0x20, 0x42, 0x20, 0x20, 0x20, 0x20, 0x20, 0x20, 0x20, 0x20]
          ⟨4, 0, attrDir⟩ := by decide +kernel
    have hsecond : rootTable cutNames 2 =
        .live [0x41, 0x20, 0x43, 0x20, 0x20, 0x20, 0x20, 0x20, 0x20, 0x20, 0x20]
          ⟨5, 0, attrDir⟩ := by decide +kernel
    have hsame : displayName (entry cutNames 1) = displayName (entry cutNames 2) := by
      rw [displayName_eq, displayName_eq, ← name_of_live hfirst, ← name_of_live hsecond]
      decide
    have heq := h.apart 1 2 ⟨_, _, hfirst⟩ ⟨_, _, hsecond⟩ hsame
    cases heq

end Lerux.FatFs

import Lerux.FatFs.Allocation
import Lerux.FatFs.Answers

/-!
# Directory enumeration

`DIR_READ` saves its cursor behind the entry it showed, and also behind an end mark it ran into. So the
first answer `END_OF_DIRECTORY` at a mark leaves the handle on whatever comes after the mark, and the next
`DIR_READ` goes on from there. Entries behind the mark that are neither deleted nor dots are then shown.
The enumeration is that of the entries before the mark exactly on directories that have no such entry.
-/

namespace Lerux.FatFs

open SlotTable

/-! ### What a directory lists -/

/-- The name an entry is shown under: dot entries and deleted ones are not shown. -/
def shownAt : Slot Name Meta → Option (List UInt8)
  | .live name _ => if dotted name then none else some (shownName name)
  | _ => none

/-- The names before the first end mark, over `left` entries from `index` on, in order. -/
def listing (t : Nat → Slot Name Meta) (index left : Nat) : List (List UInt8) :=
  ((List.range' index left).takeWhile fun i => t i ≠ .vacant).filterMap fun i => shownAt (t i)

/-- No entry behind an end mark would be shown. -/
def NoStale (t : Nat → Slot Name Meta) (limit : Nat) : Prop :=
  ∀ i j, i < j → j < limit → t i = .vacant → shownAt (t j) = none

section listing

variable {t : Nat → Slot Name Meta}

theorem listing_of_vacant {index : Nat} (h : t index = .vacant) (left : Nat) :
    listing t index (left + 1) = [] := by
  simp [listing, List.range'_succ, h]

theorem listing_of_hidden {index : Nat} (hv : t index ≠ .vacant) (h : shownAt (t index) = none)
    (left : Nat) :
    listing t index (left + 1) = listing t (index + 1) left := by
  simp [listing, List.range'_succ, hv, h]

theorem listing_of_shown {index : Nat} {bytes : List UInt8} (h : shownAt (t index) = some bytes)
    (left : Nat) :
    listing t index (left + 1) = bytes :: listing t (index + 1) left := by
  have hv : t index ≠ .vacant := by
    intro hv
    rw [hv] at h
    cases h
  simp [listing, List.range'_succ, hv, h]

theorem listing_eq_nil {index left : Nat} (h : ∀ j, index ≤ j → j < index + left → shownAt (t j) = none) :
    listing t index left = [] := by
  induction left generalizing index with
  | zero => rfl
  | succ left ih =>
    by_cases hv : t index = .vacant
    · exact listing_of_vacant hv left
    · rw [listing_of_hidden hv (h index le_rfl (by omega))]
      exact ih fun j h1 h2 => h j (by omega) (by omega)

/-- Where a read stops, and what it has passed. -/
structure Stops (t : Nat → Slot Name Meta) (index left : Nat) (i : Nat) : Prop where
  low : index ≤ i
  high : i < index + left
  passed : ∀ j, index ≤ j → j < i → t j ≠ .vacant ∧ shownAt (t j) = none

theorem Stops.later {index left i : Nat} (hv : t index ≠ .vacant) (h : shownAt (t index) = none)
    (hs : Stops t (index + 1) left i) : Stops t index (left + 1) i := by
  refine ⟨by have := hs.low; omega, by have := hs.high; omega, fun j h1 h2 => ?_⟩
  rcases Nat.eq_or_lt_of_le h1 with rfl | hlt
  · exact ⟨hv, h⟩
  · exact hs.passed j hlt h2

/-- The three ways a read over the entries ends. -/
theorem nextShown_cases (t : Nat → Slot Name Meta) (left : Nat) : ∀ index : Nat,
    (nextShown t left index = none ∧ ∀ j, index ≤ j → j < index + left → t j ≠ .vacant ∧
      shownAt (t j) = none) ∨
    (∃ i, nextShown t left index = some (i, none) ∧ Stops t index left i ∧ t i = .vacant) ∨
    ∃ i name m, nextShown t left index = some (i, some name) ∧ Stops t index left i ∧ t i = .live name m ∧
      shownAt (t i) = some (shownName name) := by
  induction left with
  | zero => exact fun index => Or.inl ⟨rfl, fun j h1 h2 => by omega⟩
  | succ left ih =>
    intro index
    -- a hidden entry is walked past
    have hpast : t index ≠ .vacant → shownAt (t index) = none →
        nextShown t (left + 1) index = nextShown t left (index + 1) →
        (nextShown t (left + 1) index = none ∧
          ∀ j, index ≤ j → j < index + (left + 1) → t j ≠ .vacant ∧ shownAt (t j) = none) ∨
        (∃ i, nextShown t (left + 1) index = some (i, none) ∧ Stops t index (left + 1) i ∧ t i = .vacant) ∨
        ∃ i name m, nextShown t (left + 1) index = some (i, some name) ∧ Stops t index (left + 1) i ∧
          t i = .live name m ∧ shownAt (t i) = some (shownName name) := by
      intro hv hhidden heq
      rw [heq]
      rcases ih (index + 1) with ⟨hnone, hall⟩ | ⟨i, hnext, hs, hi⟩ | ⟨i, name, m, hnext, hs, hi, hshown⟩
      · refine Or.inl ⟨hnone, fun j h1 h2 => ?_⟩
        rcases Nat.eq_or_lt_of_le h1 with rfl | hlt
        · exact ⟨hv, hhidden⟩
        · exact hall j hlt (by omega)
      · exact Or.inr (Or.inl ⟨i, hnext, hs.later hv hhidden, hi⟩)
      · exact Or.inr (Or.inr ⟨i, name, m, hnext, hs.later hv hhidden, hi, hshown⟩)
    have hhere : Stops t index (left + 1) index := ⟨le_rfl, by omega, fun j h1 h2 => by omega⟩
    cases ht : t index with
    | vacant =>
      refine Or.inr (Or.inl ⟨index, ?_, hhere, ht⟩)
      rw [nextShown, ht]
    | deleted =>
      refine hpast (by rw [ht]; decide) (by rw [ht]; rfl) ?_
      rw [nextShown, ht]
    | live name m =>
      by_cases hdots : dotted name = true
      · refine hpast (by rw [ht]; intro h; cases h) (by rw [ht, shownAt, if_pos hdots]) ?_
        rw [nextShown, ht]
        exact if_pos hdots
      · refine Or.inr (Or.inr ⟨index, name, m, ?_, hhere, ht, by rw [ht, shownAt, if_neg hdots]⟩)
        rw [nextShown, ht]
        exact if_neg hdots

/-- The listing from a stop on. -/
theorem Stops.listing {index left i : Nat} (hs : Stops t index left i) :
    FatFs.listing t index left = FatFs.listing t i (index + left - i) := by
  obtain ⟨low, high, passed⟩ := hs
  induction left generalizing index with
  | zero => omega
  | succ left ih =>
    rcases Nat.eq_or_lt_of_le low with rfl | hlt
    · rw [Nat.add_sub_cancel_left]
    · obtain ⟨hv, hhidden⟩ := passed index le_rfl hlt
      rw [listing_of_hidden hv hhidden, ih hlt (by omega) fun j h1 h2 => passed j (by omega) h2]
      congr 1
      omega

end listing

/-! ### Repeated reads -/

/-- One `DIR_READ` of the client, over the share it has laid out. -/
structure DirRequest where
  share : Bytes
  id : Nat
  buf : Buffer

/-- A buffer inside the share with room for any name. -/
def DirRequest.Roomy (r : DirRequest) : Prop := 12 ≤ r.buf.size ∧ r.buf.offset + r.buf.size ≤ fsRegionSize

def DirRequest.run (r : DirRequest) (s : Fs) : Fs := request r.share r.id (.dirRead fdDir r.buf) s

/-- The answer of a `DIR_READ`: a name, or the end of the directory. -/
def DirRequest.Answers (r : DirRequest) (s' : Fs) : Option (List UInt8) → Prop
  | some bytes => s'.completions = [⟨r.id, .success, .dirRead bytes.length⟩] ∧
      slice s'.share r.buf.offset bytes.length = bytes
  | none => s'.completions = [⟨r.id, .endOfDirectory, .dirRead 0⟩]

/-- The answers of one `DIR_READ` after another. -/
inductive Series : Fs → List DirRequest → List (Option (List UInt8)) → Prop
  | nil (s : Fs) : Series s [] []
  | cons {s : Fs} {r : DirRequest} {rs : List DirRequest} {x : Option (List UInt8)}
      {xs : List (Option (List UInt8))}
      (head : r.Answers (r.run s) x) (tail : Series (r.run s) rs xs) : Series s (r :: rs) (x :: xs)

/-- The answers expected of `n` reads: the names, and then the end every time. -/
def expected (names : List (List UInt8)) (n : Nat) : List (Option (List UInt8)) :=
  (names.map some ++ List.replicate n none).take n

/-- However many reads follow, they answer the names and then the end. -/
def Enumerates (s : Fs) (names : List (List UInt8)) : Prop :=
  ∀ rs : List DirRequest, (∀ r ∈ rs, r.Roomy) → Series s rs (expected names rs.length)

theorem expected_nil (n : Nat) : expected [] (n + 1) = none :: expected [] n := by
  simp [expected, List.replicate_succ]

theorem expected_cons (bytes : List UInt8) (names : List (List UInt8)) (n : Nat) :
    expected (bytes :: names) (n + 1) = some bytes :: expected names n := by
  unfold expected
  rw [List.map_cons, List.cons_append, List.take_succ_cons]
  congr 1
  rw [List.take_append, List.take_append, List.take_replicate, List.take_replicate]
  congr 2
  omega

/-- An open directory handle with its cursor, over a volume. -/
structure CursorAt (v : Volume) (d : OpenDir) (c : Nat) (s : Fs) : Prop where
  working : Working s
  volume : volume s = v
  dir : s.dir = some { d with index := c }

section reads

variable {v : Volume} {d : OpenDir} {c : Nat} {s : Fs} {r : DirRequest}

theorem slotOf_live_length {e : Bytes} {name : Name} {m : Meta} (h : slotOf e = .live name m) :
    name.length = 11 := by
  unfold slotOf at h
  split at h
  · cases h
  split at h
  · cases h
  · cases h
    exact slice_length _ _ _

theorem shownName_length {name : Name} (h : name.length = 11) : (shownName name).length ≤ 12 := by
  have h1 : ((name.take 8).takeWhile (· ≠ space)).length ≤ 8 :=
    (List.takeWhile_sublist _).length_le.trans (List.length_take_le _ _)
  have h2 : ((name.drop 8).takeWhile (· ≠ space)).length ≤ 3 := by
    refine (List.takeWhile_sublist _).length_le.trans ?_
    rw [List.length_drop]
    omega
  unfold shownName
  rw [List.length_append]
  split
  · rw [List.length_cons]
    omega
  · rw [List.length_nil]
    omega

theorem handleTable_live_length (s : Fs) {i : Nat} {name : Name} {m : Meta}
    (h : handleTable (volume s) d i = .live name m) : name.length = 11 := by
  unfold handleTable at h
  split at h
  · have h : rootTable s i = .live name m := h
    unfold rootTable at h
    split at h
    · exact slotOf_live_length h
    · cases h
  · unfold dirTable at h
    split at h
    · exact slotOf_live_length h
    · cases h

/-- One read: the answer and the cursor are those of `nextShown`. -/
theorem CursorAt.read (h : CursorAt v d c s) (hfits : d.Fits) (hroomy : r.Roomy) :
    (nextShown (handleTable v d) (d.limit - c) c = none → r.Answers (r.run s) none ∧
      CursorAt v d c (r.run s)) ∧
    (∀ i, nextShown (handleTable v d) (d.limit - c) c = some (i, none) →
      r.Answers (r.run s) none ∧ CursorAt v d (i + 1) (r.run s)) ∧
    ∀ i name m, nextShown (handleTable v d) (d.limit - c) c = some (i, some name) →
      handleTable v d i = .live name m →
      r.Answers (r.run s) (some (shownName name)) ∧ CursorAt v d (i + 1) (r.run s) := by
  have hw : Working { s with share := r.share, completions := [] } :=
    ⟨h.working.performs, h.working.valid_of_dirty, h.working.coherent⟩
  have hvolume : FatFs.volume { s with share := r.share, completions := [] } = v := h.volume
  have hfits' : OpenDir.Fits { d with index := c } := hfits
  have hspec : ∃ s₁, Working s₁ ∧ Same { s with share := r.share, completions := [] } s₁ ∧
      handleDirRead r.id fdDir r.buf { s with share := r.share, completions := [] } =
        (true, dirAnswer r.id r.buf (nextShown (handleTable (FatFs.volume s) d) (d.limit - c) c) s₁) :=
    handleDirRead_spec hw rfl h.dir hfits'
  obtain ⟨s₁, hw₁, hsame, hrun⟩ := hspec
  rw [h.volume] at hrun
  have hrun : r.run s = dirAnswer r.id r.buf (nextShown (handleTable v d) (d.limit - c) c) s₁ :=
    congrArg Prod.snd hrun
  have hdir : s₁.dir = some { d with index := c } := hsame.dir.trans h.dir
  have hvolume₁ : FatFs.volume s₁ = v := hsame.volume.trans hvolume
  refine ⟨fun hnext => ?_, fun i hnext => ?_, fun i name m hnext hat => ?_⟩
  · rw [hrun, hnext]
    exact ⟨rfl, ⟨hw₁.performs, hw₁.valid_of_dirty, hw₁.coherent⟩, hvolume₁, hdir⟩
  · rw [hrun, hnext]
    refine ⟨rfl, ⟨hw₁.performs, hw₁.valid_of_dirty, hw₁.coherent⟩, hvolume₁, ?_⟩
    simp only [dirAnswer, Fs.advance, hdir, Option.map_some]
  · rw [hrun, hnext]
    rw [← h.volume] at hat
    have hlen := shownName_length (handleTable_live_length s hat)
    obtain ⟨hsize, hin⟩ := hroomy
    have hok : ¬(r.buf.size < (shownName name).length ∨ fsRegionSize <
      r.buf.offset + (shownName name).length) := by
      omega
    simp only [dirAnswer, if_neg hok]
    refine ⟨⟨rfl, slice_copyAt_self _⟩, ⟨hw₁.performs, hw₁.valid_of_dirty, hw₁.coherent⟩, hvolume₁, ?_⟩
    simp only [Fs.advance, hdir, Option.map_some]

theorem enumerates_of_noStale (hfits : d.Fits) (hns : NoStale (handleTable v d) d.limit)
    (h : CursorAt v d c s)
    (hc : c ≤ d.limit) : Enumerates s (listing (handleTable v d) c (d.limit - c)) := by
  intro rs
  induction rs generalizing c s with
  | nil =>
    intro _
    have hnone : expected (listing (handleTable v d) c (d.limit - c)) 0 = [] := rfl
    rw [List.length_nil, hnone]
    exact .nil s
  | cons r rs ih =>
    intro hroomy
    have hrest : ∀ r ∈ rs, r.Roomy := fun r hr => hroomy r (List.mem_cons_of_mem _ hr)
    obtain ⟨hnone, hmark, hshow⟩ := h.read hfits (hroomy r List.mem_cons_self)
    rw [List.length_cons]
    rcases nextShown_cases (handleTable v d) (d.limit - c) c with ⟨hnext, hall⟩ | ⟨i, hnext, hs, hi⟩ |
      ⟨i, name, m, hnext, hs, hi, hshown⟩
    · -- off the end: the cursor stays
      have hempty : listing (handleTable v d) c (d.limit - c) = [] :=
        listing_eq_nil fun j h1 h2 => (hall j h1 h2).2
      obtain ⟨hanswer, hat⟩ := hnone hnext
      have htail := ih hat hc hrest
      rw [hempty] at htail ⊢
      rw [expected_nil]
      exact .cons hanswer htail
    · -- an end mark: nothing to show behind it
      obtain ⟨hanswer, hat⟩ := hmark i hnext
      have hlow := hs.low
      have hhigh := hs.high
      have htail := ih hat (by omega) hrest
      have hempty : listing (handleTable v d) (i + 1) (d.limit - (i + 1)) = [] :=
        listing_eq_nil fun j h1 h2 => hns i j (by omega) (by omega) hi
      have hhere : listing (handleTable v d) c (d.limit - c) = [] := by
        rw [hs.listing, show c + (d.limit - c) - i = (d.limit - (i + 1)) + 1 by omega, listing_of_vacant hi]
      rw [hempty] at htail
      rw [hhere, expected_nil]
      exact .cons hanswer htail
    · obtain ⟨hanswer, hat⟩ := hshow i name m hnext hi
      have hlow := hs.low
      have hhigh := hs.high
      have htail := ih hat (by omega) hrest
      rw [hs.listing, show c + (d.limit - c) - i = (d.limit - (i + 1)) +
        1 by omega, listing_of_shown hshown,
        expected_cons]
      exact .cons hanswer htail

/-- A request that any state can be asked. -/
def probe : DirRequest := ⟨fun _ => 0, 0, ⟨0, 12⟩⟩

theorem probe_roomy : probe.Roomy := ⟨by decide, by decide⟩

/-- The state after one read enumerates what is left. -/
theorem Enumerates.tail {names rest : List (List UInt8)} {x : Option (List UInt8)} (h : Enumerates s names)
    (hx : ∀ n, expected names (n + 1) = x :: expected rest n) :
    probe.Answers (probe.run s) x ∧ Enumerates (probe.run s) rest := by
  constructor
  · have hone := h [probe] (by simpa using probe_roomy)
    rw [List.length_singleton, hx 0] at hone
    cases hone with
    | cons head tail => exact head
  · intro rs hroomy
    have hall := h (probe :: rs) fun r hr => by
      rcases List.mem_cons.mp hr with rfl | hr
      · exact probe_roomy
      · exact hroomy r hr
    rw [List.length_cons, hx] at hall
    cases hall with
    | cons head tail => exact tail

theorem not_answers_both {bytes : List UInt8} {s' : Fs} (hsome : r.Answers s' (some bytes)) :
    ¬r.Answers s' none := by
  intro hnone
  have heq := hsome.1.symm.trans hnone
  cases heq

/-- Where only ends are answered, nothing is left to show. -/
theorem hidden_of_enumerates_nil (hfits : d.Fits) (k : Nat) : ∀ {c : Nat} {s : Fs},
    CursorAt v d c s → d.limit - c ≤ k →
    Enumerates s [] → ∀ j, c ≤ j → j < d.limit → shownAt (handleTable v d j) = none := by
  induction k with
  | zero =>
    intro c s _ hk _ j h1 h2
    omega
  | succ k ih =>
    intro c s h hk henum j h1 h2
    obtain ⟨hnone, hmark, hshow⟩ := h.read hfits probe_roomy
    obtain ⟨hanswer, hrest⟩ := henum.tail expected_nil
    rcases nextShown_cases (handleTable v d) (d.limit - c) c with ⟨hnext, hall⟩ | ⟨i, hnext, hs, hi⟩ |
      ⟨i, name, m, hnext, hs, hi, hshown⟩
    · exact (hall j h1 (by omega)).2
    · have hlow := hs.low
      rcases Nat.lt_trichotomy j i with hlt | rfl | hgt
      · exact (hs.passed j h1 hlt).2
      · rw [hi]
        rfl
      · exact ih (hmark i hnext).2 (by omega) hrest j hgt h2
    · exact absurd hanswer (not_answers_both (hshow i name m hnext hi).1)

theorem noStale_of_enumerates (hfits : d.Fits) (k : Nat) : ∀ {c : Nat} {s : Fs}, CursorAt v d c s →
    d.limit - c ≤ k →
    Enumerates s (listing (handleTable v d) c (d.limit - c)) →
    ∀ i j, c ≤ i → i < j → j < d.limit → handleTable v d i = .vacant →
      shownAt (handleTable v d j) = none := by
  induction k with
  | zero =>
    intro c s _ hk _ i j h1 h2 h3
    omega
  | succ k ih =>
    intro c s h hk henum i j h1 h2 h3 hvacant
    obtain ⟨hnone, hmark, hshow⟩ := h.read hfits probe_roomy
    rcases nextShown_cases (handleTable v d) (d.limit - c) c with ⟨hnext, hall⟩ | ⟨p, hnext, hs, hp⟩ |
      ⟨p, name, m, hnext, hs, hp, hshown⟩
    · exact absurd hvacant (hall i h1 (by omega)).1
    · -- the first mark: from here on only ends are answered
      have hlow := hs.low
      have hhigh := hs.high
      rw [hs.listing, show c + (d.limit - c) - p = (d.limit - (p + 1)) +
        1 by omega, listing_of_vacant hp] at henum
      obtain ⟨-, hrest⟩ := henum.tail expected_nil
      have hle : p ≤ i := by
        by_contra hlt
        exact (hs.passed i h1 (by omega)).1 hvacant
      exact hidden_of_enumerates_nil hfits (d.limit - (p + 1)) (hmark p hnext).2 le_rfl hrest j
        (by omega) h3
    · have hlow := hs.low
      have hhigh := hs.high
      rw [hs.listing, show c + (d.limit - c) - p = (d.limit - (p + 1)) +
        1 by omega, listing_of_shown hshown] at henum
      obtain ⟨-, hrest⟩ := henum.tail (expected_cons _ _)
      have hlt : p < i := by
        by_contra hge
        rcases Nat.lt_or_ge i p with hlt | hge'
        · exact (hs.passed i h1 hlt).1 hvacant
        · obtain rfl : i = p := by omega
          rw [hp] at hvacant
          cases hvacant
      exact ih (hshow p name m hnext hp).2 (by omega) hrest i j hlt h2 h3 hvacant

end reads

/-! ### Opening -/

/-- The directory that a path names: the root, or a directory entry of the root. -/
def OpenDir.Named (d : OpenDir) (s : Fs) (path : Buffer) : Prop :=
  (isRootPathBuf s path = true ∧ d.cluster = 0 ∧ d.limit = rootEntries) ∨
  (isRootPathBuf s path = false ∧ ∃ name slot m, readPackedName s path = some name ∧
    lookup (volume s).root name rootEntries 0 = some (slot, m) ∧ m.attr &&& attrDir ≠ 0 ∧ 2 ≤ m.cluster ∧
    d.cluster = m.cluster ∧ d.limit = entriesPerSector)

theorem OpenDir.Named.fits {d : OpenDir} {s : Fs} {path : Buffer} (h : d.Named s path) : d.Fits := by
  rcases h with ⟨-, hc, hlimit⟩ | ⟨-, name, slot, m, -, -, -, h2, hc, hlimit⟩
  · exact Or.inl ⟨hc, hlimit⟩
  · exact Or.inr ⟨by omega, hlimit⟩

/-- A successful `DIR_OPEN` leaves a fresh handle on the directory. -/
theorem dirOpen_opens {s : Fs} (hw : Working s) {share : Bytes} {id : Nat} {path : Buffer}
    (hclosed : s.dir = none)
    (hok : (request share id (.dirOpen path) s).completions = [⟨id, .success, .fd fdDir⟩]) :
    ∃ d, d.Named { s with share } path ∧ CursorAt (volume s) d 0 (request share id (.dirOpen path) s) := by
  have hw₀ : Working { s with share, completions := [] } := ⟨hw.performs, hw.valid_of_dirty, hw.coherent⟩
  have hkeeps := serveOne_keeps id (.dirOpen path) _ hw₀
  have hother : ∀ (s₁ : Fs) (status : Status), s₁.completions = [] →
      (complete id status .empty s₁).2.completions ≠ [⟨id, .success, .fd fdDir⟩] := by
    intro s₁ status hroom heq
    rw [complete_empty hroom] at heq
    cases heq
  unfold request at hok hkeeps ⊢
  simp only [serveOne] at hok hkeeps ⊢
  unfold handleDirOpen at hok hkeeps ⊢
  rw [get_bind, ite_run, if_neg (by simp [hclosed]), ite_run] at hok hkeeps ⊢
  by_cases hroot : isRootPathBuf { s with share, completions := [] } path = true
  · rw [if_pos hroot] at hok hkeeps ⊢
    exact ⟨⟨0, 0, rootEntries⟩, Or.inl ⟨hroot, rfl, rfl⟩, hkeeps, rfl, rfl⟩
  rw [if_neg hroot] at hok hkeeps ⊢
  cases hname : readPackedName { s with share, completions := [] } path with
  | none =>
    rw [hname] at hok
    exact absurd hok (hother _ _ rfl)
  | some name =>
  rw [hname] at hok hkeeps
  dsimp only at hok hkeeps ⊢
  obtain ⟨s₁, hfind, -, hsame⟩ := findName_spec hw₀ name
  rw [bind_of_eq hfind] at hok hkeeps ⊢
  cases hlookup : lookup (rootTable { s with share, completions := [] }) name rootEntries 0 with
  | none =>
    rw [hlookup] at hok
    exact absurd hok (hother _ _ hsame.completions)
  | some r =>
  obtain ⟨slot, m⟩ := r
  rw [hlookup] at hok hkeeps
  simp only [hitOf, ite_run] at hok hkeeps ⊢
  split at hok
  · next hdir =>
    rw [if_pos hdir] at hkeeps ⊢
    have hdone : openDir id ⟨m.cluster, 0, entriesPerSector⟩ s₁ = (true, { s₁ with
        dir := some ⟨m.cluster, 0, entriesPerSector⟩, completions := [⟨id, .success, .fd fdDir⟩] }) :=
      complete_empty (by exact hsame.completions) _ _
    have hdone : openDir id ⟨(DirHit.ofSlot (slot, m)).cluster, 0, entriesPerSector⟩ s₁ = _ := hdone
    rw [hdone] at hkeeps ⊢
    refine ⟨⟨m.cluster, 0, entriesPerSector⟩,
      Or.inr ⟨Bool.eq_false_iff.mpr hroot, name, slot, m, hname, hlookup, ?_⟩,
      hkeeps, hsame.volume, rfl⟩
    exact ⟨hdir.1, hdir.2, rfl, rfl⟩
  · exact absurd hok (hother _ _ hsame.completions)

/-- Reading an open directory to its end and on shows the entries before the first end mark, each
once and in order, exactly when no entry behind the mark would be shown. -/
theorem dirReads_enumerate_iff {s : Fs} (hw : Working s) (hclosed : s.dir = none) {share : Bytes}
    {id : Nat} {path : Buffer}
    (hok : (request share id (.dirOpen path) s).completions = [⟨id, .success, .fd fdDir⟩]) :
    ∃ d, (request share id (.dirOpen path) s).dir = some { d with index := 0 } ∧
      d.Named { s with share } path ∧
      (Enumerates (request share id (.dirOpen path) s) (listing (handleTable (volume s) d) 0 d.limit) ↔
        NoStale (handleTable (volume s) d) d.limit) := by
  obtain ⟨d, hnamed, hat⟩ := dirOpen_opens hw hclosed hok
  have hfits := hnamed.fits
  refine ⟨d, hat.dir, hnamed, ?_, ?_⟩
  · intro henum i j hij hj hvacant
    exact noStale_of_enumerates hfits d.limit hat (by omega) henum i j (by omega) hij hj hvacant
  · intro hns
    exact enumerates_of_noStale hfits hns hat (by omega)

/-- The root of the seeded volume. -/
theorem dirReads_enumerate_seeded : ∃ d,
    (request (fun _ => 0) 1 (.dirOpen ⟨0, 0⟩) seeded).dir = some { d with index := 0 } ∧
    d.Named { seeded with share := fun _ => 0 } ⟨0, 0⟩ ∧
    (Enumerates (request (fun _ => 0) 1 (.dirOpen ⟨0, 0⟩) seeded)
      (listing (handleTable (volume seeded) d) 0 d.limit) ↔
      NoStale (handleTable (volume seeded) d) d.limit) :=
  dirReads_enumerate_iff (seeded_served fun _ _ => True).working (by decide +kernel) (by decide +kernel)

/-- A device whose root directory starts with an end mark, with a live entry left behind it. -/
def staleDevice : Fs :=
  { blank with device := fun n i => if n = 8 ∧ i = 512 + 32 then 0x58
    else if n = 8 ∧ 544 < i ∧ i < 555 then space else 0 }

/-- There the second read answers the name behind the mark. -/
theorem staleDevice_not_enumerated : Working staleDevice ∧ staleDevice.dir = none ∧
    (request (fun _ => 0) 1 (.dirOpen ⟨0, 0⟩) staleDevice).completions = [⟨1, .success, .fd fdDir⟩] ∧
    ∃ d, (request (fun _ => 0) 1 (.dirOpen ⟨0, 0⟩) staleDevice).dir = some d ∧ d.cluster = 0 ∧
      d.limit = rootEntries ∧
      ¬Enumerates (request (fun _ => 0) 1 (.dirOpen ⟨0, 0⟩) staleDevice)
        (listing (handleTable (volume staleDevice) d) 0 d.limit) := by
  refine ⟨⟨fun _ => rfl, by decide, by decide⟩, rfl,
    by decide +kernel, ⟨0, 0, rootEntries⟩, by decide +kernel, rfl, rfl, ?_⟩
  intro henum
  have hmark : handleTable (volume staleDevice) ⟨0, 0, rootEntries⟩ 0 = .vacant := by decide +kernel
  have hlist : listing (handleTable (volume staleDevice) ⟨0, 0, rootEntries⟩) 0 rootEntries = [] :=
    listing_of_vacant hmark 511
  have hlist' : Enumerates (request (fun _ => 0) 1 (.dirOpen ⟨0, 0⟩) staleDevice) [] := by
    rw [← hlist]
    exact henum
  obtain ⟨-, hrest⟩ := hlist'.tail expected_nil
  obtain ⟨hsecond, -⟩ := hrest.tail expected_nil
  have hname : (probe.run (probe.run (request (fun _ => 0) 1 (.dirOpen ⟨0, 0⟩) staleDevice))).completions =
      [⟨0, .success, .dirRead 1⟩] := by decide +kernel
  have hended : (probe.run (probe.run (request (fun _ => 0) 1 (.dirOpen ⟨0, 0⟩) staleDevice))).completions =
      [⟨0, .endOfDirectory, .dirRead 0⟩] := hsecond
  rw [hname] at hended
  cases hended

end Lerux.FatFs

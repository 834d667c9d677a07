import Lerux.Base.Text

/-!
# Patterns

A pattern is a sequence of literals and of runs of characters of a class, as regular expressions
without alternatives are. A run takes as many characters as it can or as few, and gives back, or
takes more, until what is behind it matches (`matchAt`): of all ways to match at a place this is the
first one. `scan` cuts a text into its matches, from the left and without overlap, and the
characters between them.

`Fits` is some way to match. Where there is just one, it is the one that is found
(`matchAt_of_unique`), and where there is none, nothing is (`matchAt_eq_none`). A stretch of a text
in which no match starts is `Silent`.
-/

namespace Lerux.Pattern

inductive Piece
  | lit (text : List Char)
  | run (p : Char → Bool) (least : Nat) (greedy capture : Bool)

/-- A match at the head of a text: the captured runs, and what is behind it. -/
def matchAt : List Piece → List Char → Option (List (List Char) × List Char)
  | [], t => some ([], t)
  | .lit s :: ps, t => if s.isPrefixOf t then matchAt ps (t.drop s.length) else none
  | .run p least greedy capture :: ps, t =>
    let lengths := List.range' least ((t.takeWhile p).length + 1 - least)
    (if greedy then lengths.reverse else lengths).findSome? fun k =>
      (matchAt ps (t.drop k)).map fun found => (if capture then t.take k :: found.1 else found.1, found.2)

theorem matchAt_nil (t : List Char) : matchAt [] t = some ([], t) := rfl

theorem matchAt_lit_cons (s : List Char) (ps : List Piece) (t : List Char) :
    matchAt (.lit s :: ps) t = if s.isPrefixOf t then matchAt ps (t.drop s.length) else none := rfl

theorem matchAt_run_cons (p : Char → Bool) (least : Nat) (greedy capture : Bool) (ps : List Piece)
    (t : List Char) :
    matchAt (.run p least greedy capture :: ps) t =
      (if greedy then (List.range' least ((t.takeWhile p).length + 1 - least)).reverse
        else List.range' least ((t.takeWhile p).length + 1 - least)).findSome? fun k =>
          (matchAt ps (t.drop k)).map fun found => (if capture then t.take k :: found.1
            else found.1, found.2) := rfl

/-- A text in its matches and the characters between them. The first `skip` characters belong to the
match before. -/
def scanFrom (ps : List Piece) : Nat → List Char → List (Char ⊕ List (List Char))
  | _, [] => []
  | skip + 1, _ :: t => scanFrom ps skip t
  | 0, c :: t =>
    match matchAt ps (c :: t) with
    | some (caught, rest) => .inr caught :: scanFrom ps (t.length - rest.length) t
    | none => .inl c :: scanFrom ps 0 t

theorem scanFrom_zero_cons (ps : List Piece) (c : Char) (t : List Char) : scanFrom ps 0 (c :: t) =
    match matchAt ps (c :: t) with
    | some (caught, rest) => .inr caught :: scanFrom ps (t.length - rest.length) t
    | none => .inl c :: scanFrom ps 0 t := rfl

def scan (ps : List Piece) (t : List Char) : List (Char ⊕ List (List Char)) := scanFrom ps 0 t

/-- The captured runs of every match. -/
def captures (ps : List Piece) (t : List Char) : List (List (List Char)) :=
  (scan ps t).filterMap Sum.getRight?

/-- A text without its matches. -/
def removeAll (ps : List Piece) (t : List Char) : List Char := (scan ps t).filterMap Sum.getLeft?

/-- No match starts in `u`, with `t` behind it. -/
def Silent (ps : List Piece) : List Char → List Char → Prop
  | [], _ => True
  | c :: u, t => matchAt ps (c :: (u ++ t)) = none ∧ Silent ps u t

/-- A way to match at the head of a text. -/
inductive Fits : List Piece → List Char → List (List Char) → List Char → Prop
  | nil (t : List Char) : Fits [] t [] t
  | lit {ps : List Piece} {t : List Char} {caught : List (List Char)} {rest : List Char} (s : List Char)
      (h : Fits ps t caught rest) : Fits (.lit s :: ps) (s ++ t) caught rest
  | run {ps : List Piece} {t : List Char} {caught : List (List Char)} {rest : List Char}
      {p : Char → Bool} {least : Nat}
      (greedy capture : Bool) {a : List Char} (ha : ∀ c ∈ a, p c = true) (hleast : least ≤ a.length)
      (h : Fits ps t caught rest) :
      Fits (.run p least greedy capture :: ps) (a ++ t) (if capture then a :: caught else caught) rest

section fits

variable {ps : List Piece} {t rest s a : List Char} {caught : List (List Char)} {p : Char → Bool}
  {least : Nat}
  {greedy capture : Bool}

theorem fits_lit : Fits (.lit s :: ps) t caught rest ↔ ∃ t', t = s ++ t' ∧ Fits ps t' caught rest := by
  constructor
  · intro h
    cases h with
    | lit _ h => exact ⟨_, rfl, h⟩
  · rintro ⟨t', rfl, h⟩
    exact .lit s h

theorem fits_run : Fits (.run p least greedy capture :: ps) t caught rest ↔ ∃ a t' caught', t = a ++ t' ∧
    (∀ c ∈ a, p c = true) ∧ least ≤ a.length ∧ caught = (if capture then a :: caught'
      else caught') ∧ Fits ps t' caught' rest := by
  constructor
  · intro h
    cases h with
    | run _ _ ha hleast h => exact ⟨_, _, _, rfl, ha, hleast, rfl, h⟩
  · rintro ⟨a, t', caught', rfl, ha, hleast, rfl, h⟩
    exact .run greedy capture ha hleast h

theorem matchAt_run_eq_some {found : List (List Char) × List Char}
    (h : matchAt (.run p least greedy capture :: ps) t = some found) :
    ∃ k ≤ (t.takeWhile p).length, least ≤ k ∧ ∃ inner, matchAt ps (t.drop k) = some inner ∧
      found = (if capture then t.take k :: inner.1 else inner.1, inner.2) := by
  rw [matchAt_run_cons] at h
  obtain ⟨k, hk, hfound⟩ := List.exists_of_findSome?_eq_some h
  have hrange : k ∈ List.range' least ((t.takeWhile p).length + 1 - least) := by
    split at hk
    · exact List.mem_reverse.mp hk
    · exact hk
  obtain ⟨i, hi, rfl⟩ := List.mem_range'.mp hrange
  obtain ⟨inner, hinner, rfl⟩ := Option.map_eq_some_iff.mp hfound
  exact ⟨_, by omega, by omega, inner, hinner, rfl⟩

/-- What is found is a way to match. -/
theorem fits_of_matchAt : ∀ {ps : List Piece} {t : List Char} {found : List (List Char) × List Char},
    matchAt ps t = some found → Fits ps t found.1 found.2
  | [], t, _, h => by
    cases h
    exact .nil t
  | .lit s :: ps, t, found, h => by
    rw [matchAt_lit_cons] at h
    split at h
    · next hpre =>
      obtain ⟨t', rfl⟩ := List.isPrefixOf_iff_prefix.mp hpre
      rw [List.drop_left] at h
      exact .lit s (fits_of_matchAt h)
    · cases h
  | .run p least greedy capture :: ps, t, found, h => by
    obtain ⟨k, hk, hleast, inner, hinner, rfl⟩ := matchAt_run_eq_some h
    have htake : ∀ c ∈ t.take k, p c = true := by
      intro c hc
      have hpre : t.take k <+: t.takeWhile p :=
        List.prefix_of_prefix_length_le (List.take_prefix k t) (List.takeWhile_prefix p) (by
          rw [List.length_take]
          omega)
      exact List.mem_takeWhile_imp (hpre.subset hc)
    have hlength : least ≤ (t.take k).length := by
      have := (List.takeWhile_prefix p (l := t)).length_le
      rw [List.length_take]
      omega
    have hfits := Fits.run greedy capture htake hlength (fits_of_matchAt hinner)
    rwa [List.take_append_drop] at hfits

/-- Every way to match a run is among those that are tried. -/
theorem matchAt_run_ne_none {inner : List (List Char) × List Char} (ha : ∀ c ∈ a, p c = true)
    (hleast : least ≤ a.length)
    (h : matchAt ps t = some inner) : matchAt (.run p least greedy capture :: ps) (a ++ t) ≠ none := by
  intro hnone
  rw [matchAt_run_cons] at hnone
  have hmem : a.length ∈ List.range' least (((a ++ t).takeWhile p).length + 1 - least) := by
    rw [List.takeWhile_append_of_pos ha, List.length_append]
    exact List.mem_range'_1.mpr ⟨hleast, by omega⟩
  have hlast := List.findSome?_eq_none_iff.mp hnone a.length (by
    split
    · exact List.mem_reverse.mpr hmem
    · exact hmem)
  rw [List.drop_left, h] at hlast
  cases hlast

/-- A way to match is found where there is one. -/
theorem matchAt_ne_none (h : Fits ps t caught rest) : matchAt ps t ≠ none := by
  induction h with
  | nil t =>
    rw [matchAt_nil]
    exact Option.some_ne_none _
  | lit s h ih =>
    rw [matchAt_lit_cons, if_pos (List.isPrefixOf_iff_prefix.mpr (List.prefix_append ..)), List.drop_left]
    exact ih
  | run greedy capture ha hleast h ih =>
    obtain ⟨inner, hinner⟩ := Option.ne_none_iff_exists'.mp ih
    exact matchAt_run_ne_none ha hleast hinner

theorem matchAt_eq_none (h : ∀ caught rest, ¬ Fits ps t caught rest) : matchAt ps t = none := by
  cases hfound : matchAt ps t with
  | none => rfl
  | some found => exact absurd (fits_of_matchAt hfound) (h _ _)

theorem matchAt_of_unique (h : ∀ caught' rest', Fits ps t caught' rest' ↔ caught' = caught ∧ rest' = rest) :
    matchAt ps t = some (caught, rest) := by
  obtain ⟨found, hfound⟩ := Option.ne_none_iff_exists'.mp (matchAt_ne_none ((h caught rest).mpr ⟨rfl, rfl⟩))
  obtain ⟨hcaught, hrest⟩ := (h _ _).mp (fits_of_matchAt hfound)
  rw [hfound, ← hcaught, ← hrest]

theorem matchAt_lit (s : List Char) (ps : List Piece) (t : List Char) :
    matchAt (.lit s :: ps) (s ++ t) = matchAt ps t := by
  rw [matchAt_lit_cons, if_pos (List.isPrefixOf_iff_prefix.mpr (List.prefix_append ..)), List.drop_left]

theorem matchAt_lit_head {x y : Char} (h : x ≠ y) : matchAt (.lit (x :: s) :: ps) (y :: t) = none := by
  rw [matchAt_lit_cons, if_neg]
  rw [List.isPrefixOf_iff_prefix, List.cons_prefix_cons]
  exact fun hxy => h hxy.1

theorem matchAt_lit_second {w x y : Char} (h : x ≠ y) :
    matchAt (.lit (w :: x :: s) :: ps) (w :: y :: t) = none := by
  rw [matchAt_lit_cons, if_neg]
  rw [List.isPrefixOf_iff_prefix, List.cons_prefix_cons, List.cons_prefix_cons]
  exact fun hxy => h hxy.2.1

end fits

section silent

variable {ps : List Piece} {t u v s : List Char} {caught : List (List Char)}

theorem Silent.append (hu : Silent ps u (v ++ t)) (hv : Silent ps v t) : Silent ps (u ++ v) t := by
  induction u with
  | nil => exact hv
  | cons c u ih =>
    have hhead : matchAt ps (c :: ((u ++ v) ++ t)) = none := by
      rw [List.append_assoc]
      exact hu.1
    exact ⟨hhead, ih hu.2⟩

/-- A stretch without the first character of what the pattern starts with is silent. -/
theorem silent_of_not_mem {x : Char} (h : x ∉ u) : Silent (.lit (x :: s) :: ps) u t := by
  induction u with
  | nil => trivial
  | cons c u ih =>
    exact ⟨matchAt_lit_head (List.ne_of_not_mem_cons h), ih (List.not_mem_of_not_mem_cons h)⟩

theorem silent_of_second {w x y : Char} (h : x ≠ y) (hu : w ∉ y :: u) :
    Silent (.lit (w :: x :: s) :: ps) (w :: y :: u) t :=
  ⟨matchAt_lit_second h, silent_of_not_mem hu⟩

theorem Silent.drop (h : Silent ps u t) : ∀ {k : Nat}, k < u.length →
    matchAt ps ((u ++ t).drop k) = none := by
  induction u with
  | nil => exact fun hk => absurd hk (by simp)
  | cons c u ih =>
    intro k hk
    cases k with
    | zero => exact h.1
    | succ k => exact ih h.2 (by simpa using hk)

/-- A text whose tags are not those of a pattern, with their second letter. -/
theorem silent_cons {w x y : Char} {s u v t : List Char} {ps : List Piece} (hu : w ∉ u) (h : x ≠ y)
    (hv : w ∉ y :: v) :
    Silent (.lit (w :: x :: s) :: ps) (u ++ w :: y :: v) t :=
  (silent_of_not_mem hu).append (silent_of_second h hv)

/-- A run that takes as few characters as it can stops at the first match of what is behind it. -/
theorem matchAt_lazy {p : Char → Bool} {capture : Bool} {found : List (List Char) × List Char}
    (hu : ∀ c ∈ u, p c = true)
    (hsilent : Silent ps u t) (h : matchAt ps t = some found) :
    matchAt (.run p 0 false capture :: ps) (u ++ t) = some (if capture then u :: found.1
      else found.1, found.2) := by
  have hlengths : List.range' 0 (((u ++ t).takeWhile p).length + 1) =
      List.range' 0 u.length ++ u.length :: List.range' (u.length + 1) (t.takeWhile p).length := by
    have hcut := List.range'_append_1 (s := 0) (m := u.length) (n := (t.takeWhile p).length + 1)
    rw [Nat.zero_add] at hcut
    rw [List.takeWhile_append_of_pos hu, List.length_append, ← List.range'_succ, hcut, Nat.add_assoc]
  have hbefore : ∀ k ∈ List.range' 0 u.length, matchAt ps ((u ++ t).drop k) = none := fun k hk =>
    hsilent.drop (by simpa using (List.mem_range'_1.mp hk).2)
  rw [matchAt_run_cons]
  show (List.range' 0 (((u ++ t).takeWhile p).length + 1)).findSome? _ = _
  rw [hlengths, List.findSome?_append, List.findSome?_eq_none_iff.mpr fun k hk =>
    by rw [hbefore k hk]; rfl, Option.none_or,
    List.findSome?_cons, List.drop_left, h, List.take_left]
  rfl

theorem scan_of_silent (h : Silent ps u t) : scan ps (u ++ t) = u.map .inl ++ scan ps t := by
  induction u with
  | nil => rfl
  | cons c u ih =>
    have hstep : scan ps (c :: (u ++ t)) = .inl c :: scan ps (u ++ t) := by
      rw [scan, scanFrom_zero_cons, h.1]
      rfl
    rw [List.cons_append, hstep, ih h.2]
    rfl

theorem scanFrom_append (ps : List Piece) (u t : List Char) : scanFrom ps u.length (u ++ t) =
    scan ps t := by
  induction u with
  | nil => rfl
  | cons c u ih => exact ih

theorem scan_of_match (h : matchAt ps (u ++ t) = some (caught, t)) (hu : u ≠ []) :
    scan ps (u ++ t) = .inr caught :: scan ps t := by
  obtain ⟨c, u, rfl⟩ := List.exists_cons_of_ne_nil hu
  have hlength : (u ++ t).length - t.length = u.length := by
    rw [List.length_append]
    omega
  rw [List.cons_append] at h
  rw [scan, List.cons_append, scanFrom_zero_cons, h]
  show _ :: scanFrom ps ((u ++ t).length - t.length) (u ++ t) = _
  rw [hlength, scanFrom_append]

theorem captures_of_silent (h : Silent ps u t) : captures ps (u ++ t) = captures ps t := by
  have hnone : (u.map (Sum.inl (β := List (List Char)))).filterMap Sum.getRight? = [] := by
    simp [List.filterMap_map]
  rw [captures, scan_of_silent h, List.filterMap_append, hnone]
  rfl

theorem captures_of_match (h : matchAt ps (u ++ t) = some (caught, t)) (hu : u ≠ []) :
    captures ps (u ++ t) = caught :: captures ps t := by
  rw [captures, scan_of_match h hu]
  rfl

theorem removeAll_of_silent (h : Silent ps u t) : removeAll ps (u ++ t) = u ++ removeAll ps t := by
  have hall : (u.map (Sum.inl (β := List (List Char)))).filterMap Sum.getLeft? = u := by
    rw [List.filterMap_map]
    exact List.filterMap_some
  rw [removeAll, scan_of_silent h, List.filterMap_append, hall]
  rfl

theorem removeAll_of_match (h : matchAt ps (u ++ t) = some (caught, t)) (hu : u ≠ []) :
    removeAll ps (u ++ t) = removeAll ps t := by
  rw [removeAll, scan_of_match h hu]
  rfl

/-- A run behind which nothing else has to match takes all it can. -/
theorem matchAt_last {p : Char → Bool} (hu : ∀ c ∈ u, p c = true) (ht : ∀ c ∈ t.head?, p c = false) :
    matchAt [.run p 0 true false] (u ++ t) = some ([], t) := by
  have hwhile : (u ++ t).takeWhile p = u := (takeWhile_append_stop hu ht).1
  have hlengths : (List.range' 0 (u.length + 1 - 0)).reverse =
    u.length :: (List.range' 0 u.length).reverse := by
    rw [Nat.sub_zero, List.range'_concat, List.reverse_append, Nat.zero_add, Nat.one_mul]
    rfl
  rw [matchAt_run_cons, hwhile]
  show ((List.range' 0 (u.length + 1 - 0)).reverse).findSome? _ = _
  rw [hlengths, List.findSome?_cons, List.drop_left]
  rfl

theorem matchAt_lit_none {ps : List Piece} (h : ¬ s <+: t) : matchAt (.lit s :: ps) t = none := by
  rw [matchAt_lit_cons, if_neg (by rwa [List.isPrefixOf_iff_prefix])]

theorem not_prefix_of_matchAt (h : matchAt [.lit s] t = none) : ¬ s <+: t := by
  rintro ⟨t', rfl⟩
  rw [matchAt_lit] at h
  cases h

/-- What is silent for a literal is silent for every pattern that starts with more than it. -/
theorem Silent.extend {ps : List Piece} {more : List Char} (h : Silent [.lit s] u t) :
    Silent (.lit (s ++ more) :: ps) u t := by
  induction u with
  | nil => trivial
  | cons c u ih =>
    refine ⟨matchAt_lit_none fun hfront => ?_, ih h.2⟩
    exact not_prefix_of_matchAt h.1 ((List.prefix_append s more).trans hfront)

/-- A mark that a text does not contain starts nowhere in it, unless what is behind the text goes on
with the mark. -/
theorem silent_of_no_part {x : Char} {m : List Char} {ps : List Piece} (hu : ¬ (x :: m) <:+: u)
    (ht : ∀ c ∈ t.head?, c ∉ m) :
    Silent (.lit (x :: m) :: ps) u t := by
  induction u with
  | nil => trivial
  | cons c u ih =>
    refine ⟨matchAt_lit_none fun hpre => hu ?_,
      ih fun hpart => hu (hpart.trans (List.suffix_cons c u).isInfix)⟩
    obtain ⟨rfl, hrest⟩ := List.cons_prefix_cons.mp hpre
    obtain hinside | ⟨m', rfl⟩ := List.prefix_or_prefix_of_prefix hrest (List.prefix_append u t)
    · exact (List.cons_prefix_cons.mpr ⟨rfl, hinside⟩).isInfix
    · cases m' with
      | nil => exact (List.cons_prefix_cons.mpr ⟨rfl, by simp⟩).isInfix
      | cons y m' =>
        obtain ⟨t', ht'⟩ := (List.prefix_append_right_inj u).mp hrest
        exact absurd (by simp) (ht y (by rw [← ht']; rfl))

theorem breakOn_of_silent (h : Silent [.lit s] u t) :
    breakOn s (u ++ t) = (breakOn s t).map fun p => (u ++ p.1, p.2) := by
  induction u with
  | nil =>
    rw [List.nil_append]
    cases breakOn s t <;> rfl
  | cons c u ih =>
    have hno : ¬ s.isPrefixOf (c :: (u ++ t)) = true := by
      rw [List.isPrefixOf_iff_prefix]
      exact not_prefix_of_matchAt h.1
    rw [List.cons_append, breakOn_cons, if_neg hno, ih h.2, Option.map_map]
    rfl

theorem breakOn_append (h : s ≠ []) (t : List Char) : breakOn s (s ++ t) = some ([], t) := by
  obtain ⟨c, s, rfl⟩ := List.exists_cons_of_ne_nil h
  have hfront : (c :: s).isPrefixOf (c :: (s ++ t)) = true :=
    List.isPrefixOf_iff_prefix.mpr (List.prefix_append (c :: s) t)
  rw [List.cons_append, breakOn_cons, if_pos hfront, ← List.cons_append, List.drop_left]

theorem breakOn_silent_append (h : Silent [.lit s] u (s ++ t)) (hs : s ≠ []) :
    breakOn s (u ++ (s ++ t)) = some (u, t) := by
  rw [breakOn_of_silent h, breakOn_append hs, Option.map_some, List.append_nil]

theorem breakOn_eq_none (h : Silent [.lit s] u []) : breakOn s u = none := by
  have := breakOn_of_silent h
  rwa [List.append_nil] at this

theorem breakOn_eq_some {p : List Char × List Char} (h : breakOn s t = some p) : t = p.1 ++ (s ++ p.2) := by
  induction t generalizing p with
  | nil => cases h
  | cons c t ih =>
    rw [breakOn_cons] at h
    split at h
    · next hfront =>
      obtain ⟨t', ht'⟩ := List.isPrefixOf_iff_prefix.mp hfront
      cases h
      rw [← ht', List.drop_left]
      rfl
    · obtain ⟨q, hq, rfl⟩ := Option.map_eq_some_iff.mp h
      rw [ih hq]
      rfl

end silent

section marks

variable {α : Type*} {q stop : α} {a u v w r t : List α}

/-- The first mark cuts a text in one way. -/
theorem append_mark_inj (hw : q ∉ w) (hu : q ∉ u) : w ++ q :: r = u ++ q :: v ↔ w = u ∧ r = v := by
  constructor
  · intro h
    induction w generalizing u with
    | nil =>
      cases u with
      | nil => exact ⟨rfl, List.tail_eq_of_cons_eq h⟩
      | cons d u => exact absurd (List.head_eq_of_cons_eq h) (List.ne_of_not_mem_cons hu)
    | cons c w ih =>
      cases u with
      | nil => exact absurd (List.head_eq_of_cons_eq h).symm (List.ne_of_not_mem_cons hw)
      | cons d u =>
        obtain ⟨hc, htail⟩ := List.cons.inj h
        obtain ⟨hwu, hrv⟩ := ih (List.not_mem_of_not_mem_cons hw) (List.not_mem_of_not_mem_cons hu) htail
        exact ⟨by rw [hc, hwu], hrv⟩
  · rintro ⟨rfl, rfl⟩
    rfl

/-- What ends at a mark ends at the first mark of a text or at a later one. -/
theorem append_mark (hw : q ∉ w) (hu : q ∉ u) (h : a ++ (w ++ q :: r) = u ++ q :: v) :
    (a ++ w = u ∧ r = v) ∨ ∃ a', a = u ++ q :: a' ∧ a' ++ (w ++ q :: r) = v := by
  obtain ⟨b, rfl, hb⟩ | ⟨b, rfl, hb⟩ := List.append_eq_append_iff.mp h
  · have hbw := (append_mark_inj hw fun hq => hu (List.mem_append_right a hq)).mp hb
    exact .inl ⟨by rw [hbw.1], hbw.2⟩
  · cases b with
    | nil =>
      have hnil := (append_mark_inj List.not_mem_nil hw).mp hb
      exact .inl ⟨by rw [← hnil.1, List.append_nil, List.append_nil], hnil.2.symm⟩
    | cons c b =>
      cases List.cons.inj hb with
      | intro hc hv => exact .inr ⟨b, by rw [hc], hv.symm⟩

/-- What avoids a character does not get past it. -/
theorem append_stop (ha : stop ∉ a) (hw : stop ∉ w) (hq : q ≠ stop) : a ++ (w ++ q :: r) ≠ stop :: t := by
  intro h
  cases a with
  | cons c a => exact ha (by rw [List.head_eq_of_cons_eq h]; exact List.mem_cons_self)
  | nil =>
    cases w with
    | cons c w => exact hw (by rw [List.head_eq_of_cons_eq h]; exact List.mem_cons_self)
    | nil => exact hq (List.head_eq_of_cons_eq h)

end marks

end Lerux.Pattern

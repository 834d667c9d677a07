import Lerux.Web.Css

/-!
# What the parser does with a text that is no rule

Where it can read no rule the parser goes on one character behind the place where it stopped
reading. In a text with no comment it never passes a brace in this way: the rest of a block is read
to its end and gives nothing (`parse_rest`), and a prelude is read until a list of selectors ends
right at its brace, if one does (`parse_prelude`).
-/

namespace Lerux.Web

open Lerux.Html (isWs accept)

variable {t u v rest : List Char} {c : Char}

/-- No comment begins in a text. -/
def NoComment (t : List Char) : Prop := ¬['/', '*'] <:+: t

instance (t : List Char) : Decidable (NoComment t) := inferInstanceAs (Decidable (¬['/', '*'] <:+: t))

theorem NoComment.suffix (h : NoComment t) (hu : u <:+ t) : NoComment u :=
  fun hin => h (hin.trans hu.isInfix)

theorem NoComment.tail {d : Char} (h : NoComment (d :: t)) : NoComment t := h.suffix (List.suffix_cons d t)

/-- A character that ends white space and names. -/
structure Ends (c : Char) : Prop where
  ws : isWs c = false
  ident : identChar c = false
  start : identStart c = false
  slash : c ≠ '/'
  star : c ≠ '*'

theorem ends_of_mem (h : c ∈ ['{', '}', ',', ';', ':']) : Ends c := by
  simp only [List.mem_cons, List.not_mem_nil, or_false] at h
  rcases h with rfl | rfl | rfl | rfl | rfl <;> exact
    ⟨by decide, by decide, by decide, by decide, by decide⟩

theorem takeWhile_append_end {p : Char → Bool} (hc : p c = false) (t rest : List Char) :
    (t ++ c :: rest).takeWhile p = t.takeWhile p ∧ (t ++ c :: rest).dropWhile p = t.dropWhile p ++
      c :: rest := by
  induction t with
  | nil => simp [hc]
  | cons d t ih =>
    cases hd : p d
    · simp [hd]
    · simp [hd, ih.1, ih.2]

/-! ### White space without comments -/

theorem skip_end (hc : Ends c) (rest : List Char) : skipWsAndComments (c :: rest) = c :: rest := by
  rw [skipWsAndComments, skipGap, if_neg (by rw [hc.ws]; exact Bool.false_ne_true),
    if_neg fun h => hc.slash h.1]

theorem skip_append (h : NoComment t) (hc : Ends c) (rest : List Char) :
    skipWsAndComments (t ++ c :: rest) = t.dropWhile isWs ++ c :: rest := by
  induction t with
  | nil => exact skip_end hc rest
  | cons d t ih =>
    rw [List.cons_append, skipWsAndComments, skipGap]
    cases hd : isWs d
    · have hnot : ¬(d = '/' ∧ (t ++ c :: rest).head? = some '*') := by
        rintro ⟨rfl, hhead⟩
        cases t with
        | nil => exact hc.star (Option.some.inj hhead)
        | cons e t =>
          cases hhead
          exact h ⟨[], t, rfl⟩
      rw [if_neg Bool.false_ne_true, if_neg hnot,
        List.dropWhile_cons_of_neg (by rw [hd]; exact Bool.false_ne_true)]
      rfl
    · rw [if_pos rfl, List.dropWhile_cons_of_pos hd]
      exact ih h.tail

theorem skip_eq (h : NoComment t) : skipWsAndComments t = t.dropWhile isWs := by
  induction t with
  | nil => rfl
  | cons d t ih =>
    rw [skipWsAndComments, skipGap]
    cases hd : isWs d
    · have hnot : ¬(d = '/' ∧ t.head? = some '*') := by
        rintro ⟨rfl, hhead⟩
        cases t with
        | nil => cases hhead
        | cons e t =>
          cases hhead
          exact h ⟨[], t, rfl⟩
      rw [if_neg Bool.false_ne_true, if_neg hnot,
        List.dropWhile_cons_of_neg (by rw [hd]; exact Bool.false_ne_true)]
    · rw [if_pos rfl, List.dropWhile_cons_of_pos hd]
      exact ih h.tail

theorem skip_suffix (h : NoComment t) : skipWsAndComments t <:+ t := by
  rw [skip_eq h]
  exact List.dropWhile_suffix _

/-! ### Selectors up to a brace -/

theorem takeIdent_append (h : NoComment t) (hc : Ends c) (rest : List Char) :
    takeIdent (t ++ c :: rest) = ((takeIdent t).1, (takeIdent t).2 ++ c :: rest) := by
  unfold takeIdent
  rw [skip_append h hc, skip_eq h]
  cases t.dropWhile isWs with
  | nil =>
    rw [List.nil_append]
    dsimp only
    rw [hc.start]
    rfl
  | cons d u =>
    obtain ⟨htake, hdrop⟩ := takeWhile_append_end hc.ident u rest
    rw [List.cons_append]
    dsimp only
    split
    · rw [htake, hdrop]
    · rfl

theorem takeIdent_suffix (h : NoComment t) : (takeIdent t).2 <:+ t := by
  have hskip := skip_suffix h
  unfold takeIdent
  cases hu : skipWsAndComments t with
  | nil => exact List.nil_suffix
  | cons d u =>
    rw [hu] at hskip
    dsimp only
    split
    · exact (List.dropWhile_suffix _).trans ((List.suffix_cons d u).trans hskip)
    · exact hskip

theorem takeSelector_append (h : NoComment t) (hc : Ends c) (rest : List Char) :
    takeSelector (t ++ c :: rest) = ((takeSelector t).1, (takeSelector t).2 ++ c :: rest) := by
  have hident := takeIdent_append h hc rest
  unfold takeSelector
  cases t with
  | nil =>
    have hhead : ¬([] ++ c :: rest).head? = some '*' := fun heq => hc.star (Option.some.inj heq)
    rw [if_neg hhead, if_neg (by simp), hident]
    cases htake : takeIdent [] with
    | mk name u => cases name <;> rfl
  | cons d t =>
    by_cases hd : d = '*'
    · rw [if_pos (by rw [hd]; rfl), if_pos (by rw [hd]; rfl)]
      rfl
    · rw [if_neg (by simpa using hd), if_neg (by simpa using hd), hident]
      cases htake : takeIdent (d :: t) with
      | mk name u => cases name <;> rfl

theorem takeSelector_suffix (h : NoComment t) : (takeSelector t).2 <:+ t := by
  have hident := takeIdent_suffix h
  unfold takeSelector
  split
  · exact List.drop_suffix 1 t
  · split
    · next u hu =>
      rw [hu] at hident
      exact hident
    · next name u hu =>
      rw [hu] at hident
      exact hident

/-- Reading selectors stops at a brace, and goes no further with a brace behind the text than without. -/
theorem takeSelectors_append (h : NoComment t) (hc : c = '{' ∨ c = '}') (rest : List Char) :
    takeSelectors (t ++ c :: rest) = ((takeSelectors t).1, (takeSelectors t).2 ++ c :: rest) := by
  have hends : Ends c := ends_of_mem (by rcases hc with rfl | rfl <;> simp)
  have hcomma : c ≠ ',' := by rcases hc with rfl | rfl <;> decide
  induction hn : t.length using Nat.strong_induction_on generalizing t with
  | _ n ih =>
    have hsub := h.suffix (skip_suffix h)
    have hlen := length_takeSelector_le (skipWsAndComments t)
    have hle := length_skipWsAndComments_le t
    have hsuffix := takeSelector_suffix hsub
    rw [takeSelectors_step, takeSelectors_step t, skip_append h hends, ← skip_eq h,
      takeSelector_append hsub hends]
    cases htake : takeSelector (skipWsAndComments t) with
    | mk sel u =>
      rw [htake] at hlen hsuffix
      cases sel with
      | none => rfl
      | some sel =>
        have hu := hsub.suffix hsuffix
        have hlt := hlen.2 rfl
        dsimp only at hlt ⊢
        rw [skip_append hu hends, skip_eq hu]
        have hskip := u.length_dropWhile_le isWs
        have hrest := (hu.suffix (List.dropWhile_suffix isWs))
        cases hd : u.dropWhile isWs with
        | nil =>
          rw [List.nil_append, if_neg (by simpa using hcomma), if_neg (by simp)]
          rfl
        | cons d w =>
          rw [hd] at hskip hrest
          by_cases hdc : d = ','
          · rw [if_pos (by rw [hdc]; rfl), if_pos (by rw [hdc]; rfl)]
            rw [List.length_cons] at hskip
            have := ih w.length (by omega) hrest.tail rfl
            simp only [List.cons_append, List.drop_succ_cons, List.drop_zero, this]
          · rw [if_neg (by simpa using hdc), if_neg (by simpa using hdc)]

theorem takeSelectors_suffix (h : NoComment t) : (takeSelectors t).2 <:+ t := by
  induction hn : t.length using Nat.strong_induction_on generalizing t with
  | _ n ih =>
    have hsub := h.suffix (skip_suffix h)
    have hlen := length_takeSelector_le (skipWsAndComments t)
    have hle := length_skipWsAndComments_le t
    have hsuffix := takeSelector_suffix hsub
    rw [takeSelectors_step]
    split
    · next u hu =>
      rw [hu] at hsuffix
      exact hsuffix.trans (skip_suffix h)
    · next sel u hu =>
      rw [hu] at hlen hsuffix
      have hlt := hlen.2 rfl
      have hnext := (skip_suffix (hsub.suffix hsuffix)).trans (hsuffix.trans (skip_suffix h))
      have hskip := length_skipWsAndComments_le u
      dsimp only at hlt
      split
      · have hdrop := (List.drop_suffix 1 (skipWsAndComments u)).trans hnext
        exact (ih _ (by rw [List.length_drop]; omega) (h.suffix hdrop) rfl).trans hdrop
      · exact hnext

/-! ### One turn -/

theorem head_ne_at (h : c ≠ '@') (ht : '@' ∉ t) (rest : List Char) : (t ++ c :: rest).head? ≠ some '@' := by
  cases t with
  | nil => exact fun heq => h (Option.some.inj heq)
  | cons d t =>
    intro heq
    cases heq
    exact ht List.mem_cons_self

/-- No rule begins in a text before a `}`, and where the parser stops in it, it goes on. -/
theorem takeRule_rest (h : NoComment t) (ht : '{' ∉ t) (rest : List Char) :
    ∃ v, v <:+ t ∧ takeRule (t ++ '}' :: rest) = (none, v ++ '}' :: rest) := by
  have hsuffix := takeSelectors_suffix h
  have hsub := h.suffix hsuffix
  unfold takeRule
  dsimp only
  rw [takeSelectors_append h (.inr rfl), skip_append hsub (ends_of_mem (by simp)), ← skip_eq hsub]
  split
  · exact ⟨_, hsuffix, rfl⟩
  · have hskip := (skip_suffix hsub).trans hsuffix
    have hhead : ¬(skipWsAndComments (takeSelectors t).2 ++ '}' :: rest).head? = some '{' := by
      intro heq
      cases hw : skipWsAndComments (takeSelectors t).2 with
      | nil =>
        rw [hw] at heq
        cases heq
      | cons d w =>
        rw [hw] at heq hskip
        cases heq
        exact ht (hskip.subset List.mem_cons_self)
    rw [if_neg hhead]
    exact ⟨_, hskip, rfl⟩

/-- The rest of a block gives nothing. -/
theorem parse_rest (h : NoComment t) (ht : '{' ∉ t) (hat : '@' ∉ t) (rest : List Char) :
    parseStylesheet (t ++ '}' :: rest) = parseStylesheet rest := by
  induction hn : t.length using Nat.strong_induction_on generalizing t with
  | _ n ih =>
    have hends : Ends '}' := ends_of_mem (by simp)
    have hsuffix := skip_suffix h
    have hle := length_skipWsAndComments_le t
    have hat' : '@' ∉ skipWsAndComments t := fun hmem => hat (hsuffix.subset hmem)
    obtain ⟨v, hv, htake⟩ := takeRule_rest (h.suffix hsuffix) (fun hmem => ht (hsuffix.subset hmem)) rest
    rw [parseStylesheet_step, skip_append h hends, ← skip_eq h, if_neg (by simp),
      if_neg (head_ne_at (by decide) hat' rest), htake]
    dsimp only
    rw [if_neg (by simp)]
    have hall := hv.trans hsuffix
    have hlen := hv.length_le
    cases v with
    | nil => rfl
    | cons d w =>
      have hw : w <:+ t := (List.suffix_cons d w).trans hall
      rw [List.length_cons] at hlen
      exact ih w.length (by omega) (h.suffix hw) (fun hmem => ht (hw.subset hmem))
        (fun hmem => hat (hw.subset hmem)) rfl

/-- Reading a prelude from its begin, and again from behind each place where reading stops, a list
of selectors ends where the prelude ends. -/
def landsFrom : Nat → List Char → List Selector
  | 0, _ => []
  | fuel + 1, t =>
    let selectors := takeSelectors (skipWsAndComments t)
    if selectors.1 = [] then if selectors.2 = [] then [] else landsFrom fuel (selectors.2.drop 1)
    else if skipWsAndComments selectors.2 = [] then selectors.1
    else landsFrom fuel ((skipWsAndComments selectors.2).drop 1)

/-- The selectors that the parser takes a prelude for that it cannot read as a whole. -/
def lands (prelude_ : List Char) : List Selector := landsFrom (prelude_.length + 1) prelude_

theorem length_takeSelectors_le (t : List Char) : (takeSelectors t).2.length ≤ t.length :=
  length_takeSelectorsFrom_le _ t

/-- What the parser makes of a prelude and a block. -/
def landed (selectors : List Selector) (t : List Char) : List Rule :=
  let decls := takeDeclsUntil (some '}') t
  if selectors ≠ [] then
    if decls.1 ≠ [] then ⟨selectors, decls.1⟩ :: parseStylesheet (accept '}' decls.2)
    else parseStylesheet (accept '}' decls.2)
  else parseStylesheet t

theorem parse_prelude (h : NoComment t) (ht : '{' ∉ t) (hat : '@' ∉ t) (rest : List Char) :
    parseStylesheet (t ++ '{' :: rest) = landed (lands t) rest := by
  have hrun : ∀ n fuel t, t.length = n → t.length < fuel → NoComment t → '{' ∉ t → '@' ∉ t →
      parseStylesheet (t ++ '{' :: rest) = landed (landsFrom fuel t) rest := by
    intro n
    induction n using Nat.strong_induction_on with
    | _ n ih =>
      intro fuel t hn hfuel h ht hat
      obtain ⟨fuel, rfl⟩ : ∃ k, fuel = k + 1 := ⟨fuel - 1, by omega⟩
      have hends : Ends '{' := ends_of_mem (by simp)
      have hsuffix := skip_suffix h
      have hle := length_skipWsAndComments_le t
      have hsub := h.suffix hsuffix
      have hat' : '@' ∉ skipWsAndComments t := fun hmem => hat (hsuffix.subset hmem)
      have hselectors := takeSelectors_suffix hsub
      have hsub' := hsub.suffix hselectors
      have hlen := length_takeSelectors_le (skipWsAndComments t)
      -- The parser goes on behind a character of the prelude.
      have hnext : ∀ d w, d :: w <:+ skipWsAndComments t → parseStylesheet (w ++ '{' :: rest) =
        landed (landsFrom fuel w) rest := by
        intro d w hw
        have hwlen := hw.length_le
        rw [List.length_cons] at hwlen
        have hwt : w <:+ t := (List.suffix_cons d w).trans (hw.trans hsuffix)
        exact ih w.length (by omega) fuel w rfl (by omega) (h.suffix hwt) (fun hmem => ht (hwt.subset hmem))
          (fun hmem => hat (hwt.subset hmem))
      rw [parseStylesheet_step, skip_append h hends, ← skip_eq h, if_neg (by simp),
        if_neg (head_ne_at (by decide) hat' rest),
        landsFrom]
      unfold takeRule
      dsimp only
      rw [takeSelectors_append hsub (.inl rfl)]
      dsimp only
      by_cases hnone : (takeSelectors (skipWsAndComments t)).1 = []
      · rw [if_pos hnone, if_pos hnone]
        dsimp only
        rw [if_neg (by simp)]
        cases hu : (takeSelectors (skipWsAndComments t)).2 with
        | nil =>
          rw [if_pos rfl]
          simp [landed]
        | cons d w =>
          rw [if_neg (List.cons_ne_nil d w)]
          exact hnext d w (by rw [← hu]; exact hselectors)
      · rw [if_neg hnone, if_neg hnone, skip_append hsub' hends, ← skip_eq hsub']
        cases hu : skipWsAndComments (takeSelectors (skipWsAndComments t)).2 with
        | nil =>
          rw [List.nil_append, if_pos List.head?_cons, if_pos rfl]
          simp [landed, hnone]
        | cons d w =>
          have hdw : d :: w <:+ skipWsAndComments t := by
            rw [← hu]
            exact (skip_suffix hsub').trans hselectors
          have hd : ¬(d :: w ++ '{' :: rest).head? = some '{' := by
            intro heq
            cases heq
            exact ht ((hdw.trans hsuffix).subset List.mem_cons_self)
          rw [if_neg hd, if_neg (List.cons_ne_nil d w)]
          dsimp only
          rw [if_neg (by simp)]
          exact hnext d w hdw
  exact hrun t.length _ t rfl (Nat.lt_succ_self _) h ht hat

end Lerux.Web

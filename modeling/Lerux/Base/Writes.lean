import Mathlib.Data.List.Basic

/-!
# Loops of writes

A store is known by what it holds at each place. `Writes` says of a step that it does not fail, and
that it leaves what it should at some places and what was there at all others. Steps of this kind
follow each other, and a loop of them writes where a round does.
-/

namespace Lerux.Base

variable {σ ι ν κ : Type}

/-- The step `x` from the store `s` leaves these values at these places, and stores of this kind. -/
def Writes (get : σ → ι → ν) (value : ι → ν) (ok : σ → Prop) (places : ι → Prop) (x : Option σ)
    (s : σ) : Prop :=
  ∃ s', x = some s' ∧ ok s' ∧ (∀ i, places i → get s' i = value i) ∧ ∀ i, ¬places i → get s' i = get s i

namespace Writes

variable {get : σ → ι → ν} {value : ι → ν} {ok : σ → Prop} {places places' : ι → Prop}
  {x : Option σ} {f : σ → Option σ} {s : σ}

theorem nothing (h : ok s) (hnone : ∀ i, ¬places i) : Writes get value ok places (some s) s :=
  ⟨s, rfl, h, fun i hi => absurd hi (hnone i), fun _ _ => rfl⟩

theorem congr (h : Writes get value ok places x s) (hiff : ∀ i, places i ↔ places' i) :
    Writes get value ok places' x s := by
  obtain ⟨s', hs', hok, hin, hout⟩ := h
  exact ⟨s', hs', hok, fun i hi => hin i ((hiff i).mpr hi), fun i hi => hout i fun h => hi ((hiff i).mp h)⟩

theorem bind (h : Writes get value ok places x s)
    (hf : ∀ s', ok s' → Writes get value ok places' (f s') s') :
    Writes get value ok (fun i => places i ∨ places' i) (x >>= f) s := by
  obtain ⟨s', hs', hok, hin, hout⟩ := h
  obtain ⟨s'', hs'', hok', hin', hout'⟩ := hf s' hok
  refine ⟨s'', by rw [hs']; exact hs'', hok', fun i hi => ?_, fun i hi => ?_⟩
  · by_cases hi' : places' i
    · exact hin' i hi'
    · rw [hout' i hi']
      exact hin i (hi.resolve_right hi')
  · rw [hout' i fun h => hi (Or.inr h), hout i fun h => hi (Or.inl h)]

/-- A loop writes where one of its rounds does. -/
theorem foldlM {step : σ → κ → Option σ} {at' : κ → ι → Prop} {l : List κ}
    (hstep : ∀ k ∈ l, ∀ s, ok s → Writes get value ok (at' k) (step s k) s) :
    ∀ s, ok s → Writes get value ok (fun i => ∃ k ∈ l, at' k i) (l.foldlM step s) s := by
  induction l with
  | nil => exact fun s hs => nothing hs fun i hi => by simp at hi
  | cons k l ih =>
    intro s hs
    rw [List.foldlM_cons]
    have hrest := ih fun k' hk' => hstep k' (List.mem_cons_of_mem k hk')
    exact ((hstep k List.mem_cons_self s hs).bind hrest).congr fun i => by simp

end Writes

/-- What every round keeps a loop keeps that does not fail. -/
theorem foldlM_keeps {P : σ → Prop} {step : σ → κ → Option σ} {l : List κ}
    (hstep : ∀ k ∈ l, ∀ s s', P s → step s k = some s' → P s') : ∀ s s', P s →
      l.foldlM step s = some s' → P s' := by
  induction l with
  | nil =>
    intro s s' hs hfold
    obtain rfl := Option.some.inj hfold
    exact hs
  | cons k l ih =>
    intro s s' hs hfold
    rw [List.foldlM_cons] at hfold
    obtain ⟨mid, hmid, hfold⟩ := Option.bind_eq_some_iff.mp hfold
    exact ih (fun k' hk' => hstep k' (List.mem_cons_of_mem k hk')) mid s'
      (hstep k List.mem_cons_self s mid hs hmid) hfold

/-- A loop with a round that always fails does not get through. -/
theorem foldlM_fails {step : σ → κ → Option σ} {l : List κ} {k : κ} (hk : k ∈ l)
    (hfail : ∀ s, step s k = none) :
    ∀ s, l.foldlM step s = none := by
  induction l with
  | nil => exact absurd hk List.not_mem_nil
  | cons k' l ih =>
    intro s
    rw [List.foldlM_cons]
    rcases List.mem_cons.mp hk with rfl | hk
    · rw [hfail]
      rfl
    · cases hstep : step s k' with
      | none => rfl
      | some s' => exact ih hk s'

end Lerux.Base

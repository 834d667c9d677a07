import Mathlib.Data.Option.Basic

/-!
# Computations that fail just where a condition does not hold

A computation in which every step is checked gives a result, or none if a check fails. `Exact` says
when it gives one, and what. The condition of a sequence is that of its parts, whose results are
known up to what the rest needs of them.
-/

namespace Lerux.Base

variable {α β : Type}

/-- A result of a kind where a condition holds, and none where it does not. -/
def Exact (x : Option α) (ok : Prop) (result : α → Prop) : Prop :=
  (ok → ∃ a, x = some a ∧ result a) ∧ (¬ok → x = none)

section rules

variable {x : Option α} {f : α → Option β} {ok ok' : Prop} {result result' : α → Prop} {after : β → Prop}

theorem Exact.pure {a : α} (h : result a) : Exact (some a) True result :=
  ⟨fun _ => ⟨a, rfl, h⟩, fun hn => absurd trivial hn⟩

theorem Exact.bind (h : Exact x ok result) (hf : ok → ∀ a, result a → Exact (f a) ok' after) :
    Exact (x >>= f) (ok ∧ ok') after := by
  constructor
  · rintro ⟨hok, hok'⟩
    obtain ⟨a, ha, hresult⟩ := h.1 hok
    rw [ha]
    exact (hf hok a hresult).1 hok'
  · intro hn
    by_cases hok : ok
    · obtain ⟨a, ha, hresult⟩ := h.1 hok
      rw [ha]
      exact (hf hok a hresult).2 fun hok' => hn ⟨hok, hok'⟩
    · rw [h.2 hok]
      rfl

/-- The last part of a computation. -/
theorem Exact.last {g : α → β} (h : Exact x ok result) (hg : ok → ∀ a, result a → after (g a)) :
    Exact (x >>= fun a => Pure.pure (g a)) ok after := by
  constructor
  · intro hok
    obtain ⟨a, ha, hresult⟩ := h.1 hok
    rw [ha]
    exact ⟨g a, rfl, hg hok a hresult⟩
  · intro hn
    rw [h.2 hn]
    rfl

theorem Exact.imp (h : Exact x ok result) (himp : ok → ∀ a, result a → result' a) : Exact x ok result' := by
  refine ⟨fun hok => ?_, h.2⟩
  obtain ⟨a, ha, hresult⟩ := h.1 hok
  exact ⟨a, ha, himp hok a hresult⟩

theorem Exact.iff (h : Exact x ok result) (hiff : ok ↔ ok') : Exact x ok' result :=
  ⟨fun hok => h.1 (hiff.mpr hok), fun hn => h.2 fun hok => hn (hiff.mp hok)⟩

theorem Exact.isSome_iff (h : Exact x ok result) : x.isSome ↔ ok := by
  by_cases hok : ok
  · obtain ⟨a, ha, _⟩ := h.1 hok
    rw [ha]
    exact iff_of_true rfl hok
  · rw [h.2 hok]
    exact iff_of_false Bool.false_ne_true hok

end rules

/-- A loop whose steps follow a loop over exact values. A condition on these that is not met is not
met by what follows either. -/
theorem Exact.foldlM {σ ι : Type} {step : α → ι → Option α} {next : σ → ι → σ} {fits : σ → Prop}
    {follows : α → σ → Prop}
    (hback : ∀ s i, fits (next s i) → fits s)
    (hstep : ∀ a s i, follows a s → fits s → Exact (step a i) (fits (next s i))
      (follows · (next s i))) (l : List ι) :
    ∀ a s, follows a s → fits s → Exact (l.foldlM step a) (fits (l.foldl next s))
      (follows · (l.foldl next s)) := by
  have hall : ∀ (l : List ι) s, fits (l.foldl next s) → fits s := by
    intro l
    induction l with
    | nil => exact fun _ h => h
    | cons i l ih => exact fun s h => hback s i (ih _ h)
  induction l with
  | nil =>
    intro a s h hfits
    exact ⟨fun _ => ⟨a, rfl, h⟩, fun hn => absurd hfits hn⟩
  | cons i l ih =>
    intro a s h hfits
    rw [List.foldlM_cons, List.foldl_cons]
    refine ((hstep a s i h hfits).bind fun hnext b hb => ih b _ hb hnext).iff ?_
    exact ⟨And.right, fun hlast => ⟨hall l _ hlast, hlast⟩⟩

/-! ### Numbers of 32 bits -/

def I32 (n : Int) : Prop := -2147483648 ≤ n ∧ n ≤ 2147483647

instance instDecidableI32 (n : Int) : Decidable (I32 n) := inferInstanceAs (Decidable (_ ∧ _))

/-- The number, unless it overflows. -/
def i32 (n : Int) : Option Int := if I32 n then some n else none

def add32 (a b : Int) : Option Int := i32 (a + b)

def sub32 (a b : Int) : Option Int := i32 (a - b)

theorem exact_i32 (n : Int) : Exact (i32 n) (I32 n) (· = n) := by
  unfold i32
  exact ⟨fun h => ⟨n, if_pos h, rfl⟩, fun h => if_neg h⟩

theorem exact_add32 (a b : Int) : Exact (add32 a b) (I32 (a + b)) (· = a + b) := exact_i32 (a + b)

theorem exact_sub32 (a b : Int) : Exact (sub32 a b) (I32 (a - b)) (· = a - b) := exact_i32 (a - b)

theorem eq_of_i32 {n m : Int} (h : i32 n = some m) : m = n := by
  unfold i32 at h
  split at h
  · exact (Option.some.inj h).symm
  · cases h

theorem eq_of_add32 {a b c : Int} (h : add32 a b = some c) : c = a + b := eq_of_i32 h

end Lerux.Base

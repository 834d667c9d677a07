import Mathlib.Tactic

/-!
# Computations that can crash

A computation ends with a value and a count of what it used, or it crashes: an index out of range,
an overflow. `Gives` says what it ends with, `Runs` that it ends, and `Within` bounds the count. The
rules follow the computation.
-/

namespace Lerux

/-- The value of a computation and what it used, or nothing where it crashes. -/
def Check (α : Type) := Option (α × Nat)

namespace Check

variable {α β : Type}

def crash : Check α := none

/-- Ends with a value and uses one. -/
def tick (a : α) : Check α := some (a, 1)

protected def bind (x : Check α) (f : α → Check β) : Check β :=
  Option.bind x fun p => Option.map (fun q => (q.1, p.2 + q.2)) (f p.1)

instance : Monad Check where
  pure a := some (a, 0)
  bind := Check.bind

/-- Crashes unless a condition holds. -/
def ensure (p : Prop) [Decidable p] : Check Unit := if p then pure () else crash

/-- What the computation ends with, for a test. -/
def value (x : Check α) : Option α := Option.map Prod.fst x

def Gives (x : Check α) (a : α) : Prop := ∃ k, x = some (a, k)

def Runs (x : Check α) : Prop := ∃ a, x.Gives a

def Within (n : Nat) (x : Check α) : Prop := ∀ a k, x = some (a, k) → k ≤ n

section gives

variable {x y : Check α} {f : α → Check β} {a a' : α} {b : β} {p : Prop} [Decidable p]

@[simp] theorem gives_pure : (pure a' : Check α).Gives a ↔ a' = a := by
  constructor
  · rintro ⟨k, h⟩
    cases h
    rfl
  · rintro rfl
    exact ⟨0, rfl⟩

@[simp] theorem gives_tick : (tick a').Gives a ↔ a' = a := by
  constructor
  · rintro ⟨k, h⟩
    cases h
    rfl
  · rintro rfl
    exact ⟨1, rfl⟩

@[simp] theorem not_gives_crash : ¬(crash : Check α).Gives a := by
  rintro ⟨k, h⟩
  cases h

@[simp] theorem gives_bind : (x >>= f).Gives b ↔ ∃ a, x.Gives a ∧ (f a).Gives b := by
  show (Check.bind x f).Gives b ↔ _
  constructor
  · rintro ⟨k, h⟩
    unfold Check.bind at h
    obtain ⟨⟨a, m⟩, hx, hrest⟩ := Option.bind_eq_some_iff.mp h
    obtain ⟨⟨b', n⟩, hf, heq⟩ := Option.map_eq_some_iff.mp hrest
    dsimp only at hf heq
    cases heq
    exact ⟨a, ⟨m, hx⟩, n, hf⟩
  · rintro ⟨a, ⟨m, hx⟩, n, hf⟩
    refine ⟨m + n, ?_⟩
    unfold Check.bind
    rw [hx, Option.bind_some, hf]
    rfl

theorem gives_of_value (h : x.value = some a) : x.Gives a := by
  obtain ⟨p, hp, rfl⟩ := Option.map_eq_some_iff.mp h
  exact ⟨p.2, hp⟩

theorem Gives.unique (h : x.Gives a) (h' : x.Gives a') : a = a' := by
  obtain ⟨k, hk⟩ := h
  obtain ⟨m, hm⟩ := h'
  rw [hk] at hm
  cases hm
  rfl

theorem Gives.runs (h : x.Gives a) : x.Runs := ⟨a, h⟩

/-- The first part is known. -/
theorem Gives.bind_iff (h : x.Gives a) : (x >>= f).Gives b ↔ (f a).Gives b := by
  rw [gives_bind]
  constructor
  · rintro ⟨a', hx, hf⟩
    rwa [h.unique hx]
  · exact fun hf => ⟨a, h, hf⟩

@[simp] theorem runs_pure : (pure a : Check α).Runs := ⟨a, (gives_pure).mpr rfl⟩

@[simp] theorem runs_tick : (tick a).Runs := ⟨a, (gives_tick).mpr rfl⟩

@[simp] theorem not_runs_crash : ¬(crash : Check α).Runs := fun h => not_gives_crash h.choose_spec

theorem runs_bind : (x >>= f).Runs ↔ ∃ a, x.Gives a ∧ (f a).Runs := by
  simp only [Runs, gives_bind]
  constructor
  · rintro ⟨b, a, hx, hf⟩
    exact ⟨a, hx, b, hf⟩
  · rintro ⟨a, hx, b, hf⟩
    exact ⟨b, a, hx, hf⟩

theorem Gives.runs_bind_iff (h : x.Gives a) : (x >>= f).Runs ↔ (f a).Runs := by
  simp only [Runs, h.bind_iff]

theorem gives_ite : (if p then x else y).Gives a ↔ (p → x.Gives a) ∧ (¬p → y.Gives a) := by
  split
  · next h => simp [h]
  · next h => simp [h]

theorem runs_ite : (if p then x else y).Runs ↔ (p → x.Runs) ∧ (¬p → y.Runs) := by
  split
  · next h => simp [h]
  · next h => simp [h]

/-- The computation ends, with a value that has a property. -/
def Ensures (x : Check α) (P : α → Prop) : Prop := ∃ a, x.Gives a ∧ P a

theorem Ensures.pure {P : α → Prop} (h : P a) : (Pure.pure a : Check α).Ensures P :=
  ⟨a, (gives_pure).mpr rfl, h⟩

theorem Ensures.bind {P : β → Prop} (hx : x.Gives a) (hf : (f a).Ensures P) : (x >>= f).Ensures P := by
  obtain ⟨b, hb, hP⟩ := hf
  exact ⟨b, hx.bind_iff.mpr hb, hP⟩

theorem Ensures.mono {P Q : α → Prop} (h : x.Ensures P) (hPQ : ∀ a, P a → Q a) : x.Ensures Q := by
  obtain ⟨a, ha, hP⟩ := h
  exact ⟨a, ha, hPQ a hP⟩

theorem Ensures.ite {P : α → Prop} (hx : p → x.Ensures P) (hy : ¬p → y.Ensures P) : (if p then x
    else y).Ensures P := by
  split
  · exact hx ‹_›
  · exact hy ‹_›

theorem gives_ensure : (ensure p).Gives () ↔ p := by
  unfold ensure
  split
  · next h => simp [h]
  · next h => simp [h]

theorem gives_ensure_bind {y : Unit → Check β} : (ensure p >>= y).Gives b ↔ p ∧ (y ()).Gives b := by
  rw [gives_bind]
  constructor
  · rintro ⟨⟨⟩, h, hy⟩
    exact ⟨(gives_ensure).mp h, hy⟩
  · rintro ⟨h, hy⟩
    exact ⟨(), (gives_ensure).mpr h, hy⟩

end gives

section within

variable {x y : Check α} {f : α → Check β} {a : α} {n m : Nat} {p : Prop} [Decidable p]

theorem Within.pure : (pure a : Check α).Within n := by
  rintro a' k h
  cases h
  exact Nat.zero_le n

theorem Within.crash : (crash : Check α).Within n := by
  rintro a' k h
  cases h

theorem Within.tick (h : 1 ≤ n) : (tick a).Within n := by
  rintro a' k hk
  cases hk
  exact h

theorem Within.mono (h : x.Within n) (hn : n ≤ m) : x.Within m := fun a k hk => (h a k hk).trans hn

theorem Within.bind (h : x.Within n) (hf : ∀ a, x.Gives a → (f a).Within m) : (x >>= f).Within (n + m) := by
  intro b k hk
  have hbind : Check.bind x f = some (b, k) := hk
  unfold Check.bind at hbind
  obtain ⟨⟨a, i⟩, hx, hrest⟩ := Option.bind_eq_some_iff.mp hbind
  obtain ⟨⟨b', j⟩, hb, heq⟩ := Option.map_eq_some_iff.mp hrest
  cases heq
  exact Nat.add_le_add (h a i hx) (hf a ⟨i, hx⟩ b' j hb)

/-- The first part uses nothing. -/
theorem Within.free (h : x.Within 0) (hf : ∀ a, x.Gives a → (f a).Within n) : (x >>= f).Within n :=
  (Within.bind h hf).mono (by omega)

theorem Within.step (h : x.Within 1) (hf : ∀ a, x.Gives a → (f a).Within n) : (x >>= f).Within (n + 1) :=
  (Within.bind h hf).mono (by omega)

theorem Within.ite (hx : p → x.Within n) (hy : ¬p → y.Within n) : (if p then x else y).Within n := by
  split
  · next h => exact hx h
  · next h => exact hy h

theorem Within.ensure : (ensure p).Within n := Within.ite (fun _ => Within.pure) fun _ => Within.crash

end within

/-! ### Loops -/

/-- What is wanted of every step that a loop comes to: all steps before it pass on. -/
def Stepwise (passes wanted : Nat → Prop) (i n : Nat) : Prop :=
  ∀ k, i ≤ k → k < i + n → (∀ j, i ≤ j → j < k → passes j) → wanted k

section loops

variable {passes wanted : Nat → Prop} {i n : Nat}

theorem stepwise_zero : Stepwise passes wanted i 0 := fun _ hle hlt => absurd hlt (by omega)

theorem stepwise_succ :
    Stepwise passes wanted i (n + 1) ↔ wanted i ∧ (passes i → Stepwise passes wanted (i + 1) n) := by
  constructor
  · intro h
    refine ⟨h i le_rfl (by omega) fun j hle hlt => absurd hlt (by omega), fun hpass k hle hlt hall => ?_⟩
    apply h k (by omega) (by omega)
    intro j hj hjk
    by_cases heq : j = i
    · rwa [heq]
    · exact hall j (by omega) hjk
  · rintro ⟨hfirst, hrest⟩ k hle hlt hall
    by_cases heq : k = i
    · rwa [heq]
    · exact hrest (hall i le_rfl (by omega)) k (by omega) (by omega) fun j hj hjk => hall j (by omega) hjk

end loops

/-! ### Waits -/

/-- One event after the other, for a number of turns, until one is recognised. A turn can be without
an event. -/
def await {ι : Type} (step : β → ι → Check (Option α × β)) : Nat → List (Option ι) → β →
    Check (Option α × List (Option ι) × β)
  | 0, events, b => pure (none, events, b)
  | _ + 1, [], b => pure (none, [], b)
  | n + 1, none :: events, b => await step n events b
  | n + 1, some e :: events, b => do
    let (found, b) ← step b e
    match found with
    | some a => return (some a, events, b)
    | none => await step n events b

/-- A wait keeps what its steps keep. What it recognises is recognised by the step of the last event
it took. -/
theorem await_gives {ι : Type} {step : β → ι → Check (Option α × β)} {I : β → Prop}
    (hstep : ∀ b e r, I b → (step b e).Gives r → I r.2) (n : Nat) (events : List (Option ι)) (b : β)
      (hb : I b)
    {r : Option α × List (Option ι) × β} (h : (await step n events b).Gives r) :
    I r.2.2 ∧ ∀ a, r.1 = some a →
      ∃ front c e, I c ∧ events = front ++ some e :: r.2.1 ∧ (step c e).Gives (some a, r.2.2) := by
  induction n generalizing events b with
  | zero =>
    rw [await, gives_pure] at h
    subst h
    exact ⟨hb, fun a ha => by cases ha⟩
  | succ n ih =>
    cases events with
    | nil =>
      rw [await, gives_pure] at h
      subst h
      exact ⟨hb, fun a ha => by cases ha⟩
    | cons event events =>
      cases event with
      | none =>
        obtain ⟨hkeep, hfound⟩ := ih events b hb h
        refine ⟨hkeep, fun a ha => ?_⟩
        obtain ⟨front, c, e, hc, heq, hgives⟩ := hfound a ha
        exact ⟨none :: front, c, e, hc, by rw [heq]; rfl, hgives⟩
      | some e =>
        rw [await, gives_bind] at h
        obtain ⟨⟨found, b'⟩, hfirst, h⟩ := h
        have hb' := hstep b e _ hb hfirst
        cases found with
        | some a =>
          rw [gives_pure] at h
          subst h
          refine ⟨hb', fun a' ha => ?_⟩
          cases ha
          exact ⟨[], b, e, hb, rfl, hfirst⟩
        | none =>
          obtain ⟨hkeep, hfound⟩ := ih events b' hb' h
          refine ⟨hkeep, fun a ha => ?_⟩
          obtain ⟨front, c, e', hc, heq, hgives⟩ := hfound a ha
          exact ⟨some e :: front, c, e', hc, by rw [heq]; rfl, hgives⟩

/-! ### Bytes and 64-bit numbers -/

/-- The byte at an index. -/
def byteAt (t : List UInt8) (i : Nat) : Check UInt8 :=
  match t[i]? with
  | some b => pure b
  | none => crash

/-- The bytes from `i` up to `j`. -/
def slice (t : List UInt8) (i j : Nat) : Check (List UInt8) :=
  if i ≤ j ∧ j ≤ t.length then pure ((t.take j).drop i) else crash

def add64 (a b : Nat) : Check Nat := if a + b < 2 ^ 64 then pure (a + b) else crash

def mul64 (a b : Nat) : Check Nat := if a * b < 2 ^ 64 then pure (a * b) else crash

section bytes

variable {t u : List UInt8} {i j a b n : Nat}

theorem gives_byteAt {c : UInt8} : (byteAt t i).Gives c ↔ t[i]? = some c := by
  unfold byteAt
  cases t[i]? with
  | none => simp
  | some d => simp

theorem runs_byteAt : (byteAt t i).Runs ↔ i < t.length := by
  unfold byteAt
  cases h : t[i]? with
  | none => simpa using List.getElem?_eq_none_iff.mp h
  | some d => simpa using (List.getElem?_eq_some_iff.mp h).1

/-- The byte is in range. -/
theorem gives_byteAt_getD (h : i < t.length) : (byteAt t i).Gives (t.getD i 0) := by
  rw [gives_byteAt, List.getD_eq_getElem?_getD, List.getElem?_eq_getElem h]
  rfl

theorem gives_slice (h : i ≤ j ∧ j ≤ t.length) : (slice t i j).Gives ((t.take j).drop i) := by
  rw [slice, if_pos h]
  simp

theorem runs_slice : (slice t i j).Runs ↔ i ≤ j ∧ j ≤ t.length := by
  unfold slice
  split
  · next h => simp [h]
  · next h => simp [h]

theorem gives_slice_iff : (slice t i j).Gives u ↔ (i ≤ j ∧ j ≤ t.length) ∧ (t.take j).drop i = u := by
  unfold slice
  split
  · next h => simp [h]
  · next h => simp [h]

theorem gives_add64 : (add64 a b).Gives n ↔ a + b < 2 ^ 64 ∧ a + b = n := by
  unfold add64
  split
  · next h =>
    rw [gives_pure]
    exact ⟨fun heq => ⟨h, heq⟩, And.right⟩
  · next h => exact ⟨fun hg => absurd hg not_gives_crash, fun hlt => absurd hlt.1 h⟩

theorem gives_mul64 : (mul64 a b).Gives n ↔ a * b < 2 ^ 64 ∧ a * b = n := by
  unfold mul64
  split
  · next h =>
    rw [gives_pure]
    exact ⟨fun heq => ⟨h, heq⟩, And.right⟩
  · next h => exact ⟨fun hg => absurd hg not_gives_crash, fun hlt => absurd hlt.1 h⟩

theorem Within.byteAt : (byteAt t i).Within n := by
  unfold Check.byteAt
  split
  · exact Within.pure
  · exact Within.crash

theorem Within.slice : (slice t i j).Within n := Within.ite (fun _ => Within.pure) fun _ => Within.crash

theorem Within.add64 : (add64 a b).Within n := Within.ite (fun _ => Within.pure) fun _ => Within.crash

theorem Within.mul64 : (mul64 a b).Within n := Within.ite (fun _ => Within.pure) fun _ => Within.crash

end bytes

/-! ### Little-endian numbers -/

/-- The number of some bytes, the lowest first. -/
def leValue : List UInt8 → Nat
  | [] => 0
  | b :: t => b.toNat + 256 * leValue t

theorem leValue_lt (t : List UInt8) : leValue t < 256 ^ t.length := by
  induction t with
  | nil => exact Nat.one_pos
  | cons b t ih =>
    have := b.toNat_lt
    rw [leValue, List.length_cons, Nat.pow_succ]
    omega

theorem leValue_zeros (n : Nat) : leValue (List.replicate n 0) = 0 := by
  induction n with
  | zero => rfl
  | succ n ih => rw [List.replicate_succ, leValue, ih, UInt8.toNat_zero]

/-- The number of the bytes from `i` up to `j`. -/
def leAt (t : List UInt8) (i j : Nat) : Check Nat := do
  let bytes ← slice t i j
  return leValue bytes

theorem gives_leAt {t : List UInt8} {i j : Nat} (h : i ≤ j ∧ j ≤ t.length) :
    (leAt t i j).Gives (leValue ((t.take j).drop i)) := by
  rw [leAt, (gives_slice h).bind_iff, gives_pure]

theorem Within.leAt {t : List UInt8} {i j n : Nat} : (leAt t i j).Within n :=
  Within.free Within.slice fun _ _ => Within.pure

theorem runs_leAt {t : List UInt8} {i j : Nat} : (leAt t i j).Runs ↔ i ≤ j ∧ j ≤ t.length := by
  rw [leAt, runs_bind]
  constructor
  · rintro ⟨u, hu, -⟩
    exact (runs_slice).mp ⟨u, hu⟩
  · intro h
    exact ⟨_, gives_slice h, runs_pure⟩

/-- The number of the bytes from `i` up to `j`, the highest first. -/
def beAt (t : List UInt8) (i j : Nat) : Check Nat := do
  let bytes ← slice t i j
  return leValue bytes.reverse

theorem gives_beAt {t : List UInt8} {i j : Nat} (h : i ≤ j ∧ j ≤ t.length) :
    (beAt t i j).Gives (leValue ((t.take j).drop i).reverse) := by
  rw [beAt, (gives_slice h).bind_iff, gives_pure]

end Check

end Lerux

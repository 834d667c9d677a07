import Mathlib.Logic.Function.Basic
import Mathlib.Tactic

/-!
# Concurrent programs and invariants

A program is a tree of operations with loops. Threads run programs over one shared memory, one
operation at a time, in any order a scheduling rule `may` allows.

An `Outline` is an invariant argument with ghosts: every thread has a ghost
value that records where it stands, `inv` relates all the ghosts with the memory, and `ok` says what
a thread's ghost must satisfy for it to be about to perform an operation. `Outline.Safe` runs a
program symbolically against it: each operation keeps `inv` for some new value of the thread's own
ghost. `Outline.holds_of_reach` is the run rule.
-/

namespace Lerux.Base

/-- The operations of a program, with what each one returns. -/
structure Sig where
  Op : Type
  Res : Op → Type

/-- Programs over a signature. `loop body b k` runs `body` from `b` until it gives a right value,
and goes on with `k`. -/
inductive Prog (S : Sig) : Type → Type 1
  | ret {α : Type} (a : α) : Prog S α
  | act {α : Type} (o : S.Op) (k : S.Res o → Prog S α) : Prog S α
  | loop {α β γ : Type} (body : β → Prog S (β ⊕ γ)) (b : β) (k : γ → Prog S α) : Prog S α

namespace Prog

variable {S : Sig} {α β γ : Type}

def bind {α β : Type} : Prog S α → (α → Prog S β) → Prog S β
  | ret a, f => f a
  | act o k, f => act o fun r => (k r).bind f
  | loop body b k, f => loop body b fun c => (k c).bind f

instance : Monad (Prog S) where
  pure := ret
  bind := bind

/-- One operation. -/
def op (o : S.Op) : Prog S (S.Res o) := act o ret

/-- Run `body` until it gives a right value. -/
def iterate (b : β) (body : β → Prog S (β ⊕ γ)) : Prog S γ := loop body b ret

/-- Run `body` for ever. -/
def forever (body : Prog S Unit) : Prog S Empty :=
  iterate () fun _ => body.bind fun _ => ret (.inl ())

/-- Run `body` over the elements of a list, with an accumulator. -/
def fold (xs : List β) (a : α) (body : α → β → Prog S α) : Prog S α :=
  match xs with
  | [] => ret a
  | x :: xs => (body a x).bind fun a => fold xs a body

/-- Run `body` over the elements of a list. -/
def each (xs : List β) (body : β → Prog S Unit) : Prog S Unit := fold xs () fun _ => body

/-- Run a program under a condition. -/
def when (c : Prop) [Decidable c] (p : Prog S Unit) : Prog S Unit := if c then p else ret ()

@[simp] theorem pure_eq (a : α) : (pure a : Prog S α) = ret a := rfl
@[simp] theorem bind_eq (p : Prog S α) (f : α → Prog S β) : p >>= f = p.bind f := rfl
@[simp] theorem ret_bind (a : α) (f : α → Prog S β) : (ret a : Prog S α).bind f = f a := rfl
@[simp] theorem op_bind (o : S.Op) (f : S.Res o → Prog S β) : (op o).bind f = act o f := rfl

@[simp] theorem bind_ret (p : Prog S α) : p.bind ret = p := by
  induction p with
  | ret a => rfl
  | act o k ih => simp only [bind, ih]
  | loop body b k _ ih => simp only [bind, ih]

theorem bind_assoc (p : Prog S α) (f : α → Prog S β) (g : β → Prog S γ) :
    (p.bind f).bind g = p.bind fun a => (f a).bind g := by
  induction p with
  | ret a => rfl
  | act o k ih => simp only [bind, ih]
  | loop body b k _ ih => simp only [bind, ih]

/-- Every operation of the program satisfies `D`. -/
def All (D : S.Op → Prop) : {α : Type} → Prog S α → Prop
  | _, ret _ => True
  | _, act o k => D o ∧ ∀ r, (k r).All D
  | _, loop body _ k => (∀ b, (body b).All D) ∧ ∀ c, (k c).All D

section all

variable {D D' : S.Op → Prop}

@[simp] theorem all_ret (a : α) : (ret a : Prog S α).All D := trivial

@[simp] theorem all_op (o : S.Op) : (op o).All D ↔ D o := by
  simp [op, All]

theorem All.bind {p : Prog S α} {f : α → Prog S β} (hp : p.All D) (hf : ∀ a, (f a).All D) :
    (p.bind f).All D := by
  induction p with
  | ret a => exact hf a
  | act o k ih => exact ⟨hp.1, fun r => ih r (hp.2 r) hf⟩
  | loop body b k _ ih => exact ⟨hp.1, fun c => ih c (hp.2 c) hf⟩

theorem All.iterate {b : β} {body : β → Prog S (β ⊕ γ)} (h : ∀ b, (body b).All D) :
    (Prog.iterate b body).All D :=
  ⟨h, fun _ => trivial⟩

theorem All.forever {body : Prog S Unit} (h : body.All D) : (Prog.forever body).All D :=
  All.iterate fun _ => h.bind fun _ => trivial

theorem All.fold {xs : List β} {a : α} {body : α → β → Prog S α} (h : ∀ a x, (body a x).All D) :
    (Prog.fold xs a body).All D := by
  induction xs generalizing a with
  | nil => trivial
  | cons x xs ih => exact (h a x).bind fun _ => ih

theorem All.each {xs : List β} {body : β → Prog S Unit} (h : ∀ x, (body x).All D) :
    (Prog.each xs body).All D :=
  All.fold fun _ x => h x

theorem All.ite {c : Prop} {_ : Decidable c} {p q : Prog S α} (hp : p.All D) (hq : q.All D) :
    (if c then p else q).All D := by
  split
  · exact hp
  · exact hq

theorem All.when {c : Prop} {_ : Decidable c} {p : Prog S Unit} (hp : p.All D) : (Prog.when c p).All D :=
  All.ite hp trivial

end all

/-- One turn of a loop. -/
def turn (body : β → Prog S (β ⊕ γ)) (b : β) (k : γ → Prog S α) : Prog S α :=
  (body b).bind fun
    | .inl b' => loop body b' k
    | .inr c => k c

theorem All.turn {D : S.Op → Prop} {body : β → Prog S (β ⊕ γ)} {b : β} {k : γ → Prog S α}
    (h : (loop body b k).All D) : (Prog.turn body b k).All D := by
  refine (h.1 b).bind fun x => ?_
  cases x with
  | inl b' => exact h
  | inr c => exact h.2 c

end Prog

/-! ### Threads over a shared memory -/

variable {T : Type} [DecidableEq T] {S : Sig} {σ : Type}

/-- What every thread has left to run, and the shared memory. -/
structure State (T : Type) (S : Sig) (σ : Type) where
  prog : T → Prog S Empty
  mem : σ

/-- Thread `t` performs an operation, or starts a turn of a loop. -/
inductive Step (step : T → σ → (o : S.Op) → S.Res o → σ → Prop) (s : State T S σ) (t : T) :
    State T S σ → Prop
  | act {o : S.Op} {k : S.Res o → Prog S Empty} {r : S.Res o} {m : σ} (hp : s.prog t = .act o k)
      (hs : step t s.mem o r m) : Step step s t ⟨Function.update s.prog t (k r), m⟩
  | turn {β γ : Type} {body : β → Prog S (β ⊕ γ)} {b : β} {k : γ → Prog S Empty}
      (hp : s.prog t = .loop body b k) :
      Step step s t ⟨Function.update s.prog t (Prog.turn body b k), s.mem⟩

/-- The states some schedule that follows `may` reaches. -/
inductive Reach (step : T → σ → (o : S.Op) → S.Res o → σ → Prop) (may : State T S σ → T → Prop)
    (init : State T S σ) : State T S σ → Prop
  | init : Reach step may init init
  | step {s s' : State T S σ} {t : T} (h : Reach step may init s) (hm : may s t) (hs : Step step s t s') :
      Reach step may init s'

/-- An invariant argument. `ok` and `calm` say where a thread may stand with a ghost: about to perform an
operation, or at the head of a loop. `may t G s o` is what `t` may assume when it performs `o`. -/
structure Outline (T : Type) (S : Sig) (σ : Type) where
  step : T → σ → (o : S.Op) → S.Res o → σ → Prop
  Ghost : T → Type
  ok : (t : T) → Ghost t → S.Op → Prop
  calm : (t : T) → Ghost t → Prop
  may : T → ((t : T) → Ghost t) → σ → S.Op → Prop
  inv : ((t : T) → Ghost t) → σ → Prop

namespace Outline

variable (O : Outline T S σ) {t : T} {α β γ : Type}

/-- Thread `t`, with its ghost at `g`, may perform `o`: the invariant survives for some new ghost that
`Q` admits for the result. -/
def Performs (t : T) (o : S.Op) (Q : S.Res o → O.Ghost t → Prop) (g : O.Ghost t) : Prop :=
  O.ok t g o ∧ ∀ (G : (t : T) → O.Ghost t) (s : σ), G t = g → O.may t G s o → O.inv G s →
    ∀ (r : S.Res o) (s' : σ), O.step t s o r s' →
      ∃ g' : O.Ghost t, O.inv (Function.update G t g') s' ∧ Q r g'

/-- Thread `t` may run the program from ghost `g`, and `Q` admits what it ends in. -/
def Safe (t : T) : {α : Type} → Prog S α → (α → O.Ghost t → Prop) → O.Ghost t → Prop
  | _, .ret a, Q, g => Q a g
  | _, .act o k, Q, g => O.Performs t o (fun r g' => Safe t (k r) Q g') g
  | _, .loop (β := β) body b k, Q, g => ∃ I : β → O.Ghost t → Prop, I b g ∧
      ∀ b g, I b g → O.calm t g ∧ Safe t (body b) (fun x g' =>
        match x with
        | .inl b' => I b' g'
        | .inr c => Safe t (k c) Q g') g

variable {O}

theorem Performs.mono {o : S.Op} {Q Q' : S.Res o → O.Ghost t → Prop} {g : O.Ghost t}
    (hQ : ∀ r g, Q r g → Q' r g) (h : O.Performs t o Q g) : O.Performs t o Q' g := by
  refine ⟨h.1, fun G s hg hm hi r s' hs => ?_⟩
  obtain ⟨g', hi', hq⟩ := h.2 G s hg hm hi r s' hs
  exact ⟨g', hi', hQ r g' hq⟩

@[simp] theorem safe_ret {a : α} {Q : α → O.Ghost t → Prop} {g : O.Ghost t} :
    O.Safe t (.ret a) Q g ↔ Q a g := Iff.rfl

@[simp] theorem safe_op {o : S.Op} {Q : S.Res o → O.Ghost t → Prop} {g : O.Ghost t} :
    O.Safe t (Prog.op o) Q g ↔ O.Performs t o Q g := Iff.rfl

theorem Safe.mono {p : Prog S α} {Q Q' : α → O.Ghost t → Prop} {g : O.Ghost t} (hQ : ∀ a g, Q a g → Q' a g)
    (h : O.Safe t p Q g) : O.Safe t p Q' g := by
  induction p generalizing g with
  | ret a => exact hQ a g h
  | act o k ih => exact Performs.mono (fun r g hr => ih r hQ hr) h
  | loop body b k ihb ihk =>
    obtain ⟨I, hb, hI⟩ := h
    refine ⟨I, hb, fun b g hbg => ⟨(hI b g hbg).1, ihb b ?_ (hI b g hbg).2⟩⟩
    rintro (b' | c) g' hx
    · exact hx
    · exact ihk c hQ hx

theorem Safe.bind {p : Prog S α} {f : α → Prog S β} {Q : β → O.Ghost t → Prop} {g : O.Ghost t}
    (h : O.Safe t p (fun a g' => O.Safe t (f a) Q g') g) : O.Safe t (p.bind f) Q g := by
  induction p generalizing g with
  | ret a => exact h
  | act o k ih => exact Performs.mono (fun r g hr => ih r hr) h
  | loop body b k _ ihk =>
    obtain ⟨I, hb, hI⟩ := h
    refine ⟨I, hb, fun b g hbg => ⟨(hI b g hbg).1, (hI b g hbg).2.mono ?_⟩⟩
    rintro (b' | c) g' hx
    · exact hx
    · exact ihk c hx

/-- A sub-program with its own postcondition `R`. -/
theorem Safe.seq {p : Prog S α} {f : α → Prog S β} {R : α → O.Ghost t → Prop} {Q : β → O.Ghost t → Prop}
    {g : O.Ghost t} (h : O.Safe t p R g) (hf : ∀ a g, R a g → O.Safe t (f a) Q g) : O.Safe t
      (p.bind f) Q g :=
  (h.mono hf).bind

/-- The rule for loops: `I` holds at the head of every turn. -/
theorem Safe.iterate {body : β → Prog S (β ⊕ γ)} {b : β} {Q : γ → O.Ghost t → Prop} {g : O.Ghost t}
    (I : β → O.Ghost t → Prop) (hb : I b g) (hc : ∀ b g, I b g → O.calm t g)
    (hI : ∀ b g, I b g → O.Safe t (body b) (fun x g' =>
      match x with
      | .inl b' => I b' g'
      | .inr c => Q c g') g) : O.Safe t (Prog.iterate b body) Q g :=
  ⟨I, hb, fun b g h => ⟨hc b g h, hI b g h⟩⟩

theorem Safe.forever {body : Prog S Unit} {Q : Empty → O.Ghost t → Prop} {g : O.Ghost t}
    (I : O.Ghost t → Prop)
    (hg : I g) (hc : ∀ g, I g → O.calm t g) (hI : ∀ g, I g → O.Safe t body (fun _ g' => I g') g) :
    O.Safe t (Prog.forever body) Q g :=
  Safe.iterate (fun _ g => I g) hg (fun _ g h => hc g h) fun _ g h => (hI g h).seq fun _ _ h => h

/-- The rule for a pass over a list: `I` says what holds when the elements `xs` are left. -/
theorem Safe.fold {body : α → β → Prog S α} {Q : α → O.Ghost t → Prop} (I : List β → α → O.Ghost t → Prop)
    (hI : ∀ x xs a g, I (x :: xs) a g → O.Safe t (body a x) (fun a g' => I xs a g') g)
    (hQ : ∀ a g, I [] a g → Q a g) {xs : List β} {a : α} {g : O.Ghost t} (h : I xs a g) :
    O.Safe t (Prog.fold xs a body) Q g := by
  induction xs generalizing a g with
  | nil => exact hQ a g h
  | cons x xs ih => exact (hI x xs a g h).seq fun _ g h => ih h

theorem Safe.each {body : β → Prog S Unit} {Q : Unit → O.Ghost t → Prop} (I : List β → O.Ghost t → Prop)
    (hI : ∀ x xs g, I (x :: xs) g → O.Safe t (body x) (fun _ g' => I xs g') g)
    (hQ : ∀ g, I [] g → Q () g) {xs : List β} {g : O.Ghost t}
      (h : I xs g) : O.Safe t (Prog.each xs body) Q g :=
  Safe.fold (fun xs _ g => I xs g) (fun x xs _ g h => hI x xs g h) (fun _ g h => hQ g h) h

theorem Safe.ite {c : Prop} {_ : Decidable c} {p q : Prog S α} {Q : α → O.Ghost t → Prop} {g : O.Ghost t}
    (hp : c → O.Safe t p Q g) (hq : ¬c → O.Safe t q Q g) : O.Safe t (if c then p else q) Q g := by
  split
  · exact hp ‹_›
  · exact hq ‹_›

theorem Safe.when {c : Prop} {_ : Decidable c} {p : Prog S Unit} {Q : Unit → O.Ghost t → Prop}
    {g : O.Ghost t}
    (hp : c → O.Safe t p Q g) (hn : ¬c → Q () g) : O.Safe t (Prog.when c p) Q g :=
  Safe.ite hp hn

theorem Safe.turn {body : β → Prog S (β ⊕ γ)} {b : β} {k : γ → Prog S α} {Q : α → O.Ghost t → Prop}
    {g : O.Ghost t}
    (h : O.Safe t (.loop body b k) Q g) : O.Safe t (Prog.turn body b k) Q g := by
  obtain ⟨I, hb, hI⟩ := h
  refine (hI b g hb).2.seq ?_
  rintro (b' | c) g' hx
  · exact ⟨I, hx, hI⟩
  · exact hx

/-! ### Runs -/

variable (O)

/-- Every thread may run what it has left from its ghost. -/
def Covers (G : (t : T) → O.Ghost t) (prog : T → Prog S Empty) : Prop :=
  ∀ t, O.Safe t (prog t) (fun _ _ => True) (G t)

/-- The invariant holds of the memory, with ghosts from which every thread may go on. -/
def Holds (s : State T S σ) : Prop := ∃ G : (t : T) → O.Ghost t, O.inv G s.mem ∧ O.Covers G s.prog

variable {O}

theorem Covers.update {G : (t : T) → O.Ghost t} {prog : T → Prog S Empty} (h : O.Covers G prog)
    {p : Prog S Empty}
    {g : O.Ghost t} (hp : O.Safe t p (fun _ _ => True) g) :
    O.Covers (Function.update G t g) (Function.update prog t p) := by
  intro t'
  by_cases ht : t' = t
  · subst ht
    simpa using hp
  · simpa [Function.update_of_ne ht] using h t'

theorem Covers.calm {G : (t : T) → O.Ghost t} {prog : T → Prog S Empty} (h : O.Covers G prog)
    {body : β → Prog S (β ⊕ γ)}
    {b : β} {k : γ → Prog S Empty} (hp : prog t = .loop body b k) : O.calm t (G t) := by
  have := h t
  rw [hp] at this
  obtain ⟨I, hb, hI⟩ := this
  exact (hI b _ hb).1

theorem Covers.ok {G : (t : T) → O.Ghost t} {prog : T → Prog S Empty} (h : O.Covers G prog) {o : S.Op}
    {k : S.Res o → Prog S Empty} (hp : prog t = .act o k) : O.ok t (G t) o := by
  have := h t
  rw [hp] at this
  exact this.1

theorem holds_step {s s' : State T S σ} (h : O.Holds s)
    (hm : ∀ G o k, s.prog t = .act o k → O.Covers G s.prog → O.may t G s.mem o) (hs : Step O.step s t s') :
    O.Holds s' := by
  obtain ⟨G, hi, hc⟩ := h
  have ht := hc t
  cases hs with
  | act hp hs =>
    rw [hp] at ht
    obtain ⟨g', hi', hsafe⟩ := ht.2 G s.mem rfl (hm G _ _ hp hc) hi _ _ hs
    exact ⟨_, hi', hc.update hsafe⟩
  | turn hp =>
    rw [hp] at ht
    refine ⟨G, hi, ?_⟩
    have := hc.update ht.turn
    rwa [Function.update_eq_self] at this

/-- The run rule. -/
theorem holds_of_reach {may : State T S σ → T → Prop} {init s : State T S σ} (h0 : O.Holds init)
    (hm : ∀ s t G o k, may s t → s.prog t = .act o k → O.Covers G s.prog → O.may t G s.mem o)
    (h : Reach O.step may init s) : O.Holds s := by
  induction h with
  | init => exact h0
  | step _ hmay hs ih => exact holds_step ih (fun G o k hp hc => hm _ _ G o k hmay hp hc) hs

end Outline

end Lerux.Base

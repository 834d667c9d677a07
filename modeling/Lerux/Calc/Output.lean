import Lerux.Calc.Grammar
import Mathlib.Algebra.Group.Nat.Defs

/-!
# The calculator's output

`write_u64` and `write_i64`, and what the calculator makes of what they write: the number itself
(`eval_writeI64`). The digits of a number saturate before its sign is read, so the smallest number
comes back as the one above it.
-/

namespace Lerux.Calc

/-- The loop of `write_u64`: the digits before those that are written already, `index` of which have
room. -/
def digitsLoop : Nat → Nat → List UInt8 → Option (List UInt8)
  | 0, _, _ => none
  | index + 1, value, tmp =>
    if value / 10 = 0 then some (.ofNat (48 + value % 10) :: tmp)
    else digitsLoop index (value / 10) (.ofNat (48 + value % 10) :: tmp)

/-- The buffer behind the write, and the number of bytes. There is none where the buffer is too small. -/
def writeU64 (buf : List UInt8) (value : Nat) : Option (List UInt8 × Nat) := do
  let digits ← digitsLoop 20 value []
  if digits.length ≤ buf.length then some (digits ++ buf.drop digits.length, digits.length) else none

def writeI64 (buf : List UInt8) (value : Int) : Option (List UInt8 × Nat) :=
  if value < 0 then
    match buf with
    | [] => none
    | _ :: buf => (writeU64 buf value.natAbs).map fun (out, n) => (minus :: out, 1 + n)
  else writeU64 buf value.toNat

/-! ### Digits -/

/-- Digits of a number, at least one. -/
structure Digits (value : Nat) (digits : List UInt8) : Prop where
  all : ∀ b ∈ digits, isDigit b = true
  value : decimal digits = value
  ne_nil : digits ≠ []

section digits

variable {value k : Nat} {digits : List UInt8} {b : UInt8}

theorem digit_spec {d : Nat} (hd : d < 10) : isDigit (.ofNat (48 + d)) = true ∧
    digitValue (.ofNat (48 + d)) = d := by
  revert d
  decide

theorem decimal_append (digits : List UInt8) (b : UInt8) : decimal (digits ++ [b]) =
    10 * decimal digits + digitValue b := by
  rw [decimal, List.foldl_append]
  rfl

theorem Digits.one (hvalue : value < 10) : Digits value [.ofNat (48 + value)] where
  all b hb := by
    obtain rfl := List.mem_singleton.mp hb
    exact (digit_spec hvalue).1
  value := by
    show 10 * 0 + digitValue _ = value
    rw [(digit_spec hvalue).2, Nat.mul_zero, Nat.zero_add]
  ne_nil := List.cons_ne_nil _ _

theorem Digits.more (h : Digits (value / 10) digits) :
    Digits value (digits ++ [.ofNat (48 + value % 10)]) where
  all b hb := by
    obtain hb | hb := List.mem_append.mp hb
    · exact h.all b hb
    · obtain rfl := List.mem_singleton.mp hb
      exact (digit_spec (Nat.mod_lt _ (by decide))).1
  value := by
    rw [decimal_append, h.value, (digit_spec (Nat.mod_lt _ (by decide))).2]
    omega
  ne_nil := List.append_ne_nil_of_right_ne_nil _ (List.cons_ne_nil _ _)

/-- A number below a power of ten has at most that many digits, and they have room. -/
theorem digitsLoop_spec (room k : Nat) (hvalue : value < 10 ^ (k + 1)) (tmp : List UInt8) :
    ∃ digits, digitsLoop (room + (k + 1)) value tmp = some (digits ++ tmp) ∧ Digits value digits ∧
      digits.length ≤ k + 1 := by
  induction k generalizing value tmp with
  | zero =>
    have hsmall : value < 10 := hvalue
    rw [digitsLoop, if_pos (Nat.div_eq_of_lt hsmall), Nat.mod_eq_of_lt hsmall]
    exact ⟨[_], rfl, .one hsmall, le_rfl⟩
  | succ k ih =>
    rw [← Nat.add_assoc, digitsLoop]
    by_cases hten : value / 10 = 0
    · have hsmall : value < 10 := by omega
      rw [if_pos hten, Nat.mod_eq_of_lt hsmall]
      exact ⟨[_], rfl, .one hsmall, Nat.le_add_left 1 (k + 1)⟩
    · have hvalue' : value / 10 < 10 ^ (k + 1) := by
        rw [Nat.pow_succ] at hvalue
        omega
      obtain ⟨digits, hdigits, hspec, hlength⟩ := ih hvalue' (.ofNat (48 + value % 10) :: tmp)
      rw [if_neg hten, hdigits]
      refine ⟨digits ++ [.ofNat (48 + value % 10)], by simp, hspec.more, ?_⟩
      rw [List.length_append]
      exact Nat.succ_le_succ hlength

end digits

/-! ### Texts that hold one number -/

section one

variable {value : Nat} {digits : List UInt8}

theorem Digits.tokens (h : Digits value digits) : tokens digits = [.number digits] := by
  cases digits with
  | nil => exact absurd rfl h.ne_nil
  | cons b t =>
    have hb : isDigit b = true := h.all b (List.mem_cons_self ..)
    have ht : ∀ c ∈ t, isDigit c = true := fun c hc => h.all c (List.mem_cons_of_mem _ hc)
    have hspace : b ≠ space := by
      rintro rfl
      cases hb
    rw [tokens_digits hb hspace, List.takeWhile_eq_self_iff.mpr ht, List.dropWhile_eq_nil_iff.mpr ht]
    rfl

theorem not_overflows {st : Stage} {ts : List Token} (h : Token.slash ∉ ts) : ¬Overflows st ts := by
  rintro ⟨before, us, vs, after, rfl, -⟩
  exact h (by simp)

/-- A text without a division has the value it derives with. -/
theorem eval_of_derives {input : List UInt8} {v : Int} (h : Derives .sum (Calc.tokens input) v)
    (hslash : Token.slash ∉ Calc.tokens input) : eval input = .ok v :=
  h.eval.resolve_left fun hpanic => not_overflows hslash (overflows_of_eval hpanic)

theorem Digits.eval (h : Digits value digits) : eval digits = .ok (min (value : Int) i64Max) := by
  have hderives : Derives .sum (Calc.tokens digits) (min (decimal digits : Int) i64Max) := by
    rw [h.tokens]
    exact Derives.number.factor.product
  rw [h.value] at hderives
  exact eval_of_derives hderives (by simp [h.tokens])

theorem Digits.eval_minus (h : Digits value digits) : Calc.eval (minus :: digits) =
    .ok (saturate (-min (value : Int) i64Max)) := by
  have htokens : Calc.tokens (minus :: digits) = [.minus, .number digits] := by
    rw [Calc.tokens, h.tokens]
    rfl
  have hderives : Derives .sum (Calc.tokens (minus :: digits))
    (saturate (-min (decimal digits : Int) i64Max)) := by
    rw [htokens]
    exact Derives.number.negative.factor.product
  rw [h.value] at hderives
  exact eval_of_derives hderives (by simp [htokens])

end one

/-! ### What is written is read again -/

section output

variable {buf : List UInt8} {v : Int}

theorem writeU64_spec {value : Nat} (k : Nat) (hk : k < 20) (hvalue : value < 10 ^ (k + 1))
    (hbuf : k + 1 ≤ buf.length) :
    ∃ digits, Digits value digits ∧
      writeU64 buf value = some (digits ++ buf.drop digits.length, digits.length) := by
  obtain ⟨digits, hdigits, hspec, hlength⟩ := digitsLoop_spec (19 - k) k hvalue []
  rw [show 19 - k + (k + 1) = 20 by omega, List.append_nil] at hdigits
  refine ⟨digits, hspec, ?_⟩
  rw [writeU64, hdigits]
  exact if_pos (hlength.trans hbuf)

/-- The calculator reads what `write_i64` has written as the same number; the smallest one it reads
as the number above it. -/
theorem eval_writeI64 (hmin : i64Min ≤ v) (hmax : v ≤ i64Max) (hbuf : 20 ≤ buf.length) :
    ∃ out n, writeI64 buf v = some (out, n) ∧ eval (out.take n) = .ok (if v = i64Min then i64Min + 1
      else v) := by
  unfold i64Min i64Max at *
  unfold writeI64
  by_cases hneg : v < 0
  · cases buf with
    | nil => cases hbuf
    | cons b buf =>
      obtain ⟨digits, hspec, hwrite⟩ := @writeU64_spec buf v.natAbs 18 (by decide) (by omega)
        (Nat.le_of_succ_le_succ hbuf)
      refine ⟨minus :: (digits ++ buf.drop digits.length), 1 + digits.length, ?_, ?_⟩
      · rw [if_pos hneg]
        show (writeU64 buf v.natAbs).map _ = _
        rw [hwrite]
        rfl
      · rw [Nat.add_comm, List.take_succ_cons, List.take_left, hspec.eval_minus]
        congr 1
        unfold saturate i64Min i64Max
        split_ifs with hsmallest <;> omega
  · obtain ⟨digits, hspec, hwrite⟩ := @writeU64_spec buf v.toNat 19 (by decide) (by omega) hbuf
    refine ⟨digits ++ buf.drop digits.length, digits.length, ?_, ?_⟩
    · rw [if_neg hneg, hwrite]
    · rw [List.take_left, hspec.eval]
      congr 1
      unfold i64Max
      split_ifs with hsmallest <;> omega

theorem eval_writeI64_smallest : ∃ out n, writeI64 (List.replicate 20 0) i64Min = some (out, n) ∧
    eval (out.take n) = .ok (if i64Min = i64Min then i64Min + 1 else i64Min) :=
  eval_writeI64 (by decide) (by decide) (by decide)

/-- The smallest number is not read as itself. -/
theorem smallest_not_reread : ¬∀ (v : Int) (buf : List UInt8), i64Min ≤ v → v ≤ i64Max → 20 ≤ buf.length →
    ∃ out n, writeI64 buf v = some (out, n) ∧ eval (out.take n) = .ok v := by
  intro h
  obtain ⟨out, n, hwrite, heval⟩ := h i64Min (List.replicate 20 0) (by decide) (by decide) (by decide)
  have hwritten : writeI64 (List.replicate 20 0) i64Min =
      some (minus :: [57, 50, 50, 51, 51, 55, 50, 48, 51, 54, 56, 53, 52, 55, 55, 53, 56, 48, 56],
        20) := by decide +kernel
  obtain ⟨rfl, rfl⟩ := Prod.mk.inj (Option.some.inj (hwritten.symm.trans hwrite))
  have hread : eval (minus :: [57, 50, 50, 51, 51, 55, 50, 48, 51, 54, 56, 53, 52, 55, 55, 53, 56,
    48, 56]) = .ok (i64Min + 1) := by
    decide +kernel
  cases heval.symm.trans hread

end output

end Lerux.Calc

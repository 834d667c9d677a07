import Mathlib.Data.Fin.VecNotation
import Mathlib.Data.List.OfFn
import Mathlib.Algebra.Field.ZMod
import Mathlib.RingTheory.AdjoinRoot
import Mathlib.Tactic.ComputeDegree
import Mathlib.Tactic.LinearCombination

/-!
# The block cipher with a key of 128 bits

FIPS-197. A byte is a polynomial over GF(2), a bit a coefficient, and bytes are multiplied modulo
x^8 + x^4 + x^3 + x + 1 (`poly_mul`). The state is a matrix of bytes, filled column by column.
-/

namespace Lerux.Base.Rijndael

/-! ### Bytes -/

def bit (b : UInt8) (i : Nat) : Bool := b.toNat.testBit i

/-- The product with x. -/
def xtime (a : UInt8) : UInt8 := a <<< 1 ^^^ if bit a 7 then 0x1b else 0

/-- The product with the terms of `b` below degree `n`. -/
def mulBelow (a b : UInt8) : Nat → UInt8
  | 0 => 0
  | n + 1 => mulBelow a b n ^^^ if bit b n then xtime^[n] a else 0

def mul (a b : UInt8) : UInt8 := mulBelow a b 8

/-- The inverse in the field, with 0 for 0. -/
def IsInverse (b inv : UInt8) : Prop := if b = 0 then inv = 0 else mul b inv = 1

/-- The byte whose product with `b` is 1, and 0 for 0. -/
def inverse (b : UInt8) : UInt8 := (((List.range 256).map UInt8.ofNat).find? fun c => mul b c = 1).getD 0

def affineBit (b : UInt8) (i : Nat) : Bool :=
  bit b i ^^ bit b ((i + 4) % 8) ^^ bit b ((i + 5) % 8) ^^ bit b ((i + 6) % 8) ^^ bit b
    ((i + 7) % 8) ^^ bit 0x63 i

def affine (b : UInt8) : UInt8 := .ofNat ((List.range 8).foldl
    (fun n i => n + (affineBit b i).toNat <<< i) 0)

/-- The substitution box. -/
def subByte (b : UInt8) : UInt8 := affine (inverse b)

/-! ### Rounds -/

/-- By row and column. -/
abbrev State : Type := Fin 4 → Fin 4 → UInt8

def load (input : Fin 16 → UInt8) : State := fun r c => input ⟨r.val + 4 * c.val, by omega⟩

def store (s : State) : Fin 16 → UInt8 := fun i => s ⟨i.val % 4, by omega⟩ ⟨i.val / 4, by omega⟩

def subBytes (s : State) : State := fun r c => subByte (s r c)

def shiftRows (s : State) : State := fun r c => s r (c + r)

/-- The coefficients of 3x^3 + x^2 + x + 2, the lowest first. -/
def mixPolynomial : Fin 4 → UInt8 := ![2, 1, 1, 3]

/-- A column times a polynomial, modulo x^4 + 1. -/
def mulColumn (a column : Fin 4 → UInt8) (r : Fin 4) : UInt8 :=
  mul (a r) (column 0) ^^^ mul (a (r - 1)) (column 1) ^^^ mul (a (r - 2))
    (column 2) ^^^ mul (a (r - 3)) (column 3)

def mixColumns (s : State) : State := fun r c => mulColumn mixPolynomial (fun r => s r c) r

def add (s k : State) : State := fun r c => s r c ^^^ k r c

/-! ### Keys -/

abbrev Word : Type := Fin 4 → UInt8

def rotWord (w : Word) : Word := fun r => w (r + 1)

def subWord (w : Word) : Word := fun r => subByte (w r)

/-- The powers of x in the first byte. -/
def rcon (i : Nat) : Word := ![(List.replicate (i - 1) 2).foldl mul 1, 0, 0, 0]

/-- What is added to the word four places back. -/
def temp (i : Nat) (w : Word) : Word :=
  if i % 4 = 0 then fun r => subWord (rotWord w) r ^^^ rcon (i / 4) r else w

def word (key : Fin 16 → UInt8) : Nat → Word
  | 0 => fun r => load key r 0
  | 1 => fun r => load key r 1
  | 2 => fun r => load key r 2
  | 3 => fun r => load key r 3
  | i + 4 => fun r => word key i r ^^^ temp (i + 4) (word key (i + 3)) r

def roundKey (key : Fin 16 → UInt8) (round : Nat) : State := fun r c => word key (4 * round + c.val) r

def round (key : Fin 16 → UInt8) (s : State) (i : Nat) : State :=
  add (mixColumns (shiftRows (subBytes s))) (roundKey key i)

def cipher (key input : Fin 16 → UInt8) : Fin 16 → UInt8 :=
  let s := (List.range' 1 9).foldl (round key) (add (load input) (roundKey key 0))
  store (add (shiftRows (subBytes s)) (roundKey key 10))

/-! ### The field -/

open Polynomial

/-- The modulus. -/
noncomputable def modulus : (ZMod 2)[X] := X ^ 8 + X ^ 4 + X ^ 3 + X + 1

abbrev Field256 : Type := AdjoinRoot modulus

noncomputable def root : Field256 := AdjoinRoot.root modulus

def coeff (R : Type) [Zero R] [One R] (b : Bool) : R := if b then 1 else 0

noncomputable def poly (b : UInt8) : Field256 := ∑ i ∈ Finset.range 8, coeff Field256 (bit b i) * root ^ i

theorem add_self (x : Field256) : x + x = 0 := by
  have htwo : (2 : Field256) = 0 := by
    have hmap := map_ofNat (AdjoinRoot.of modulus) 2
    rw [← hmap, show (OfNat.ofNat 2 : ZMod 2) = 0 from rfl, map_zero]
  rw [← two_mul, htwo, zero_mul]

theorem root_pow : root ^ 8 = root ^ 4 + root ^ 3 + root + 1 := by
  have heval : AdjoinRoot.mk modulus modulus = root ^ 8 + root ^ 4 + root ^ 3 + root + 1 := by
    show AdjoinRoot.mk modulus (X ^ 8 + X ^ 4 + X ^ 3 + X + 1) = _
    simp only [map_add, map_pow, AdjoinRoot.mk_X, map_one]
    rfl
  rw [AdjoinRoot.mk_self] at heval
  linear_combination -heval - add_self (root ^ 4 + root ^ 3 + root + 1)

theorem coeff_xor (a b : Bool) : coeff Field256 (a ^^ b) = coeff Field256 a + coeff Field256 b := by
  cases a <;> cases b <;> simp [coeff, add_self]

theorem bit_xor (a b : UInt8) (i : Nat) : bit (a ^^^ b) i = (bit a i ^^ bit b i) := by
  rw [bit, UInt8.toNat_xor, Nat.testBit_xor]
  rfl

theorem poly_zero : poly 0 = 0 := by
  refine Finset.sum_eq_zero fun i _ => ?_
  rw [bit, UInt8.toNat_zero, Nat.zero_testBit]
  exact zero_mul _

theorem poly_one : poly 1 = 1 := by
  unfold poly
  simp only [Finset.sum_range_succ, Finset.sum_range_zero]
  simp [bit, coeff, Nat.testBit]

theorem poly_xor (a b : UInt8) : poly (a ^^^ b) = poly a + poly b := by
  unfold poly
  rw [← Finset.sum_add_distrib]
  refine Finset.sum_congr rfl fun i _ => ?_
  rw [bit_xor, coeff_xor, add_mul]

theorem bit_shift (a : UInt8) (i : Nat) (hi : i < 8) :
    bit (a <<< 1) i = (decide (1 ≤ i) && bit a (i - 1)) := by
  have hnat : (a <<< 1).toNat = a.toNat <<< 1 % 2 ^ 8 := UInt8.toNat_shiftLeft a 1
  rw [bit, hnat, Nat.testBit_mod_two_pow, decide_eq_true hi, Bool.true_and, Nat.testBit_shiftLeft]
  rfl

theorem poly_shift (a : UInt8) : poly (a <<< 1) = root * poly a + coeff Field256 (bit a 7) * root ^ 8 := by
  have hsum : poly (a <<< 1) = ∑ i ∈ Finset.range 7, coeff Field256 (bit a i) * root ^ (i + 1) := by
    unfold poly
    rw [Finset.sum_range_succ']
    have hlow : coeff Field256 (bit (a <<< 1) 0) = 0 := by
      rw [bit_shift a 0 (by decide)]
      rfl
    rw [hlow, zero_mul, add_zero]
    refine Finset.sum_congr rfl fun i hi => ?_
    rw [Finset.mem_range] at hi
    rw [bit_shift a (i + 1) (by omega)]
    simp
  have hpoly : root * poly a = ∑ i ∈ Finset.range 8, coeff Field256 (bit a i) * root ^ (i + 1) := by
    unfold poly
    rw [Finset.mul_sum]
    refine Finset.sum_congr rfl fun i _ => ?_
    ring
  rw [hsum, hpoly, Finset.sum_range_succ _ 7, add_assoc, add_self, add_zero]

theorem poly_xtime (a : UInt8) : poly (xtime a) = root * poly a := by
  rw [xtime, poly_xor, poly_shift, add_assoc]
  cases bit a 7 with
  | false => simp [coeff, poly_zero]
  | true =>
    have hreduce : poly 0x1b = root ^ 4 + root ^ 3 + root + 1 := by
      unfold poly
      simp only [Finset.sum_range_succ, Finset.sum_range_zero]
      simp [bit, coeff, Nat.testBit]
      ring
    rw [if_pos rfl, hreduce, root_pow, coeff, if_pos rfl, one_mul, add_self, add_zero]

theorem poly_mul (a b : UInt8) : poly (mul a b) = poly a * poly b := by
  have hbelow : ∀ n, poly (mulBelow a b n) = poly a * ∑ i ∈ Finset.range n,
    coeff Field256 (bit b i) * root ^ i := by
    have hpow : ∀ n, poly (xtime^[n] a) = root ^ n * poly a := by
      intro n
      induction n with
      | zero => rw [pow_zero, one_mul, Function.iterate_zero, id_eq]
      | succ n ih => rw [Function.iterate_succ_apply', poly_xtime, ih, pow_succ', mul_assoc]
    intro n
    induction n with
    | zero => rw [mulBelow, poly_zero, Finset.sum_range_zero, mul_zero]
    | succ n ih =>
      rw [mulBelow, poly_xor, ih, Finset.sum_range_succ, mul_add]
      congr 1
      cases bit b n with
      | false => simp [coeff, poly_zero]
      | true => simp [coeff, hpow, mul_comm]
  exact hbelow 8

/-- A byte as a polynomial, before it is reduced. -/
noncomputable def terms (b : UInt8) : (ZMod 2)[X] :=
  ∑ i ∈ Finset.range 8, C (coeff (ZMod 2) (bit b i)) * X ^ i

theorem mk_terms (b : UInt8) : AdjoinRoot.mk modulus (terms b) = poly b := by
  unfold terms poly
  rw [map_sum]
  refine Finset.sum_congr rfl fun i _ => ?_
  rw [map_mul, map_pow, AdjoinRoot.mk_X, AdjoinRoot.mk_C]
  cases bit b i with
  | false => simp [coeff]
  | true => simp [coeff, root]

theorem degree_terms (b : UInt8) : (terms b).degree < 8 := by
  refine lt_of_le_of_lt (degree_sum_le _ _) ((Finset.sup_lt_iff (by decide)).mpr fun i hi => ?_)
  rw [Finset.mem_range] at hi
  exact lt_of_le_of_lt (degree_C_mul_X_pow_le i _) (by exact_mod_cast hi)

theorem degree_modulus : modulus.degree = 8 := by
  unfold modulus
  compute_degree!

theorem coeff_terms (b : UInt8) (i : Nat) (hi : i < 8) : (terms b).coeff i = coeff (ZMod 2) (bit b i) := by
  unfold terms
  rw [finsetSum_coeff, Finset.sum_eq_single i]
  · rw [coeff_C_mul_X_pow, if_pos rfl]
  · intro j _ hj
    rw [coeff_C_mul_X_pow, if_neg (Ne.symm hj)]
  · exact fun h => absurd (Finset.mem_range.mpr hi) h

theorem poly_injective {a b : UInt8} (h : poly a = poly b) : a = b := by
  have hdvd : modulus ∣ terms a - terms b := by
    rw [← AdjoinRoot.mk_eq_zero, map_sub, mk_terms, mk_terms, h, sub_self]
  have hdegree : (terms a - terms b).degree < modulus.degree := by
    rw [degree_modulus]
    exact lt_of_le_of_lt (degree_sub_le _ _) (max_lt (degree_terms a) (degree_terms b))
  have hterms : terms a = terms b := sub_eq_zero.mp (eq_zero_of_dvd_of_degree_lt hdvd hdegree)
  have hbits : ∀ i, i < 8 → bit a i = bit b i := by
    intro i hi
    have hcoeff := congrArg (fun p => p.coeff i) hterms
    rw [coeff_terms a i hi, coeff_terms b i hi] at hcoeff
    revert hcoeff
    cases bit a i <;> cases bit b i <;> simp [coeff]
  apply UInt8.toNat_inj.mp
  apply Nat.eq_of_testBit_eq
  intro i
  by_cases hi : i < 8
  · exact hbits i hi
  · have hpow : 2 ^ 8 ≤ 2 ^ i := Nat.pow_le_pow_right (by decide) (by omega)
    rw [Nat.testBit_lt_two_pow (lt_of_lt_of_le a.toNat_lt hpow),
      Nat.testBit_lt_two_pow (lt_of_lt_of_le b.toNat_lt hpow)]

theorem mul_swap (a b : UInt8) : mul a b = mul b a :=
  poly_injective (by rw [poly_mul, poly_mul, mul_comm])

theorem inverse_unique {b c c' : UInt8} (h : mul b c = 1) (h' : mul b c' = 1) : c = c' := by
  have hc := congrArg poly h
  have hc' := congrArg poly h'
  rw [poly_mul, poly_one] at hc hc'
  apply poly_injective
  calc poly c = poly c * (poly b * poly c') := by rw [hc', mul_one]
    _ = poly b * poly c * poly c' := by ring
    _ = poly c' := by rw [hc, one_mul]

theorem zero_mul_eq (b : UInt8) : mul 0 b = 0 :=
  poly_injective (by rw [poly_mul, poly_zero, zero_mul])

theorem inverse_eq {b inv : UInt8} (h : IsInverse b inv) : inverse b = inv := by
  unfold IsInverse at h
  unfold inverse
  by_cases hb : b = 0
  · rw [if_pos hb] at h
    have hnone : ((List.range 256).map UInt8.ofNat).find? (fun c => mul b c = 1) = none := by
      rw [List.find?_eq_none]
      intro c _
      rw [hb, zero_mul_eq]
      decide
    rw [hnone, h]
    rfl
  · rw [if_neg hb] at h
    cases hfind : ((List.range 256).map UInt8.ofNat).find? fun c => mul b c = 1 with
    | none =>
      have hinv : inv ∈ (List.range 256).map UInt8.ofNat :=
        List.mem_map.mpr ⟨inv.toNat, List.mem_range.mpr inv.toNat_lt, UInt8.ofNat_toNat⟩
      exact absurd (decide_eq_true h) (List.find?_eq_none.mp hfind inv hinv)
    | some c =>
      have hc := List.find?_some hfind
      exact inverse_unique (of_decide_eq_true hc) h

end Lerux.Base.Rijndael

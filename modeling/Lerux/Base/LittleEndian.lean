import Mathlib.Data.List.Basic
import Mathlib.Algebra.Group.Nat.Defs

/-!
# Numbers as bytes

A number as a count of bytes, the lowest byte first, and the number that bytes are. What is read
where a number was written is the number, up to what the bytes hold.
-/

namespace Lerux.Base

def leBytes : Nat → Nat → List UInt8
  | 0, _ => []
  | count + 1, n => .ofNat n :: leBytes count (n / 256)

def leNat : List UInt8 → Nat
  | [] => 0
  | b :: s => b.toNat + 256 * leNat s

/-- The number at a place, if all its bytes are there. -/
def readLe (count : Nat) (s : List UInt8) (off : Nat) : Option Nat :=
  if off + count ≤ s.length then some (leNat ((s.drop off).take count)) else none

variable {count n : Nat} {s before after bytes : List UInt8}

@[simp] theorem length_leBytes (count n : Nat) : (leBytes count n).length = count := by
  induction count generalizing n with
  | zero => rfl
  | succ count ih => exact congrArg (· + 1) (ih _)

theorem leNat_leBytes (h : n < 256 ^ count) : leNat (leBytes count n) = n := by
  induction count generalizing n with
  | zero => exact (Nat.lt_one_iff.mp h).symm
  | succ count ih =>
    have hdiv : n / 256 < 256 ^ count := by
      rw [Nat.pow_succ] at h
      omega
    have hbyte : (UInt8.ofNat n).toNat = n % 256 := UInt8.toNat_ofNat
    rw [leBytes, leNat, ih hdiv, hbyte]
    omega

/-- Of a number that is too long for its bytes, the low part is written. -/
theorem leNat_leBytes_mod (count n : Nat) : leNat (leBytes count n) = n % 256 ^ count := by
  induction count generalizing n with
  | zero => exact (Nat.mod_one n).symm
  | succ count ih =>
    have hbyte : (UInt8.ofNat n).toNat = n % 256 := UInt8.toNat_ofNat
    rw [leBytes, leNat, ih, hbyte, Nat.pow_succ', Nat.mod_mul]

theorem leNat_lt (s : List UInt8) : leNat s < 256 ^ s.length := by
  induction s with
  | nil => exact Nat.one_pos
  | cons b s ih =>
    have hb := b.toNat_lt
    rw [leNat, List.length_cons, Nat.pow_succ]
    omega

theorem leBytes_leNat (s : List UInt8) : leBytes s.length (leNat s) = s := by
  induction s with
  | nil => rfl
  | cons b s ih =>
    have hb := b.toNat_lt
    have hdiv : (b.toNat + 256 * leNat s) / 256 = leNat s := by omega
    have hbyte : UInt8.ofNat (b.toNat + 256 * leNat s) = b := by
      apply UInt8.toNat_inj.mp
      rw [UInt8.toNat_ofNat']
      omega
    rw [List.length_cons, leNat, leBytes, hdiv, hbyte, ih]

theorem readLe_take {off len : Nat} (h : off + count ≤ len) (hlen : len ≤ s.length) :
    readLe count (s.take len) off = readLe count s off := by
  unfold readLe
  rw [List.length_take, Nat.min_eq_left hlen, if_pos h, if_pos (Nat.le_trans h hlen),
    List.drop_take, List.take_take, Nat.min_eq_left (by omega)]

end Lerux.Base

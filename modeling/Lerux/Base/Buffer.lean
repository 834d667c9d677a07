import Mathlib.Data.List.Basic

/-!
# A buffer that is written from its front

`copyFrom` puts bytes at a place of a buffer. Behind what has been written so far they come next,
whatever the buffer held.
-/

namespace Lerux.Base

def copyFrom (out : List UInt8) (off : Nat) (bytes : List UInt8) : List UInt8 :=
  out.take off ++ bytes ++ out.drop (off + bytes.length)

theorem copyFrom_append (written out bytes : List UInt8) :
    copyFrom (written ++ out) written.length bytes = written ++ bytes ++ out.drop bytes.length := by
  rw [copyFrom, List.take_left, ← List.drop_drop, List.drop_left]

variable {out : List UInt8}

theorem length_copyFrom {off : Nat} {bytes : List UInt8} (h : off + bytes.length ≤ out.length) :
    (copyFrom out off bytes).length = out.length := by
  rw [copyFrom, List.length_append, List.length_append, List.length_take_of_le (by omega), List.length_drop]
  omega

theorem copyFrom_nil (out : List UInt8) (off : Nat) : copyFrom out off [] = out := by
  rw [copyFrom, List.append_nil]
  exact List.take_append_drop off out

/-- What was written is read back. -/
theorem take_drop_copyFrom {off : Nat} {bytes : List UInt8} (h : off ≤ out.length) :
    ((copyFrom out off bytes).drop off).take bytes.length = bytes := by
  have hfront : (out.take off).length = off := List.length_take_of_le h
  rw [copyFrom, List.append_assoc, List.drop_append_of_le_length (by omega),
    List.drop_eq_nil_of_le (by omega), List.nil_append,
    List.take_left]

/-- What is beside a write stays. -/
theorem take_drop_copyFrom_apart {start n off : Nat} {bytes : List UInt8}
    (hroom : off + bytes.length ≤ out.length)
    (h : start + n ≤ off ∨ off + bytes.length ≤ start) :
      ((copyFrom out off bytes).drop start).take n = (out.drop start).take n := by
  rw [copyFrom]
  have hfront : (out.take off).length = off := List.length_take_of_le (by omega)
  rcases h with h | h
  · rw [List.append_assoc, List.drop_append_of_le_length (by omega),
      List.take_append_of_le_length (by rw [List.length_drop]; omega),
      List.drop_take, List.take_take, Nat.min_eq_left (by omega)]
  · have hbehind : off + bytes.length + (start - (off + bytes.length)) = start := by omega
    rw [List.drop_append, List.drop_eq_nil_of_le (by rw [List.length_append]; omega),
      List.nil_append, List.length_append, hfront,
      List.drop_drop, hbehind]

theorem getD_copyFrom {i off : Nat} {bytes : List UInt8} (hi : i < off) (h : off ≤ out.length) (d : UInt8) :
    (copyFrom out off bytes).getD i d = out.getD i d := by
  have hfront : (out.take off).length = off := List.length_take_of_le h
  rw [List.getD_eq_getElem?_getD, List.getD_eq_getElem?_getD, copyFrom, List.append_assoc,
    List.getElem?_append_left (by omega),
    List.getElem?_take_of_lt hi]

/-- Two writes beside each other are one. -/
theorem copyFrom_copyFrom {off next : Nat} {bytes more : List UInt8} (hnext : next = off + bytes.length)
    (h : off + bytes.length ≤ out.length) : copyFrom (copyFrom out off bytes) next more =
      copyFrom out off (bytes ++ more) := by
  subst hnext
  have hfront : (out.take off ++ bytes).length = off + bytes.length := by
    rw [List.length_append, List.length_take_of_le (by omega)]
  have hbehind : (out.take off ++ bytes ++ out.drop (off + bytes.length)).drop
    (off + bytes.length + more.length) =
      out.drop (off + (bytes ++ more).length) := by
    rw [← List.drop_drop, ← hfront, List.drop_left, List.drop_drop, hfront, List.length_append,
      Nat.add_assoc]
  have hkept : (out.take off ++ bytes ++ out.drop (off + bytes.length)).take (off + bytes.length) =
    out.take off ++ bytes := by
    rw [← hfront, List.take_left]
  have hfirst : copyFrom out off bytes = out.take off ++ bytes ++ out.drop (off + bytes.length) := rfl
  rw [hfirst, copyFrom, hkept, hbehind, copyFrom, List.append_assoc (out.take off)]

namespace Written

variable {written buffer : List UInt8}

end Written

end Lerux.Base

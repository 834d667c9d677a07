import Mathlib.Data.List.Basic

/-!
# A memory of bytes

A memory gives a byte for every address. `readAt` is what stands at an address, and `writeAt` puts
bytes there and leaves the others. What is written is read back, and a read beside it finds what was
there before.
-/

namespace Lerux.Base

def readAt (bytes : Nat → UInt8) (off n : Nat) : List UInt8 := (List.range n).map fun i => bytes (off + i)

def writeAt (bytes : Nat → UInt8) (off : Nat) (data : List UInt8) (a : Nat) : UInt8 :=
  if off ≤ a ∧ a < off + data.length then data.getD (a - off) 0 else bytes a

variable {bytes : Nat → UInt8} {data : List UInt8} {off off' n len : Nat}

theorem writeAt_of_mem {a : Nat} (h : off ≤ a) (h' : a < off + data.length) :
    writeAt bytes off data a = data.getD (a - off) 0 :=
  if_pos ⟨h, h'⟩

theorem writeAt_of_not_mem {a : Nat} (h : a < off ∨ off + data.length ≤ a) :
    writeAt bytes off data a = bytes a :=
  if_neg (by omega)

@[simp] theorem length_readAt : (readAt bytes off n).length = n := by
  simp [readAt]

theorem getElem?_readAt (i : Nat) : (readAt bytes off n)[i]? = if i < n then some (bytes (off + i))
    else none := by
  unfold readAt
  split
  · next h => simp [h]
  · next h => simp [h]

theorem readAt_take (h : len ≤ n) : readAt bytes off len = (readAt bytes off n).take len := by
  apply List.ext_getElem?
  intro i
  rw [getElem?_readAt, List.getElem?_take, getElem?_readAt]
  split
  · next hi => rw [if_pos (by omega)]
  · rfl

theorem readAt_writeAt : readAt (writeAt bytes off data) off data.length = data := by
  apply List.ext_getElem?
  intro i
  rw [getElem?_readAt]
  split
  · next hi =>
    rw [writeAt_of_mem (by omega) (by omega), Nat.add_sub_cancel_left, List.getD_eq_getElem?_getD,
      List.getElem?_eq_getElem hi]
    rfl
  · next hi => rw [List.getElem?_eq_none (by omega)]

theorem readAt_writeAt_of_disjoint (h : off' + n ≤ off ∨ off + data.length ≤ off') :
    readAt (writeAt bytes off data) off' n = readAt bytes off' n := by
  apply List.ext_getElem?
  intro i
  rw [getElem?_readAt, getElem?_readAt]
  split
  · next hi => rw [writeAt_of_not_mem (by omega)]
  · rfl

end Lerux.Base

import Mathlib.Algebra.Group.Nat.Defs

/-!
# Checked arithmetic

A sum or a product of unsigned words of a width, which there is only where it fits.
-/

namespace Lerux.Base

def checkedAdd (bits a b : Nat) : Option Nat := if a + b < 2 ^ bits then some (a + b) else none

def checkedMul (bits a b : Nat) : Option Nat := if a * b < 2 ^ bits then some (a * b) else none

variable {bits a b n : Nat}

theorem checkedAdd_eq_some (h : checkedAdd bits a b = some n) : a + b < 2 ^ bits ∧ a + b = n := by
  unfold checkedAdd at h
  split at h
  · next hlt => exact ⟨hlt, Option.some.inj h⟩
  · cases h

theorem checkedMul_eq_some (h : checkedMul bits a b = some n) : a * b < 2 ^ bits ∧ a * b = n := by
  unfold checkedMul at h
  split at h
  · next hlt => exact ⟨hlt, Option.some.inj h⟩
  · cases h

end Lerux.Base

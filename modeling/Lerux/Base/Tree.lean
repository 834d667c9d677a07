import Mathlib.Data.List.Basic

/-!
# The tree below a node

A table of children, each behind its parent, is a tree. `grow` makes it a value on which functions
recurse by its structure.
-/

namespace Lerux.Base

inductive Tree
  | node (id : Nat) (children : List Tree)

namespace Tree

def id : Tree → Nat
  | node i _ => i

/-- The tree below a node, down to a depth. -/
def grow (ch : Nat → List Nat) : Nat → Nat → Tree
  | 0, i => node i []
  | depth + 1, i => node i ((ch i).map (grow ch depth))

/-- The children of a node are behind it in the table. -/
def Behind (ch : Nat → List Nat) (n : Nat) : Prop := ∀ i, ∀ c ∈ ch i, i < c ∧ c < n

variable {ch : Nat → List Nat} {n : Nat}

theorem Behind.nil (h : Behind ch n) {i : Nat} (hi : n ≤ i) : ch i = [] := by
  refine List.eq_nil_iff_forall_not_mem.mpr fun c hc => ?_
  obtain ⟨hlt, hle⟩ := h i c hc
  omega

/-- A depth that reaches the end of the table is as good as another. -/
theorem Behind.grow_eq (h : Behind ch n) (depth : Nat) : ∀ depth' i, n ≤ i + depth →
    n ≤ i + depth' → grow ch depth i = grow ch depth' i := by
  induction depth with
  | zero =>
    intro depth' i hi _
    cases depth' with
    | zero => rfl
    | succ depth' => rw [grow, grow, h.nil (show n ≤ i from hi), List.map_nil]
  | succ depth ih =>
    intro depth' i hi hi'
    cases depth' with
    | zero => rw [grow, grow, h.nil (show n ≤ i from hi'), List.map_nil]
    | succ depth' =>
      rw [grow, grow]
      congr 1
      refine List.map_congr_left fun c hc => ?_
      obtain ⟨hlt, _⟩ := h i c hc
      exact ih depth' c (by omega) (by omega)

/-- The tree below a node has the trees below its children. -/
theorem Behind.grow_node (h : Behind ch n) (i : Nat) : grow ch n i = node i ((ch i).map (grow ch n)) := by
  rw [h.grow_eq n (n + 1) i (by omega) (by omega), grow]

end Tree

end Lerux.Base

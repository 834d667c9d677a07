import Mathlib.Logic.Function.Basic

/-!
# Runs of actions

A system whose actions are each taken at once: `step` is the state behind an action, if the action
can be taken. A run takes actions that meet a condition on the state before them, and what every
such step preserves holds in every state of a run.
-/

namespace Lerux.Base

variable {σ α : Type}

/-- The states of the runs from a state. -/
inductive Steps (step : σ → α → Option σ) (meets : σ → α → Prop) (s : σ) : σ → Prop
  | start : Steps step meets s s
  | next {s' s'' : σ} {a : α} : Steps step meets s s' → meets s' a → step s' a = some s'' →
      Steps step meets s s''

namespace Steps

variable {step : σ → α → Option σ} {meets : σ → α → Prop} {s s' : σ}

theorem keeps {I : σ → Prop} (hstep : ∀ {s a s'}, I s → meets s a → step s a = some s' → I s')
    (h : Steps step meets s s') (hs : I s) : I s' := by
  induction h with
  | start => exact hs
  | next _ hmeets hnext ih => exact hstep ih hmeets hnext

/-- A given list of actions, taken one after the other, is a run. -/
theorem of_foldlM {actions : List α} (hmeets : ∀ a ∈ actions, ∀ s, meets s a)
    (h : actions.foldlM step s = some s') : Steps step meets s s' := by
  suffices hrun : ∀ (rest : List α) (t : σ), rest ⊆ actions → Steps step meets s t →
      rest.foldlM step t = some s' → Steps step meets s s' from
    hrun actions s (List.Subset.refl actions) .start h
  intro rest
  induction rest with
  | nil =>
    intro t _ ht h
    cases h
    exact ht
  | cons a rest ih =>
    intro t hsub ht h
    rw [List.foldlM_cons] at h
    obtain ⟨u, hu, hrest⟩ := Option.bind_eq_some_iff.mp h
    exact ih u (List.subset_of_cons_subset hsub) (ht.next (hmeets a (hsub List.mem_cons_self) t) hu) hrest

end Steps

end Lerux.Base

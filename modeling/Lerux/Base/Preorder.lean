import Mathlib.Data.List.Range
import Mathlib.Tactic

/-!
# Trees numbered in tree order

The nodes of a tree are numbers and `ch` gives the children of each. `Tiles ch cs b e` says that the
trees under `cs`, one after another and each from its root on, are the numbers from `b` up to `e`. A
tree that is still growing at its right edge is a stack of open nodes: the children of the top tile
what is behind it (`Open`), and each node below it has the one above it as its last child
(`Pending`).
-/

namespace Lerux

/-- The nodes of a tree in tree order, down to a depth. -/
def preorder (ch : Nat → List Nat) : Nat → Nat → List Nat
  | 0, _ => []
  | depth + 1, i => i :: (ch i).flatMap (preorder ch depth)

inductive Tiles (ch : Nat → List Nat) : List Nat → Nat → Nat → Prop
  | nil (e : Nat) : Tiles ch [] e e
  | cons {c m e : Nat} {cs : List Nat} : Tiles ch (ch c) (c + 1) m → Tiles ch cs m e →
      Tiles ch (c :: cs) c e

/-- The nodes below an open node, each with the next as its last child so far. -/
inductive Pending (ch : Nat → List Nat) : List Nat → Nat → Prop
  | root : Pending ch [] 0
  | child {p c : Nat} {before rest : List Nat} :
      ch p = before ++ [c] → Tiles ch before (p + 1) c → Pending ch rest p → Pending ch (p :: rest) c

/-- The open nodes, the innermost first, of a tree with the nodes up to `e`. -/
inductive Open (ch : Nat → List Nat) : List Nat → Nat → Prop
  | top {o e : Nat} {rest : List Nat} : Tiles ch (ch o) (o + 1) e → Pending ch rest o →
      Open ch (o :: rest) e

section

variable {ch ch' : Nat → List Nat} {cs ds rest : List Nat} {b c e m o p : Nat}

theorem Tiles.le (h : Tiles ch cs b e) : b ≤ e := by
  induction h with
  | nil e => exact le_rfl
  | cons _ _ ih₁ ih₂ => omega

theorem Tiles.append (h : Tiles ch cs b m) (h' : Tiles ch ds m e) : Tiles ch (cs ++ ds) b e := by
  induction h with
  | nil m => exact h'
  | cons hroot _ _ ih => exact .cons hroot (ih h')

/-- The tiling reads the children of the tiled nodes alone. -/
theorem Tiles.congr (h : Tiles ch cs b e) (heq : ∀ i, b ≤ i → i < e → ch' i = ch i) : Tiles ch' cs b e := by
  induction h with
  | nil e => exact .nil e
  | @cons c m e cs hroot hrest ih₁ ih₂ =>
    have hm := hroot.le
    have he := hrest.le
    refine .cons ?_ (ih₂ fun i hi hi' => heq i (by omega) hi')
    rw [heq c le_rfl (by omega)]
    exact ih₁ fun i hi hi' => heq i (by omega) (by omega)

/-- The last tree ends where the tiling ends. -/
theorem Tiles.last (h : Tiles ch (cs ++ [c]) b e) : Tiles ch (ch c) (c + 1) e := by
  induction cs generalizing b with
  | nil =>
    cases h with
    | cons hroot hrest =>
      cases hrest
      exact hroot
  | cons d cs ih =>
    cases h with
    | cons _ hrest => exact ih hrest

theorem Tiles.eq_of_nil (h : Tiles ch [] b e) : b = e := by
  cases h
  rfl

theorem Tiles.lt_of_mem (h : Tiles ch cs b e) (hc : c ∈ cs) : b ≤ c ∧ c < e := by
  induction h with
  | nil e => cases hc
  | cons hroot hrest _ ih =>
    have := hroot.le
    have := hrest.le
    rcases List.mem_cons.mp hc with rfl | hmem
    · omega
    · have := ih hmem
      omega

theorem Tiles.nodup (h : Tiles ch cs b e) : cs.Nodup := by
  induction h with
  | nil e => exact List.nodup_nil
  | cons hroot hrest _ ih =>
    refine List.nodup_cons.mpr ⟨fun hmem => ?_, ih⟩
    have := hroot.le
    have := (hrest.lt_of_mem hmem).1
    omega

/-- Tree order is the order of the numbers. -/
theorem Tiles.preorder (h : Tiles ch cs b e) {depth : Nat} (hdepth : e ≤ b + depth) :
    cs.flatMap (preorder ch depth) = List.range' b (e - b) := by
  induction h generalizing depth with
  | nil e => simp
  | @cons c m e cs hroot hrest ih₁ ih₂ =>
    have hm := hroot.le
    have he := hrest.le
    obtain ⟨depth, rfl⟩ : ∃ d, depth = d + 1 := ⟨depth - 1, by omega⟩
    rw [List.flatMap_cons, Lerux.preorder, ih₁ (by omega), ih₂ (by omega), ← List.range'_succ,
      show m - (c + 1) + 1 = m - c by omega]
    have hjoin := @List.range'_append_1 c (m - c) (e - m)
    rw [show c + (m - c) = m by omega, show m - c + (e - m) = e - c by omega] at hjoin
    exact hjoin

/-- What is pending reads the children of the nodes before the open one alone. -/
theorem Pending.congr (h : Pending ch rest c) (heq : ∀ i < c, ch' i = ch i) : Pending ch' rest c := by
  induction h with
  | root => exact .root
  | @child p c before rest hch htiles _ ih =>
    have hp := htiles.le
    refine .child (by rw [heq p (by omega), hch]) (htiles.congr fun i _ hi => heq i hi)
      (ih fun i hi => heq i (by omega))

theorem Open.le (h : Open ch (o :: rest) e) : o < e := by
  cases h with
  | top htiles _ => exact htiles.le

theorem Pending.lt (h : Pending ch rest c) : ∀ p ∈ rest, p < c := by
  induction h with
  | root => simp
  | child _ htiles _ ih =>
    have := htiles.le
    intro q hq
    rcases List.mem_cons.mp hq with rfl | hq
    · omega
    · have := ih q hq
      omega

theorem Open.lt (h : Open ch rest e) : ∀ p ∈ rest, p < e := by
  cases h with
  | top htiles hpending =>
    have := htiles.le
    intro p hp
    rcases List.mem_cons.mp hp with rfl | hp
    · omega
    · have := hpending.lt p hp
      omega

/-- The top is closed: it is a child of the node below it. -/
theorem Open.close (h : Open ch (o :: p :: rest) e) : Open ch (p :: rest) e := by
  cases h with
  | top htiles hpending =>
    cases hpending with
    | child hch hbefore hrest =>
      refine .top ?_ hrest
      rw [hch]
      exact hbefore.append (.cons htiles (.nil e))

theorem Open.drop (h : Open ch (cs ++ o :: rest) e) : Open ch (o :: rest) e := by
  induction cs with
  | nil => exact h
  | cons c cs ih =>
    apply ih
    cases cs with
    | nil => exact h.close
    | cons d cs => exact h.close

/-- The last open node is the root. -/
theorem Open.root_mem (h : Open ch rest e) : 0 ∈ rest := by
  have hpending : ∀ {stack : List Nat} {i : Nat}, Pending ch stack i → 0 ∈ i :: stack := by
    intro stack i hp
    induction hp with
    | root => exact List.mem_cons_self
    | child _ _ _ ih => exact List.mem_cons_of_mem _ ih
  cases h with
  | top _ hp => exact hpending hp

/-- All but the root are closed. -/
theorem Open.root (h : Open ch rest e) : Open ch [0] e := by
  cases h with
  | top htiles hpending =>
    induction hpending with
    | root => exact .top htiles .root
    | child hch hbefore hrest ih => exact ih (by rw [hch]; exact hbefore.append (.cons htiles (.nil e)))

/-- The trees below every node are tiled. -/
theorem Tiles.children {i : Nat} (h : Tiles ch cs b e) (hb : b ≤ i) (he : i < e) :
    ∃ m, Tiles ch (ch i) (i + 1) m := by
  induction h with
  | nil e => omega
  | @cons c m e cs hroot hrest ih₁ ih₂ =>
    by_cases hi : i = c
    · exact ⟨m, hi ▸ hroot⟩
    · by_cases him : i < m
      · exact ih₁ (by omega) him
      · exact ih₂ (by omega) he

theorem Open.children {i : Nat} (h : Open ch rest e) (hi : i < e) : ∃ m, Tiles ch (ch i) (i + 1) m := by
  cases h.root with
  | top htiles _ =>
    by_cases h0 : i = 0
    · exact ⟨e, h0 ▸ htiles⟩
    · exact htiles.children (by omega) hi

theorem Open.preorder_root (h : Open ch rest e) : preorder ch e 0 = List.range e := by
  cases h.root with
  | top htiles _ =>
    obtain ⟨d, rfl⟩ : ∃ d, e = d + 1 := ⟨e - 1, by have := htiles.le; omega⟩
    rw [preorder, htiles.preorder (by omega), List.range_eq_range', ← List.range'_succ]
    simp

section grow

variable (h : Open ch (o :: rest) e) (htop : ch' o = ch o ++ [e]) (hnew : ch' e = [])
  (hother : ∀ i, i < e → i ≠ o → ch' i = ch i)

include h htop hnew hother

/-- A node is added under the top and stays closed. -/
theorem Open.addLeaf : Open ch' (o :: rest) (e + 1) := by
  have hlt := h.le
  cases h with
  | top htiles hpending =>
    refine .top ?_ (hpending.congr fun i hi => hother i (by omega) (by omega))
    rw [htop]
    refine (htiles.congr fun i hi hi' => hother i (by omega) (by omega)).append (.cons ?_ (.nil _))
    rw [hnew]
    exact .nil _

/-- A node is added under the top and is the new top. -/
theorem Open.push : Open ch' (e :: o :: rest) (e + 1) := by
  have hlt := h.le
  cases h with
  | top htiles hpending =>
    refine .top (by rw [hnew]; exact .nil _)
      (.child htop ?_ (hpending.congr fun i hi => hother i (by omega) (by omega)))
    exact htiles.congr fun i hi hi' => hother i (by omega) (by omega)

end grow

end

end Lerux

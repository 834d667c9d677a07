import Mathlib.Data.BitVec
import Mathlib.Data.List.Infix
import Mathlib.Logic.Function.Basic
import Mathlib.Tactic

/-!
# Rings with wrapping cursors

A ring is an array of slots with two `w`-bit cursors. The cursors are never reduced modulo the
capacity: the length is their wrapping difference, and a cursor's slot is its value modulo the
capacity. `contents` reads the queued elements off the memory, from `head` up to `tail`.

When the capacity divides `2 ^ w` the slot of a cursor is unaffected by the wrap, and the three
stores a single producer and a single consumer make act on `contents` as one would hope: a store
to the slot at `tail` is invisible (`contents_write`), a store to `tail` appends the element in
that slot (`contents_storeTail`), a store to `head` drops the first one (`contents_storeHead`).
-/

namespace Lerux.Base

/-- The shared memory of one ring. -/
structure Ring (w : Nat) (α : Type) where
  tail : BitVec w
  head : BitVec w
  slot : Nat → α

namespace Ring

variable {w : Nat} {α : Type}

/-- Number of queued elements: the wrapping difference of the cursors. -/
def len (r : Ring w α) : Nat := (r.tail - r.head).toNat

/-- The slot of the cursor `i` places after `cursor`. -/
def slotAt (cap : Nat) (cursor : BitVec w) (i : Nat) : Nat := (cursor + BitVec.ofNat w i).toNat % cap

/-- The queued elements, oldest first. -/
def contents (cap : Nat) (r : Ring w α) : List α :=
  (List.range r.len).map fun i => r.slot (slotAt cap r.head i)

/-- A ring of capacity `cap` that holds no more than that. -/
def Fits (cap : Nat) (r : Ring w α) : Prop := r.len ≤ cap

/-- The capacities for which the cursors count. -/
structure Counts (w cap : Nat) : Prop where
  pos : 0 < cap
  lt : cap < 2 ^ w

/-- The capacities for which the slot of a cursor survives the wrap of the counter. -/
structure Good (w cap : Nat) : Prop extends Counts w cap where
  dvd : cap ∣ 2 ^ w

@[simp] theorem contents_length (cap : Nat) (r : Ring w α) : (r.contents cap).length = r.len := by
  simp [contents]

theorem contents_eq_nil_iff (cap : Nat) (r : Ring w α) : r.contents cap = [] ↔ r.tail = r.head := by
  rw [← List.length_eq_zero_iff, contents_length, len]
  constructor
  · intro h
    have hz : r.tail - r.head = 0#w := BitVec.eq_of_toNat_eq (by simpa using h)
    exact sub_eq_zero.mp hz
  · intro h
    simp [h]

theorem slotAt_eq {cap : Nat} (hg : Good w cap) (cursor : BitVec w) (i : Nat) :
    slotAt cap cursor i = (cursor.toNat + i) % cap := by
  rw [slotAt, BitVec.toNat_add, BitVec.toNat_ofNat, Nat.add_mod_mod, Nat.mod_mod_of_dvd _ hg.dvd]

@[simp] theorem slotAt_zero (cap : Nat) (cursor : BitVec w) :
    slotAt cap cursor 0 = cursor.toNat % cap := by
  simp [slotAt]

theorem slotAt_succ (cap : Nat) (cursor : BitVec w) (i : Nat) :
    slotAt cap (cursor + 1) i = slotAt cap cursor (i + 1) := by
  rw [slotAt, slotAt, BitVec.add_assoc]
  congr 3
  apply BitVec.eq_of_toNat_eq
  simp [Nat.add_comm]

/-- The slot at `tail` is the one `len` places after `head`. -/
theorem slotAt_len (cap : Nat) (r : Ring w α) : slotAt cap r.head r.len = r.tail.toNat % cap := by
  rw [slotAt, len, BitVec.ofNat_toNat, BitVec.setWidth_eq]
  congr 2
  exact add_sub_cancel r.head r.tail

/-- Distinct places of a ring that fits have distinct slots. -/
theorem slotAt_ne {cap : Nat} (hg : Good w cap) (cursor : BitVec w) {i j : Nat} (hij : i < j)
    (hj : j < cap) :
    slotAt cap cursor i ≠ slotAt cap cursor j := by
  rw [slotAt_eq hg, slotAt_eq hg]
  intro h
  have hd : cap ∣ cursor.toNat + j - (cursor.toNat + i) :=
    (Nat.modEq_iff_dvd' (by omega)).mp h
  have := Nat.le_of_dvd (by omega) hd
  omega

/-! ### The three stores -/

/-- Store an element in the slot of `cursor`. -/
def write (r : Ring w α) (i : Nat) (a : α) : Ring w α := { r with slot := Function.update r.slot i a }

/-- Publish a new tail. -/
def storeTail (r : Ring w α) (t : BitVec w) : Ring w α := { r with tail := t }

/-- Publish a new head. -/
def storeHead (r : Ring w α) (h : BitVec w) : Ring w α := { r with head := h }

@[simp] theorem write_tail (r : Ring w α) (i : Nat) (a : α) : (r.write i a).tail = r.tail := rfl
@[simp] theorem write_head (r : Ring w α) (i : Nat) (a : α) : (r.write i a).head = r.head := rfl
@[simp] theorem write_len (r : Ring w α) (i : Nat) (a : α) : (r.write i a).len = r.len := rfl
@[simp] theorem write_slot_self (r : Ring w α) (i : Nat) (a : α) : (r.write i a).slot i = a := by
  simp [write]
@[simp] theorem storeTail_tail (r : Ring w α) (t : BitVec w) : (r.storeTail t).tail = t := rfl
@[simp] theorem storeTail_head (r : Ring w α) (t : BitVec w) : (r.storeTail t).head = r.head := rfl
@[simp] theorem storeTail_slot (r : Ring w α) (t : BitVec w) : (r.storeTail t).slot = r.slot := rfl
@[simp] theorem storeHead_tail (r : Ring w α) (h : BitVec w) : (r.storeHead h).tail = r.tail := rfl
@[simp] theorem storeHead_head (r : Ring w α) (h : BitVec w) : (r.storeHead h).head = h := rfl
@[simp] theorem storeHead_slot (r : Ring w α) (h : BitVec w) : (r.storeHead h).slot = r.slot := rfl

/-- A store to the slot at `tail` of a ring with room is invisible. -/
theorem contents_write {cap : Nat} (hg : Good w cap) (r : Ring w α) (hlt : r.len < cap) (a : α) :
    (r.write (r.tail.toNat % cap) a).contents cap = r.contents cap := by
  apply List.map_congr_left
  intro i hi
  have hi : i < r.len := by simpa using hi
  rw [← slotAt_len cap r]
  exact Function.update_of_ne (slotAt_ne hg r.head hi hlt) _ _

theorem len_storeTail {cap : Nat} (hg : Counts w cap) (r : Ring w α) (hlt : r.len < cap) :
    (r.storeTail (r.tail + 1)).len = r.len + 1 := by
  have hw : 1 < 2 ^ w := lt_of_le_of_lt hg.pos hg.lt
  have hone : (1 : BitVec w).toNat = 1 := by simpa using Nat.mod_eq_of_lt hw
  have hc := hg.lt
  rw [len, storeTail_tail, storeTail_head, show r.tail + 1 - r.head = r.tail - r.head + 1 by ring,
    BitVec.toNat_add, hone]
  exact Nat.mod_eq_of_lt (by rw [← len]; omega)

theorem len_storeHead {cap : Nat} (hg : Counts w cap) (r : Ring w α) (hpos : 0 < r.len) :
    (r.storeHead (r.head + 1)).len + 1 = r.len := by
  have hw : 1 < 2 ^ w := lt_of_le_of_lt hg.pos hg.lt
  have hone : (1 : BitVec w).toNat = 1 := by simpa using Nat.mod_eq_of_lt hw
  have hle : (1 : BitVec w) ≤ r.tail - r.head := by rw [BitVec.le_def, hone]; exact hpos
  rw [len, storeHead_tail, storeHead_head, show r.tail - (r.head + 1) = r.tail - r.head - 1 by ring,
    BitVec.toNat_sub_of_le hle, hone, ← len]
  omega

/-- A store to `tail` appends the element in the slot it used to name. -/
theorem contents_storeTail {cap : Nat} (hg : Counts w cap) (r : Ring w α) (hlt : r.len < cap) :
    (r.storeTail (r.tail + 1)).contents cap = r.contents cap ++ [r.slot (r.tail.toNat % cap)] := by
  rw [contents, len_storeTail hg r hlt, List.range_succ, List.map_append]
  simp only [storeTail_slot, storeTail_head, List.map_cons, List.map_nil, slotAt_len]
  rfl

/-- A tail further on shows the same elements first. -/
theorem take_contents_storeTail (cap : Nat) (r : Ring w α) (t : BitVec w)
    (h : r.len ≤ (r.storeTail t).len) :
    ((r.storeTail t).contents cap).take r.len = r.contents cap := by
  rw [contents, contents, ← List.map_take, List.take_range, Nat.min_eq_left h]
  rfl

/-- A store to `head` drops the oldest element. -/
theorem contents_storeHead {cap : Nat} (hg : Counts w cap) (r : Ring w α) (hpos : 0 < r.len) :
    r.contents cap = r.slot (r.head.toNat % cap) :: (r.storeHead (r.head + 1)).contents cap := by
  rw [contents, ← len_storeHead hg r hpos, List.range_succ_eq_map]
  simp only [List.map_cons, slotAt_zero, List.map_map, contents, storeHead_slot, storeHead_head]
  congr 1
  apply List.map_congr_left
  intro i _
  rw [slotAt_succ]
  rfl

/-! ### A tail ahead of the published one -/

/-- A ring that shows `queue`, whose producer keeps a tail `t` of its own with `staged` behind the
published ones. -/
structure Ahead (cap : Nat) (r : Ring w α) (t : BitVec w) (queue staged : List α) : Prop where
  len : (r.storeTail t).len = r.len + staged.length
  fits : (r.storeTail t).len ≤ cap
  shown : r.contents cap = queue
  ahead : (r.storeTail t).contents cap = queue ++ staged

namespace Ahead

variable {cap : Nat} {r : Ring w α} {t : BitVec w} {queue staged : List α}

theorem length (h : Ahead cap r t queue staged) : r.len = queue.length := by
  rw [← h.shown, contents_length]

theorem size (h : Ahead cap r t queue staged) : (r.storeTail t).len = queue.length + staged.length := by
  rw [h.len, h.length]

theorem tail_eq (h : Ahead cap r t queue []) : t = r.tail := by
  have hlen : (t - r.head).toNat = (r.tail - r.head).toNat := h.len
  exact sub_left_inj.mp (BitVec.eq_of_toNat_eq hlen)

/-- The slot behind the producer's own tail holds none of the elements. -/
theorem slot_ne (hg : Good w cap) (h : Ahead cap r t queue staged)
    (hroom : queue.length + staged.length < cap) {i : Nat}
    (hi : i < queue.length + staged.length) : slotAt cap r.head i ≠ t.toNat % cap := by
  have := slotAt_len cap (r.storeTail t)
  rw [h.size] at this
  rw [← storeTail_tail r t, ← this]
  exact slotAt_ne hg r.head hi hroom

/-- The producer stores an element there. -/
theorem write (hg : Good w cap) (h : Ahead cap r t queue staged)
    (hroom : queue.length + staged.length < cap) (a : α) :
    Ahead cap (r.write (t.toNat % cap) a) t queue staged := by
  have hlt : (r.storeTail t).len < cap := by
    rw [h.size]
    exact hroom
  have hwrite := contents_write hg (r.storeTail t) hlt a
  have hle : r.len ≤ (r.storeTail t).len := by
    rw [h.len]
    exact Nat.le_add_right _ _
  refine ⟨h.len, h.fits, ?_, hwrite.trans h.ahead⟩
  rw [← h.shown, ← take_contents_storeTail cap r t hle, ← hwrite]
  exact (take_contents_storeTail cap (r.write (t.toNat % cap) a) t hle).symm

/-- The producer moves its own tail past the element it stored. -/
theorem advance (hg : Good w cap) (h : Ahead cap r t queue staged)
    (hroom : queue.length + staged.length < cap) :
    Ahead cap r (t + 1) queue (staged ++ [r.slot (t.toNat % cap)]) := by
  have hlt : (r.storeTail t).len < cap := by
    rw [h.size]
    exact hroom
  have hlen : (r.storeTail (t + 1)).len = (r.storeTail t).len + 1 :=
    len_storeTail hg.toCounts (r.storeTail t) hlt
  have hpush : (r.storeTail (t + 1)).contents cap = (r.storeTail t).contents cap ++
    [r.slot (t.toNat % cap)] :=
    contents_storeTail hg.toCounts (r.storeTail t) hlt
  refine ⟨?_, by omega, h.shown, ?_⟩
  · rw [hlen, h.len, List.length_append, List.length_singleton, Nat.add_assoc]
  · rw [hpush, h.ahead, List.append_assoc]

/-- The producer publishes its tail. -/
theorem publish (h : Ahead cap r t queue staged) : Ahead cap (r.storeTail t) t (queue ++ staged) [] :=
  ⟨rfl, h.fits, h.ahead, by rw [List.append_nil]; exact h.ahead⟩

/-- The consumer frees the oldest element. -/
theorem take (hg : Good w cap) {a : α} (h : Ahead cap r t (a :: queue) staged) :
    r.slot (r.head.toNat % cap) = a ∧ Ahead cap (r.storeHead (r.head + 1)) t queue staged := by
  have hpos : 0 < r.len := by
    rw [h.length]
    exact Nat.succ_pos _
  have hpos' : 0 < (r.storeTail t).len := by
    rw [h.len]
    omega
  have h1 := len_storeHead hg.toCounts r hpos
  have h2 : ((r.storeHead (r.head + 1)).storeTail t).len + 1 = (r.storeTail t).len :=
    len_storeHead hg.toCounts (r.storeTail t) hpos'
  have g1 := contents_storeHead hg.toCounts r hpos
  have g2 : (r.storeTail t).contents cap =
      r.slot (r.head.toNat % cap) :: ((r.storeHead (r.head + 1)).storeTail t).contents cap :=
    contents_storeHead hg.toCounts (r.storeTail t) hpos'
  rw [h.shown] at g1
  rw [h.ahead, List.cons_append] at g2
  have hlen := h.len
  have hfits := h.fits
  exact ⟨(List.cons.inj g1).1.symm,
    by omega, by omega, (List.cons.inj g1).2.symm, (List.cons.inj g2).2.symm⟩

end Ahead

end Ring

end Lerux.Base

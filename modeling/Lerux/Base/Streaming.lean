import Mathlib.Data.List.Basic
import Mathlib.Algebra.Group.Nat.Defs

/-!
# Hashes of blocks

A hash takes a message in blocks of 64 bytes: `absorb` is the chain of a compression function over
the whole blocks of a byte string, and a message is closed by `padded`. A hasher takes the message
in pieces, and keeps what does not fill a block. However the message is cut, the hasher ends with
the chain of the padded message (`finish_update`).
-/

namespace Lerux.Base.Streaming

variable {H : Type} (compress : H → List UInt8 → H)

/-- The whole blocks of a byte string, one after the other. -/
def absorb (h : H) (t : List UInt8) : H :=
  (List.range (t.length / 64)).foldl (fun h i => compress h ((t.drop (64 * i)).take 64)) h

/-- How many zeros follow the first byte of the padding, so that 8 bytes are left of the last block. -/
def zerosFor (length : Nat) : Nat := (119 - length % 64) % 64

/-- A message, a one bit, zeros, and the field for the length of the message in bits. -/
def padded (field : UInt64 → List UInt8) (message : List UInt8) : List UInt8 :=
  message ++ 0x80 :: List.replicate (zerosFor message.length) 0 ++ field (.ofNat (8 * message.length))

/-! ### The hasher -/

structure Hasher (H : Type) where
  h : H
  block : List UInt8
  filled : Nat
  total : UInt64

def new (iv : H) : Hasher H := ⟨iv, List.replicate 64 0, 0, 0⟩

def push (s : Hasher H) (byte : UInt8) : Hasher H :=
  let s := { s with block := s.block.set s.filled byte, filled := s.filled + 1, total := s.total + 1 }
  if s.filled = 64 then { s with h := compress s.h s.block, filled := 0 } else s

def update (s : Hasher H) (data : List UInt8) : Hasher H := data.foldl (push compress) s

/-- Zeros until 8 bytes are left of the block, up to so many. -/
def fill : Nat → Hasher H → Hasher H
  | 0, s => s
  | count + 1, s => if s.filled ≠ 56 then fill count (update compress s [0]) else s

def finish (field : UInt64 → List UInt8) (s : Hasher H) : H :=
  let bits := s.total * 8
  let s := update compress s [0x80]
  let s := fill compress 64 s
  (update compress s (field bits)).h

/-- The hasher has taken a byte string. -/
structure Took (iv : H) (s : Hasher H) (t : List UInt8) : Prop where
  h : s.h = absorb compress iv t
  filled : s.filled = t.length % 64
  length : s.block.length = 64
  block : s.block.take s.filled = t.drop (64 * (t.length / 64))
  total : s.total = .ofNat t.length

variable {compress} {iv : H} {s : Hasher H} {t : List UInt8}

theorem took_new (iv : H) : Took compress iv (new iv) [] := ⟨rfl, rfl, List.length_replicate, rfl, rfl⟩

/-! ### Pieces -/

/-- A whole block is not changed by what comes behind it. -/
theorem block_append (t u : List UInt8) {i : Nat} (hi : i < t.length / 64) :
    ((t ++ u).drop (64 * i)).take 64 = (t.drop (64 * i)).take 64 := by
  rw [List.drop_append_of_le_length (by omega),
    List.take_append_of_le_length (by rw [List.length_drop]; omega)]

theorem foldl_append (h : H) (t u : List UInt8) {n : Nat} (hn : n ≤ t.length / 64) :
    (List.range n).foldl (fun h i => compress h (((t ++ u).drop (64 * i)).take 64)) h =
      (List.range n).foldl (fun h i => compress h ((t.drop (64 * i)).take 64)) h := by
  induction n with
  | zero => rfl
  | succ n ih =>
    rw [List.range_succ, List.foldl_append, List.foldl_append, ih (by omega)]
    show compress _ _ = compress _ _
    rw [block_append t u (by omega)]

/-- Two compression functions that agree on what they stand for. -/
theorem absorb_map {K : Type} {compress' : K → List UInt8 → K} (φ : H → K)
    (hφ : ∀ h block, φ (compress h block) = compress' (φ h) block) (h : H) (t : List UInt8) :
    φ (absorb compress h t) = absorb compress' (φ h) t := by
  unfold absorb
  generalize t.length / 64 = n
  induction n with
  | zero => rfl
  | succ n ih =>
    rw [List.range_succ, List.foldl_append, List.foldl_append, ← ih]
    exact hφ _ _

/-- A part that does not fill a block does not matter. -/
theorem absorb_part (h : H) (t u : List UInt8) (hlength : (t ++ u).length / 64 = t.length / 64) :
    absorb compress h (t ++ u) = absorb compress h t := by
  unfold absorb
  rw [hlength, foldl_append h t u Nat.le.refl]

/-- One more block. -/
theorem absorb_block (h : H) (t u : List UInt8) (hlength : (t ++ u).length = 64 * (t.length / 64 + 1)) :
    absorb compress h (t ++ u) = compress (absorb compress h t) ((t ++ u).drop (64 * (t.length / 64))) := by
  have hdiv : (t ++ u).length / 64 = t.length / 64 + 1 := by omega
  unfold absorb
  rw [hdiv, List.range_succ, List.foldl_append, foldl_append h t u Nat.le.refl]
  show compress _ _ = compress _ _
  rw [List.take_of_length_le (by rw [List.length_drop]; omega)]

theorem take_set {block : List UInt8} {n : Nat} (hn : n < block.length) (byte : UInt8) :
    (block.set n byte).take (n + 1) = block.take n ++ [byte] := by
  rw [List.set_eq_take_append_cons_drop, if_pos hn, List.take_append,
    List.take_of_length_le (by rw [List.length_take]; omega),
    List.length_take]
  congr 1
  rw [Nat.min_eq_left (Nat.le_of_lt hn), Nat.add_sub_cancel_left]
  rfl

theorem took_push (hs : Took compress iv s t) (byte : UInt8) :
    Took compress iv (push compress s byte) (t ++ [byte]) := by
  have hfilled := hs.filled
  have hlength := hs.length
  have hblock : (s.block.set s.filled byte).take (s.filled + 1) =
    (t ++ [byte]).drop (64 * (t.length / 64)) := by
    rw [take_set (by omega), hs.block, List.drop_append_of_le_length (by omega)]
  have htotal : s.total + 1 = .ofNat (t ++ [byte]).length := by
    rw [hs.total, List.length_append, List.length_singleton, UInt64.ofNat_add]
    rfl
  unfold push
  dsimp only
  by_cases hfull : s.filled + 1 = 64
  · rw [if_pos hfull]
    have hlast : (t ++ [byte]).length = 64 * (t.length / 64 + 1) := by
      rw [List.length_append, List.length_singleton]
      omega
    rw [hfull, List.take_of_length_le (by rw [List.length_set]; omega)] at hblock
    have hnone : 0 = (t ++ [byte]).length % 64 := by omega
    refine ⟨?_, hnone, by rw [List.length_set]; exact hlength, ?_, htotal⟩
    · rw [absorb_block iv t [byte] hlast, ← hblock, hs.h]
    · rw [List.take_zero, List.drop_of_length_le (by omega)]
  · rw [if_neg hfull]
    have hsame : (t ++ [byte]).length / 64 = t.length / 64 := by
      rw [List.length_append, List.length_singleton]
      omega
    have hmore : s.filled + 1 = (t ++ [byte]).length % 64 := by
      rw [List.length_append, List.length_singleton]
      omega
    refine ⟨?_, hmore, by rw [List.length_set]; exact hlength, ?_, htotal⟩
    · rw [absorb_part iv t [byte] hsame, hs.h]
    · rw [hsame]
      exact hblock

theorem took_update (hs : Took compress iv s t) (data : List UInt8) :
    Took compress iv (update compress s data) (t ++ data) := by
  induction data generalizing s t with
  | nil => rwa [List.append_nil]
  | cons byte data ih =>
    have hrest := ih (took_push hs byte)
    rwa [List.append_assoc] at hrest

/-- However a message is cut. -/
theorem took_updates (hs : Took compress iv s t) (pieces : List (List UInt8)) :
    Took compress iv (pieces.foldl (update compress) s) (t ++ pieces.flatten) := by
  induction pieces generalizing s t with
  | nil => rwa [List.flatten_nil, List.append_nil]
  | cons piece pieces ih =>
    have hrest := ih (took_update hs piece)
    rwa [List.append_assoc] at hrest

/-! ### The end -/

/-- The number of zeros is the least that leaves 8 bytes of the last block. -/
theorem zerosFor_spec (length : Nat) : zerosFor length < 64 ∧ (length + 1 + zerosFor length) % 64 = 56 ∧
    ∀ k < zerosFor length, (length + 1 + k) % 64 ≠ 56 := by
  unfold zerosFor
  refine ⟨by omega, by omega, fun k hk => by omega⟩

theorem took_fill (hs : Took compress iv s t) {count zeros : Nat} (hcount : zeros ≤ count)
    (hend : (t.length + zeros) % 64 = 56)
    (hleast : ∀ k < zeros, (t.length + k) % 64 ≠ 56) : Took compress iv (fill compress count s)
      (t ++ List.replicate zeros 0) := by
  induction count generalizing s t zeros with
  | zero =>
    obtain rfl : zeros = 0 := by omega
    rwa [List.replicate_zero, List.append_nil]
  | succ count ih =>
    rw [fill, hs.filled]
    cases zeros with
    | zero =>
      rw [if_neg (by rw [not_not]; exact hend), List.replicate_zero, List.append_nil]
      exact hs
    | succ zeros =>
      have hfirst : t.length % 64 ≠ 56 := hleast 0 (by omega)
      rw [if_pos hfirst]
      have hlength : (t ++ [0]).length = t.length + 1 := by rw [List.length_append, List.length_singleton]
      have hrest := ih (took_update hs [0]) (show zeros ≤ count by omega) (by rw [hlength]; omega)
        fun k hk => by
        rw [hlength, Nat.add_assoc, Nat.add_comm 1 k]
        exact hleast (k + 1) (by omega)
      rwa [List.append_assoc] at hrest

/-- The hasher ends with the chain of the padded message. -/
theorem Took.finish (hs : Took compress iv s t) (field : UInt64 → List UInt8) :
    finish compress field s = absorb compress iv (padded field t) := by
  obtain ⟨hcount, hend, hleast⟩ := zerosFor_spec t.length
  have hlength : (t ++ [0x80]).length = t.length + 1 := by rw [List.length_append, List.length_singleton]
  have hbits : s.total * 8 = .ofNat (8 * t.length) := by
    rw [hs.total, Nat.mul_comm, UInt64.ofNat_mul]
    rfl
  have hfill := took_fill (took_update hs [0x80]) (Nat.le_of_lt hcount)
    (by rw [hlength]; exact hend) fun k hk => by
    rw [hlength]
    exact hleast k hk
  have hlast := took_update hfill (field (s.total * 8))
  unfold Streaming.finish
  dsimp only
  rw [hlast.h, hbits, padded, List.append_assoc t, List.singleton_append]

end Lerux.Base.Streaming

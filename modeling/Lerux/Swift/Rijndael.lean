import Lerux.Base.Rijndael
import Lerux.Swift.Aes
import Mathlib.Data.List.GetD

/-!
# The block cipher is the one of FIPS-197

`wpa.rs` keeps the state in a row of 16 bytes, column by column (`flat`), and the key schedule in a
row of 176. Every step of a round is the step of the standard on the matrix, and the schedule is its
words one after the other (`expand_eq`).
-/

namespace Lerux.Swift

open Lerux.Base

/-! ### Bytes -/

/-- The inverses of the bytes in the field, in their order. -/
def inverses : List UInt8 :=
  [
    0x00, 0x01, 0x8d, 0xf6, 0xcb, 0x52, 0x7b, 0xd1, 0xe8, 0x4f, 0x29, 0xc0, 0xb0, 0xe1, 0xe5, 0xc7,
    0x74, 0xb4, 0xaa, 0x4b, 0x99, 0x2b, 0x60, 0x5f, 0x58, 0x3f, 0xfd, 0xcc, 0xff, 0x40, 0xee, 0xb2,
    0x3a, 0x6e, 0x5a, 0xf1, 0x55, 0x4d, 0xa8, 0xc9, 0xc1, 0x0a, 0x98, 0x15, 0x30, 0x44, 0xa2, 0xc2,
    0x2c, 0x45, 0x92, 0x6c, 0xf3, 0x39, 0x66, 0x42, 0xf2, 0x35, 0x20, 0x6f, 0x77, 0xbb, 0x59, 0x19,
    0x1d, 0xfe, 0x37, 0x67, 0x2d, 0x31, 0xf5, 0x69, 0xa7, 0x64, 0xab, 0x13, 0x54, 0x25, 0xe9, 0x09,
    0xed, 0x5c, 0x05, 0xca, 0x4c, 0x24, 0x87, 0xbf, 0x18, 0x3e, 0x22, 0xf0, 0x51, 0xec, 0x61, 0x17,
    0x16, 0x5e, 0xaf, 0xd3, 0x49, 0xa6, 0x36, 0x43, 0xf4, 0x47, 0x91, 0xdf, 0x33, 0x93, 0x21, 0x3b,
    0x79, 0xb7, 0x97, 0x85, 0x10, 0xb5, 0xba, 0x3c, 0xb6, 0x70, 0xd0, 0x06, 0xa1, 0xfa, 0x81, 0x82,
    0x83, 0x7e, 0x7f, 0x80, 0x96, 0x73, 0xbe, 0x56, 0x9b, 0x9e, 0x95, 0xd9, 0xf7, 0x02, 0xb9, 0xa4,
    0xde, 0x6a, 0x32, 0x6d, 0xd8, 0x8a, 0x84, 0x72, 0x2a, 0x14, 0x9f, 0x88, 0xf9, 0xdc, 0x89, 0x9a,
    0xfb, 0x7c, 0x2e, 0xc3, 0x8f, 0xb8, 0x65, 0x48, 0x26, 0xc8, 0x12, 0x4a, 0xce, 0xe7, 0xd2, 0x62,
    0x0c, 0xe0, 0x1f, 0xef, 0x11, 0x75, 0x78, 0x71, 0xa5, 0x8e, 0x76, 0x3d, 0xbd, 0xbc, 0x86, 0x57,
    0x0b, 0x28, 0x2f, 0xa3, 0xda, 0xd4, 0xe4, 0x0f, 0xa9, 0x27, 0x53, 0x04, 0x1b, 0xfc, 0xac, 0xe6,
    0x7a, 0x07, 0xae, 0x63, 0xc5, 0xdb, 0xe2, 0xea, 0x94, 0x8b, 0xc4, 0xd5, 0x9d, 0xf8, 0x90, 0x6b,
    0xb1, 0x0d, 0xd6, 0xeb, 0xc6, 0x0e, 0xcf, 0xad, 0x08, 0x4e, 0xd7, 0xe3, 0x5d, 0x50, 0x1e, 0xb3,
    0x5b, 0x23, 0x38, 0x34, 0x68, 0x46, 0x03, 0x8c, 0xdd, 0x9c, 0x7d, 0xa0, 0xcd, 0x1a, 0x41, 0x1c]

/-- What is checked along the tables. -/
theorem tables_checked : (∀ n < 256, xtime (.ofNat n) = Rijndael.xtime (.ofNat n)) ∧
    SBOX = inverses.map Rijndael.affine ∧
    List.zipWith (fun n inv => Rijndael.mul (.ofNat n) inv) (List.range 256) inverses =
      0 :: List.replicate 255 1 ∧ inverses.length = 256 ∧
    ∀ i, 1 ≤ i → i ≤ 10 → RCON.getD i 0 = Rijndael.rcon i 0 := by
  decide +kernel

theorem xtime_eq (b : UInt8) : xtime b = Rijndael.xtime b := by
  rw [← UInt8.ofNat_toNat (x := b)]
  exact (tables_checked).1 b.toNat b.toNat_lt

theorem SBOX_eq : SBOX = inverses.map Rijndael.affine := (tables_checked).2.1

theorem mul_inverses : List.zipWith (fun n inv => Rijndael.mul (.ofNat n) inv)
    (List.range 256) inverses = 0 :: List.replicate 255 1 :=
  (tables_checked).2.2.1

/-- Every byte has its inverse in the list, and the affine transform of it in the table. -/
theorem isInverse_inverses (b : UInt8) : Rijndael.IsInverse b (inverses.getD b.toNat 0) ∧
    sbox b = Rijndael.affine (inverses.getD b.toNat 0) := by
  have hlength : inverses.length = 256 := (tables_checked).2.2.2.1
  have hlt : b.toNat < inverses.length := by
    rw [hlength]
    exact b.toNat_lt
  have hinv : inverses.getD b.toNat 0 = inverses[b.toNat] := List.getD_eq_getElem _ _ hlt
  rw [hinv]
  constructor
  · have hmul := congrArg (fun t => t[b.toNat]?) mul_inverses
    rw [List.getElem?_zipWith, List.getElem?_eq_getElem hlt, List.getElem?_range b.toNat_lt] at hmul
    unfold Rijndael.IsInverse
    by_cases hb : b = 0
    · rw [if_pos hb]
      subst hb
      rfl
    · rw [if_neg hb]
      obtain ⟨n, hn⟩ : ∃ n, b.toNat = n + 1 :=
        Nat.exists_eq_succ_of_ne_zero fun h => hb (UInt8.toNat_inj.mp h)
      have hone : (0 :: List.replicate 255 (1 : UInt8))[b.toNat]? = some 1 := by
        rw [hn, List.getElem?_cons_succ, List.getElem?_replicate, if_pos (by have := b.toNat_lt; omega)]
      rw [hone] at hmul
      simpa using hmul
  · rw [sbox, SBOX_eq, List.getD_eq_getElem _ _ (by rw [List.length_map]; exact hlt), List.getElem_map]

/-- The table is the substitution box of the standard. -/
theorem sbox_eq (b : UInt8) : sbox b = Rijndael.subByte b := by
  obtain ⟨hinv, hsbox⟩ := isInverse_inverses b
  rw [hsbox, Rijndael.subByte, Rijndael.inverse_eq hinv]

theorem xtime_xor (a b : UInt8) : xtime (a ^^^ b) = xtime a ^^^ xtime b := by
  apply Rijndael.poly_injective
  rw [xtime_eq, xtime_eq, xtime_eq, Rijndael.poly_xor, Rijndael.poly_xtime, Rijndael.poly_xtime,
    Rijndael.poly_xtime,
    Rijndael.poly_xor, mul_add]

theorem mul_one_eq (b : UInt8) : Rijndael.mul 1 b = b := by
  rw [Rijndael.mul_swap]
  show 0 ^^^ b ^^^ 0 ^^^ 0 ^^^ 0 ^^^ 0 ^^^ 0 ^^^ 0 ^^^ 0 = b
  simp

theorem mul_two_eq (b : UInt8) : Rijndael.mul 2 b = xtime b := by
  rw [Rijndael.mul_swap, xtime_eq]
  show 0 ^^^ 0 ^^^ Rijndael.xtime b ^^^ 0 ^^^ 0 ^^^ 0 ^^^ 0 ^^^ 0 ^^^ 0 = Rijndael.xtime b
  simp

theorem mul_three_eq (b : UInt8) : Rijndael.mul 3 b = b ^^^ xtime b := by
  rw [Rijndael.mul_swap, xtime_eq]
  show 0 ^^^ b ^^^ Rijndael.xtime b ^^^ 0 ^^^ 0 ^^^ 0 ^^^ 0 ^^^ 0 ^^^ 0 = b ^^^ Rijndael.xtime b
  simp

/-! ### Rounds -/

/-- A state as the code keeps it. -/
def flat (s : Rijndael.State) : List UInt8 := List.ofFn (Rijndael.store s)

theorem flat_eq (s : Rijndael.State) : flat s =
    [s 0 0, s 1 0, s 2 0, s 3 0, s 0 1, s 1 1, s 2 1, s 3 1, s 0 2, s 1 2, s 2 2, s 3 2, s 0 3,
      s 1 3, s 2 3, s 3 3] := rfl

theorem sub_flat (s : Rijndael.State) : sub (flat s) = flat (Rijndael.subBytes s) := by
  have hmap : sbox = Rijndael.subByte := funext sbox_eq
  rw [sub, hmap, flat_eq]
  rfl

theorem shift_flat (s : Rijndael.State) : shift (flat s) = flat (Rijndael.shiftRows s) := rfl

/-- The factored form of a column is its product with the polynomial. -/
theorem mixColumn_eq (column : Fin 4 → UInt8) : mixColumn (column 0) (column 1) (column 2) (column 3) =
    List.ofFn (Rijndael.mulColumn Rijndael.mixPolynomial column) := by
  have hmul : List.ofFn (Rijndael.mulColumn Rijndael.mixPolynomial column) =
      [Rijndael.mul 2 (column 0) ^^^ Rijndael.mul 3 (column 1) ^^^ Rijndael.mul 1
        (column 2) ^^^ Rijndael.mul 1 (column 3),
        Rijndael.mul 1 (column 0) ^^^ Rijndael.mul 2 (column 1) ^^^ Rijndael.mul 3
          (column 2) ^^^ Rijndael.mul 1 (column 3),
        Rijndael.mul 1 (column 0) ^^^ Rijndael.mul 1 (column 1) ^^^ Rijndael.mul 2
          (column 2) ^^^ Rijndael.mul 3 (column 3),
        Rijndael.mul 3 (column 0) ^^^ Rijndael.mul 1 (column 1) ^^^ Rijndael.mul 1
          (column 2) ^^^ Rijndael.mul 2 (column 3)] := rfl
  rw [hmul, mixColumn]
  simp only [mul_one_eq, mul_two_eq, mul_three_eq, xtime_xor, List.cons.injEq, and_true]
  refine ⟨?_, ?_, ?_, ?_⟩
  · apply Rijndael.poly_injective
    simp only [Rijndael.poly_xor]
    linear_combination Rijndael.add_self (Rijndael.poly (column 0))
  · apply Rijndael.poly_injective
    simp only [Rijndael.poly_xor]
    linear_combination Rijndael.add_self (Rijndael.poly (column 1))
  · apply Rijndael.poly_injective
    simp only [Rijndael.poly_xor]
    linear_combination Rijndael.add_self (Rijndael.poly (column 2))
  · apply Rijndael.poly_injective
    simp only [Rijndael.poly_xor]
    linear_combination Rijndael.add_self (Rijndael.poly (column 3))

theorem mix_flat (s : Rijndael.State) : mix (flat s) = flat (Rijndael.mixColumns s) := by
  have hmix : mix (flat s) = (List.range 4).flatMap fun c => mixColumn (s 0 (.ofNat 4 c))
    (s 1 (.ofNat 4 c)) (s 2 (.ofNat 4 c))
      (s 3 (.ofNat 4 c)) := rfl
  rw [hmix]
  simp only [fun c => mixColumn_eq fun r => s r c]
  rfl

theorem xorBytes_flat (s k : Rijndael.State) : xorBytes (flat s) (flat k) = flat (Rijndael.add s k) := rfl

/-! ### Keys -/

/-- The first words of the schedule, one after the other. -/
def words (key : Fin 16 → UInt8) (n : Nat) : List UInt8 :=
  (List.range n).flatMap fun i => List.ofFn (Rijndael.word key i)

variable (key : Fin 16 → UInt8)

theorem words_succ (n : Nat) : words key (n + 1) = words key n ++ List.ofFn (Rijndael.word key n) := by
  rw [words, List.range_succ, List.flatMap_append, List.flatMap_singleton]
  rfl

theorem length_words (n : Nat) : (words key n).length = 4 * n := by
  induction n with
  | zero => rfl
  | succ n ih =>
    rw [words_succ, List.length_append, ih, List.length_ofFn]
    omega

theorem take_words {m n : Nat} (h : m ≤ n) : (words key n).take (4 * m) = words key m := by
  induction n with
  | zero =>
    obtain rfl : m = 0 := by omega
    rfl
  | succ n ih =>
    by_cases hm : m = n + 1
    · rw [hm, ← length_words key (n + 1), List.take_length]
    · rw [words_succ, List.take_append_of_le_length (by rw [length_words]; omega), ih (by omega)]

/-- The last four words. -/
theorem drop_words (n : Nat) : (words key (n + 4)).drop (4 * n) =
    List.ofFn (Rijndael.word key n) ++ List.ofFn (Rijndael.word key (n + 1)) ++
      List.ofFn (Rijndael.word key (n + 2)) ++
      List.ofFn (Rijndael.word key (n + 3)) := by
  rw [words_succ, words_succ, words_succ, words_succ, List.append_assoc, List.append_assoc,
    List.append_assoc]
  rw [List.drop_append_of_le_length (by rw [length_words]), List.drop_of_length_le (by rw [length_words])]
  simp only [List.nil_append, List.append_assoc]

theorem rcon_eq : ∀ i, 1 ≤ i → i ≤ 10 → RCON.getD i 0 = Rijndael.rcon i 0 := (tables_checked).2.2.2.2

/-- What the code adds to the word four places back. -/
theorem scheduleWord_words {n : Nat} (hn : n + 4 < 44) :
    scheduleWord (words key (n + 4)) ((n + 7) / 4) =
      List.ofFn (Rijndael.temp (n + 4) (Rijndael.word key (n + 3))) := by
  have hlast : (words key (n + 4)).drop ((words key (n + 4)).length - 4) =
    List.ofFn (Rijndael.word key (n + 3)) := by
    rw [length_words, words_succ, List.drop_append_of_le_length (by rw [length_words]; omega),
      List.drop_of_length_le (by rw [length_words]; omega), List.nil_append]
  unfold scheduleWord Rijndael.temp
  rw [hlast, length_words]
  by_cases hround : (n + 4) % 4 = 0
  · rw [if_pos (by omega), if_pos hround]
    have hdiv : (n + 7) / 4 = (n + 4) / 4 := by omega
    rw [hdiv, rcon_eq ((n + 4) / 4) (by omega) (by omega)]
    have hzero : ∀ b : UInt8, b ^^^ 0 = b := fun b => UInt8.xor_zero
    have hofFn : List.ofFn (fun r => Rijndael.subWord
      (Rijndael.rotWord (Rijndael.word key (n + 3))) r ^^^ Rijndael.rcon ((n + 4) / 4) r) =
        [Rijndael.subByte (Rijndael.word key (n + 3) 1) ^^^ Rijndael.rcon ((n + 4) / 4) 0,
          Rijndael.subByte (Rijndael.word key (n + 3) 2) ^^^ 0,
          Rijndael.subByte (Rijndael.word key (n + 3) 3) ^^^ 0,
            Rijndael.subByte (Rijndael.word key (n + 3) 0) ^^^ 0] := rfl
    rw [hofFn, hzero, hzero, hzero]
    simp only [← sbox_eq]
    rfl
  · rw [if_neg (by omega), if_neg hround]

theorem expandFrom_words (count : Nat) : ∀ n, n + 4 + count ≤ 44 →
    expandFrom count (words key (n + 4)) ((n + 7) / 4) = words key (n + 4 + count) := by
  induction count with
  | zero => exact fun n _ => rfl
  | succ count ih =>
    intro n hn
    have hback : ((words key (n + 4)).drop ((words key (n + 4)).length - 16)).take 4 =
      List.ofFn (Rijndael.word key n) := by
      have hdrop : (words key (n + 4)).length - 16 = 4 * n := by
        rw [length_words]
        omega
      rw [hdrop, drop_words]
      rfl
    have hword : List.ofFn (Rijndael.word key (n + 4)) =
        xorBytes (List.ofFn (Rijndael.word key n))
          (List.ofFn (Rijndael.temp (n + 4) (Rijndael.word key (n + 3)))) := rfl
    have hrcon : (if (words key (n + 4)).length % 16 = 0 then (n + 7) / 4 + 1 else (n + 7) / 4) =
      (n + 1 + 7) / 4 := by
      rw [length_words]
      split
      · omega
      · omega
    rw [expandFrom, hback, scheduleWord_words key (by omega), hrcon, ← hword, ← words_succ,
      ih (n + 1) (by omega)]
    congr 1
    omega

/-- The schedule of the code is the words of the standard. -/
theorem expand_eq : expand (List.ofFn key) = words key 44 := expandFrom_words key 40 0 (by decide)

theorem roundKey_eq {r : Nat} (hr : r ≤ 10) : roundKey (words key 44) r =
    flat (Rijndael.roundKey key r) := by
  have htake : (words key 44).take ((r + 1) * 16) = words key (4 * r + 4) := by
    rw [← take_words key (show 4 * r + 4 ≤ 44 by omega)]
    congr 1
    omega
  have hdrop : r * 16 = 4 * (4 * r) := by omega
  rw [roundKey, htake, hdrop, drop_words]
  rfl

/-! ### The cipher -/

theorem aesRound_flat (s : Rijndael.State) {r : Nat} (hr : r ≤ 10) :
    aesRound (words key 44) (flat s) r = flat (Rijndael.round key s r) := by
  rw [aesRound, sub_flat, shift_flat, mix_flat, roundKey_eq key hr, xorBytes_flat]
  rfl

theorem foldl_flat (rounds : List Nat) (hrounds : ∀ r ∈ rounds, r ≤ 10) (s : Rijndael.State) :
    rounds.foldl (aesRound (words key 44)) (flat s) = flat (rounds.foldl (Rijndael.round key) s) := by
  induction rounds generalizing s with
  | nil => rfl
  | cons r rounds ih =>
    rw [List.foldl_cons, aesRound_flat key s (hrounds r List.mem_cons_self)]
    exact ih (fun r' hr' => hrounds r' (List.mem_cons_of_mem r hr')) _

/-- For every key and every block. -/
theorem aes128EncryptBlock_eq (key input : Fin 16 → UInt8) :
    aes128EncryptBlock (List.ofFn key) (List.ofFn input) = List.ofFn (Rijndael.cipher key input) := by
  have hload : List.ofFn input = flat (Rijndael.load input) := rfl
  unfold aes128EncryptBlock
  dsimp only
  rw [expand_eq, hload, roundKey_eq key (by decide), xorBytes_flat, foldl_flat key _ (by decide),
    sub_flat, shift_flat,
    roundKey_eq key (by decide), xorBytes_flat]
  rfl

/-- The cipher is the one of the standard, and so are its table, its mixing of columns and its key
schedule. -/
theorem aes128_conforms :
    (∀ key input : Fin 16 → UInt8,
      aes128EncryptBlock (List.ofFn key) (List.ofFn input) = List.ofFn (Rijndael.cipher key input)) ∧
    (∀ b, (∃! inv, Rijndael.IsInverse b inv) ∧ Rijndael.IsInverse b (Rijndael.inverse b) ∧
      sbox b = Rijndael.affine (Rijndael.inverse b)) ∧
    (∀ s : Rijndael.State, mix (flat s) = flat (Rijndael.mixColumns s)) ∧
    ∀ key : Fin 16 → UInt8,
      expand (List.ofFn key) = (List.range 44).flatMap fun i => List.ofFn (Rijndael.word key i) := by
  refine ⟨aes128EncryptBlock_eq, fun b => ?_, mix_flat, expand_eq⟩
  obtain ⟨hinv, -⟩ := isInverse_inverses b
  have hunique : ∀ inv, Rijndael.IsInverse b inv → inv = Rijndael.inverse b :=
    fun inv h => (Rijndael.inverse_eq h).symm
  refine ⟨⟨_, hinv, fun inv h => ?_⟩, ?_, sbox_eq b⟩
  · rw [hunique inv h, hunique _ hinv]
  · rw [← hunique _ hinv]
    exact hinv

end Lerux.Swift

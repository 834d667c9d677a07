import Lerux.Swift.Crypto

/-!
# The hashes are those of their standards

The rounds of `crypto.rs` are the rounds of FIPS 180-4 and RFC 1321: SHA-1 with its choices joined
by an or, MD5 with the registers passed on instead of renamed. However a message is cut, the digest
is the one of the whole message, and so HMAC is the one of RFC 2104.
-/

namespace Lerux.Swift

open Lerux.Base

theorem getD_map_range {α : Type} (f : Nat → α) (d : α) {i n : Nat} (h : i < n) :
    ((List.range n).map f).getD i d = f i := by
  rw [List.getD_eq_getElem?_getD, List.getElem?_map, List.getElem?_range h]
  rfl

/-! ### SHA-1 -/

theorem ch_eq (x y z : UInt32) : (x &&& y) ||| (~~~x &&& z) = Sha1.ch x y z := by
  unfold Sha1.ch
  apply UInt32.toBitVec_inj.mp
  apply BitVec.eq_of_getLsbD_eq
  intro i hi
  simp
  cases x.toBitVec.getLsbD i <;> simp

theorem maj_eq (x y z : UInt32) : (x &&& y) ||| (x &&& z) ||| (y &&& z) = Sha1.maj x y z := by
  unfold Sha1.maj
  apply UInt32.toBitVec_inj.mp
  apply BitVec.eq_of_getLsbD_eq
  intro i hi
  simp
  cases x.toBitVec.getLsbD i <;> cases y.toBitVec.getLsbD i <;> simp

theorem sha1Choice_eq (i : Nat) (b c d : UInt32) : sha1Choice i b c d = (Sha1.f i b c d, Sha1.k i) := by
  unfold sha1Choice Sha1.f Sha1.k
  have h19 : i < 20 ↔ i ≤ 19 := Nat.lt_succ_iff
  have h39 : i < 40 ↔ i ≤ 39 := Nat.lt_succ_iff
  have h59 : i < 60 ↔ i ≤ 59 := Nat.lt_succ_iff
  simp only [h19, h39, h59]
  by_cases hi19 : i ≤ 19
  · rw [if_pos hi19, if_pos hi19, if_pos hi19, ch_eq]
  · rw [if_neg hi19, if_neg hi19, if_neg hi19]
    by_cases hi39 : i ≤ 39
    · rw [if_pos hi39, if_pos hi39, if_pos hi39]
      rfl
    · rw [if_neg hi39, if_neg hi39, if_neg hi39]
      by_cases hi59 : i ≤ 59
      · rw [if_pos hi59, if_pos hi59, if_pos hi59, maj_eq]
      · rw [if_neg hi59, if_neg hi59, if_neg hi59]
        rfl

theorem schedule_low (m : Nat → UInt32) {t : Nat} (h : t < 16) : Sha1.schedule m t = m t := by
  unfold Sha1.schedule
  split
  · next t' => omega
  · rfl

/-- The words that the loop has written. -/
theorem schedule_eq (m : Nat → UInt32) (n : Nat) :
    (List.range' 16 n).foldl sha1Word ((List.range 16).map m) =
    (List.range (16 + n)).map (Sha1.schedule m) := by
  induction n with
  | zero =>
    refine List.map_congr_left fun t ht => (schedule_low m ?_).symm
    exact List.mem_range.mp ht
  | succ n ih =>
    have hword : Sha1.schedule m (16 + n) =
      rotateLeft (Sha1.schedule m (16 + n - 3) ^^^ Sha1.schedule m (16 + n - 8) ^^^
        Sha1.schedule m (16 + n - 14) ^^^ Sha1.schedule m (16 + n - 16)) 1 := by
      have h3 : 16 + n - 3 = n + 13 := by omega
      have h8 : 16 + n - 8 = n + 8 := by omega
      have h14 : 16 + n - 14 = n + 2 := by omega
      rw [h3, h8, h14, Nat.add_sub_cancel_left, Nat.add_comm 16 n]
      rfl
    rw [List.range'_concat, List.foldl_append, ih, ← Nat.add_assoc, List.range_succ, List.map_append]
    show sha1Word _ (16 + 1 * n) = _
    rw [Nat.one_mul, sha1Word, getD_map_range _ _ (by omega), getD_map_range _ _ (by omega),
      getD_map_range _ _ (by omega),
      getD_map_range _ _ (by omega), ← hword]
    rfl

theorem sha1Round_eq (w : Nat → UInt32) (v : Sha1.Chain) {t : Nat} (ht : t < 80) :
    sha1Round ((List.range 80).map w) v t = Sha1.step w v t := by
  unfold sha1Round
  rw [sha1Choice_eq]
  dsimp only
  rw [getD_map_range w 0 ht]
  rfl

theorem foldl_congr {α β : Type} {f g : β → α → β} {t : List α} (h : ∀ a ∈ t, ∀ b, f b a = g b a) (b : β) :
    t.foldl f b = t.foldl g b := by
  induction t generalizing b with
  | nil => rfl
  | cons a t ih =>
    rw [List.foldl_cons, List.foldl_cons, h a List.mem_cons_self]
    exact ih (fun a' ha' => h a' (List.mem_cons_of_mem a ha')) _

theorem sha1Commit_eq (h : Sha1.Chain) (block : List UInt8) :
    sha1Commit h block = Sha1.compress h block := by
  unfold sha1Commit Sha1.compress
  dsimp only
  rw [schedule_eq, foldl_congr fun t ht v => sha1Round_eq (Sha1.schedule (beWord block)) v
    (List.mem_range.mp ht)]
  simp only [UInt32.add_comm]

/-- However the message is cut. -/
theorem sha1_pieces (pieces : List (List UInt8)) : sha1Finish (pieces.foldl sha1Update sha1New) =
    Sha1.digest pieces.flatten := by
  have hnew : Streaming.Took sha1Commit Sha1.initial sha1New [] := Streaming.took_new Sha1.initial
  have htook := Streaming.took_updates hnew pieces
  have hfinish : Streaming.finish sha1Commit beBytes64 (pieces.foldl sha1Update sha1New) =
      Streaming.absorb sha1Commit Sha1.initial (Streaming.padded beBytes64 pieces.flatten) :=
        htook.finish beBytes64
  have hcommit : sha1Commit = Sha1.compress := funext fun h => funext (sha1Commit_eq h)
  unfold sha1Finish Sha1.digest
  rw [hfinish, ← hcommit]
  simp [Sha1.bytes]

/-! ### MD5 -/

theorem or_swap (x y z : UInt32) : (z &&& x) ||| (~~~z &&& y) = Md5.g x y z := by
  unfold Md5.g
  rw [UInt32.and_comm z x, UInt32.and_comm (~~~z) y]

/-- The function, the word and the turn of an operation. -/
theorem md5Choice_eq {n : Nat} (hn : n < 64) (b c d : UInt32) : md5Choice n b c d =
    (Md5.functions.getD (n / 16) Md5.i b c d, (Md5.places.getD (n / 16) []).getD (n % 16) 0) := by
  have hplaces : ∀ n < 64, (Md5.places.getD (n / 16) []).getD (n % 16) 0 = if n < 16 then n
    else if n < 32 then (5 * n + 1) % 16
      else if n < 48 then (3 * n + 5) % 16 else 7 * n % 16 := by decide
  rw [hplaces n hn]
  unfold md5Choice
  by_cases h16 : n < 16
  · have hround : n / 16 = 0 := by omega
    rw [if_pos h16, if_pos h16, hround]
    rfl
  · rw [if_neg h16, if_neg h16]
    by_cases h32 : n < 32
    · have hround : n / 16 = 1 := by omega
      rw [if_pos h32, if_pos h32, hround, or_swap]
      rfl
    · rw [if_neg h32, if_neg h32]
      by_cases h48 : n < 48
      · have hround : n / 16 = 2 := by omega
        rw [if_pos h48, if_pos h48, hround]
        rfl
      · have hround : n / 16 = 3 := by omega
        rw [if_neg h48, if_neg h48, hround]
        rfl

theorem places_lt : ∀ n < 64, (Md5.places.getD (n / 16) []).getD (n % 16) 0 < 16 := by decide

theorem turns_eq : ∀ n < 64, MD5_S.getD n 0 = (Md5.turns.getD (n / 16) []).getD (n % 4) 0 := by decide

/-- The registers that play a, b, c and d behind so many operations. -/
structure Roles (v : Md5Chain) (buffer : Md5.Buffer) (n : Nat) : Prop where
  a : buffer (-Fin.ofNat 4 n) = v.a
  b : buffer (-Fin.ofNat 4 n + 1) = v.b
  c : buffer (-Fin.ofNat 4 n + 2) = v.c
  d : buffer (-Fin.ofNat 4 n + 3) = v.d

theorem md5Round_roles {block : List UInt8} {v : Md5Chain} {buffer : Md5.Buffer} {n : Nat}
    (h : Roles v buffer n) (hn : n < 64) :
    Roles (md5Round ((List.range 16).map (leWord block)) v n)
      (Md5.operation (leWord block) buffer n) (n + 1) := by
  have hnext : -Fin.ofNat 4 (n + 1) = -Fin.ofNat 4 n + 3 := by
    have hmod : ∀ a : Fin 4, -(a + 1) = -a + 3 := by decide
    have hofNat : Fin.ofNat 4 (n + 1) = Fin.ofNat 4 n + 1 := by
      apply Fin.ext
      show (n + 1) % 4 = (n % 4 + 1) % 4
      omega
    rw [hofNat, hmod]
  have hsum : v.b + rotateLeft (Md5.functions.getD (n / 16) Md5.i v.b v.c v.d + v.a + MD5_K.getD n 0 +
      leWord block ((Md5.places.getD (n / 16) []).getD (n % 16) 0)) (MD5_S.getD n 0) =
        v.b + rotateLeft (v.a +
      Md5.functions.getD (n / 16) Md5.i v.b v.c v.d +
        leWord block ((Md5.places.getD (n / 16) []).getD (n % 16) 0) +
      Md5.sines.getD n 0) ((Md5.turns.getD (n / 16) []).getD (n % 4) 0) := by
    have hK : MD5_K = Md5.sines := rfl
    rw [hK, turns_eq n hn, UInt32.add_comm v.a, UInt32.add_assoc _ (Md5.sines.getD n 0),
      UInt32.add_comm (Md5.sines.getD n 0),
      ← UInt32.add_assoc]
  unfold md5Round Md5.operation
  rw [md5Choice_eq hn]
  dsimp only
  obtain ⟨ha, hb, hc, hd⟩ := h
  rw [ha, hb, hc, hd, getD_map_range _ _ (places_lt n hn), hsum]
  generalize -Fin.ofNat 4 n = a at *
  generalize v.b + _ = new
  have hplus : ∀ a : Fin 4, a + 3 + 1 = a ∧ a + 3 + 2 = a + 1 ∧ a + 3 + 3 = a + 2 ∧ a + 1 ≠ a ∧
    a + 2 ≠ a ∧ a + 3 ≠ a := by decide
  obtain ⟨h1, h2, h3, hne1, hne2, hne3⟩ := hplus a
  refine ⟨?_, ?_, ?_, ?_⟩
  · rw [hnext, Function.update_of_ne hne3, hd]
  · rw [hnext, h1, Function.update_self]
  · rw [hnext, h2, Function.update_of_ne hne1, hb]
  · rw [hnext, h3, Function.update_of_ne hne2, hc]

def registers (v : Md5Chain) : Md5.Buffer := ![v.a, v.b, v.c, v.d]

theorem md5Commit_eq (h : Md5Chain) (block : List UInt8) : registers (md5Commit h block) =
    Md5.compress (registers h) block := by
  have hroles : ∀ n ≤ 64, Roles ((List.range n).foldl (md5Round ((List.range 16).map (leWord block))) h)
      ((List.range n).foldl (Md5.operation (leWord block)) (registers h)) n := by
    intro n
    induction n with
    | zero => exact fun _ => ⟨rfl, rfl, rfl, rfl⟩
    | succ n ih =>
      intro hn
      rw [List.range_succ (n := n), List.foldl_append, List.foldl_append]
      exact md5Round_roles (ih (by omega)) (by omega)
  obtain ⟨ha, hb, hc, hd⟩ := hroles 64 Nat.le.refl
  unfold md5Commit Md5.compress
  dsimp only
  rw [← ha, ← hb, ← hc, ← hd]
  funext r
  match r with
  | 0 => exact UInt32.add_comm _ _
  | 1 => exact UInt32.add_comm _ _
  | 2 => exact UInt32.add_comm _ _
  | 3 => exact UInt32.add_comm _ _

/-- However the message is cut. -/
theorem md5_pieces (pieces : List (List UInt8)) : md5Finish (pieces.foldl md5Update md5New) =
    Md5.digest pieces.flatten := by
  have hnew : Streaming.Took md5Commit md5New.h md5New [] := Streaming.took_new md5New.h
  have htook := Streaming.took_updates hnew pieces
  have hfinish : Streaming.finish md5Commit leBytes64 (pieces.foldl md5Update md5New) =
      Streaming.absorb md5Commit md5New.h (Streaming.padded leBytes64 pieces.flatten) :=
        htook.finish leBytes64
  have hmap := Streaming.absorb_map registers md5Commit_eq md5New.h
    (Streaming.padded leBytes64 pieces.flatten)
  have hinitial : registers md5New.h = Md5.initial := rfl
  unfold md5Finish Md5.digest
  rw [hfinish, ← hinitial, ← hmap]
  simp [Md5.bytes, registers]

/-! ### HMAC -/

/-- A hash that may be given its message in pieces makes the HMAC of the whole. -/
theorem hmacWith_eq {S : Type} {new : S} {update : S → List UInt8 → S} {finish : S → List UInt8}
    {hash : List UInt8 → List UInt8}
    (h : ∀ pieces : List (List UInt8), finish (pieces.foldl update new) = hash pieces.flatten)
      (key data : List UInt8) :
    hmacWith new update finish key data = hmac hash key data := by
  have hone : ∀ data, finish (update new data) = hash data := fun data => by
    have hpieces := h [data]
    rwa [List.flatten_singleton] at hpieces
  have htwo : ∀ a b, finish (update (update new a) b) = hash (a ++ b) := fun a b => by
    have hpieces := h [a, b]
    rwa [List.flatten_cons, List.flatten_singleton] at hpieces
  unfold hmacWith hmac
  dsimp only
  rw [htwo, htwo, funext hone]
  rfl

theorem hmacSha1_eq (key data : List UInt8) : hmacSha1 key data = hmac Sha1.digest key data :=
  hmacWith_eq sha1_pieces key data

theorem hmacMd5_eq (key data : List UInt8) : hmacMd5 key data = hmac Md5.digest key data :=
  hmacWith_eq md5_pieces key data

/-- The digests and the codes made of them are those of the standards, for every message, key and cut. -/
theorem hashes_conform : (∀ pieces : List (List UInt8),
    sha1Finish (pieces.foldl sha1Update sha1New) = Sha1.digest pieces.flatten ∧
      md5Finish (pieces.foldl md5Update md5New) = Md5.digest pieces.flatten) ∧
    ∀ key data : List UInt8, hmacSha1 key data = hmac Sha1.digest key data ∧
      hmacMd5 key data = hmac Md5.digest key data :=
  ⟨fun pieces => ⟨sha1_pieces pieces, md5_pieces pieces⟩,
    fun key data => ⟨hmacSha1_eq key data, hmacMd5_eq key data⟩⟩

end Lerux.Swift

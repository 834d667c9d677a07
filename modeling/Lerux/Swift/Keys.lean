import Lerux.Swift.Digests
import Lerux.Swift.Handshake

/-!
# The keys that are derived

`pbkdf2_hmac_sha1` has room for 64 bytes of salt and `prf` for 159 bytes before its counter, and
drops what is longer. Up to that they are the functions of RFC 8018 and IEEE 802.11.
-/

namespace Lerux.Swift

open Lerux.Base

theorem be32_eq (i : Nat) : be32 i = Pkcs5.int i := by
  have hbyte : ∀ n, UInt8.ofNat (n &&& 0xff) = .ofNat n := fun n => by
    apply UInt8.toNat_inj.mp
    have hmask : n &&& 0xff = n % 2 ^ 8 := Nat.and_two_pow_sub_one_eq_mod n 8
    rw [hmask, UInt8.toNat_ofNat', UInt8.toNat_ofNat']
    exact Nat.mod_mod _ _
  have hdiv : ∀ m n, i / m / n = i / (m * n) := fun m n => Nat.div_div_eq_div_mul i m n
  unfold be32 lowByte Pkcs5.int
  simp only [hbyte, Nat.shiftRight_eq_div_pow, leBytes, hdiv, List.reverse_cons, List.reverse_nil,
    List.nil_append, List.cons_append]
  rw [Nat.pow_zero, Nat.div_one]

/-- A block of the key. -/
theorem pbkdf2Block_eq (password salt : List UInt8) (count i : Nat) (hsalt : salt.length ≤ 64) :
    pbkdf2Block hmacSha1 password salt count i = Pkcs5.block (hmac Sha1.digest) password salt count i := by
  have hloop : ∀ n, (List.range n).foldl (fun p _ => (hmac Sha1.digest password p.1,
    xorBytes p.2 (hmac Sha1.digest password p.1)))
      (Pkcs5.iterate (hmac Sha1.digest) password salt i 0,
        Pkcs5.iterate (hmac Sha1.digest) password salt i 0) =
      (Pkcs5.iterate (hmac Sha1.digest) password salt i n,
        (List.range' 1 n).foldl (fun sum j => Pkcs5.xorAll sum
          (Pkcs5.iterate (hmac Sha1.digest) password salt i j))
          (Pkcs5.iterate (hmac Sha1.digest) password salt i 0)) := by
    intro n
    induction n with
    | zero => rfl
    | succ n ih =>
      rw [List.range_succ, List.foldl_append, ih, List.range'_concat, List.foldl_append,
        Nat.one_mul, Nat.add_comm 1 n]
      rfl
  have hprf : hmacSha1 = hmac Sha1.digest := funext fun key => funext (hmacSha1_eq key)
  unfold pbkdf2Block
  rw [hprf, List.take_of_length_le hsalt, be32_eq]
  exact congrArg Prod.snd (hloop (count - 1))

/-- What the derivation gives, for every salt: the key for its first 64 bytes. -/
theorem pbkdf2_eq (password salt key : List UInt8) (count n : Nat)
    (h : Pkcs5.pbkdf2 (hmac Sha1.digest) 20 password (salt.take 64) count n = some key) :
    pbkdf2 hmacSha1 password salt count n = key := by
  have hblock : ∀ i, pbkdf2Block hmacSha1 password salt count i =
    Pkcs5.block (hmac Sha1.digest) password (salt.take 64) count i := by
    intro i
    rw [← pbkdf2Block_eq password (salt.take 64) count i (List.length_take_le _ _)]
    unfold pbkdf2Block
    rw [List.take_take, Nat.min_self]
  unfold Pkcs5.pbkdf2 at h
  split at h
  · cases h
  · rename_i hlen
    rw [← Option.some.inj h]
    unfold pbkdf2
    rw [List.flatMap_congr fun i _ => hblock i]
    rfl

theorem length_hmac (key data : List UInt8) : (hmac Sha1.digest key data).length = 20 := by
  unfold hmac Sha1.digest Sha1.bytes beBytes32
  simp only [List.length_append, List.length_reverse, length_leBytes]

/-- The function of the standard, as long as label and data leave room for the counter. -/
theorem prf_eq (key label data : List UInt8) (n : Nat) (hlength : label.length + data.length + 1 ≤ 159) :
    prf hmacSha1 key (label ++ 0 :: data) n = prf80211 key label data n := by
  have hlabel : (label ++ 0 :: data).length ≤ 159 := by
    rw [List.length_append, List.length_cons]
    omega
  have hblock : ∀ i : Nat, (hmacSha1 key ((label ++ 0 :: data).take 159 ++ [UInt8.ofNat i])).take 20 =
      hmac Sha1.digest key (label ++ 0 :: data ++ [.ofNat i]) := fun i => by
    rw [hmacSha1_eq, List.take_of_length_le (Nat.le_of_eq (length_hmac _ _)), List.take_of_length_le hlabel]
  unfold prf prf80211
  rw [List.flatMap_congr fun i _ => hblock i]

/-- The two addresses or the two nonces of a handshake, the smaller one first. -/
def inOrder (a b : List UInt8) : List UInt8 := if a ≤ b then a ++ b else b ++ a

example : inOrder [2, 3] [2, 1] = [2, 1, 2, 3] := by decide +kernel

/-- The keys of a network whose name has at most 64 bytes, and those of every handshake, are the
keys of the standards. -/
theorem derivations_conform (password salt : List UInt8) (count n : Nat) (key : List UInt8)
    (hsalt : salt.length ≤ 64 ∨ n = 0)
    (hkey : Pkcs5.pbkdf2 (hmac Sha1.digest) 20 password salt count n = some key) :
    pbkdf2 hmacSha1 password salt count n = key ∧
      (∀ (key label data : List UInt8) (n : Nat), label.length + data.length + 1 ≤ 159 →
        prf hmacSha1 key (label ++ 0 :: data) n = prf80211 key label data n) ∧
      ∀ (pmk : List UInt8) (ap sta : Fin 6 → UInt8) (anonce snonce : Fin 32 → UInt8),
        let out := prf80211 pmk "Pairwise key expansion".toUTF8.toList
          (inOrder (.ofFn ap) (.ofFn sta) ++ inOrder (.ofFn anonce) (.ofFn snonce)) 48
        derivePtk hmacSha1 pmk (.ofFn ap) (.ofFn sta) (.ofFn anonce) (.ofFn snonce) =
          ⟨out.take 16, (out.take 32).drop 16, (out.take 48).drop 32⟩ := by
  refine ⟨?_, prf_eq, fun pmk ap sta anonce snonce => ?_⟩
  · obtain h | rfl := hsalt
    · exact pbkdf2_eq password salt key count n ((List.take_of_length_le h).symm ▸ hkey)
    · exact Option.some.inj hkey
  · have horder : ∀ a b : List UInt8, (inOrder a b).length = a.length + b.length := fun a b => by
      unfold inOrder
      split
      · exact List.length_append
      · exact List.length_append.trans (Nat.add_comm _ _)
    have hlabel : "Pairwise key expansion".toUTF8.toList.length = 22 := by decide +kernel
    have hdata : (inOrder (.ofFn ap) (.ofFn sta) ++ inOrder (.ofFn anonce) (.ofFn snonce)).length = 76 := by
      rw [List.length_append, horder, horder, List.length_ofFn, List.length_ofFn, List.length_ofFn,
        List.length_ofFn]
    have hprf := prf_eq pmk "Pairwise key expansion".toUTF8.toList
      (inOrder (.ofFn ap) (.ofFn sta) ++ inOrder (.ofFn anonce) (.ofFn snonce)) 48 (by omega)
    have hjoin : ∀ t m n : List UInt8, t ++ [0] ++ m ++ n = t ++ 0 :: (m ++ n) := fun t m n => by
      rw [List.append_assoc, List.append_assoc, List.singleton_append]
    have hptk : ∀ out, out = prf hmacSha1 pmk ("Pairwise key expansion".toUTF8.toList ++ [0] ++
      inOrder (.ofFn ap) (.ofFn sta) ++
        inOrder (.ofFn anonce) (.ofFn snonce)) 48 → derivePtk hmacSha1 pmk (.ofFn ap) (.ofFn sta)
          (.ofFn anonce) (.ofFn snonce) =
          ⟨out.take 16, (out.take 32).drop 16, (out.take 48).drop 32⟩ := by
      rintro _ rfl
      rfl
    exact hptk _ (by rw [hjoin, hprf])

theorem derivations_conform_zero : ∃ key, pbkdf2 hmacSha1 [] [] 1 1 = [key] := by
  have h : Pkcs5.pbkdf2 (hmac Sha1.digest) 20 [] [] 1 1 = some [0x1e] := by decide +kernel
  exact ⟨_, (derivations_conform [] [] 1 1 _ (.inl (Nat.zero_le _)) h).1⟩

theorem long_salt_cut : ∃ password salt count n key, 1 ≤ count ∧
    Pkcs5.pbkdf2 (hmac Sha1.digest) 20 password salt count n = some key ∧
    pbkdf2 hmacSha1 password salt count n ≠ key := by
  have hcut : Pkcs5.pbkdf2 (hmac Sha1.digest) 20 [] ((List.replicate 65 0).take 64) 1 1 =
    some [0xbd] := by decide +kernel
  have hfull : Pkcs5.pbkdf2 (hmac Sha1.digest) 20 [] (List.replicate 65 0) 1 1 = some [0x80] := by
    decide +kernel
  refine ⟨[], .replicate 65 0, 1, 1, [0x80], Nat.le_refl _, hfull, ?_⟩
  rw [pbkdf2_eq _ _ _ _ _ hcut]
  decide

end Lerux.Swift

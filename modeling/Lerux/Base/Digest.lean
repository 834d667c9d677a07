import Lerux.Base.LittleEndian
import Lerux.Base.Streaming
import Mathlib

/-!
# Digests and what is made of them

SHA-1 (FIPS 180-4), MD5 (RFC 1321), HMAC (RFC 2104), PBKDF2 (RFC 8018) and the pseudo-random
function of IEEE 802.11, each as its standard states it. A digest is the chain of a compression
function over the padded message (`Streaming.absorb`).
-/

namespace Lerux.Base

/-- A word turned to the left. -/
def rotateLeft (x n : UInt32) : UInt32 := x <<< n ||| x >>> (32 - n)

/-- The word at a place of a block, the highest byte first. -/
def beWord (block : List UInt8) (i : Nat) : UInt32 := .ofNat (leNat ((block.drop (4 * i)).take 4).reverse)

/-- The word at a place of a block, the lowest byte first. -/
def leWord (block : List UInt8) (i : Nat) : UInt32 := .ofNat (leNat ((block.drop (4 * i)).take 4))

def beBytes32 (x : UInt32) : List UInt8 := (leBytes 4 x.toNat).reverse

def leBytes32 (x : UInt32) : List UInt8 := leBytes 4 x.toNat

def beBytes64 (x : UInt64) : List UInt8 := (leBytes 8 x.toNat).reverse

def leBytes64 (x : UInt64) : List UInt8 := leBytes 8 x.toNat

namespace Sha1

structure Chain where
  a : UInt32
  b : UInt32
  c : UInt32
  d : UInt32
  e : UInt32
deriving DecidableEq

def initial : Chain := ⟨0x67452301, 0xefcdab89, 0x98badcfe, 0x10325476, 0xc3d2e1f0⟩

def ch (x y z : UInt32) : UInt32 := (x &&& y) ^^^ (~~~x &&& z)

def parity (x y z : UInt32) : UInt32 := x ^^^ y ^^^ z

def maj (x y z : UInt32) : UInt32 := (x &&& y) ^^^ (x &&& z) ^^^ (y &&& z)

def f (t : Nat) : UInt32 → UInt32 → UInt32 → UInt32 :=
  if t ≤ 19 then ch else if t ≤ 39 then parity else if t ≤ 59 then maj else parity

def k (t : Nat) : UInt32 := if t ≤ 19 then 0x5a827999 else if t ≤ 39 then 0x6ed9eba1
    else if t ≤ 59 then 0x8f1bbcdc else 0xca62c1d6

/-- The message schedule. -/
def schedule (m : Nat → UInt32) : Nat → UInt32
  | t + 16 => rotateLeft (schedule m (t + 13) ^^^ schedule m (t + 8) ^^^ schedule m
    (t + 2) ^^^ schedule m t) 1
  | t => m t

def step (w : Nat → UInt32) (v : Chain) (t : Nat) : Chain :=
  ⟨rotateLeft v.a 5 + f t v.b v.c v.d + v.e + k t + w t, v.a, rotateLeft v.b 30, v.c, v.d⟩

def compress (h : Chain) (block : List UInt8) : Chain :=
  let v := (List.range 80).foldl (step (schedule (beWord block))) h
  ⟨v.a + h.a, v.b + h.b, v.c + h.c, v.d + h.d, v.e + h.e⟩

def bytes (h : Chain) : List UInt8 := beBytes32 h.a ++ beBytes32 h.b ++ beBytes32 h.c ++
    beBytes32 h.d ++ beBytes32 h.e

def digest (message : List UInt8) : List UInt8 := bytes
    (Streaming.absorb compress initial (Streaming.padded beBytes64 message))

example : digest [0x61, 0x62, 0x63] =
    [0xa9, 0x99, 0x3e, 0x36, 0x47, 0x06, 0x81, 0x6a, 0xba, 0x3e, 0x25, 0x71, 0x78, 0x50, 0xc2, 0x6c,
      0x9c, 0xd0, 0xd8, 0x9d] := by
  decide +kernel

end Sha1

namespace Md5

/-- The buffer of the four words A, B, C and D. -/
abbrev Buffer : Type := Fin 4 → UInt32

local instance neZero_four : NeZero 4 := ⟨by decide⟩

def initial : Buffer := ![0x67452301, 0xefcdab89, 0x98badcfe, 0x10325476]

def f (x y z : UInt32) : UInt32 := (x &&& y) ||| (~~~x &&& z)

def g (x y z : UInt32) : UInt32 := (x &&& z) ||| (y &&& ~~~z)

def h (x y z : UInt32) : UInt32 := x ^^^ y ^^^ z

def i (x y z : UInt32) : UInt32 := y ^^^ (x ||| ~~~z)

/-- The table of the sine, entry by entry. -/
def sines : List UInt32 :=
  [0xd76aa478, 0xe8c7b756, 0x242070db, 0xc1bdceee, 0xf57c0faf, 0x4787c62a, 0xa8304613, 0xfd469501,
    0x698098d8, 0x8b44f7af, 0xffff5bb1, 0x895cd7be, 0x6b901122, 0xfd987193, 0xa679438e, 0x49b40821,
    0xf61e2562, 0xc040b340, 0x265e5a51, 0xe9b6c7aa, 0xd62f105d, 0x02441453, 0xd8a1e681, 0xe7d3fbc8,
    0x21e1cde6, 0xc33707d6, 0xf4d50d87, 0x455a14ed, 0xa9e3e905, 0xfcefa3f8, 0x676f02d9, 0x8d2a4c8a,
    0xfffa3942, 0x8771f681, 0x6d9d6122, 0xfde5380c, 0xa4beea44, 0x4bdecfa9, 0xf6bb4b60, 0xbebfbc70,
    0x289b7ec6, 0xeaa127fa, 0xd4ef3085, 0x04881d05, 0xd9d4d039, 0xe6db99e5, 0x1fa27cf8, 0xc4ac5665,
    0xf4292244, 0x432aff97, 0xab9423a7, 0xfc93a039, 0x655b59c3, 0x8f0ccc92, 0xffeff47d, 0x85845dd1,
    0x6fa87e4f, 0xfe2ce6e0, 0xa3014314, 0x4e0811a1, 0xf7537e82, 0xbd3af235, 0x2ad7d2bb, 0xeb86d391]

/-- The words that the operations of a round take, in their order. -/
def places : List (List Nat) :=
  [[0, 1, 2, 3, 4, 5, 6, 7, 8, 9, 10, 11, 12, 13, 14, 15],
    [1, 6, 11, 0, 5, 10, 15, 4, 9, 14, 3, 8, 13, 2, 7, 12],
    [5, 8, 11, 14, 1, 4, 7, 10, 13, 0, 3, 6, 9, 12, 15, 2],
    [0, 7, 14, 5, 12, 3, 10, 1, 8, 15, 6, 13, 4, 11, 2, 9]]

/-- How far the four operations of a round that follow each other turn their sum. -/
def turns : List (List UInt32) := [[7, 12, 17, 22], [5, 9, 14, 20], [4, 11, 16, 23], [6, 10, 15, 21]]

def functions : List (UInt32 → UInt32 → UInt32 → UInt32) := [f, g, h, i]

/-- The operation [abcd k s n]: A takes the role of a in the first operation, D in the second, and
so on down. -/
def operation (m : Nat → UInt32) (v : Buffer) (n : Nat) : Buffer :=
  let a : Fin 4 := -Fin.ofNat 4 n
  let place := (places.getD (n / 16) []).getD (n % 16) 0
  let turn := (turns.getD (n / 16) []).getD (n % 4) 0
  let sum := v a + functions.getD (n / 16) i (v (a + 1)) (v (a + 2)) (v (a + 3)) + m place + sines.getD n 0
  Function.update v a (v (a + 1) + rotateLeft sum turn)

def compress (buffer : Buffer) (block : List UInt8) : Buffer :=
  let v := (List.range 64).foldl (operation (leWord block)) buffer
  fun r => v r + buffer r

def bytes (v : Buffer) : List UInt8 := leBytes32 (v 0) ++ leBytes32 (v 1) ++ leBytes32 (v 2) ++
    leBytes32 (v 3)

def digest (message : List UInt8) : List UInt8 := bytes
    (Streaming.absorb compress initial (Streaming.padded leBytes64 message))

example : digest [] = [0xd4, 0x1d, 0x8c, 0xd9, 0x8f, 0x00, 0xb2, 0x04, 0xe9, 0x80, 0x09, 0x98, 0xec,
    0xf8, 0x42, 0x7e] := by
  decide +kernel

end Md5

/-- A key as a block of 64 bytes. -/
def hmacKey (hash : List UInt8 → List UInt8) (key : List UInt8) : List UInt8 :=
  let key := if 64 < key.length then hash key else key
  key ++ List.replicate (64 - key.length) 0

def hmac (hash : List UInt8 → List UInt8) (key text : List UInt8) : List UInt8 :=
  hash ((hmacKey hash key).map (· ^^^ 0x5c) ++ hash ((hmacKey hash key).map (· ^^^ 0x36) ++ text))

namespace Pkcs5

def xorAll (a b : List UInt8) : List UInt8 := List.zipWith (· ^^^ ·) a b

/-- The four octets of the index of a block, the highest first. -/
def int (i : Nat) : List UInt8 := (leBytes 4 i).reverse

/-- The values that are added up for a block. -/
def iterate (prf : List UInt8 → List UInt8 → List UInt8) (password salt : List UInt8) (i : Nat) :
    Nat → List UInt8
  | 0 => prf password (salt ++ int i)
  | j + 1 => prf password (iterate prf password salt i j)

def block (prf : List UInt8 → List UInt8 → List UInt8) (password salt : List UInt8)
    (count i : Nat) : List UInt8 :=
  (List.range' 1 (count - 1)).foldl (fun sum j => xorAll sum (iterate prf password salt i j))
    (iterate prf password salt i 0)

/-- No key is longer than 2^32 - 1 blocks. -/
def pbkdf2 (prf : List UInt8 → List UInt8 → List UInt8) (hLen : Nat) (password salt : List UInt8)
    (count dkLen : Nat) :
    Option (List UInt8) :=
  if (2 ^ 32 - 1) * hLen < dkLen then none
  else some (((List.range' 1 ((dkLen + hLen - 1) / hLen)).flatMap
    (block prf password salt count)).take dkLen)

end Pkcs5

/-- The pseudo-random function of IEEE 802.11 for a length in octets: a label, a zero octet, the
data and a counter. -/
def prf80211 (key label data : List UInt8) (len : Nat) : List UInt8 :=
  ((List.range ((len + 19) / 20)).flatMap fun i => hmac Sha1.digest key (label ++ 0 :: data ++
    [.ofNat i])).take len

end Lerux.Base

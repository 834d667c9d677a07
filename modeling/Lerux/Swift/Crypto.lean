import Lerux.Base.Digest

/-!
# The hashes of the station

`crypto.rs`: SHA-1 and MD5 take their data byte by byte, and HMAC is made of them.
-/

namespace Lerux.Swift

open Lerux.Base

/-! ### SHA-1 -/

def sha1Choice (i : Nat) (b c d : UInt32) : UInt32 × UInt32 :=
  if i < 20 then ((b &&& c) ||| (~~~b &&& d), 0x5A827999)
  else if i < 40 then (b ^^^ c ^^^ d, 0x6ED9EBA1)
  else if i < 60 then ((b &&& c) ||| (b &&& d) ||| (c &&& d), 0x8F1BBCDC)
  else (b ^^^ c ^^^ d, 0xCA62C1D6)

/-- The next word of the schedule. -/
def sha1Word (w : List UInt32) (i : Nat) : List UInt32 :=
  w ++ [rotateLeft (w.getD (i - 3) 0 ^^^ w.getD (i - 8) 0 ^^^ w.getD (i - 14) 0 ^^^ w.getD (i - 16) 0) 1]

def sha1Round (w : List UInt32) (v : Sha1.Chain) (i : Nat) : Sha1.Chain :=
  let (f, k) := sha1Choice i v.b v.c v.d
  let temp := rotateLeft v.a 5 + f + v.e + k + w.getD i 0
  { e := v.d, d := v.c, c := rotateLeft v.b 30, b := v.a, a := temp }

def sha1Commit (h : Sha1.Chain) (block : List UInt8) : Sha1.Chain :=
  let w := (List.range' 16 64).foldl sha1Word ((List.range 16).map (beWord block))
  let v := (List.range 80).foldl (sha1Round w) h
  ⟨h.a + v.a, h.b + v.b, h.c + v.c, h.d + v.d, h.e + v.e⟩

abbrev Sha1State : Type := Streaming.Hasher Sha1.Chain

def sha1New : Sha1State := Streaming.new ⟨0x67452301, 0xEFCDAB89, 0x98BADCFE, 0x10325476, 0xC3D2E1F0⟩

def sha1Update (s : Sha1State) (data : List UInt8) : Sha1State := Streaming.update sha1Commit s data

def sha1Finish (s : Sha1State) : List UInt8 :=
  let h := Streaming.finish sha1Commit beBytes64 s
  [h.a, h.b, h.c, h.d, h.e].flatMap beBytes32

/-! ### MD5 -/

/-- The four words of the state. -/
structure Md5Chain where
  a : UInt32
  b : UInt32
  c : UInt32
  d : UInt32
deriving DecidableEq

def MD5_S : List UInt32 :=
  [7, 12, 17, 22, 7, 12, 17, 22, 7, 12, 17, 22, 7, 12, 17, 22, 5, 9, 14, 20, 5, 9, 14, 20, 5, 9,
    14, 20, 5, 9, 14, 20, 4, 11, 16, 23, 4, 11, 16, 23, 4, 11, 16, 23, 4, 11, 16, 23, 6, 10, 15,
    21, 6, 10, 15, 21, 6, 10, 15, 21, 6, 10, 15, 21]

def MD5_K : List UInt32 :=
  [0xd76aa478, 0xe8c7b756, 0x242070db, 0xc1bdceee, 0xf57c0faf, 0x4787c62a, 0xa8304613, 0xfd469501,
    0x698098d8, 0x8b44f7af, 0xffff5bb1, 0x895cd7be, 0x6b901122, 0xfd987193, 0xa679438e, 0x49b40821,
    0xf61e2562, 0xc040b340, 0x265e5a51, 0xe9b6c7aa, 0xd62f105d, 0x02441453, 0xd8a1e681, 0xe7d3fbc8,
    0x21e1cde6, 0xc33707d6, 0xf4d50d87, 0x455a14ed, 0xa9e3e905, 0xfcefa3f8, 0x676f02d9, 0x8d2a4c8a,
    0xfffa3942, 0x8771f681, 0x6d9d6122, 0xfde5380c, 0xa4beea44, 0x4bdecfa9, 0xf6bb4b60, 0xbebfbc70,
    0x289b7ec6, 0xeaa127fa, 0xd4ef3085, 0x04881d05, 0xd9d4d039, 0xe6db99e5, 0x1fa27cf8, 0xc4ac5665,
    0xf4292244, 0x432aff97, 0xab9423a7, 0xfc93a039, 0x655b59c3, 0x8f0ccc92, 0xffeff47d, 0x85845dd1,
    0x6fa87e4f, 0xfe2ce6e0, 0xa3014314, 0x4e0811a1, 0xf7537e82, 0xbd3af235, 0x2ad7d2bb, 0xeb86d391]

def md5Choice (i : Nat) (b c d : UInt32) : UInt32 × Nat :=
  if i < 16 then ((b &&& c) ||| (~~~b &&& d), i)
  else if i < 32 then ((d &&& b) ||| (~~~d &&& c), (5 * i + 1) % 16)
  else if i < 48 then (b ^^^ c ^^^ d, (3 * i + 5) % 16)
  else (c ^^^ (b ||| ~~~d), (7 * i) % 16)

def md5Round (m : List UInt32) (v : Md5Chain) (i : Nat) : Md5Chain :=
  let (f, g) := md5Choice i v.b v.c v.d
  let f := f + v.a + MD5_K.getD i 0 + m.getD g 0
  { a := v.d, d := v.c, c := v.b, b := v.b + rotateLeft f (MD5_S.getD i 0) }

def md5Commit (h : Md5Chain) (block : List UInt8) : Md5Chain :=
  let m := (List.range 16).map (leWord block)
  let v := (List.range 64).foldl (md5Round m) h
  ⟨h.a + v.a, h.b + v.b, h.c + v.c, h.d + v.d⟩

abbrev Md5State : Type := Streaming.Hasher Md5Chain

def md5New : Md5State := Streaming.new ⟨0x67452301, 0xEFCDAB89, 0x98BADCFE, 0x10325476⟩

def md5Update (s : Md5State) (data : List UInt8) : Md5State := Streaming.update md5Commit s data

def md5Finish (s : Md5State) : List UInt8 :=
  let h := Streaming.finish md5Commit leBytes64 s
  [h.a, h.b, h.c, h.d].flatMap leBytes32

/-! ### HMAC -/

/-- The key in its block of 64 bytes. -/
def keyBlock (hash : List UInt8 → List UInt8) (key : List UInt8) : List UInt8 :=
  let k := if 64 < key.length then hash key else key
  k ++ List.replicate (64 - k.length) 0

/-- `hmac_sha1` and `hmac_md5`, which differ in the hash. -/
def hmacWith {S : Type} (new : S) (update : S → List UInt8 → S) (finish : S → List UInt8)
    (key data : List UInt8) : List UInt8 :=
  let k := keyBlock (fun data => finish (update new data)) key
  let ipad := k.map (· ^^^ 0x36)
  let opad := k.map (· ^^^ 0x5c)
  let inner := finish (update (update new ipad) data)
  finish (update (update new opad) inner)

def hmacSha1 (key data : List UInt8) : List UInt8 := hmacWith sha1New sha1Update sha1Finish key data

def hmacMd5 (key data : List UInt8) : List UInt8 := hmacWith md5New md5Update md5Finish key data

end Lerux.Swift

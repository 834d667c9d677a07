import Lerux.Base.Buffer
import Lerux.Base.LittleEndian
import Mathlib.Data.List.OfFn

/-!
# The envelope of a signed program

A blob is the magic, a version, the length of the payload, the payload and an ed25519 signature. The
signature covers everything before it. A payload is run only out of a blob whose signature has been
checked.
-/

namespace Lerux.Wasm

open Lerux.Base

def magic : List UInt8 := [0x4c, 0x52, 0x57, 0x31]
def version : UInt8 := 1
def maxWasmLen : Nat := 4096
def headerLen : Nat := 7
def sigLen : Nat := 64

inductive Error
  | magic | version | truncated | wasmLen | signature | module | «export» | trap
deriving DecidableEq

abbrev Signature : Type := Fin sigLen → UInt8

/-- The library of the signatures. A key may be no point of the curve. -/
structure Ed25519 where
  VerifyingKey : Type
  fromBytes : (Fin 32 → UInt8) → Option VerifyingKey
  verify : VerifyingKey → List UInt8 → Signature → Bool

def wasmLen (wasm : List UInt8) : Except Error Nat :=
  if wasm = [] ∨ maxWasmLen < wasm.length then .error .wasmLen else .ok wasm.length

/-- The count, and the buffer. -/
def signingMessage (wasm out : List UInt8) : Except Error Nat × List UInt8 :=
  match wasmLen wasm with
  | .error err => (.error err, out)
  | .ok wasmLen =>
    let n := headerLen + wasmLen
    if out.length < n then (.error .truncated, out)
    else
      let out := copyFrom out 0 magic
      let out := out.set 4 version
      let out := copyFrom out 5 (leBytes 2 wasmLen)
      (.ok n, copyFrom out headerLen wasm)

def encode (wasm : List UInt8) (signature : Signature) (out : List UInt8) : Except Error Nat × List UInt8 :=
  match signingMessage wasm out with
  | (.error err, out) => (.error err, out)
  | (.ok n, out) =>
    let total := n + sigLen
    if out.length < total then (.error .truncated, out)
    else (.ok total, copyFrom out n (List.ofFn signature))

/-- What a blob is taken apart into before the key is looked at. -/
structure Parts where
  message : List UInt8
  signature : Signature
  wasm : List UInt8

def parse (blob : List UInt8) : Except Error Parts :=
  if blob.length < headerLen + sigLen then .error .truncated
  else if blob.take 4 ≠ magic then .error .magic
  else if blob.getD 4 0 ≠ version then .error .version
  else
    let wasmLen := leNat [blob.getD 5 0, blob.getD 6 0]
    if wasmLen = 0 ∨ maxWasmLen < wasmLen then .error .wasmLen
    else if blob.length ≠ headerLen + wasmLen + sigLen then .error .truncated
    else .ok ⟨blob.take (headerLen + wasmLen), fun i => (blob.drop (headerLen + wasmLen)).getD i 0,
      (blob.take (headerLen + wasmLen)).drop headerLen⟩

variable (lib : Ed25519)

def verify (blob : List UInt8) (verifyingKey : Fin 32 → UInt8) : Except Error (List UInt8) :=
  match parse blob with
  | .error err => .error err
  | .ok parts =>
    match lib.fromBytes verifyingKey with
    | none => .error .signature
    | some key => if lib.verify key parts.message parts.signature then .ok parts.wasm else .error .signature

/-- The runtime: it instantiates a payload, and notes that it did. -/
structure Runtime (H : Type) where
  host : H
  instantiated : List (List UInt8)

variable {H : Type} (exec : List UInt8 → H → Except Error Unit × H)

def run (wasm : List UInt8) (m : Runtime H) : Except Error Unit × Runtime H :=
  ((exec wasm m.host).1, ⟨(exec wasm m.host).2, m.instantiated ++ [wasm]⟩)

def runSigned (blob : List UInt8) (verifyingKey : Fin 32 → UInt8) (m : Runtime H) :
    Except Error Unit × Runtime H :=
  match verify lib blob verifyingKey with
  | .error err => (.error err, m)
  | .ok wasm => run exec wasm m

/-! ### The format -/

/-- The bytes that a signature covers. -/
def covered (wasm : List UInt8) : List UInt8 := magic ++ version :: leBytes 2 wasm.length ++ wasm

variable {wasm blob out : List UInt8}

theorem set_append (written : List UInt8) (b : UInt8) (hout : out ≠ []) :
    (written ++ out).set written.length b = written ++ [b] ++ out.drop 1 := by
  obtain ⟨a, rest, rfl⟩ := List.exists_cons_of_ne_nil hout
  rw [List.set_append_right _ _ (Nat.le_refl _), Nat.sub_self, List.append_assoc]
  rfl

theorem signingMessage_eq (hpos : wasm ≠ []) (hmax : wasm.length ≤ maxWasmLen)
    (hout : headerLen + wasm.length ≤ out.length) :
    signingMessage wasm out = (.ok (headerLen + wasm.length),
      covered wasm ++ out.drop (headerLen + wasm.length)) := by
  have hlen : wasmLen wasm = .ok wasm.length := if_neg (by rintro (h | h); exact hpos h; omega)
  have hrest : out.drop 4 ≠ [] := by
    rw [Ne, List.drop_eq_nil_iff]
    unfold headerLen at hout
    omega
  have hmagic : copyFrom out 0 magic = magic ++ out.drop 4 := copyFrom_append [] out magic
  have hversion : (magic ++ out.drop 4).set 4 version = magic ++ [version] ++ out.drop 5 := by
    rw [← List.drop_drop (i := 1) (j := 4)]
    exact set_append magic version hrest
  have hlength : copyFrom (magic ++ [version] ++ out.drop 5) 5 (leBytes 2 wasm.length) =
      magic ++ [version] ++ leBytes 2 wasm.length ++ out.drop 7 := by
    rw [← List.drop_drop (i := 2) (j := 5)]
    exact copyFrom_append (magic ++ [version]) (out.drop 5) (leBytes 2 wasm.length)
  have hwasm : copyFrom (magic ++ [version] ++ leBytes 2 wasm.length ++ out.drop 7) headerLen wasm =
      magic ++ [version] ++ leBytes 2 wasm.length ++ wasm ++ out.drop (headerLen + wasm.length) := by
    rw [← List.drop_drop (i := wasm.length)]
    exact copyFrom_append (magic ++ [version] ++ leBytes 2 wasm.length) (out.drop 7) wasm
  unfold signingMessage
  rw [hlen]
  dsimp only
  rw [if_neg (Nat.not_lt.mpr hout), hmagic, hversion, hlength, hwasm, List.append_assoc magic]
  rfl

theorem length_covered (wasm : List UInt8) : (covered wasm).length = headerLen + wasm.length := by
  rw [covered, List.length_append, List.length_append, List.length_cons, length_leBytes]
  rfl

theorem encode_eq (signature : Signature) (hpos : wasm ≠ []) (hmax : wasm.length ≤ maxWasmLen)
    (hout : headerLen + wasm.length + sigLen ≤ out.length) :
    encode wasm signature out = (.ok (headerLen + wasm.length + sigLen),
      covered wasm ++ List.ofFn signature ++ out.drop (headerLen + wasm.length + sigLen)) := by
  have hmessage : headerLen + wasm.length ≤ out.length := by omega
  have hlength : (covered wasm ++ out.drop (headerLen + wasm.length)).length = out.length := by
    rw [List.length_append, length_covered, List.length_drop]
    omega
  have hcopy := copyFrom_append (covered wasm) (out.drop (headerLen + wasm.length)) (List.ofFn signature)
  rw [List.drop_drop, List.length_ofFn, length_covered] at hcopy
  unfold encode
  rw [signingMessage_eq hpos hmax hmessage]
  dsimp only
  rw [hlength, if_neg (Nat.not_lt.mpr hout), hcopy]

theorem exists_header (h : headerLen ≤ blob.length) : ∃ a b c d v l m rest,
    blob = a :: b :: c :: d :: v :: l :: m :: rest := by
  obtain ⟨a, b, c, d, v, l, m, hheader⟩ : ∃ a b c d v l m, blob.take headerLen = [a, b, c, d, v, l, m] := by
    have hlength : (blob.take headerLen).length = 7 := List.length_take_of_le h
    match blob.take headerLen, hlength with
    | [a, b, c, d, v, l, m], _ => exact ⟨a, b, c, d, v, l, m, rfl⟩
  refine ⟨a, b, c, d, v, l, m, blob.drop headerLen, ?_⟩
  exact (List.take_append_drop headerLen blob).symm.trans (congrArg (· ++ blob.drop headerLen) hheader)

theorem ofFn_getD (t : List UInt8) (h : t.length = sigLen) :
    (List.ofFn fun i : Fin sigLen => t.getD i 0) = t := by
  refine List.ext_getElem (by rw [List.length_ofFn, h]) fun i hi hi' => ?_
  rw [List.getElem_ofFn, List.getD_eq_getElem?_getD, List.getElem?_eq_getElem hi', Option.getD_some]

/-- A blob of the format comes apart into what it was made of. -/
theorem parse_append (signature : Signature) (hpos : wasm ≠ []) (hmax : wasm.length ≤ maxWasmLen) :
    parse (covered wasm ++ List.ofFn signature) = .ok ⟨covered wasm, signature, wasm⟩ := by
  have hlen : leNat (leBytes 2 wasm.length) = wasm.length :=
    leNat_leBytes (by unfold maxWasmLen at hmax; omega)
  have hblob : (covered wasm ++ List.ofFn signature).length = headerLen + wasm.length + sigLen := by
    rw [List.length_append, length_covered, List.length_ofFn]
  have hwasm : 0 < wasm.length := List.length_pos_of_ne_nil hpos
  have hfield : leNat [(covered wasm ++ List.ofFn signature).getD 5 0,
    (covered wasm ++ List.ofFn signature).getD 6 0] = wasm.length := hlen
  have htake : (covered wasm ++ List.ofFn signature).take (headerLen + wasm.length) = covered wasm := by
    rw [← length_covered, List.take_left]
  have hdrop : (covered wasm ++ List.ofFn signature).drop (headerLen + wasm.length) =
    List.ofFn signature := by
    rw [← length_covered, List.drop_left]
  have hmagic : (covered wasm ++ List.ofFn signature).take 4 = magic := rfl
  have hversion : (covered wasm ++ List.ofFn signature).getD 4 0 = version := rfl
  unfold parse
  rw [if_neg (by omega), if_neg (not_not_intro hmagic), if_neg (not_not_intro hversion)]
  dsimp only
  rw [hfield, if_neg (by omega), if_neg (not_not_intro hblob), htake, hdrop]
  have hsignature : (fun i : Fin sigLen => (List.ofFn signature).getD i 0) = signature :=
    List.ofFn_injective (ofFn_getD _ List.length_ofFn)
  rw [hsignature]
  rfl

theorem ite_error_eq_ok {α : Type} {c : Prop} {_ : Decidable c} {err : Error} {x : Except Error α} {a : α} :
    (if c then .error err else x) = .ok a ↔ ¬c ∧ x = .ok a := by
  split
  · rename_i hc
    exact ⟨nofun, fun h => absurd hc h.1⟩
  · rename_i hc
    exact ⟨fun h => ⟨hc, h⟩, fun h => h.2⟩

/-- Only a blob of the format comes apart. -/
theorem eq_append_of_parse {parts : Parts} (h : parse blob = .ok parts) : parts.wasm ≠ [] ∧
    parts.wasm.length ≤ maxWasmLen ∧
    parts.message = covered parts.wasm ∧ blob = covered parts.wasm ++ List.ofFn parts.signature := by
  unfold parse at h
  simp only [ite_error_eq_ok] at h
  obtain ⟨hshort, hmagic, hversion, hlen, htotal, hparts⟩ := h
  obtain ⟨a, b, c, d, v, l, m, rest, rfl⟩ :=
    exists_header (show headerLen ≤ blob.length by unfold sigLen at hshort; omega)
  obtain rfl : v = version := Decidable.not_not.mp hversion
  have hmagic : [a, b, c, d] = magic := Decidable.not_not.mp hmagic
  have htotal : rest.length + 7 = 7 + leNat [l, m] + 64 := Decidable.not_not.mp htotal
  have hpos : 0 < leNat [l, m] := Nat.pos_of_ne_zero fun h => hlen (.inl h)
  have hmax : leNat [l, m] ≤ maxWasmLen := Nat.not_lt.mp fun h => hlen (.inr h)
  have hfield : leBytes 2 (leNat [l, m]) = [l, m] := leBytes_leNat [l, m]
  -- the payload is what the length says, and the signature is the rest
  have hparts : Except.ok (ε := Error) (Parts.mk ([a, b, c, d] ++ version :: [l, m] ++
    rest.take (leNat [l, m]))
      (fun i => (rest.drop (leNat [l, m])).getD i 0) (rest.take (leNat [l, m]))) = .ok parts := by
    rw [← hparts, headerLen, Nat.add_comm 7]
    rfl
  have hwasm : (rest.take (leNat [l, m])).length = leNat [l, m] := List.length_take_of_le (by omega)
  have hcovered : [a, b, c, d] ++ version :: [l, m] ++ rest.take (leNat [l, m]) =
    covered (rest.take (leNat [l, m])) := by
    rw [covered, hwasm, hfield, hmagic]
  obtain rfl := Except.ok.inj hparts
  refine ⟨List.ne_nil_of_length_pos (hwasm.symm ▸ hpos), hwasm.trans_le hmax, hcovered, ?_⟩
  rw [ofFn_getD _ (by rw [List.length_drop]; unfold sigLen; omega), ← hcovered, List.append_assoc,
    List.take_append_drop]
  rfl

/-! ### The claims of the format -/

/-- A buffer that holds the blob takes it at its front, and the rest of it stays. -/
def Writes (write : List UInt8 → Except Error Nat × List UInt8) (bytes : List UInt8) : Prop :=
  ∀ out, bytes.length ≤ out.length → write out = (.ok bytes.length, bytes ++ out.drop bytes.length)

theorem writes_encode (signature : Signature) (hpos : wasm ≠ []) (hmax : wasm.length ≤ maxWasmLen) :
    Writes (encode wasm signature) (covered wasm ++ List.ofFn signature) := by
  have hlength : (covered wasm ++ List.ofFn signature).length = headerLen + wasm.length + sigLen := by
    rw [List.length_append, length_covered, List.length_ofFn]
  intro out hout
  rw [hlength] at hout ⊢
  exact encode_eq signature hpos hmax hout

theorem writes_signingMessage (hpos : wasm ≠ []) (hmax : wasm.length ≤ maxWasmLen) :
    Writes (signingMessage wasm) (covered wasm) := by
  intro out hout
  rw [length_covered] at hout ⊢
  exact signingMessage_eq hpos hmax hout

/-- Two byte strings that one writer writes are the same. -/
theorem Writes.unique {write : List UInt8 → Except Error Nat × List UInt8} {a b : List UInt8}
    (ha : Writes write a) (hb : Writes write b) :
    a = b := by
  have hbuffer := (ha (.replicate (a.length + b.length) 0)
    (by rw [List.length_replicate]; omega)).symm.trans
    (hb (.replicate (a.length + b.length) 0) (by rw [List.length_replicate]; omega))
  have hlength := Except.ok.inj (congrArg Prod.fst hbuffer)
  exact List.append_inj_left (congrArg Prod.snd hbuffer) hlength

/-- The signature that the key accepts. -/
def Ed25519.Valid (verifyingKey : Fin 32 → UInt8) (message : List UInt8) (signature : Signature) : Prop :=
  ∃ key, lib.fromBytes verifyingKey = some key ∧ lib.verify key message signature = true

theorem verify_eq_ok (verifyingKey : Fin 32 → UInt8) : verify lib blob verifyingKey = .ok wasm ↔
    ∃ parts, parse blob = .ok parts ∧ parts.wasm = wasm ∧
      lib.Valid verifyingKey parts.message parts.signature := by
  unfold verify
  cases hparse : parse blob with
  | error err => exact ⟨nofun, fun ⟨_, h, _⟩ => nomatch h⟩
  | ok parts =>
    cases hkey : lib.fromBytes verifyingKey with
    | none => exact ⟨nofun, fun ⟨_, _, _, key, h, _⟩ => nomatch hkey.symm.trans h⟩
    | some key =>
      dsimp only
      split
      · rename_i hverify
        refine ⟨fun h => ⟨parts, rfl, Except.ok.inj h, key, hkey, hverify⟩, fun ⟨_, hparts, hwasm, _⟩ => ?_⟩
        rw [Except.ok.inj hparts, hwasm]
      · rename_i hverify
        refine ⟨nofun, fun ⟨_, hparts, _, _, hkey', hverify'⟩ => absurd ?_ hverify⟩
        cases hparts
        cases hkey.symm.trans hkey'
        exact hverify'

/-- A blob is accepted exactly if it is written of a payload and a signature that the key accepts
for the bytes it covers. What is written comes apart again, and only what is accepted is run. -/
theorem accepts_exactly (blob wasm : List UInt8) (verifyingKey : Fin 32 → UInt8) :
    (verify lib blob verifyingKey = .ok wasm ↔ ∃ signature message, Writes (encode wasm signature) blob ∧
      1 ≤ wasm.length ∧ wasm.length ≤ maxWasmLen ∧ Writes (signingMessage wasm) message ∧
        lib.Valid verifyingKey message signature) ∧
    (∀ signature, 1 ≤ wasm.length → wasm.length ≤ maxWasmLen → ∃ blob message,
      Writes (encode wasm signature) blob ∧
      Writes (signingMessage wasm) message ∧ parse blob = .ok ⟨message, signature, wasm⟩) ∧
    ∀ m : Runtime H, (runSigned lib exec blob verifyingKey m).2 = m ∨
      ∃ payload, verify lib blob verifyingKey = .ok payload ∧
        (runSigned lib exec blob verifyingKey m).2 =
          ⟨(exec payload m.host).2, m.instantiated ++ [payload]⟩ := by
  refine ⟨?_, fun signature hpos hmax => ?_, fun m => ?_⟩
  · rw [verify_eq_ok]
    constructor
    · rintro ⟨parts, hparse, rfl, hvalid⟩
      obtain ⟨hpos, hmax, hmessage, hblob⟩ := eq_append_of_parse hparse
      refine ⟨parts.signature, covered parts.wasm, ?_, List.length_pos_of_ne_nil hpos, hmax,
        writes_signingMessage hpos hmax, ?_⟩
      · rw [hblob]
        exact writes_encode parts.signature hpos hmax
      · rw [← hmessage]
        exact hvalid
    · rintro ⟨signature, message, hwrites, hpos, hmax, hmessage, hvalid⟩
      have hpos := List.ne_nil_of_length_pos hpos
      rw [hmessage.unique (writes_signingMessage hpos hmax)] at hvalid
      rw [hwrites.unique (writes_encode signature hpos hmax)]
      exact ⟨_, parse_append signature hpos hmax, rfl, hvalid⟩
  · have hpos := List.ne_nil_of_length_pos hpos
    exact ⟨_, _, writes_encode signature hpos hmax, writes_signingMessage hpos hmax,
      parse_append signature hpos hmax⟩
  · unfold runSigned
    cases verify lib blob verifyingKey with
    | error err => exact .inl rfl
    | ok payload => exact .inr ⟨payload, rfl, rfl⟩

end Lerux.Wasm

import Lerux.Swift.Ccmp
import Lerux.Swift.Rijndael

/-!
# A sealed frame opens, and no other

Both directions of `wpa.rs` add the same key stream, so each undoes the other (`ctrData_ctrData`),
and a frame opens to a plaintext exactly if sealing the plaintext gives the frame back
(`ccmpDecrypt_gives`).
-/

namespace Lerux.Swift

open Check

/-! ### The key stream -/

theorem xorBytes_xorBytes {a k : List UInt8} (h : a.length ≤ k.length) : xorBytes (xorBytes a k) k = a := by
  induction a generalizing k with
  | nil => rfl
  | cons x a ih =>
    cases k with
    | nil => cases h
    | cons y k =>
      have hx : x ^^^ y ^^^ y = x := by rw [UInt8.xor_assoc, UInt8.xor_self, UInt8.xor_zero]
      show (x ^^^ y ^^^ y) :: xorBytes (xorBytes a k) k = x :: a
      rw [hx, ih (Nat.le_of_succ_le_succ h)]

theorem eq_ofFn {n : Nat} {t : List UInt8} (h : t.length = n) : ∃ f : Fin n → UInt8, t = List.ofFn f := by
  subst h
  exact ⟨fun i => t[i], List.ofFn_getElem.symm⟩

section

variable (key : Fin 16 → UInt8)

theorem length_aes {block : List UInt8} (h : block.length = 16) :
    (aes128EncryptBlock (List.ofFn key) block).length = 16 := by
  obtain ⟨input, rfl⟩ := eq_ofFn h
  rw [aes128EncryptBlock_eq, List.length_ofFn]

variable {nonce : List UInt8}

theorem length_ctrBlock (h : nonce.length = 13) (counter : Nat) :
    (ctrBlock (List.ofFn key) nonce counter).length = 16 := by
  refine length_aes key ?_
  rw [List.length_cons, List.length_append, h]
  rfl

theorem length_ctrFrom (h : nonce.length = 13) (n : Nat) : ∀ (counter : Nat) (data : List UInt8),
    data.length ≤ n →
    (ctrFrom (List.ofFn key) nonce n counter data).length = data.length := by
  induction n with
  | zero =>
    intro counter data hdata
    rw [List.length_eq_zero_iff.mp (Nat.le_zero.mp hdata)]
    rfl
  | succ n ih =>
    intro counter data hdata
    rw [ctrFrom]
    split
    · next hnil =>
      rw [hnil]
    · next hne =>
      have hpos := List.length_pos_iff.mpr hne
      rw [List.length_append, xorBytes_length, length_ctrBlock key h,
        ih _ _ (by rw [List.length_drop]; omega), List.length_take,
        List.length_drop]
      omega

/-- Adding the stream twice. -/
theorem ctrFrom_ctrFrom (h : nonce.length = 13) (n : Nat) : ∀ (counter : Nat) (data : List UInt8),
    data.length ≤ n →
    ctrFrom (List.ofFn key) nonce n counter (ctrFrom (List.ofFn key) nonce n counter data) = data := by
  induction n with
  | zero =>
    intro counter data hdata
    rw [List.length_eq_zero_iff.mp (Nat.le_zero.mp hdata)]
    rfl
  | succ n ih =>
    intro counter data hdata
    by_cases hnil : data = []
    · rw [hnil]
      rfl
    · have hpos := List.length_pos_iff.mpr hnil
      have hblock := length_ctrBlock key h counter
      let head := xorBytes (data.take 16) (ctrBlock (List.ofFn key) nonce counter)
      let rest := ctrFrom (List.ofFn key) nonce n ((counter + 1) % 2 ^ 16) (data.drop 16)
      have hsplit : ctrFrom (List.ofFn key) nonce (n + 1) counter data = head ++ rest := by
        rw [ctrFrom, if_neg hnil]
      have hhead : head.length = min 16 data.length := by
        rw [xorBytes_length, hblock, List.length_take]
        omega
      have hne : head ++ rest ≠ [] := by
        intro hnone
        have hlen := congrArg List.length hnone
        rw [List.length_append, hhead, List.length_nil] at hlen
        omega
      -- A first chunk that is not full is the last.
      have hcut : (head ++ rest).take 16 = head ∧ (head ++ rest).drop 16 = rest := by
        by_cases hfull : 16 ≤ data.length
        · have hhead16 : head.length = 16 := by omega
          exact ⟨by rw [← hhead16, List.take_left], by rw [← hhead16, List.drop_left]⟩
        · have hrest : rest = [] := by
            have hdrop : data.drop 16 = [] := List.drop_of_length_le (by omega)
            show ctrFrom _ _ n _ (data.drop 16) = []
            rw [hdrop]
            cases n <;> rfl
          rw [hrest, List.append_nil]
          exact ⟨List.take_of_length_le (by omega), List.drop_of_length_le (by omega)⟩
      rw [hsplit, ctrFrom, if_neg hne, hcut.1, hcut.2, ih _ _ (by rw [List.length_drop]; omega),
        xorBytes_xorBytes (by rw [hblock, List.length_take]; omega), List.take_append_drop]

theorem length_ctrData (h : nonce.length = 13) (data : List UInt8) :
    (ctrData (List.ofFn key) nonce data).length = data.length :=
  length_ctrFrom key h _ _ _ Nat.le.refl

theorem ctrData_ctrData (h : nonce.length = 13) (data : List UInt8) :
    ctrData (List.ofFn key) nonce (ctrData (List.ofFn key) nonce data) = data := by
  unfold ctrData
  rw [show (ctrFrom (List.ofFn key) nonce data.length 1 data).length =
    data.length from length_ctrData key h data]
  exact ctrFrom_ctrFrom key h _ _ _ Nat.le.refl

theorem ctrMic_ctrMic (h : nonce.length = 13) {mic : List UInt8} (hmic : mic.length = 8) :
    ctrMic (List.ofFn key) nonce (ctrMic (List.ofFn key) nonce mic) = mic :=
  xorBytes_xorBytes (by rw [List.length_take, length_ctrBlock key h]; omega)

theorem length_ctrMic (h : nonce.length = 13) {mic : List UInt8} (hmic : mic.length = 8) :
    (ctrMic (List.ofFn key) nonce mic).length = 8 := by
  rw [ctrMic, xorBytes_length, List.length_take, length_ctrBlock key h, hmic]
  rfl

/-! ### The tag -/

theorem length_zeroPad (t : List UInt8) : (zeroPad t).length = 16 := by
  rw [zeroPad, List.length_append, List.length_take, List.length_replicate]
  omega

theorem length_macFrom (n : Nat) : ∀ (block data : List UInt8), block.length = 16 →
    (macFrom (List.ofFn key) n block data).length = 16 := by
  induction n with
  | zero => exact fun _ _ h => h
  | succ n ih =>
    intro block data hblock
    rw [macFrom]
    split
    · exact hblock
    · refine ih _ _ (length_aes key ?_)
      rw [xorBytes_length, hblock, length_zeroPad]
      rfl

theorem length_ccmMic (h : nonce.length = 13) (aad msdu : List UInt8) :
    (ccmMic (List.ofFn key) nonce aad msdu).length = 8 := by
  have hfirst : (aes128EncryptBlock (List.ofFn key)
    (0x59 :: (nonce ++ [lowByte msdu.length 8, lowByte msdu.length 0]))).length = 16 := by
    refine length_aes key ?_
    rw [List.length_cons, List.length_append, h]
    rfl
  have hblock : (xorBytes (aes128EncryptBlock (List.ofFn key)
    (0x59 :: (nonce ++ [lowByte msdu.length 8, lowByte msdu.length 0])))
      (zeroPad (lowByte aad.length 8 :: lowByte aad.length 0 :: aad.take 14))).length = 16 := by
    rw [xorBytes_length, hfirst, length_zeroPad]
    rfl
  have hsecond := length_aes key hblock
  unfold ccmMic
  dsimp only
  rw [List.length_take, length_macFrom key _ _ _ (length_macFrom key _ _ _ hsecond)]
  rfl

end

/-! ### Packet numbers -/

theorem lowByte_toNat (v s : Nat) : (lowByte v s).toNat = v / 2 ^ s % 256 := by
  have hmask : v >>> s &&& 0xff = v >>> s % 2 ^ 8 := Nat.and_two_pow_sub_one_eq_mod _ 8
  rw [lowByte, UInt8.toNat_ofNat', hmask, Nat.shiftRight_eq_div_pow]
  exact Nat.mod_mod _ _

theorem or_shift {a n : Nat} (h : a < 2 ^ n) (b : Nat) : a ||| b <<< n = a + 2 ^ n * b := by
  rw [Nat.or_comm, Nat.shiftLeft_eq, Nat.mul_comm, ← Nat.two_pow_add_eq_or_of_lt h, Nat.add_comm]

theorem readPn_writeCcmpHdr (pn : Nat) : readPn (writeCcmpHdr pn) = pn % 2 ^ 48 := by
  show (lowByte pn 0).toNat ||| (lowByte pn 8).toNat <<< 8 ||| (lowByte pn 16).toNat <<< 16 |||
    (lowByte pn 24).toNat <<< 24 |||
    (lowByte pn 32).toNat <<< 32 ||| (lowByte pn 40).toNat <<< 40 = _
  simp only [lowByte_toNat]
  rw [or_shift (n := 8) (by omega), or_shift (n := 16) (by omega), or_shift (n := 24) (by omega),
    or_shift (n := 32) (by omega),
    or_shift (n := 40) (by omega)]
  omega

theorem ccmpNonce_mod (priority : UInt8) (a2 : List UInt8) (pn : Nat) :
    ccmpNonce priority a2 (pn % 2 ^ 48) = ccmpNonce priority a2 pn := by
  have hbyte : ∀ s, s + 8 ≤ 48 → lowByte (pn % 2 ^ 48) s = lowByte pn s := by
    intro s hs
    apply UInt8.toNat_inj.mp
    have hsplit : (2 : Nat) ^ 48 = 2 ^ s * 2 ^ (48 - s) := by
      rw [← Nat.pow_add]
      congr 1
      omega
    rw [lowByte_toNat, lowByte_toNat, hsplit, Nat.mod_mul_right_div_self]
    exact Nat.mod_mod_of_dvd _ (Nat.pow_dvd_pow 2 (show 8 ≤ 48 - s by omega))
  unfold ccmpNonce
  congr 2
  refine List.map_congr_left fun i _ => hbyte _ ?_
  omega

/-! ### Frames -/

def frameNonce (hdr : List UInt8) (pn : Nat) : List UInt8 :=
  ccmpNonce (qosTid hdr) ((hdr.take 16).drop 10) pn

theorem length_frameNonce {hdr : List UInt8} (h : 24 ≤ hdr.length) (pn : Nat) :
    (frameNonce hdr pn).length = 13 := by
  rw [frameNonce, ccmpNonce, List.length_cons, List.length_append, List.length_drop,
    List.length_take, List.length_map, List.length_range]
  omega

/-- Body and tag. -/
def sealed (tk nonce aad msdu : List UInt8) : List UInt8 :=
  ctrData tk nonce msdu ++ ctrMic tk nonce (ccmMic tk nonce aad msdu)

theorem append_eq_sealed (key : Fin 16 → UInt8) {nonce body mic aad p : List UInt8}
    (hnonce : nonce.length = 13) (hmic : mic.length = 8) :
    body ++ mic = sealed (List.ofFn key) nonce aad p ↔
      ctrData (List.ofFn key) nonce body = p ∧
        ctrMic (List.ofFn key) nonce mic = ccmMic (List.ofFn key) nonce aad p := by
  have htag := length_ccmMic key hnonce aad p
  constructor
  · intro h
    obtain ⟨hbody, hmic'⟩ := List.append_inj' h (by rw [hmic, length_ctrMic key hnonce htag])
    exact ⟨by rw [hbody, ctrData_ctrData key hnonce], by rw [hmic', ctrMic_ctrMic key hnonce htag]⟩
  · rintro ⟨hbody, hmic'⟩
    rw [sealed, ← hmic', ← hbody, ctrData_ctrData key hnonce, ctrMic_ctrMic key hnonce hmic]

theorem ccmpEncrypt_gives {tk hdr aad msdu c : List UInt8} {pn outLen : Nat}
    (hhdr : 24 ≤ hdr.length) (haad : (ccmpAad hdr).Gives aad)
    (hout : 8 + msdu.length + 8 ≤ outLen) : (ccmpEncrypt tk hdr pn msdu outLen).Gives (some c) ↔
      writeCcmpHdr pn ++ sealed tk (frameNonce hdr pn) aad msdu = c := by
  unfold ccmpEncrypt
  rw [if_neg (by omega), (gives_slice (by omega)).bind_iff, haad.bind_iff]
  dsimp only
  rw [gives_pure, Option.some_inj]
  rfl

theorem ccmpDecrypt_gives (key : Fin 16 → UInt8) {hdrLen outLen : Nat} {frame aad p : List UInt8}
    (hhdr : 24 ≤ hdrLen)
    (hlen : hdrLen + 16 ≤ frame.length) (haad : (ccmpAad (frame.take hdrLen)).Gives aad) :
    (ccmpDecrypt (List.ofFn key) hdrLen frame outLen).Gives (some p) ↔ p.length ≤ outLen ∧
      frame.drop (hdrLen + 8) =
      sealed (List.ofFn key) (frameNonce (frame.take hdrLen)
        (readPn ((frame.take (hdrLen + 8)).drop hdrLen))) aad p := by
  have hshort : 24 ≤ (frame.take hdrLen).length := by
    rw [List.length_take]
    omega
  have hnonce := length_frameNonce hshort (readPn ((frame.take (hdrLen + 8)).drop hdrLen))
  have ha2 : ((frame.take hdrLen).take 16).drop 10 = (frame.take 16).drop 10 := by
    rw [List.take_take, Nat.min_eq_left (by omega)]
  let nonce := frameNonce (frame.take hdrLen) (readPn ((frame.take (hdrLen + 8)).drop hdrLen))
  let body := (frame.take (frame.length - 8)).drop (hdrLen + 8)
  let mic := (frame.take frame.length).drop (frame.length - 8)
  have hbody : frame.drop (hdrLen + 8) = body ++ mic := by
    have hsplit : frame.drop (frame.length - 8) =
      (frame.drop (hdrLen + 8)).drop (frame.length - 8 - (hdrLen + 8)) := by
      rw [List.drop_drop]
      congr 1
      omega
    show frame.drop (hdrLen + 8) = (frame.take (frame.length - 8)).drop (hdrLen + 8) ++
      (frame.take frame.length).drop (frame.length - 8)
    rw [List.take_length, hsplit, List.drop_take, List.take_append_drop]
  have hmic : mic.length = 8 := by
    show ((frame.take frame.length).drop (frame.length - 8)).length = 8
    rw [List.length_drop, List.length_take]
    omega
  unfold ccmpDecrypt
  rw [if_neg (by omega), (gives_slice (by omega)).bind_iff, (gives_slice (by omega)).bind_iff]
  rw [gives_ite, (gives_slice (by omega)).bind_iff, (gives_slice (by omega)).bind_iff,
    (gives_slice (by omega)).bind_iff]
  rw [List.drop_zero, haad.bind_iff]
  dsimp only
  rw [← ha2, ← frameNonce, hbody, append_eq_sealed key hnonce hmic]
  constructor
  · rintro ⟨hshort', hopen⟩
    have hout : ¬outLen < body.length := fun hlt => by
      cases (gives_pure).mp (hshort' hlt)
    have hgives := hopen hout
    split at hgives
    · cases (gives_pure).mp hgives
    · next htag =>
      have hp := (gives_pure).mp hgives
      rw [Option.some_inj] at hp
      refine ⟨?_, hp, ?_⟩
      · rw [← hp, length_ctrData key hnonce]
        exact Nat.not_lt.mp hout
      · rw [← hp]
        exact not_not.mp htag
  · rintro ⟨hout, hp, htag⟩
    have hlength : body.length = p.length := by
      rw [← hp, length_ctrData key hnonce]
    refine ⟨fun hlt => absurd hlt (Nat.not_lt.mpr (hlength.trans_le hout)), fun _ => ?_⟩
    rw [if_neg]
    · exact (gives_pure).mpr (congrArg some hp)
    · rw [← hp] at htag
      exact not_not.mpr htag

/-- A sealed frame opens to its plaintext, and a frame opens to a plaintext exactly if sealing the
plaintext gives its body and tag. -/
theorem ccmp_inverse (key : Fin 16 → UInt8) {hdr : List UInt8} (hhdr : 24 ≤ hdr.length) (pn : Nat)
    (msdu : List UInt8)
    {outLen plainLen : Nat} (hout : 8 + msdu.length + 8 ≤ outLen) (hplain : msdu.length ≤ plainLen) :
    (∃ c, (ccmpEncrypt (List.ofFn key) hdr pn msdu outLen).Gives (some c) ∧
      (ccmpDecrypt (List.ofFn key) hdr.length (hdr ++ c) plainLen).Gives (some msdu)) ∧
    ∀ (hdrLen : Nat) (frame p : List UInt8) (plainLen : Nat),
      (ccmpDecrypt (List.ofFn key) hdrLen frame plainLen).Gives (some p) ↔
      p.length ≤ plainLen ∧ ∃ c, (ccmpEncrypt (List.ofFn key) (frame.take hdrLen)
        (readPn ((frame.take (hdrLen + 8)).drop hdrLen)) p
        (8 + p.length + 8)).Gives (some c) ∧ frame.drop (hdrLen + 8) = c.drop 8 := by
  constructor
  · obtain ⟨aad, haad⟩ := ccmpAad_runs hhdr
    have htake : (hdr ++ (writeCcmpHdr pn ++ sealed (List.ofFn key)
      (frameNonce hdr pn) aad msdu)).take hdr.length = hdr := List.take_left
    have hpn : ((hdr ++ (writeCcmpHdr pn ++ sealed (List.ofFn key)
      (frameNonce hdr pn) aad msdu)).take (hdr.length + 8)).drop hdr.length =
        writeCcmpHdr pn := by
      rw [List.drop_take, List.drop_left, Nat.add_sub_cancel_left]
      rfl
    have hnonce := length_frameNonce hhdr pn
    have hsealed : (sealed (List.ofFn key) (frameNonce hdr pn) aad msdu).length = msdu.length + 8 := by
      rw [sealed, List.length_append, length_ctrData key hnonce,
        length_ctrMic key hnonce (length_ccmMic key hnonce aad msdu)]
    refine ⟨_, (ccmpEncrypt_gives hhdr haad hout).mpr rfl, ?_⟩
    refine (ccmpDecrypt_gives key hhdr ?_ (htake.symm ▸ haad)).mpr ⟨hplain, ?_⟩
    · rw [List.length_append, List.length_append, hsealed]
      show hdr.length + 16 ≤ hdr.length + (8 + (msdu.length + 8))
      omega
    · rw [htake, hpn, readPn_writeCcmpHdr]
      have hmod : frameNonce hdr (pn % 2 ^ 48) = frameNonce hdr pn := ccmpNonce_mod _ _ pn
      rw [hmod, ← List.drop_drop, List.drop_left]
      rfl
  · intro hdrLen frame p plainLen
    by_cases hlen : 24 ≤ hdrLen ∧ hdrLen + 16 ≤ frame.length
    · have hshort : 24 ≤ (frame.take hdrLen).length := by
        rw [List.length_take]
        omega
      obtain ⟨aad, haad⟩ := ccmpAad_runs hshort
      rw [ccmpDecrypt_gives key hlen.1 hlen.2 haad]
      refine and_congr_right fun _ => ?_
      constructor
      · intro hframe
        exact ⟨_, (ccmpEncrypt_gives hshort haad Nat.le.refl).mpr rfl, hframe⟩
      · rintro ⟨c, hc, hframe⟩
        rw [hframe, ← (ccmpEncrypt_gives hshort haad Nat.le.refl).mp hc]
        rfl
    · refine iff_of_false (fun h => ?_) ?_
      · rw [ccmpDecrypt, if_pos (by omega)] at h
        cases (gives_pure).mp h
      · rintro ⟨-, c, hc, hframe⟩
        by_cases hshort : 24 ≤ (frame.take hdrLen).length
        · obtain ⟨aad, haad⟩ := ccmpAad_runs hshort
          have hnonce := length_frameNonce hshort (readPn ((frame.take (hdrLen + 8)).drop hdrLen))
          rw [← (ccmpEncrypt_gives hshort haad Nat.le.refl).mp hc] at hframe
          have hlength := congrArg List.length hframe
          have hdrop : (writeCcmpHdr (readPn ((frame.take (hdrLen + 8)).drop hdrLen)) ++
            sealed (List.ofFn key) (frameNonce (frame.take hdrLen)
              (readPn ((frame.take (hdrLen + 8)).drop hdrLen))) aad p).drop 8 =
                sealed (List.ofFn key) (frameNonce (frame.take hdrLen)
              (readPn ((frame.take (hdrLen + 8)).drop hdrLen))) aad p := rfl
          rw [hdrop, List.length_drop, sealed, List.length_append,
            length_ctrMic key hnonce (length_ccmMic key hnonce aad p)] at hlength
          rw [List.length_take] at hshort
          omega
        · rw [ccmpEncrypt, if_pos (by omega)] at hc
          cases (gives_pure).mp hc

/-- Three bytes under a key of zeros. -/
theorem ccmp_inverse_three : (∃ c, (ccmpEncrypt (List.ofFn (n := 16) fun _ => 0)
    (List.replicate 24 0x08) 1 [1, 2, 3] 19).Gives (some c) ∧
    (ccmpDecrypt (List.ofFn (n := 16) fun _ => 0) 24 (List.replicate 24 0x08 ++ c) 3).Gives
      (some [1, 2, 3])) :=
  (ccmp_inverse (fun _ => 0) (show 24 ≤ (List.replicate 24 (0x08 : UInt8)).length by decide) 1 [1,
    2, 3] (by decide) (by decide)).1

end Lerux.Swift

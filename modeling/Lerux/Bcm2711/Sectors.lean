import Lerux.Bcm2711.Emmc2

/-!
# Where the sectors go

A successful call moves one sector between its buffer and the sector of the card that its argument
names, each word with its bytes turned round (`readSector_spec`, `writeSector_spec`). The argument
is the sector of the call with the card's address or-ed into its upper half.

`sectors_faithful` says that the card stays what it should be along every run whose calls meet a
condition on both, and that the next call keeps it so exactly if it meets the condition too.
-/

namespace Lerux.Bcm2711.Sdhci

open Lerux.Base

/-- The bytes of every word turned round. -/
def swapWords : List UInt8 → List UInt8
  | b0 :: b1 :: b2 :: b3 :: rest => b3 :: b2 :: b1 :: b0 :: swapWords rest
  | rest => rest

/-- Every word reads the same from both ends. -/
def Mirrored : List UInt8 → Prop
  | b0 :: b1 :: b2 :: b3 :: rest => b0 = b3 ∧ b1 = b2 ∧ Mirrored rest
  | _ => True

/-- The bits of a card's address are all set in the upper half of a sector number. -/
def Covered (rca : UInt16) (lba : UInt64) : Prop := ∀ i < 16, rca.toNat.testBit i = true →
    lba.toNat.testBit (i + 16) = true

/-- The card's address leaves the sector number as it is, and the bytes that are transferred are
their own reverse, word by word. -/
def Met (s : State) : Call → Prop
  | .readSector lba _ => Covered s.dev.rca lba ∧ Mirrored (s.disk lba.toNat).bytes
  | .writeSector lba buf _ => Covered s.dev.rca lba ∧ Mirrored buf.bytes

/-- The card holds what it should, every read returned it, and no call touched another sector than
its own. -/
structure Faithful (s : State) : Prop where
  sectors : ∀ sector : UInt32, s.host.sectors sector = s.disk sector.toNat
  reads : ∀ p ∈ s.reads, p.1 = p.2
  touched : s.host.touched.map UInt32.toNat = s.asked

/-! ### Words -/

theorem swapWords_eq (s : List UInt8) : swapWords s = s ↔ Mirrored s := by
  fun_induction swapWords s with
  | case1 b0 b1 b2 b3 rest ih =>
    simp only [List.cons.injEq, Mirrored, ih]
    constructor
    · rintro ⟨h3, h2, -, -, hrest⟩
      exact ⟨h3.symm, h2.symm, hrest⟩
    · rintro ⟨h0, h1, hrest⟩
      exact ⟨h0.symm, h1.symm, h1, h0, hrest⟩
  | case2 rest hrest =>
    refine iff_of_true rfl ?_
    unfold Mirrored
    split
    · next b0 b1 b2 b3 rest' => exact absurd rfl (hrest b0 b1 b2 b3 rest')
    · trivial

theorem length_swapWords (s : List UInt8) : (swapWords s).length = s.length := by
  fun_induction swapWords s with
  | case1 b0 b1 b2 b3 rest ih => simp [ih]
  | case2 rest hrest => rfl

/-- A list of bytes of which a word is left starts with four bytes. -/
theorem eq_word {count : Nat} {s : List UInt8} (h : s.length = 4 * (count + 1)) :
    ∃ b0 b1 b2 b3 rest, s = b0 :: b1 :: b2 :: b3 :: rest ∧ rest.length = 4 * count := by
  match s with
  | b0 :: b1 :: b2 :: b3 :: rest =>
    refine ⟨b0, b1, b2, b3, rest, rfl, ?_⟩
    simp only [List.length_cons] at h
    omega
  | [] => cases h
  | [_] => simp only [List.length_cons, List.length_nil] at h; omega
  | [_, _] => simp only [List.length_cons, List.length_nil] at h; omega
  | [_, _, _] => simp only [List.length_cons, List.length_nil] at h; omega

theorem leNat_word (b0 b1 b2 b3 : UInt8) :
    leNat [b0, b1, b2, b3] = b0.toNat + 256 * (b1.toNat + 256 * (b2.toNat + 256 * b3.toNat)) := rfl

/-- The bytes that the driver takes of a word of the port. -/
theorem bytes_word (b0 b1 b2 b3 : UInt8) (word : UInt32) (hword : word = .ofNat (leNat [b0, b1, b2, b3])) :
    [(word >>> 24).toUInt8, (word >>> 16).toUInt8, (word >>> 8).toUInt8, word.toUInt8] =
      [b3, b2, b1, b0] := by
  have hb0 := b0.toNat_lt
  have hb1 := b1.toNat_lt
  have hb2 := b2.toNat_lt
  have hb3 := b3.toNat_lt
  have hnat : word.toNat = leNat [b0, b1, b2, b3] := by
    rw [hword, UInt32.toNat_ofNat_of_lt' (by rw [leNat_word, UInt32.size]; omega)]
  rw [leNat_word] at hnat
  simp only [List.cons.injEq, ← UInt8.toNat_inj, UInt32.toNat_toUInt8, UInt32.toNat_shiftRight,
    Nat.shiftRight_eq_div_pow, and_true]
  refine ⟨?_, ?_, ?_, ?_⟩
  · show word.toNat / 2 ^ 24 % 256 = b3.toNat
    omega
  · show word.toNat / 2 ^ 16 % 256 = b2.toNat
    omega
  · show word.toNat / 2 ^ 8 % 256 = b1.toNat
    omega
  · omega

/-- The word that the driver makes of four bytes. -/
theorem word_bytes (b0 b1 b2 b3 : UInt8) :
    leBytes 4
      (b0.toUInt32 <<< 24 ||| b1.toUInt32 <<< 16 ||| b2.toUInt32 <<< 8 ||| b3.toUInt32).toNat =
      [b3, b2, b1, b0] := by
  have hb0 := b0.toNat_lt
  have hb1 := b1.toNat_lt
  have hb2 := b2.toNat_lt
  have hb3 := b3.toNat_lt
  have hnat :
    (b0.toUInt32 <<< 24 ||| b1.toUInt32 <<< 16 ||| b2.toUInt32 <<< 8 ||| b3.toUInt32).toNat =
    leNat [b3, b2, b1, b0] := by
    have hor : ∀ (a b n p : Nat), 2 ^ n = p → b < p → a <<< n ||| b = a * p + b := fun a b n p hp hb => by
      subst hp
      rw [← Nat.shiftLeft_add_eq_or_of_lt hb, Nat.shiftLeft_eq]
    have hshift : ∀ (b : UInt8) (n p : Nat), 2 ^ n = p → b.toNat * p < 4294967296 →
      b.toNat <<< n % 2 ^ 32 = b.toNat <<< n :=
      fun b n p hp hb => by
        subst hp
        rw [Nat.shiftLeft_eq]
        exact Nat.mod_eq_of_lt hb
    have hword : (b0.toUInt32 <<< 24 ||| b1.toUInt32 <<< 16 ||| b2.toUInt32 <<< 8 ||| b3.toUInt32).toNat =
        b0.toNat <<< 24 % 2 ^ 32 ||| b1.toNat <<< 16 % 2 ^ 32 ||| b2.toNat <<< 8 % 2 ^ 32 ||| b3.toNat := by
      simp only [UInt32.toNat_or, UInt32.toNat_shiftLeft, UInt8.toNat_toUInt32]
      rfl
    rw [hword, hshift b0 24 16777216 rfl (by omega), hshift b1 16 65536 rfl (by omega),
      hshift b2 8 256 rfl (by omega), Nat.or_assoc,
      Nat.or_assoc, hor b2.toNat b3.toNat 8 256 rfl (by omega), hor b1.toNat _ 16 65536 rfl (by omega),
      hor b0.toNat _ 24 16777216 rfl (by omega), leNat_word]
    omega
  rw [hnat]
  exact leBytes_leNat [b3, b2, b1, b0]

/-! ### Registers -/

section

variable {h : Host} {off : Nat} {R : Emmc2Error → Host → Prop}

def Host.later (h : Host) (n : Nat) : Host := { h with now := n }

theorem ends_poll {Q : UInt32 → Host → Prop} (hoff : off ≠ bufferData)
    (hQ : ∀ word n, Q word (h.later n)) : Ends (read32 off) h Q R := by
  rw [read32, if_neg hoff]
  exact hQ _ _

theorem ends_read16 {Q : UInt16 → Host → Prop} (hQ : ∀ half n, Q half (h.later n)) :
    Ends (read16 off) h Q R := hQ _ _

theorem ends_write16 {val : UInt16} {Q : Unit → Host → Prop} (hQ : Q () (h.write16 off val)) :
    Ends (write16 off val) h Q R := hQ

theorem ends_write32 {val : UInt32} {Q : Unit → Host → Prop} (hQ : Q () (h.write32 off val)) :
    Ends (write32 off val) h Q R := hQ

/-- Nothing was done but to read registers. -/
def Waits (h : Host) (_ : Unit) (h' : Host) : Prop := ∃ n, h' = h.later n

theorem waitReady_spec (mask : UInt32) (tries : Nat) (h : Host) :
    Ends (waitReady mask tries) h (Waits h) fun _ _ => True := by
  suffices hany : ∀ n, Ends (waitReady mask tries) (h.later n) (Waits h) fun _ _ => True from hany h.now
  induction tries with
  | zero => exact fun n => Ends.throw trivial
  | succ tries ih =>
    intro n
    refine Ends.bind (ends_poll (by decide) fun state n' => Ends.ite (fun _ => ?_) fun _ => ?_)
    · exact Ends.pure ⟨n', rfl⟩
    · exact ih n'

theorem waitInt_spec (mask : UInt16) (h : Host) : Ends (waitInt mask) h (Waits h) fun _ _ => True := by
  suffices hany : ∀ tries n, Ends (waitIntUp mask tries) (h.later n)
    (Waits h) fun _ _ => True from hany 1000000 h.now
  intro tries
  induction tries with
  | zero => exact fun n => Ends.throw trivial
  | succ tries ih =>
    intro n
    refine Ends.bind (ends_read16 fun status n' => Ends.ite (fun _ => ?_) fun _ => Ends.ite
      (fun _ => ?_) fun _ => ?_)
    · refine Ends.bind (ends_read16 fun err n'' => ?_)
      exact Ends.bind (ends_write16 (Ends.bind (ends_write16 (Ends.throw trivial))))
    · exact ends_write16 ⟨n', rfl⟩
    · exact ih n'

theorem command_later (h : Host) (cmd : UInt16) (n : Nat) : (h.later n).command cmd =
    (h.command cmd).later n := by
  unfold Host.command
  by_cases hread : cmd >>> 8 = 17 ∧ h.transfers cmd ∧ h.transferMode &&& transferRead ≠ 0
  · rw [if_pos hread]
    exact if_pos hread
  · rw [if_neg hread]
    refine (if_neg hread).trans ?_
    by_cases hwrite : cmd >>> 8 = 24 ∧ h.transfers cmd ∧ h.transferMode &&& transferRead = 0
    · rw [if_pos hwrite]
      exact if_pos hwrite
    · rw [if_neg hwrite]
      exact if_neg hwrite

/-- A command that was sent, with its argument and the transfer mode. -/
def Host.sent (h : Host) (arg : UInt32) (mode cmd : UInt16) : Host :=
  Host.command { h with argument := arg, transferMode := mode } cmd

theorem sendCmd_spec (cmdIndex : UInt8) (arg : UInt32) (flags mode : UInt16) (h : Host) :
    Ends (sendCmd cmdIndex arg flags mode) h
      (Waits (h.sent arg mode (cmdIndex.toUInt16 <<< 8 ||| flags ||| cmdCrcEn ||| cmdIndexEn)))
        fun _ _ => True := by
  refine Ends.seq (waitReady_spec cmdInhibitCmd 500000 h) ?_ fun _ _ _ => trivial
  rintro - h' ⟨n, rfl⟩
  have hsend : ∀ n, Ends (do
      write16 normalIntStatus 0xffff
      write16 errorIntStatus 0xffff
      write32 argument arg
      write16 transferMode mode
      write16 command (cmdIndex.toUInt16 <<< 8 ||| flags ||| cmdCrcEn ||| cmdIndexEn)
      waitInt intCmdComplete) (h.later n)
      (Waits (h.sent arg mode (cmdIndex.toUInt16 <<< 8 ||| flags ||| cmdCrcEn ||| cmdIndexEn)))
        fun _ _ => True := by
    intro n
    refine Ends.bind (ends_write16 (Ends.bind
      (ends_write16 (Ends.bind (ends_write32 (Ends.bind (ends_write16 ?_)))))))
    refine Ends.bind (ends_write16 ?_)
    have hsent : (((((h.later n).write16 normalIntStatus 0xffff).write16 errorIntStatus
      0xffff).write32 argument arg).write16
        transferMode mode).write16 command (cmdIndex.toUInt16 <<< 8 ||| flags ||| cmdCrcEn ||| cmdIndexEn) =
        (h.sent arg mode (cmdIndex.toUInt16 <<< 8 ||| flags ||| cmdCrcEn ||| cmdIndexEn)).later n :=
      command_later { h with argument := arg, transferMode := mode } _ n
    rw [hsent]
    refine (waitInt_spec intCmdComplete _).mono ?_ fun _ _ _ => trivial
    rintro - h' ⟨n', rfl⟩
    exact ⟨n', rfl⟩
  refine Ends.ite (fun _ => ?_) fun _ => ?_
  · refine Ends.seq (waitReady_spec cmdInhibitDat 500000 _) ?_ fun _ _ _ => trivial
    rintro - h' ⟨n', rfl⟩
    exact hsend n'
  · exact hsend n

end

/-! ### Transfers -/

theorem readWords_spec (count : Nat) (h : Host) (hport : h.port.length = 4 * count) :
    Ends (readWords count) h (fun buf h' => buf = swapWords h.port ∧ h' = { h with port := [] })
      fun _ _ => True := by
  induction count generalizing h with
  | zero =>
    have hnil : h.port = [] := List.length_eq_zero_iff.mp hport
    refine Ends.pure ⟨?_, ?_⟩
    · rw [hnil]
      rfl
    · rw [← hnil]
  | succ count ih =>
    obtain ⟨b0, b1, b2, b3, rest, hs, hrest⟩ := eq_word hport
    have hdrop : h.port.drop 4 = rest := by
      rw [hs]
      rfl
    have htake : UInt32.ofNat (leNat (h.port.take 4)) = .ofNat (leNat [b0, b1, b2, b3]) := by
      rw [hs]
      rfl
    refine Ends.bind ?_
    rw [read32, if_pos rfl]
    refine Ends.seq (ih { h with port := h.port.drop 4 } (hdrop ▸ hrest)) ?_ fun _ _ _ => trivial
    rintro buf h' ⟨hbuf, rfl⟩
    refine Ends.pure ⟨?_, rfl⟩
    rw [hbuf]
    show [_, _, _, _] ++ swapWords (h.port.drop 4) = _
    rw [bytes_word b0 b1 b2 b3 _ htake, hdrop, hs]
    rfl

theorem putWord_part {h : Host} {sector : UInt32} (htarget : h.target = some sector) {word : UInt32}
    (hport : h.port.length + 4 < sectorSize) :
    h.putWord word = { h with port := h.port ++ leBytes 4 word.toNat } := by
  unfold Host.putWord
  rw [htarget]
  dsimp only
  rw [dif_neg (by rw [List.length_append, length_leBytes]; omega)]

theorem putWord_last {h : Host} {sector : UInt32} (htarget : h.target = some sector) {word : UInt32}
    (buf : Sector)
    (hbuf : buf.bytes = h.port ++ leBytes 4 word.toNat) :
    h.putWord word = { h with sectors := Function.update h.sectors sector buf, port := [], target := none } := by
  obtain ⟨bytes, hlength⟩ := buf
  subst hbuf
  unfold Host.putWord
  rw [htarget]
  exact dif_pos hlength

/-- The words of the rest of a sector. -/
theorem writeWords_spec (count : Nat) (h : Host) {sector : UInt32}
    (htarget : h.target = some sector) (s : List UInt8)
    (hs : s.length = 4 * (count + 1)) (buf : Sector) (hbuf : buf.bytes = h.port ++ swapWords s) :
    Ends (writeWords s) h
      (fun _ h' => h' = { h with sectors := Function.update h.sectors sector buf, port := [], target := none }) fun _ _ => True := by
  induction count generalizing h s with
  | zero =>
    obtain ⟨b0, b1, b2, b3, rest, rfl, hrest⟩ := eq_word hs
    obtain rfl := List.length_eq_zero_iff.mp hrest
    refine Ends.bind (ends_write32 (Ends.pure ?_))
    refine putWord_last htarget buf ?_
    rw [word_bytes]
    exact hbuf
  | succ count ih =>
    obtain ⟨b0, b1, b2, b3, rest, rfl, hrest⟩ := eq_word hs
    have hlength := congrArg List.length hbuf
    rw [buf.length, List.length_append, length_swapWords] at hlength
    have hpart : ∀ word : UInt32, h.write32 bufferData word =
      { h with port := h.port ++ leBytes 4 word.toNat } := fun word =>
      putWord_part htarget (by omega)
    refine Ends.bind (ends_write32 ?_)
    rw [hpart, word_bytes]
    refine ih { h with port := h.port ++ [b3, b2, b1, b0] } htarget rest hrest ?_
    rw [hbuf, List.append_assoc]
    rfl

def Host.prepared (h : Host) : Host := { h with blockSize := 512 ||| 0x7000, blockCount := 1 }

/-- The commands of the two transfers. -/
def readCmd : UInt16 := (17 : UInt8).toUInt16 <<< 8 |||
    (resp48 ||| cmdDataPresent) ||| cmdCrcEn ||| cmdIndexEn

def writeCmd : UInt16 := (24 : UInt8).toUInt16 <<< 8 |||
    (resp48 ||| cmdDataPresent) ||| cmdCrcEn ||| cmdIndexEn

theorem sent_read (h : Host) (arg : UInt32) :
    h.prepared.sent arg (transferRead ||| transferSingle) readCmd =
    { h.prepared with
      argument := arg
      transferMode := transferRead ||| transferSingle
      port := (h.sectors arg).bytes
      target := none
      touched := h.touched ++ [arg] } := by
  have hcmd : readCmd >>> 8 = 17 ∧ readCmd &&& cmdDataPresent ≠ 0 := by decide
  have hsize : (512 ||| 0x7000 : UInt16) &&& 0x0fff = 512 := by decide
  have hmode : (transferRead ||| transferSingle) &&& transferRead ≠ 0 := by decide
  exact if_pos ⟨hcmd.1, ⟨hcmd.2, hsize, rfl⟩, hmode⟩

theorem sent_write (h : Host) (arg : UInt32) : h.prepared.sent arg transferSingle writeCmd =
    { h.prepared with
      argument := arg
      transferMode := transferSingle
      port := []
      target := some arg
      touched := h.touched ++ [arg] } := by
  have hcmd : writeCmd >>> 8 = 24 ∧ writeCmd &&& cmdDataPresent ≠ 0 := by decide
  have hsize : (512 ||| 0x7000 : UInt16) &&& 0x0fff = 512 := by decide
  have hmode : transferSingle &&& transferRead = 0 := by decide
  have hother : ¬(writeCmd >>> 8 = 17) := by decide
  unfold Host.sent Host.command
  rw [if_neg (fun hread => hother hread.1)]
  exact if_pos ⟨hcmd.1, ⟨hcmd.2, hsize, rfl⟩, hmode⟩

theorem readSector_spec (e : Emmc2) (lba : UInt64) (h : Host) :
    Ends (readSector e lba) h (fun buf h' => buf = swapWords (h.sectors (e.arg lba)).bytes ∧
      h'.sectors = h.sectors ∧
      h'.touched = h.touched ++ [e.arg lba]) fun _ _ => True := by
  have hlength : (h.sectors (e.arg lba)).bytes.length = 4 * (sectorSize / 4) :=
    (h.sectors (e.arg lba)).length
  unfold readSector
  -- Lean would run the loop to see the shape of the goal.
  generalize sectorSize / 4 = count at hlength ⊢
  refine Ends.ite (fun _ => Ends.bind (Ends.throw trivial)) fun _ => ?_
  refine Ends.bind (ends_write16 (Ends.bind (ends_write16 ?_)))
  have hsend : Ends (sendCmd 17 (e.arg lba) (resp48 ||| cmdDataPresent)
    (transferRead ||| transferSingle)) h.prepared
      (Waits (h.prepared.sent (e.arg lba) (transferRead ||| transferSingle) readCmd)) fun _ _ =>
        True := sendCmd_spec _ _ _ _ _
  rw [sent_read] at hsend
  refine Ends.seq hsend ?_ fun _ _ _ => trivial
  rintro - h' ⟨n, rfl⟩
  refine Ends.seq (waitInt_spec (intBufferReadReady ||| intTransferComplete) _) ?_ fun _ _ _ => trivial
  rintro - h' ⟨n', rfl⟩
  refine (readWords_spec count _ hlength).mono ?_ fun _ _ _ => trivial
  rintro buf h' ⟨hbuf, rfl⟩
  exact ⟨hbuf, rfl, rfl⟩

theorem writeSector_spec (e : Emmc2) (lba : UInt64) (buf : Sector) (h : Host) :
    Ends (writeSector e lba buf) h (fun _ h' => (∃ written : Sector, written.bytes = swapWords buf.bytes ∧
      h'.sectors = Function.update h.sectors (e.arg lba) written) ∧
        h'.touched = h.touched ++ [e.arg lba]) fun _ _ => True := by
  unfold writeSector
  refine Ends.ite (fun _ => Ends.bind (Ends.throw trivial)) fun _ => ?_
  refine Ends.bind (ends_write16 (Ends.bind (ends_write16 ?_)))
  have hsend : Ends (sendCmd 24 (e.arg lba) (resp48 ||| cmdDataPresent) transferSingle) h.prepared
      (Waits (h.prepared.sent (e.arg lba) transferSingle writeCmd)) fun _ _ => True :=
        sendCmd_spec _ _ _ _ _
  rw [sent_write] at hsend
  refine Ends.seq hsend ?_ fun _ _ _ => trivial
  rintro - h' ⟨n, rfl⟩
  refine Ends.seq (waitInt_spec intBufferWriteReady _) ?_ fun _ _ _ => trivial
  rintro - h' ⟨n', rfl⟩
  have hlength : (swapWords buf.bytes).length = sectorSize := (length_swapWords _).trans buf.length
  refine Ends.seq (writeWords_spec 127 _ rfl buf.bytes buf.length ⟨swapWords buf.bytes,
    hlength⟩ rfl) ?_ fun _ _ _ => trivial
  rintro - h' rfl
  refine (waitInt_spec intTransferComplete _).mono ?_ fun _ _ _ => trivial
  rintro - h' ⟨n'', rfl⟩
  exact ⟨⟨_, rfl, rfl⟩, rfl⟩

/-! ### Runs -/

theorem testBit_arg (e : Emmc2) (lba : UInt64) (i : Nat) (hi : i < 32) :
    (e.arg lba).toNat.testBit i = (decide (16 ≤ i) && e.rca.toNat.testBit
      (i - 16) || lba.toNat.testBit i) := by
  have hnat : (e.arg lba).toNat = e.rca.toNat <<< 16 % 2 ^ 32 ||| lba.toNat % 2 ^ 32 := by
    simp only [Emmc2.arg, UInt32.toNat_or, UInt32.toNat_shiftLeft, UInt16.toNat_toUInt32,
      UInt64.toNat_toUInt32]
    rfl
  rw [hnat, Nat.testBit_or, Nat.testBit_mod_two_pow, Nat.testBit_mod_two_pow, Nat.testBit_shiftLeft,
    decide_eq_true hi, Bool.true_and,
    Bool.true_and]

/-- The argument names the sector of the call exactly if the card's address is covered by it. -/
theorem arg_eq {e : Emmc2} {lba : UInt64} (hlba : lba.toNat < 2 ^ 32) :
    (e.arg lba).toNat = lba.toNat ↔ Covered e.rca lba := by
  constructor
  · intro harg i hi hbit
    have hbits := testBit_arg e lba (i + 16) (by omega)
    rw [harg, Nat.add_sub_cancel, hbit, decide_eq_true (Nat.le_add_left 16 i)] at hbits
    exact hbits
  · intro hcovered
    apply Nat.eq_of_testBit_eq
    intro i
    by_cases hi : i < 32
    · rw [testBit_arg e lba i hi]
      by_cases hupper : 16 ≤ i ∧ e.rca.toNat.testBit (i - 16) = true
      · have hbit := hcovered (i - 16) (by omega) hupper.2
        rw [Nat.sub_add_cancel hupper.1] at hbit
        rw [hbit, Bool.or_true]
      · have hzero : (decide (16 ≤ i) && e.rca.toNat.testBit (i - 16)) = false := by
          rw [Bool.and_eq_false_iff]
          by_cases h16 : 16 ≤ i
          · exact .inr (Bool.not_eq_true _ ▸ fun hbit => hupper ⟨h16, hbit⟩)
          · exact .inl (decide_eq_false h16)
        rw [hzero, Bool.false_or]
    · have hpow : 2 ^ 32 ≤ 2 ^ i := Nat.pow_le_pow_right (by decide) (by omega)
      rw [Nat.testBit_lt_two_pow (Nat.lt_of_lt_of_le (e.arg lba).toNat_lt hpow),
        Nat.testBit_lt_two_pow (Nat.lt_of_lt_of_le hlba hpow)]

variable {s s' : State}

theorem Sector.ext_bytes {a b : Sector} (h : a.bytes = b.bytes) : a = b := by
  cases a
  cases b
  cases h
  rfl

/-- What a read returns, and what a write leaves. -/
theorem step_read {lba : UInt64} {polls : Nat → UInt32} (h : step s (.readSector lba polls) =
    some s') : lba < s.dev.numBlocks ∧
    s'.host.sectors = s.host.sectors ∧ s'.host.touched = s.host.touched ++ [s.dev.arg lba] ∧
      s'.disk = s.disk ∧ s'.dev = s.dev ∧
      s'.asked = s.asked ++ [lba.toNat] ∧
      s'.reads = s.reads ++ [(swapWords (s.host.sectors (s.dev.arg lba)).bytes,
        (s.disk lba.toNat).bytes)] := by
  rw [step] at h
  split at h
  · next hlba =>
    have hspec := readSector_spec s.dev lba { s.host with polls, now := 0 }
    unfold Ends at hspec
    split at h
    · next buf host hread =>
      rw [hread] at hspec
      obtain ⟨rfl, hsectors, htouched⟩ := hspec
      cases h
      exact ⟨hlba, hsectors, htouched, rfl, rfl, rfl, rfl⟩
    · cases h
  · cases h

theorem step_write {lba : UInt64} {buf : Sector} {polls : Nat → UInt32}
    (h : step s (.writeSector lba buf polls) = some s') :
    lba < s.dev.numBlocks ∧
    (∃ written : Sector, written.bytes = swapWords buf.bytes ∧
      s'.host.sectors = Function.update s.host.sectors (s.dev.arg lba) written) ∧
    s'.host.touched = s.host.touched ++ [s.dev.arg lba] ∧
      s'.disk = Function.update s.disk lba.toNat buf ∧ s'.dev = s.dev ∧
      s'.asked = s.asked ++ [lba.toNat] ∧ s'.reads = s.reads := by
  rw [step] at h
  split at h
  · next hlba =>
    have hspec := writeSector_spec s.dev lba buf { s.host with polls, now := 0 }
    unfold Ends at hspec
    split at h
    · next host hwrite =>
      rw [hwrite] at hspec
      cases h
      exact ⟨hlba, hspec.1, hspec.2, rfl, rfl, rfl, rfl⟩
    · cases h
  · cases h

theorem faithful_step {call : Call} (hblocks : s.dev.numBlocks.toNat ≤ 2 ^ 32) (h : Faithful s)
    (hstep : step s call = some s') :
    Faithful s' ↔ Met s call := by
  cases call with
  | readSector lba polls =>
    obtain ⟨hlba, hsectors, htouched, hdisk, -, hasked, hreads⟩ := step_read hstep
    have hlt : lba.toNat < 2 ^ 32 := Nat.lt_of_lt_of_le hlba hblocks
    have hnext : (s'.host.touched.map UInt32.toNat = s'.asked) ↔ Covered s.dev.rca lba := by
      rw [← arg_eq hlt, htouched, hasked, List.map_append, h.touched, List.append_cancel_left_eq]
      simp
    have hbuf : Covered s.dev.rca lba → (s.host.sectors (s.dev.arg lba)).bytes =
      (s.disk lba.toNat).bytes := fun hcovered => by
      rw [h.sectors, (arg_eq hlt).mpr hcovered]
    constructor
    · intro h'
      have hcovered := hnext.mp h'.touched
      refine ⟨hcovered, (swapWords_eq _).mp ?_⟩
      have hread := h'.reads _ (hreads ▸ List.mem_append_right _ (List.mem_singleton_self _))
      rw [hbuf hcovered] at hread
      exact hread
    · rintro ⟨hcovered, hmirrored⟩
      refine ⟨fun sector => ?_, fun p hp => ?_, hnext.mpr hcovered⟩
      · rw [hsectors, hdisk, h.sectors]
      · rw [hreads, List.mem_append, List.mem_singleton] at hp
        cases hp with
        | inl hp => exact h.reads p hp
        | inr hp =>
          subst hp
          rw [hbuf hcovered]
          exact (swapWords_eq _).mpr hmirrored
  | writeSector lba buf polls =>
    obtain ⟨hlba, ⟨written, hwritten, hsectors⟩, htouched, hdisk, -, hasked, hreads⟩ := step_write hstep
    have hlt : lba.toNat < 2 ^ 32 := Nat.lt_of_lt_of_le hlba hblocks
    have hnext : (s'.host.touched.map UInt32.toNat = s'.asked) ↔ Covered s.dev.rca lba := by
      rw [← arg_eq hlt, htouched, hasked, List.map_append, h.touched, List.append_cancel_left_eq]
      simp
    constructor
    · intro h'
      have hcovered := hnext.mp h'.touched
      refine ⟨hcovered, (swapWords_eq _).mp ?_⟩
      have hsector := h'.sectors (s.dev.arg lba)
      rw [hsectors, hdisk, Function.update_self, (arg_eq hlt).mpr hcovered, Function.update_self] at hsector
      rw [← hwritten, hsector]
    · rintro ⟨hcovered, hmirrored⟩
      have hsame : written = buf := Sector.ext_bytes (hwritten.trans ((swapWords_eq _).mpr hmirrored))
      refine ⟨fun sector => ?_, fun p hp => h.reads p (hreads ▸ hp), hnext.mpr hcovered⟩
      rw [hsectors, hdisk]
      by_cases hsector : sector = s.dev.arg lba
      · rw [hsector, Function.update_self, (arg_eq hlt).mpr hcovered, Function.update_self, hsame]
      · rw [Function.update_of_ne hsector, h.sectors, Function.update_of_ne]
        rw [← (arg_eq hlt).mpr hcovered]
        exact fun heq => hsector (UInt32.toNat_inj.mp heq)

theorem dev_step {call : Call} (hstep : step s call = some s') : s'.dev = s.dev := by
  cases call with
  | readSector lba polls =>
    obtain ⟨-, -, -, -, hdev, -⟩ := step_read hstep
    exact hdev
  | writeSector lba buf polls =>
    obtain ⟨-, -, -, -, hdev, -⟩ := step_write hstep
    exact hdev

theorem faithful_start (rca : UInt16) (numBlocks : UInt64) (host : Host) :
    Faithful (start rca numBlocks host) where
  sectors sector := congrArg host.sectors UInt32.ofNat_toNat.symm
  reads p hp := by cases hp
  touched := rfl

/-- Along every run of successful calls that meet the condition, and for the next call exactly if it
meets it too. -/
theorem sectors_faithful {rca : UInt16} {numBlocks : UInt64} {host : Host}
    (hblocks : numBlocks.toNat < 2 ^ 32)
    (h : Steps step Met (start rca numBlocks host) s) :
    Faithful s ∧ ∀ call s', step s call = some s' → (Faithful s' ↔ Met s call) := by
  obtain ⟨hfaithful, hdev⟩ : Faithful s ∧ s.dev = ⟨rca, numBlocks, true⟩ :=
    h.keeps (I := fun s => Faithful s ∧ s.dev = ⟨rca, numBlocks, true⟩)
      (fun {s _ _} hinv hmet hstep => ⟨(faithful_step
        (by rw [hinv.2]; exact Nat.le_of_lt hblocks) hinv.1 hstep).mpr hmet,
        (dev_step hstep).trans hinv.2⟩)
      ⟨faithful_start rca numBlocks host, rfl⟩
  exact ⟨hfaithful, fun call s' hstep => faithful_step
    (by rw [hdev]; exact Nat.le_of_lt hblocks) hfaithful hstep⟩

/-- A sector of one byte. -/
def Sector.all (b : UInt8) : Sector := ⟨List.replicate sectorSize b, List.length_replicate⟩

/-- A sector that starts with 1 and is zero behind it. -/
def Sector.one : Sector := ⟨1 :: List.replicate 511 0, by rw [List.length_cons, List.length_replicate]; rfl⟩

/-- The card is ready at once and then says that all is done. -/
def ready (n : Nat) : UInt32 := if n < 2 then 0 else 0x33

def zeroHost : Host := ⟨fun _ => 0, 0, 0, 0, 0, 0, fun _ => .all 0, [], none, []⟩

/-- A sector of one byte is written where the card's address does no harm, and read again behind a
write to its neighbour. -/
theorem sectors_faithful_write : ∃ s, Steps step Met (start 1 0x20000 zeroHost) s ∧
    s.host.touched = [0x10000, 0x10001, 0x10000] ∧ Faithful s := by
  have hrun : ([Call.writeSector 0x10000 (.all 0x2a) ready, .writeSector 0x10001 (.all 0x17) ready,
      .readSector 0x10000 ready].foldlM step (start 1 0x20000 zeroHost)).map (·.host.touched) =
    some [0x10000, 0x10001, 0x10000] := by
    decide +kernel
  obtain ⟨s, hs, htouched⟩ := Option.map_eq_some_iff.mp hrun
  simp only [List.foldlM_cons, List.foldlM_nil, Option.bind_eq_bind, Option.bind_eq_some_iff] at hs
  obtain ⟨s₁, hfirst, s₂, hsecond, s', hread, hs⟩ := hs
  cases hs
  have hall : ∀ i < 16, (1 : UInt16).toNat.testBit i = true →
    (0x10000 : UInt64).toNat.testBit (i + 16) = true ∧
      (0x10001 : UInt64).toNat.testBit (i + 16) = true := by decide
  have hcovered₁ : Covered 1 0x10000 := fun i hi hbit => (hall i hi hbit).1
  have hcovered₂ : Covered 1 0x10001 := fun i hi hbit => (hall i hi hbit).2
  have hmirrored : ∀ b ∈ [(0x2a : UInt8), 0x17], Mirrored (Sector.all b).bytes := fun b hb =>
    (swapWords_eq _).mp (by revert b; decide +kernel)
  have hdev₁ : s₁.dev.rca = 1 := congrArg _ (dev_step hfirst)
  have hdev₂ : s₂.dev.rca = 1 := (congrArg _ (dev_step hsecond)).trans hdev₁
  -- the neighbour's sector is another one
  have hdisk : s₂.disk 0x10000 = .all 0x2a := by
    obtain ⟨-, -, -, hdisk₁, -⟩ := step_write hfirst
    obtain ⟨-, -, -, hdisk₂, -⟩ := step_write hsecond
    rw [hdisk₂, Function.update_of_ne (by decide), hdisk₁]
    exact Function.update_self ..
  have hmet₂ : Met s₁ (.writeSector 0x10001 (.all 0x17) ready) :=
    ⟨hdev₁ ▸ hcovered₂, hmirrored _ (by decide)⟩
  have hmet₃ : Met s₂ (.readSector 0x10000 ready) :=
    ⟨hdev₂ ▸ hcovered₁, by
      show Mirrored (s₂.disk 0x10000).bytes
      rw [hdisk]
      exact hmirrored _ (by decide)⟩
  have hmet₁ : Met (start 1 0x20000 zeroHost) (.writeSector 0x10000 (.all 0x2a) ready) :=
    ⟨hcovered₁, hmirrored _ (by decide)⟩
  have hsteps₁ : Steps step Met (start 1 0x20000 zeroHost) s₁ := Steps.start.next hmet₁ hfirst
  have hsteps₂ : Steps step Met (start 1 0x20000 zeroHost) s₂ := hsteps₁.next hmet₂ hsecond
  have hsteps : Steps step Met (start 1 0x20000 zeroHost) s := hsteps₂.next hmet₃ hread
  exact ⟨s, hsteps, htouched, (sectors_faithful (by decide) hsteps).1⟩

/-- A read of sector 0 takes another sector, and a write of another sector leaves its bytes turned round. -/
theorem sectors_confused : (∃ s, Steps step (fun _ _ => True) (start 1 2 zeroHost) s ∧
    s.asked = [0] ∧ ¬Faithful s) ∧
    ∃ s, Steps step (fun _ _ => True) (start 1 0x20000 zeroHost) s ∧ s.asked = [0x10000] ∧ ¬Faithful s := by
  constructor
  · have hrun : (step (start 1 2 zeroHost) (.readSector 0 ready)).map
      (fun s => (s.asked, s.host.touched)) = some ([0], [0x10000]) := by
      decide +kernel
    obtain ⟨s, hs, hstate⟩ := Option.map_eq_some_iff.mp hrun
    rw [Prod.mk.injEq] at hstate
    refine ⟨s, Steps.start.next trivial hs, hstate.1, fun h => ?_⟩
    have htouched := h.touched
    rw [hstate.1, hstate.2] at htouched
    exact absurd htouched (by decide)
  · have hrun : (step (start 1 0x20000 zeroHost) (.writeSector 0x10000 .one ready)).map
        (fun s => (s.asked, (s.host.sectors 0x10000).bytes.head?, (s.disk 0x10000).bytes.head?)) =
          some ([0x10000], some 0, some 1) := by
      decide +kernel
    obtain ⟨s, hs, hstate⟩ := Option.map_eq_some_iff.mp hrun
    rw [Prod.mk.injEq, Prod.mk.injEq] at hstate
    refine ⟨s, Steps.start.next trivial hs, hstate.1, fun h => ?_⟩
    have hsector := congrArg (fun sector => sector.bytes.head?) (h.sectors 0x10000)
    have hnat : (0x10000 : UInt32).toNat = 0x10000 := rfl
    rw [hnat, hstate.2.1, hstate.2.2] at hsector
    exact absurd hsector (by decide)

end Lerux.Bcm2711.Sdhci

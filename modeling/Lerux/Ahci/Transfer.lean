import Lerux.Ahci.Driver
import Mathlib.Tactic

/-!
# What a block request moves

The disk reads of a command table what it was built from (`command_built`), so that a chunk is one
command that fits (`moveChunk_spec`), and the chunks of a request are consecutive. A request that
the driver accepts moves its blocks, and one that it refuses changes nothing (`finish_moves`).
-/

namespace Lerux.Ahci

open Lerux.Base
open Lerux.RecordQueues (BlkReqCode)

/-! ### Commands as they are read -/

section commands

theorem byteOf_eq (n shift : Nat) : byteOf n shift = .ofNat (n / 2 ^ shift) := by
  have hmask : n >>> shift &&& 0xff = n / 2 ^ shift % 256 := by
    rw [Nat.shiftRight_eq_div_pow]
    exact Nat.and_two_pow_sub_one_eq_mod _ 8
  apply UInt8.toNat_inj.mp
  rw [byteOf, hmask, UInt8.toNat_ofNat', UInt8.toNat_ofNat']
  exact Nat.mod_mod _ _

theorem leBytes_address (n : Nat) : leBytes 6 n = [byteOf n 0, byteOf n 8, byteOf n 16, byteOf n 24,
    byteOf n 32, byteOf n 40] := by
  simp only [byteOf_eq, leBytes, Nat.div_div_eq_div_mul]
  norm_num

theorem leBytes_count (n : Nat) : leBytes 2 n = [byteOf n 0, .ofNat (n >>> 8)] := by
  rw [byteOf_eq, Nat.shiftRight_eq_div_pow]
  simp [leBytes]

section table

variable (lba sectors : Nat) (command : UInt8) (dba dbc : Nat)

theorem length_frame : (frameBytes lba sectors command).length = tableSize := by
  simp [frameBytes]

/-- The region table stands behind the frame. -/
theorem table_getD {i : Nat} (h : i < 0x80) : (tableBytes lba sectors command dba dbc).getD i 0 =
    (frameBytes lba sectors command).getD i 0 := by
  have hframe := length_frame lba sectors command
  have hfirst : (copyFrom (frameBytes lba sectors command) 0x80 (leBytes 4 dba)).length = tableSize := by
    rw [length_copyFrom (by rw [hframe, length_leBytes]; decide), hframe]
  have hsecond : (copyFrom (copyFrom (frameBytes lba sectors command) 0x80 (leBytes 4 dba)) 0x84
    (leBytes 4 0)).length = tableSize := by
    rw [length_copyFrom (by rw [hfirst, length_leBytes]; decide), hfirst]
  unfold tableBytes
  dsimp only
  rw [getD_copyFrom (by omega) (by rw [hsecond]; decide), getD_copyFrom (by omega) (by rw [hfirst]; decide),
    getD_copyFrom h (by rw [hframe]; decide)]

/-- The frame stands at the front of the table. -/
theorem frame_eq : frameBytes lba sectors command =
    fisRegH2d :: 0x80 :: command :: 0 :: byteOf lba 0 :: byteOf lba 8 :: byteOf lba 16 :: 0x40 ::
      byteOf lba 24 :: byteOf lba 32 ::
      byteOf lba 40 :: 0 :: byteOf sectors 0 :: UInt8.ofNat (sectors >>> 8) ::
        List.replicate (tableSize - 14) 0 := by
  unfold frameBytes
  rw [show List.replicate tableSize (0 : UInt8) = List.replicate 14 0 ++
    List.replicate (tableSize - 14) 0 from
    List.replicate_append_replicate.symm]
  generalize List.replicate (tableSize - 14) (0 : UInt8) = rest
  rfl

theorem frame_kind : (frameBytes lba sectors command).getD 0 0 = fisRegH2d ∧
    (frameBytes lba sectors command).getD 1 0 = 0x80 ∧
    (frameBytes lba sectors command).getD 7 0 = 0x40 ∧
      (frameBytes lba sectors command).getD 2 0 = command := by
  rw [frame_eq]
  exact ⟨rfl, rfl, rfl, rfl⟩

/-- The sectors are spread over six bytes. -/
theorem frame_lba (h : lba < 2 ^ 48) : leNat [(frameBytes lba sectors command).getD 4 0,
    (frameBytes lba sectors command).getD 5 0,
    (frameBytes lba sectors command).getD 6 0, (frameBytes lba sectors command).getD 8 0,
      (frameBytes lba sectors command).getD 9 0,
    (frameBytes lba sectors command).getD 10 0] = lba := by
  have hread := @leNat_leBytes 6 lba (by omega)
  rw [leBytes_address] at hread
  rw [frame_eq]
  exact hread

theorem frame_sectors (h : sectors < 65536) :
    leNat [(frameBytes lba sectors command).getD 12 0, (frameBytes lba sectors command).getD 13 0] =
      sectors := by
  have hread := @leNat_leBytes 2 sectors (by omega)
  rw [leBytes_count] at hread
  rw [frame_eq]
  exact hread

theorem table_length (h : dbc < 4294967296) :
    leNat (((tableBytes lba sectors command dba dbc).drop 0x8c).take 4) = dbc := by
  have hread : ((tableBytes lba sectors command dba dbc).drop 0x8c).take 4 = leBytes 4 dbc := by
    unfold tableBytes
    exact @take_drop_copyFrom _ 0x8c (leBytes 4 dbc) (by simp [copyFrom, length_frame, tableSize])
  rw [hread, leNat_leBytes (by omega)]

theorem table_region : ((tableBytes lba sectors command dba dbc).drop 0x80).take 8 =
    leBytes 4 dba ++ leBytes 4 0 := by
  have hlength := length_frame lba sectors command
  unfold tableBytes
  dsimp only
  generalize frameBytes lba sectors command = front at hlength
  have hjoin : copyFrom (copyFrom front 0x80 (leBytes 4 dba)) 0x84 (leBytes 4 0) =
    copyFrom front 0x80 (leBytes 4 dba ++ leBytes 4 0) :=
    copyFrom_copyFrom rfl (by rw [hlength, length_leBytes]; decide)
  rw [hjoin]
  have htwo : (copyFrom front 0x80 (leBytes 4 dba ++ leBytes 4 0)).length = tableSize := by
    rw [length_copyFrom
      (by rw [hlength, List.length_append, length_leBytes, length_leBytes]; decide), hlength]
  rw [take_drop_copyFrom_apart (by rw [htwo, length_leBytes]; decide) (Or.inl (by decide))]
  exact @take_drop_copyFrom front 0x80 (leBytes 4 dba ++ leBytes 4 0) (by rw [hlength]; decide)

end table

variable {write : Bool} {lba sectors byteCount : Nat} {command : UInt8} {window : Window}

theorem header_read (write : Bool) : leNat ((headerBytes write (dmaPaddr + cmdTblOff)).take 4) =
    (if write then 65605 else 65541) ∧
    leNat (((headerBytes write (dmaPaddr + cmdTblOff)).drop 8).take 8) = dmaPaddr + cmdTblOff := by
  cases write with
  | false => decide
  | true => decide

/-- The disk reads what the command was built from. -/
theorem command_built (hlba : lba < 2 ^ 48) (hsectors : 0 < sectors) (hsectors' : sectors < 65536)
    (hbytes : 0 < byteCount)
    (hbytes' : byteCount ≤ 4194304) (hcommand : command = if write then ataCmdWriteDmaExt
      else ataCmdReadDmaExt)
    (hslot : window.slot = headerBytes write (dmaPaddr + cmdTblOff))
    (htable : window.table = tableBytes lba sectors command (dmaPaddr + bounceOff) (byteCount - 1)) :
    window.command = some ⟨write, lba, sectors, byteCount, dmaPaddr + bounceOff⟩ := by
  obtain ⟨hflags, haddress⟩ := header_read write
  obtain ⟨hkind, hdevice, hlinear, hcommandByte⟩ := frame_kind lba sectors command
  have hregion : leNat ((window.table.drop 0x80).take 8) = dmaPaddr + bounceOff := by
    rw [htable, table_region]
    decide
  have hlength : leNat ((window.table.drop 0x8c).take 4) = byteCount - 1 := by
    rw [htable]
    exact table_length _ _ _ _ _ (by omega)
  have hframe : ∀ i, i < 0x80 → window.table.getD i 0 = (frameBytes lba sectors command).getD i 0 :=
    fun i hi => by
    rw [htable]
    exact table_getD _ _ _ _ _ hi
  rw [← hslot] at hflags haddress
  have hsame : byteCount - 1 < 4194304 := by omega
  have hnot : ¬sectors = 0 := by omega
  unfold Window.command
  dsimp only
  rw [hregion, hlength, hflags, haddress, hframe 0 (by decide), hframe 1 (by decide),
    hframe 2 (by decide), hframe 4 (by decide),
    hframe 5 (by decide), hframe 6 (by decide), hframe 7 (by decide), hframe 8 (by decide),
      hframe 9 (by decide), hframe 10 (by decide),
    hframe 12 (by decide), hframe 13 (by decide), frame_sectors _ _ _ hsectors',
      frame_lba _ _ _ hlba, hkind, hdevice, hlinear,
    hcommandByte, hcommand, Nat.mod_eq_of_lt hsame, if_neg hnot, Nat.sub_add_cancel hbytes]
  cases write with
  | false => rfl
  | true => rfl

end commands

/-! ### Chunks -/

/-- The engine and the disk: `capacity_blocks` is what there is of whole blocks on the disk, and its
sectors have addresses of 48 bits. -/
structure Attached (capacityBlocks : Nat) (s : State) : Prop where
  data : s.data.length = blkDataSize
  bounce : s.window.bounce.length = bounceSize
  capacity : capacityBlocks = s.disk.length / 512 / sectorsPerBlock
  addresses : s.disk.length / 512 ≤ 2 ^ 48

/-- The commands are for one range of sectors after the other, through the bounce buffer. -/
def Covers (write : Bool) : Nat → Nat → List Command → Prop
  | _, n, [] => n = 0
  | lba, n, c :: commands => c.write = write ∧ c.lba = lba ∧ 0 < c.sectors ∧ c.sectors ≤ n ∧
      c.bytes = 512 * c.sectors ∧
      c.bytes ≤ bounceSize ∧ c.address = dmaPaddr + bounceOff ∧ Covers write (lba + c.sectors)
        (n - c.sectors) commands

/-- What a transfer of sectors does: it moves them, and their commands are executed. -/
structure Moved (read : Bool) (place lba sectors : Nat) (s s' : State) : Prop where
  data : s'.data = if read then copyFrom s.data place
    ((s.disk.drop (512 * lba)).take (512 * sectors)) else s.data
  disk : s'.disk = if read then s.disk else copyFrom s.disk (512 * lba)
    ((s.data.drop place).take (512 * sectors))
  bounce : s'.window.bounce.length = s.window.bounce.length
  commands : ∃ commands, s'.commands = s.commands ++ commands ∧ Covers (!read) lba sectors commands

/-- There is room for the sectors in the data region and on the disk. -/
structure Room (place lba sectors : Nat) (s : State) : Prop where
  data : place + 512 * sectors ≤ s.data.length
  disk : 512 * (lba + sectors) ≤ s.disk.length
  address : lba + sectors ≤ 2 ^ 48
  bounce : s.window.bounce.length = bounceSize

section chunks

variable {faults : Faults} {capacityBlocks : Nat} {s : State} {place lba sectors : Nat}
  {Q : Unit → State → Prop} {R : Stop → State → Prop}

theorem Ends.tryFrom {bits n : Nat} {Q : Nat → State → Prop} (h : n < 2 ^ bits) (hQ : Q n s) :
    Ends (tryFrom bits n) s Q R := by
  unfold Ahci.tryFrom
  rw [if_pos h]
  exact Ends.pure hQ

theorem buildCommand_spec {write : Bool} {command : UInt8} (hpos : 0 < sectors) (hsectors : sectors ≤ 128)
    (hQ : ∀ s' : State, s' = { s with window := { s.window with
        slot := headerBytes write (dmaPaddr + cmdTblOff)
        table := tableBytes lba sectors command (dmaPaddr + bounceOff) (sectors * 512 - 1) } } → Q () s') :
    Ends (buildCommand write lba sectors command (sectors * 512)) s Q R := by
  have hctba : dmaPaddr + cmdTblOff < 2 ^ 32 := by decide
  have hdba : dmaPaddr + bounceOff < 2 ^ 32 := by decide
  unfold buildCommand
  refine Ends.bind (Ends.tryFrom hctba (Ends.bind (Ends.tryFrom hdba ?_)))
  rw [if_neg (by omega)]
  exact Ends.bind (Ends.tryFrom (by omega) (Ends.modify (hQ _ rfl)))

theorem execute_spec {c : Command} (hcommand : s.window.command = some c) (hfits : c.Fits s.disk)
    (hQ : Q () (c.run s)) :
    Ends execute s Q R := by
  unfold execute
  refine Ends.bind (Ends.get ?_)
  rw [hcommand]
  refine Ends.bind (Ends.get ?_)
  rw [if_pos hfits]
  exact Ends.modify hQ

/-- One command, without a fault, for sectors that are on the disk. -/
theorem runDma_spec (write : Bool) (hno : ∀ n, faults n = none) (hpos : 0 < sectors)
    (hsectors : sectors ≤ 128) (haddress : lba < 2 ^ 48)
    (hdisk : 512 * (lba + sectors) ≤ s.disk.length)
    (hQ : ∀ slot table, Q () (Command.run ⟨write, lba, sectors, sectors * 512, dmaPaddr + bounceOff⟩
      { s with window := { s.window with slot, table } })) :
    Ends (runDma faults write lba sectors (if write then ataCmdWriteDmaExt
      else ataCmdReadDmaExt)) s Q R := by
  have hbounce : sectors * 512 ≤ bounceSize := by
    unfold bounceSize
    omega
  unfold runDma
  refine Ends.bind (buildCommand_spec hpos hsectors fun s' hs' => ?_)
  refine Ends.bind (Ends.get ?_)
  rw [hno]
  have hslot : s'.window.slot = headerBytes write (dmaPaddr + cmdTblOff) := by rw [hs']
  have htable : s'.window.table = tableBytes lba sectors (if write then ataCmdWriteDmaExt
    else ataCmdReadDmaExt)
      (dmaPaddr + bounceOff) (sectors * 512 - 1) := by rw [hs']
  have hsame : s'.disk = s.disk := by rw [hs']
  have hcommand := command_built haddress hpos (by omega) (by omega) (by omega) rfl hslot htable
  have hfits : Command.Fits ⟨write, lba, sectors, sectors * 512, dmaPaddr + bounceOff⟩ s'.disk := by
    rw [hsame]
    exact ⟨Nat.mul_comm _ _, hdisk, rfl, hbounce⟩
  refine execute_spec hcommand hfits ?_
  rw [hs']
  exact hQ _ _

end chunks

section moves

variable {read write : Bool} {place lba sectors more : Nat} {s s' s'' : State}

theorem slice_length (l : List UInt8) (start n : Nat) (h : start + n ≤ l.length) :
    ((l.drop start).take n).length = n := by
  rw [List.length_take, List.length_drop]
  omega

theorem slice_append (l : List UInt8) {start next n m : Nat} (hnext : next = start + n) :
    (l.drop start).take n ++ (l.drop next).take m = (l.drop start).take (n + m) := by
  subst hnext
  rw [List.take_add, List.drop_drop]

theorem covers_append {commands commands' : List Command} (h : Covers write lba sectors commands)
    (h' : Covers write (lba + sectors) more commands') : Covers write lba (sectors + more)
      (commands ++ commands') := by
  induction commands generalizing lba sectors with
  | nil =>
    have hzero : sectors = 0 := h
    subst hzero
    rw [Nat.zero_add]
    exact h'
  | cons c commands ih =>
    obtain ⟨hwrite, hlba, hpos, hle, hbytes, hbounce, haddress, hrest⟩ := h
    refine ⟨hwrite, hlba, hpos, by omega, hbytes, hbounce, haddress, ?_⟩
    have hsplit : sectors + more - c.sectors = sectors - c.sectors + more := by omega
    rw [hsplit]
    apply ih hrest
    have hnext : lba + c.sectors + (sectors - c.sectors) = lba + sectors := by omega
    rwa [hnext]

theorem Moved.lengths (h : Moved read place lba sectors s s') (hroom : Room place lba sectors s) :
    s'.data.length = s.data.length ∧ s'.disk.length = s.disk.length := by
  have hdata := hroom.data
  have hdisk := hroom.disk
  rw [h.data, h.disk]
  cases read with
  | true =>
    refine ⟨?_, rfl⟩
    rw [if_pos rfl, length_copyFrom]
    rw [slice_length _ _ _ (by omega)]
    exact hdata
  | false =>
    refine ⟨rfl, ?_⟩
    rw [if_neg Bool.false_ne_true, length_copyFrom]
    rw [slice_length _ _ _ hdata]
    omega

theorem Moved.none (read : Bool) (place lba : Nat) (s : State) : Moved read place lba 0 s s := by
  refine ⟨?_, ?_, rfl, [], (List.append_nil _).symm, rfl⟩
  · rw [Nat.mul_zero, List.take_zero, copyFrom_nil, ite_self]
  · rw [Nat.mul_zero, List.take_zero, copyFrom_nil, ite_self]

/-- Two transfers one after the other. -/
theorem Moved.trans (h : Moved read place lba sectors s s')
    (h' : Moved read (place + 512 * sectors) (lba + sectors) more s' s'')
    (hroom : Room place lba sectors s) : Moved read place lba (sectors + more) s s'' := by
  have hdata := hroom.data
  have hdisk := hroom.disk
  obtain ⟨commands, hcommands, hcovers⟩ := h.commands
  obtain ⟨commands', hcommands', hcovers'⟩ := h'.commands
  refine ⟨?_, ?_, h'.bounce.trans h.bounce, commands ++ commands', ?_, covers_append hcovers hcovers'⟩
  · rw [h'.data, h.data, h.disk]
    cases read with
    | false => rfl
    | true =>
      rw [if_pos rfl, if_pos rfl, if_pos rfl, if_pos rfl, Nat.mul_add 512 sectors,
        ← slice_append s.disk (Nat.mul_add 512 lba sectors)]
      have hslice := slice_length s.disk (512 * lba) (512 * sectors) (by omega)
      exact copyFrom_copyFrom (by rw [hslice]) (by rw [hslice]; exact hdata)
  · rw [h'.disk, h.disk, h.data]
    cases read with
    | true => rfl
    | false =>
      rw [if_neg Bool.false_ne_true, if_neg Bool.false_ne_true, if_neg Bool.false_ne_true,
        if_neg Bool.false_ne_true,
        Nat.mul_add 512 sectors, ← slice_append s.data rfl]
      have hslice := slice_length s.data place (512 * sectors) hdata
      exact copyFrom_copyFrom (by rw [hslice]; omega) (by rw [hslice]; omega)
  · rw [hcommands', hcommands, List.append_assoc]

/-- The room for the rest, when a part has been moved. -/
theorem Room.rest (hroom : Room place lba (sectors + more) s) (h : Moved read place lba sectors s s') :
    Room (place + 512 * sectors) (lba + sectors) more s' := by
  have hdata := hroom.data
  have hdisk := hroom.disk
  have haddress := hroom.address
  have hlengths := h.lengths ⟨by omega, by omega, by omega, hroom.bounce⟩
  exact ⟨by omega, by omega, by omega, h.bounce.trans hroom.bounce⟩

end moves

section transfers

variable {faults : Faults} {s : State} {place lba sectors : Nat}

theorem take_front {out bytes : List UInt8} {n : Nat} (hn : bytes.length = n) :
    (copyFrom out 0 bytes).take n = bytes := by
  subst hn
  have h := @take_drop_copyFrom out 0 bytes (Nat.zero_le _)
  rwa [List.drop_zero] at h

/-- One chunk. -/
theorem moveChunk_spec (hno : ∀ n, faults n = none) (read : Bool) (hpos : 0 < sectors)
    (hsectors : sectors ≤ 128)
    (hroom : Room place lba sectors s) :
    Ends (moveChunk faults read place lba (512 * sectors)) s (fun n s' => n = sectors ∧
      Moved read place lba sectors s s')
      fun _ _ => False := by
  have hdata := hroom.data
  have hdisk := hroom.disk
  have haddress := hroom.address
  have hcount : 512 * sectors / 512 = sectors := by omega
  have hbounce : 512 * sectors ≤ bounceSize := by
    unfold bounceSize
    omega
  unfold moveChunk
  rw [hcount]
  refine Ends.bind (Ends.tryFrom (by omega) ?_)
  cases read with
  | true =>
    rw [if_pos rfl]
    refine Ends.bind (runDma_spec false hno hpos hsectors (by omega) hdisk fun slot table => ?_)
    unfold copyToGuest
    refine Ends.bind (Ends.bind (Ends.get ?_))
    have hslice := slice_length s.disk (512 * lba) (sectors * 512) (by omega)
    rw [if_pos ⟨hdata, hbounce⟩]
    refine ⟨rfl, ?_, rfl, ?_, _, rfl, ?_⟩
    · change copyFrom s.data place ((copyFrom s.window.bounce 0
        ((s.disk.drop (512 * lba)).take (sectors * 512))).take (512 * sectors)) = _
      rw [take_front (by rw [hslice, Nat.mul_comm]), Nat.mul_comm sectors]
      rfl
    · refine length_copyFrom ?_
      rw [hslice, hroom.bounce]
      omega
    · exact ⟨rfl, rfl, hpos, le_rfl, Nat.mul_comm _ _,
        by rw [Nat.mul_comm]; exact hbounce, rfl, Nat.sub_self _⟩
  | false =>
    rw [if_neg Bool.false_ne_true]
    unfold copyFromGuest
    refine Ends.bind (Ends.bind (Ends.get ?_))
    rw [if_pos ⟨hdata, hbounce⟩]
    have hslice := slice_length s.data place (512 * sectors) hdata
    refine Ends.bind (runDma_spec true hno hpos hsectors (by omega) hdisk fun slot table => ?_)
    refine ⟨rfl, rfl, ?_, ?_, _, rfl, ?_⟩
    · change copyFrom s.disk (512 * lba) ((copyFrom s.window.bounce 0
        ((s.data.drop place).take (512 * sectors))).take (sectors * 512)) = _
      rw [take_front (by rw [hslice, Nat.mul_comm])]
      rfl
    · refine length_copyFrom ?_
      rw [hslice, hroom.bounce]
      omega
    · exact ⟨rfl, rfl, hpos, le_rfl, Nat.mul_comm _ _,
        by rw [Nat.mul_comm]; exact hbounce, rfl, Nat.sub_self _⟩

/-- All chunks, one after the other. -/
theorem transferFrom_spec (hno : ∀ n, faults n = none) (read : Bool) (n : Nat) :
    ∀ (s : State) (place lba : Nat), Room place lba n s →
    Ends (transferFrom faults read place lba (512 * n)) s (fun _ s' => Moved read place lba n s s')
      fun _ _ => False := by
  induction n using Nat.strongRecOn with
  | ind n ih =>
    intro s place lba hroom
    have haddress := hroom.address
    rw [transferFrom]
    by_cases hzero : n = 0
    · subst hzero
      exact Ends.pure (Moved.none read place lba s)
    obtain ⟨first, rest, hn, hfirst, hpos, hchunk⟩ : ∃ first rest, n = first + rest ∧ first ≤ 128 ∧
      0 < first ∧
        min (512 * n) bounceSize = 512 * first := by
      refine ⟨min n 128, n - min n 128, by omega, by omega, by omega, ?_⟩
      unfold bounceSize
      omega
    subst hn
    rw [dif_neg (by omega)]
    dsimp only
    rw [hchunk]
    have hone : Room place lba first s :=
      ⟨by have := hroom.data; omega, by have := hroom.disk; omega, by omega, hroom.bounce⟩
    refine Ends.seq (moveChunk_spec hno read hpos hfirst hone) ?_ fun _ _ h => h
    rintro sectors s' ⟨hsectors, hmoved⟩
    rw [hsectors]
    refine Ends.bind (Ends.tryFrom (by omega) ?_)
    have hleft : 512 * (first + rest) - 512 * first = 512 * rest := by omega
    rw [hleft]
    exact (ih rest (by omega) s' _ _ (hroom.rest hmoved)).mono (fun _ s'' h => hmoved.trans h hone)
      fun _ _ h => h

end transfers

/-! ### Requests -/

/-- The requests that are served: in the data region and on the disk. -/
def Valid (capacityBlocks offset block count : Nat) : Prop :=
  0 < count ∧ offset + 4096 * count ≤ blkDataSize ∧ block + count ≤ capacityBlocks

/-- What a request is answered, and what it does. -/
def Answered (capacityBlocks : Nat) (code : BlkReqCode) (offset block count : Nat) (s : State)
    (answer : Status × Nat) (s' : State) : Prop :=
  match code with
  | .flush | .barrier => answer = (.ok, 0) ∧ s' = s
  | .read | .write =>
    (Valid capacityBlocks offset block count ∧ answer = (.ok, count) ∧
        Moved (code = .read) offset (8 * block) (8 * count) s s' ∧ 512 * (8 * block + 8 * count) ≤
          s.disk.length) ∨
      (¬Valid capacityBlocks offset block count ∧ answer = (.errInvalidParam, 0) ∧ s' = s)

section requests

variable {faults : Faults} {capacityBlocks : Nat} {s : State}

theorem Attached.room {offset block count : Nat} (h : Attached capacityBlocks s)
    (hvalid : Valid capacityBlocks offset block count) :
    Room offset (8 * block) (8 * count) s := by
  obtain ⟨-, hdata, hblocks⟩ := hvalid
  have hcapacity := h.capacity
  have haddresses := h.addresses
  have hlength := h.data
  unfold sectorsPerBlock at hcapacity
  exact ⟨by omega, by omega, by omega, h.bounce⟩

theorem transfer_spec (h : Attached capacityBlocks s) (hno : ∀ n, faults n = none) (read : Bool)
    (offset block : UInt64) (count : UInt16) :
    Ends (transfer faults capacityBlocks read offset block count) s
      (fun answer s' =>
        (Valid capacityBlocks offset.toNat block.toNat count.toNat ∧ answer = (.ok, count.toNat) ∧
            Moved read offset.toNat (8 * block.toNat) (8 * count.toNat) s s' ∧
            512 * (8 * block.toNat + 8 * count.toNat) ≤ s.disk.length) ∨
          (¬Valid capacityBlocks offset.toNat block.toNat count.toNat ∧
            answer = (.errInvalidParam, 0) ∧ s' = s))
      fun _ _ => False := by
  have hcapacity := h.capacity
  have haddresses := h.addresses
  have hcountZero : count = 0 ↔ count.toNat = 0 := by
    rw [← UInt16.toNat_inj]
    rfl
  unfold sectorsPerBlock at hcapacity
  have hvalid : Valid capacityBlocks offset.toNat block.toNat count.toNat ↔ ¬count = 0 ∧
      ¬(2 ^ 64 ≤ offset.toNat + count.toNat * blkTransferSize ∨ blkDataSize <
        offset.toNat + count.toNat * blkTransferSize) ∧
      ¬2 ^ 64 ≤ block.toNat + count.toNat ∧ ¬capacityBlocks < block.toNat + count.toNat ∧
        ¬2 ^ 64 ≤ block.toNat * sectorsPerBlock := by
    unfold Valid blkTransferSize blkDataSize sectorsPerBlock
    rw [hcountZero]
    omega
  have hrefuse : ¬Valid capacityBlocks offset.toNat block.toNat count.toNat →
      Ends (pure (Status.errInvalidParam, 0) : Io (Status × Nat)) s
        (fun answer s' =>
          (Valid capacityBlocks offset.toNat block.toNat count.toNat ∧ answer = (.ok, count.toNat) ∧
              Moved read offset.toNat (8 * block.toNat) (8 * count.toNat) s s' ∧
              512 * (8 * block.toNat + 8 * count.toNat) ≤ s.disk.length) ∨
            (¬Valid capacityBlocks offset.toNat block.toNat count.toNat ∧
              answer = (.errInvalidParam, 0) ∧ s' = s))
        fun _ _ => False := fun hnot => Ends.pure (Or.inr ⟨hnot, rfl, rfl⟩)
  unfold transfer
  dsimp only
  refine Ends.ite (fun hz => hrefuse fun hv => (hvalid.mp hv).1 hz) fun hz => ?_
  refine Ends.ite (fun hd => hrefuse fun hv => (hvalid.mp hv).2.1 hd) fun hd => ?_
  refine Ends.ite (fun hb => hrefuse fun hv => (hvalid.mp hv).2.2.1 hb) fun hb => ?_
  refine Ends.ite (fun hc => hrefuse fun hv => (hvalid.mp hv).2.2.2.1 hc) fun hc => ?_
  refine Ends.ite (fun hm => hrefuse fun hv => (hvalid.mp hv).2.2.2.2 hm) fun hm => ?_
  have hok := hvalid.mpr ⟨hz, hd, hb, hc, hm⟩
  have hroom := h.room hok
  have hlen : count.toNat * blkTransferSize = 512 * (8 * count.toNat) := by
    unfold blkTransferSize
    omega
  have hsector : block.toNat * sectorsPerBlock = 8 * block.toNat := Nat.mul_comm _ _
  rw [hlen, hsector]
  have hrun := transferFrom_spec hno read (8 * count.toNat) s offset.toNat (8 * block.toNat) hroom
  refine Ends.bind (Ends.attempt (hrun.mono (fun _ s' hmoved => ?_) fun _ _ hfalse => hfalse.elim))
  exact Ends.pure (Or.inl ⟨hok, rfl, hmoved, hroom.disk⟩)

end requests

/-- A request is refused and changes nothing, or it moves its blocks, by commands that each describe
one range of the disk and of the bounce buffer. No conversion fails, and the disk executes every
command. -/
theorem finish_moves {faults : Faults} {capacityBlocks : Nat} {s : State}
    (h : Attached capacityBlocks s) (hno : ∀ n, faults n = none)
    (code : BlkReqCode) (offset block : UInt64) (count : UInt16) :
    ∃ answer s', finish faults capacityBlocks code offset block count s = .ok answer s' ∧
      Answered capacityBlocks code offset.toNat block.toNat count.toNat s answer s' := by
  have hends : Ends (finish faults capacityBlocks code offset block count) s
      (Answered capacityBlocks code offset.toNat block.toNat count.toNat s) fun _ _ => False := by
    cases code with
    | read => exact transfer_spec h hno true offset block count
    | write => exact transfer_spec h hno false offset block count
    | flush => exact ⟨rfl, rfl⟩
    | barrier => exact ⟨rfl, rfl⟩
  unfold Ends at hends
  cases hrun : finish faults capacityBlocks code offset block count s with
  | ok answer s' =>
    rw [hrun] at hends
    exact ⟨answer, s', rfl, hends⟩
  | error e s' =>
    rw [hrun] at hends
    exact hends.elim

/-- A disk of two blocks. -/
def smallDisk : State where
  disk := List.replicate 8192 0
  data := List.replicate blkDataSize 1
  window := ⟨[], [], List.replicate bounceSize 0⟩
  commands := []

theorem smallDisk_attached : Attached 2 smallDisk where
  data := List.length_replicate
  bounce := List.length_replicate
  capacity := by
    rw [smallDisk, List.length_replicate]
    rfl
  addresses := by
    rw [smallDisk, List.length_replicate]
    omega

theorem finish_moves_small : ∃ answer s',
    finish (fun _ => none) 2 .write 4096 1 1 smallDisk = .ok answer s' ∧
    Answered 2 .write (4096 : UInt64).toNat (1 : UInt64).toNat (1 : UInt16).toNat smallDisk answer s' :=
  finish_moves smallDisk_attached (fun _ => rfl) .write 4096 1 1

end Lerux.Ahci

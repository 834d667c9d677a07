import Lerux.Base.Answers

/-!
# The byte queue of the workstation

`lerux-serial-queue`: one ring of bytes with free-running 64-bit indices, shared with a peer that is
not trusted. The functions are written as the loads and stores they make. The capacity is a power of
two that each side keeps for itself, and an index is masked with `capacity - 1`.

`byteQueue_safe` says two things of the same programs. Between two parties that keep to their roles
the ring is a bounded queue, whatever the order of their loads and stores, and the free space a
producer is told is there. Against a peer that stores anything at any moment, each access stays
inside the data region and each side stores to its own index only.

The flag `producer_signalled` is not modelled: neither call reads it.
-/

namespace Lerux.ByteQueue

open Lerux.Base

abbrev Byte := BitVec 8

/-- The programs a queue function is made of. -/
abbrev RingProg := Prog (ringSig 64 Byte)

def loadHead : RingProg (BitVec 64) := Prog.act (S := ringSig 64 Byte) RingOp.loadHead .ret
def loadTail : RingProg (BitVec 64) := Prog.act (S := ringSig 64 Byte) RingOp.loadTail .ret
def storeHead (v : BitVec 64) : RingProg Unit := Prog.act (S := ringSig 64 Byte) (RingOp.storeHead v) .ret
def storeTail (v : BitVec 64) : RingProg Unit := Prog.act (S := ringSig 64 Byte) (RingOp.storeTail v) .ret
def readData (i : BitVec 64) : RingProg Byte := Prog.act (S := ringSig 64 Byte) (RingOp.read i.toNat) .ret
def writeData (i : BitVec 64) (byte : Byte) : RingProg Unit :=
  Prog.act (S := ringSig 64 Byte) (RingOp.write i.toNat byte) .ret

/-- `mask`. -/
def mask (capacity : BitVec 64) : BitVec 64 := capacity - 1

/-- `saturating_sub` of `usize`. -/
def saturatingSub (a b : BitVec 64) : BitVec 64 := if b ≤ a then a - b else 0

/-- `len`. -/
def len : RingProg (BitVec 64) := do
  let head ← loadHead
  let tail ← loadTail
  return tail - head

/-- `is_empty`. -/
def isEmpty : RingProg Bool := do
  let n ← len
  return n == 0

/-- `is_full`. -/
def isFull (capacity : BitVec 64) : RingProg Bool := do
  let n ← len
  return decide (capacity ≤ n)

/-- `free_space`. -/
def freeSpace (capacity : BitVec 64) : RingProg (BitVec 64) := do
  let n ← len
  return saturatingSub capacity n

/-- `enqueue`. -/
def enqueue (capacity : BitVec 64) (byte : Byte) : RingProg Bool := do
  let head ← loadHead
  let tail ← loadTail
  if capacity ≤ tail - head then
    return false
  else
    writeData (tail &&& mask capacity) byte
    storeTail (tail + 1)
    return true

/-- `dequeue`. -/
def dequeue (capacity : BitVec 64) : RingProg (Option Byte) := do
  let head ← loadHead
  let tail ← loadTail
  if head = tail then
    return none
  else
    let byte ← readData (head &&& mask capacity)
    storeHead (head + 1)
    return some byte

/-- `init_shared`. -/
def initShared (r : Ring 64 Byte) : Ring 64 Byte := { r with head := 0, tail := 0 }

/-- The functions of a handle. Either side may ask for the length. -/
inductive Fn
  | len (side : Role)
  | isEmpty (side : Role)
  | isFull (side : Role)
  | freeSpace (side : Role)
  | enqueue (byte : Byte)
  | dequeue
  deriving DecidableEq

def Fn.Res : Fn → Type
  | .len _ => BitVec 64
  | .isEmpty _ => Bool
  | .isFull _ => Bool
  | .freeSpace _ => BitVec 64
  | .enqueue _ => Bool
  | .dequeue => Option Byte

/-- A bounded queue refuses a byte when it holds `cap` of them. -/
def push (cap : Nat) (byte : Byte) (q : List Byte) : Bool × Option (Move Byte) :=
  if q.length = cap then (false, none) else (true, some (.push byte))

/-- A queue gives its oldest byte. -/
def pop : List Byte → Option Byte × Option (Move Byte)
  | [] => (none, none)
  | a :: _ => (some a, some (.pop a))

/-- The functions as a library, with what each one does to the queued bytes. -/
def byteQueue : RingLib 64 Byte where
  Fn := Fn
  Res := Fn.Res
  role
    | .len side => side
    | .isEmpty side => side
    | .isFull side => side
    | .freeSpace side => side
    | .enqueue _ => .producer
    | .dequeue => .consumer
  early _ := True
  body cap
    | .len _ => len
    | .isEmpty _ => isEmpty
    | .isFull _ => isFull (BitVec.ofNat 64 cap)
    | .freeSpace _ => freeSpace (BitVec.ofNat 64 cap)
    | .enqueue byte => enqueue (BitVec.ofNat 64 cap) byte
    | .dequeue => dequeue (BitVec.ofNat 64 cap)
  spec cap
    | .len _, q => (BitVec.ofNat 64 q.length, none)
    | .isEmpty _, q => (q.isEmpty, none)
    | .isFull _, q => (decide (q.length = cap), none)
    | .freeSpace _, q => (BitVec.ofNat 64 (cap - q.length), none)
    | .enqueue byte, q => push cap byte q
    | .dequeue, q => pop q

/-! ### Index arithmetic -/

section arithmetic

variable {cap : Nat}

theorem good_of_isPowerOfTwo {capacity : BitVec 64} (h : capacity.toNat.isPowerOfTwo) :
    Ring.Good 64 capacity.toNat where
  pos := by
    obtain ⟨k, hk⟩ := h
    rw [hk]
    exact Nat.two_pow_pos k
  lt := capacity.isLt
  dvd := by
    obtain ⟨k, hk⟩ := h
    have hlt : 2 ^ k < 2 ^ 64 := hk ▸ capacity.isLt
    rw [hk]
    exact Nat.pow_dvd_pow 2 ((Nat.pow_lt_pow_iff_right (by decide)).mp hlt).le

/-- A masked index is the index modulo the capacity. -/
theorem mask_toNat {capacity : BitVec 64} (h : capacity.toNat.isPowerOfTwo) (i : BitVec 64) :
    (i &&& mask capacity).toNat = i.toNat % capacity.toNat := by
  have hpos := (good_of_isPowerOfTwo h).pos
  obtain ⟨k, hk⟩ := h
  have hmask : (mask capacity).toNat = 2 ^ k - 1 := by
    rw [mask, BitVec.toNat_sub_of_le (by rw [BitVec.le_def]; exact hpos), hk]
    rfl
  rw [BitVec.toNat_and, hmask, hk, Nat.and_two_pow_sub_one_eq_mod]

theorem saturatingSub_toNat (a b : BitVec 64) : (saturatingSub a b).toNat = a.toNat - b.toNat := by
  unfold saturatingSub
  split
  · exact BitVec.toNat_sub_of_le ‹_›
  · rename_i h
    rw [BitVec.le_def] at h
    simp only [BitVec.ofNat_eq_ofNat, BitVec.toNat_ofNat, Nat.zero_mod]
    omega

end arithmetic

/-! ### Each function takes effect at one of its operations -/

section linearises

variable {capacity : BitVec 64} {cap : Nat} {exact : Prop}

/-- The producer's length is that of the moment it loads the head, the consumer's that of the moment
it loads the tail: neither moves its own index meanwhile. -/
theorem len_lin (side : Role) :
    RingLib.Lin (α := Byte) cap side exact True (fun q => (BitVec.ofNat 64 q.length, none)) none len
      fun _ => True := by
  have hlen : ∀ r : Ring 64 Byte, BitVec.ofNat 64 (r.contents cap).length = r.tail - r.head := by
    intro r
    rw [Ring.contents_length, Ring.len, BitVec.ofNat_toNat, BitVec.setWidth_eq]
  cases side with
  | producer =>
    intro r _ _
    refine ⟨RingLib.guar_loadHead, some (r.tail - r.head), fun r' => r'.tail = r.tail, fun _ _ h => h, rfl,
      .inr ⟨_, r.contents cap, none, rfl, rfl, by simp, ?_, rfl, fun _ => ⟨rfl, rfl⟩⟩, .inl trivial, ?_⟩
    · change (BitVec.ofNat 64 (r.contents cap).length, none) = _
      rw [hlen]
    · intro r' _ ht
      refine ⟨RingLib.guar_loadTail, _, fun _ => True, RingLib.stable_true cap _, trivial, .inl ⟨rfl, rfl⟩,
        .inl trivial, ?_⟩
      change some (r.tail - r.head) = some (r'.tail - r.head)
      rw [ht]
  | consumer =>
    apply RingLib.lin_act
    intro r _ _
    refine ⟨RingLib.guar_loadHead, .inr ⟨rfl, fun r' => r'.head = r.head,
      fun _ _ h => ⟨h, fun _ => h⟩, rfl, ?_⟩⟩
    apply RingLib.lin_act
    intro r' _ hh
    refine ⟨RingLib.guar_loadTail, .inl ⟨_, r'.contents cap, none,
      by simp, rfl, rfl, fun _ => ⟨rfl, rfl⟩, ?_⟩⟩
    rw [hlen, hh]
    rfl

/-- What a function makes of the length. -/
theorem ofLen_lin {β : Type} (side : Role) (f : BitVec 64 → β) (spec : List Byte → β)
    (h : ∀ q : List Byte, q.length ≤ cap → f (BitVec.ofNat 64 q.length) = spec q) :
    RingLib.Lin cap side exact True (fun q => (spec q, none)) none (len.bind fun n => .ret (f n))
      fun _ => True := by
  refine ((len_lin side).map f).congr fun q hq => ?_
  rw [h q hq]

theorem length_toNat (hg : Ring.Counts 64 cap) {q : List Byte} (hq : q.length ≤ cap) :
    (BitVec.ofNat 64 q.length).toNat = q.length := by
  have := hg.lt
  rw [BitVec.toNat_ofNat, Nat.mod_eq_of_lt (by omega)]

theorem isEmpty_length (hg : Ring.Counts 64 cap) {q : List Byte} (hq : q.length ≤ cap) :
    (BitVec.ofNat 64 q.length == 0) = q.isEmpty := by
  rw [Bool.eq_iff_iff, beq_iff_eq, ← BitVec.toNat_inj, length_toNat hg hq, List.isEmpty_iff,
    ← List.length_eq_zero_iff]
  rfl

theorem isFull_length (hg : Ring.Counts 64 capacity.toNat) {q : List Byte}
    (hq : q.length ≤ capacity.toNat) :
    decide (capacity ≤ BitVec.ofNat 64 q.length) = decide (q.length = capacity.toNat) := by
  rw [decide_eq_decide, BitVec.le_def, length_toNat hg hq]
  omega

theorem freeSpace_length (hg : Ring.Counts 64 capacity.toNat) {q : List Byte}
    (hq : q.length ≤ capacity.toNat) :
    saturatingSub capacity (BitVec.ofNat 64 q.length) = BitVec.ofNat 64 (capacity.toNat - q.length) := by
  have := hg.lt
  apply BitVec.eq_of_toNat_eq
  rw [saturatingSub_toNat, length_toNat hg hq, BitVec.toNat_ofNat, Nat.mod_eq_of_lt (by omega)]

/-- An enqueue that finds the ring full has been refused when it loads the head. -/
theorem enqueue_lin (hp : capacity.toNat.isPowerOfTwo) (byte : Byte) :
    RingLib.Lin capacity.toNat .producer exact True (push capacity.toNat byte) none (enqueue capacity byte)
      fun _ => True := by
  have hg := good_of_isPowerOfTwo hp
  intro r hr _
  have hfull : capacity ≤ r.tail - r.head ↔ r.len = capacity.toNat := by
    rw [BitVec.le_def]
    change capacity.toNat ≤ r.len ↔ _
    omega
  by_cases hf : r.len = capacity.toNat
  · refine ⟨RingLib.guar_loadHead, some false, fun r' => r'.tail = r.tail, fun _ _ h => h, rfl,
      .inr ⟨false, r.contents capacity.toNat, none, rfl, rfl,
        by simp, ?_, rfl, fun _ => ⟨rfl, rfl⟩⟩, .inl trivial, ?_⟩
    · rw [push, Ring.contents_length, if_pos hf]
    · intro r' _ ht
      refine ⟨RingLib.guar_loadTail, _, fun _ => True, RingLib.stable_true _ _, trivial, .inl ⟨rfl, rfl⟩,
        .inl trivial, ?_⟩
      change RingLib.Lin _ _ _ _ _ _ (if capacity ≤ r'.tail - r.head then Prog.ret false else _) _
      rw [ht, if_pos (hfull.mpr hf)]
      exact rfl
  · have hlt : r.len < capacity.toNat := by omega
    refine ⟨RingLib.guar_loadHead, none, fun r' => r'.tail = r.tail ∧ r'.len < capacity.toNat,
      RingLib.stable_room hg.toCounts r.tail, ⟨rfl, hlt⟩, .inl ⟨rfl, rfl⟩, .inl trivial, ?_⟩
    intro r' _ ht
    refine ⟨RingLib.guar_loadTail, none, fun r' => r'.tail = r.tail ∧ r'.len < capacity.toNat,
      RingLib.stable_room hg.toCounts r.tail, ht, .inl ⟨rfl, rfl⟩, .inl trivial, ?_⟩
    change RingLib.Lin _ _ _ _ _ _ (if capacity ≤ r'.tail - r.head then Prog.ret false else
      .act (.write (r'.tail &&& mask capacity).toNat byte) fun _ => .act (.storeTail (r'.tail + 1))
        fun _ => .ret true) _
    rw [ht.1, if_neg fun h => hf (hfull.mp h)]
    have hpublish : RingLib.Lin capacity.toNat .producer exact True (push capacity.toNat byte) none
        (.act (.write (r.tail.toNat % capacity.toNat) byte) fun _ => .act (.storeTail (r.tail + 1))
          fun _ => .ret true)
        fun r' => r'.tail = r.tail ∧ r'.len < capacity.toNat :=
      RingLib.lin_publish hg.toCounts fun q hq => if_neg hq.ne
    rw [← mask_toNat hp] at hpublish
    exact hpublish

theorem dequeue_lin (hp : capacity.toNat.isPowerOfTwo) :
    RingLib.Lin capacity.toNat .consumer exact True pop none (dequeue capacity) fun _ => True := by
  have hg := good_of_isPowerOfTwo hp
  apply RingLib.lin_act
  intro r _ _
  refine ⟨RingLib.guar_loadHead, .inr ⟨rfl, fun r' => r'.head = r.head,
    fun _ _ h => ⟨h, fun _ => h⟩, rfl, ?_⟩⟩
  apply RingLib.lin_act
  intro r' _ hh
  have hempty : r.head = r'.tail ↔ r'.contents capacity.toNat = [] := by
    rw [Ring.contents_eq_nil_iff, hh]
    exact eq_comm
  refine ⟨RingLib.guar_loadTail, ?_⟩
  by_cases he : r.head = r'.tail
  · have hnil := hempty.mp he
    have hzero : r'.len = 0 := by rw [← Ring.contents_length capacity.toNat, hnil]; rfl
    exact .inl ⟨none, [], none, hzero.symm, rfl, rfl, fun _ => ⟨hnil.symm, rfl⟩, if_pos he⟩
  · have hpos : 0 < r'.len := by
      rw [← Ring.contents_length capacity.toNat, List.length_pos_iff]
      exact fun h => he (hempty.mpr h)
    refine .inr ⟨rfl, fun r' => r'.head = r.head ∧ 0 < r'.len,
      RingLib.stable_some hg.toCounts r.head, ⟨hh, hpos⟩, ?_⟩
    change RingLib.Lin _ _ _ _ _ _ (if r.head = r'.tail then Prog.ret none else _) _
    rw [if_neg he]
    have htake : RingLib.Lin (α := Byte) capacity.toNat .consumer exact True pop none
        (.act (.read (r.head.toNat % capacity.toNat)) fun a => .act (.storeHead (r.head + 1))
          fun _ => .ret (some a))
        fun r' => r'.head = r.head ∧ 0 < r'.len := RingLib.lin_take hg.toCounts (fun _ => hg) fun _ _ => rfl
    rw [← mask_toNat hp] at htake
    exact htake

/-- Every function of the byte queue is one operation on a bounded list. -/
theorem byteQueue_linearises (hp : capacity.toNat.isPowerOfTwo) (f : Fn) :
    byteQueue.Linearises capacity.toNat exact f := by
  have hg := (good_of_isPowerOfTwo hp).toCounts
  have hcap : BitVec.ofNat 64 capacity.toNat = capacity := by rw [BitVec.ofNat_toNat, BitVec.setWidth_eq]
  unfold RingLib.Linearises
  cases f with
  | len side => exact len_lin side
  | isEmpty side => exact ofLen_lin side (· == 0) List.isEmpty fun q hq => isEmpty_length hg hq
  | isFull side =>
    change RingLib.Lin _ _ _ _ _ _ (isFull (BitVec.ofNat 64 capacity.toNat)) _
    rw [hcap]
    exact ofLen_lin side (fun n => decide (capacity ≤ n)) _ fun q hq => isFull_length hg hq
  | freeSpace side =>
    change RingLib.Lin _ _ _ _ _ _ (freeSpace (BitVec.ofNat 64 capacity.toNat)) _
    rw [hcap]
    exact ofLen_lin side (saturatingSub capacity) _ fun q hq => freeSpace_length hg hq
  | enqueue byte =>
    change RingLib.Lin _ _ _ _ _ _ (enqueue (BitVec.ofNat 64 capacity.toNat) byte) _
    rw [hcap]
    exact enqueue_lin hp byte
  | dequeue =>
    change RingLib.Lin _ _ _ _ _ _ (dequeue (BitVec.ofNat 64 capacity.toNat)) _
    rw [hcap]
    exact dequeue_lin hp

end linearises

/-! ### What a producer is told -/

section answers

variable {capacity : BitVec 64}

/-- The free space a producer is told is there when it is told. -/
def Room (cap : Nat) : (f : Fn) → f.Res → Ring 64 Byte → Prop
  | .freeSpace .producer, room, r => BitVec.toNat room ≤ cap - r.len
  | _, _, _ => True

/-- The room found when the head was loaded only grows: the consumer frees, and the producer is busy
here. -/
theorem freeSpace_returns (hg : Ring.Counts 64 capacity.toNat) :
    RingLib.Returns capacity.toNat .producer (Room capacity.toNat (.freeSpace .producer))
      (freeSpace capacity)
      fun _ => True := by
  intro r hr _
  have hshrink : ∀ r' : Ring 64 Byte, 0 < r'.len → r'.len ≤ r.len →
    (r'.storeHead (r'.head + 1)).len ≤ r.len := by
    intro r' hpos hle
    have := Ring.len_storeHead hg r' hpos
    omega
  refine ⟨fun r' => r'.tail = r.tail ∧ r'.len ≤ r.len, fun r' hpos h => ⟨h.1, hshrink r' hpos h.2⟩,
    ⟨rfl, le_rfl⟩, ?_⟩
  intro r' _ ht
  refine ⟨fun r' => r'.len ≤ r.len, hshrink, ht.2, ?_⟩
  intro r'' hle
  change (saturatingSub capacity (r'.tail - r.head)).toNat ≤ capacity.toNat - r''.len
  have hlen : (r.tail - r.head).toNat = r.len := rfl
  rw [saturatingSub_toNat, ht.1, hlen]
  omega

theorem byteQueue_returns (hp : capacity.toNat.isPowerOfTwo) (f : Fn) :
    RingLib.Returns capacity.toNat (byteQueue.role f) (Room capacity.toNat f)
      (byteQueue.body capacity.toNat f)
      fun _ => True := by
  have hlin : ∀ f, RingLib.Returns capacity.toNat (byteQueue.role f) (fun _ _ => True)
      (byteQueue.body capacity.toNat f) fun _ => True :=
    fun f => (@byteQueue_linearises capacity True hp f).returns
  cases f with
  | freeSpace side =>
    cases side with
    | producer =>
      have hcap : BitVec.ofNat 64 capacity.toNat = capacity := by
        rw [BitVec.ofNat_toNat, BitVec.setWidth_eq]
      change RingLib.Returns _ _ _ (freeSpace (BitVec.ofNat 64 capacity.toNat)) _
      rw [hcap]
      exact freeSpace_returns (good_of_isPowerOfTwo hp).toCounts
    | consumer => exact hlin (.freeSpace .consumer)
  | len side => exact hlin (.len side)
  | isEmpty side => exact hlin (.isEmpty side)
  | isFull side => exact hlin (.isFull side)
  | enqueue byte => exact hlin (.enqueue byte)
  | dequeue => exact hlin .dequeue

end answers

/-! ### Two parties that keep to their roles -/

section parties

variable {E : Sig} (Y : System Role Unit E byteQueue)

/-- What a party does: anything of its own, and the calls of its role. -/
def Keeps (side : Role) : CallOp E byteQueue Unit → Prop
  | .ev _ => True
  | .call _ f => byteQueue.role f = side

/-- Both parties over a queue that `init_shared` has set up. -/
def start (party : Role → Prog (callSig E byteQueue Unit) Empty) (r : Ring 64 Byte) (env : Y.Env) :
    Y.Conf where
  thread side := .run (party side)
  ring _ := initShared r
  env := env
  log := []

/-- The same parties over an empty list. -/
def listed (party : Role → Prog (callSig E byteQueue Unit) Empty) (env : Y.Env) :
    State Role (callSig E byteQueue Unit) Y.Lists where
  prog := party
  mem := ⟨fun _ => [], env, []⟩

/-- The run so far is one of the same parties over a bounded queue, on which every call is one operation. -/
def RefinesFifo (party : Role → Prog (callSig E byteQueue Unit) Empty) (env : Y.Env) (s : Y.Conf) : Prop :=
  ∃ a, Reach (Y.act fun _ => .exact) (fun _ _ => True) (listed Y party env) a ∧ Y.Rel (fun _ => .exact) a s

variable {Y} in
/-- A producer about to be told that there is free space is told no more than there is. -/
def RoomSeen (s : Y.Conf) : Prop :=
  ∀ (q : Unit) (o : RingOp 64 Byte) (k' : o.Res → RingProg (BitVec 64))
    (k : BitVec 64 → Prog (callSig E byteQueue Unit) Empty)
    (room : BitVec 64), s.thread .producer = .call q (.freeSpace .producer) (.act o k') k →
      k' (RingOp.exec (s.ring q) o).1 = .ret room →
        room.toNat ≤ Y.cap q - (RingOp.exec (s.ring q) o).2.len

variable {Y} {capacity : BitVec 64} {party : Role → Prog (callSig E byteQueue Unit) Empty}
  {env : Y.Env} {r : Ring 64 Byte} {s s' : Y.Conf} {ch : Y.Choice}

theorem fits (hp : capacity.toNat.isPowerOfTwo) (hcap : Y.cap () = capacity.toNat) :
    Y.Fits fun _ => .exact where
  cap _ := by
    change Ring.Good 64 (Y.cap ())
    rw [hcap]
    exact good_of_isPowerOfTwo hp
  lin _ f _ := by
    change byteQueue.Linearises (Y.cap ()) _ f
    rw [hcap]
    exact byteQueue_linearises hp f
  body _ f _ := by cases f <;> exact nofun

theorem rel_start (party : Role → Prog (callSig E byteQueue Unit) Empty) (env : Y.Env) (r : Ring 64 Byte) :
    Y.Rel (fun _ => .exact) (listed Y party env) (start Y party r env) where
  env := rfl
  log := rfl
  ring q := by
    have hlen : (initShared r).len = 0 := by
      rw [← Ring.contents_length 0, (Ring.contents_eq_nil_iff 0 (initShared r)).mpr rfl]
      rfl
    refine ⟨?_, ?_⟩
    · change (initShared r).len ≤ _
      omega
    · exact (Ring.contents_eq_nil_iff _ (initShared r)).mpr rfl
  thread _ := rfl

theorem uses (hparty : ∀ side, (party side).All (Keeps side))
    (h : Y.Reaches (fun _ _ => True) (start Y party r env) s) (side : Role) :
    System.ThreadUses (Keeps side) (s.thread side) := by
  have h0 : ∀ side, System.ThreadUses (Keeps side) ((start Y party r env).thread side) := hparty
  exact System.uses_of_reaches h0 h side

theorem exclusive (hparty : ∀ side, (party side).All (Keeps side))
    (h : Y.Reaches (fun _ _ => True) (start Y party r env) s) : Y.Exclusive (fun _ => .exact) s :=
  System.exclusive_of_uses (D := Keeps) (fun _ _ _ _ _ _ hrole h h' => h.symm.trans (hrole.trans h'))
    (uses hparty h)

/-- Only the producer fills the ring. -/
theorem consumer_frees (hp : capacity.toNat.isPowerOfTwo) (hcap : Y.cap () = capacity.toNat)
    (hparty : ∀ side, (party side).All (Keeps side))
      (h : Y.Reaches (fun _ _ => True) (start Y party r env) s)
    (hs : s.step .consumer ch = some s') (q : Unit) : (s'.ring q).len ≤ (s.ring q).len := by
  obtain ⟨a, -, hr⟩ := System.simulates (fits hp hcap) (fun _ _ => True) (rel_start party env r)
    (fun _ => exclusive hparty) (fun _ _ _ _ _ _ _ => trivial) h
  have huse := uses hparty h .consumer
  cases hth : s.thread .consumer with
  | run p =>
    cases p with
    | ret x => exact x.elim
    | loop body b k =>
      simp only [System.Conf.step, hth, Option.some.injEq] at hs
      subst hs
      exact le_rfl
    | act o k =>
      cases o with
      | ev o =>
        simp only [System.Conf.step, hth] at hs
        split at hs
        · cases hs
        · simp only [Option.some.injEq] at hs
          subst hs
          exact le_rfl
      | call q' f =>
        simp only [System.Conf.step, hth, Option.some.injEq] at hs
        subst hs
        exact le_rfl
  | call q' f m k =>
    cases m with
    | ret b => simp [System.Conf.step, hth] at hs
    | loop body b k' => simp [System.Conf.step, hth] at hs
    | act o k' =>
      have hgu := (hr.guar hth (fun hwild => by cases hwild)).2
      rw [hth] at huse
      have hrole : byteQueue.role f = .consumer := huse.1
      simp only [System.Conf.step, hth, Option.some.injEq] at hs
      subst hs
      rw [hrole] at hgu
      change ((Function.update s.ring () (RingOp.exec (s.ring ()) o).2) ()).len ≤ (s.ring ()).len
      rw [Function.update_self]
      cases o with
      | storeTail v => exact hgu.elim
      | storeHead v =>
        obtain ⟨rfl, hpos⟩ := hgu
        have hc := (good_of_isPowerOfTwo hp).toCounts
        have := Ring.len_storeHead hc (s.ring ()) hpos
        change ((s.ring ()).storeHead ((s.ring ()).head + 1)).len ≤ _
        omega
      | write i byte => exact hgu.elim
      | _ => exact le_rfl

end parties

/-! ### A peer that stores anything -/

/-- A call runs while its peer stores what it likes: before each of its operations the memory is any
other. What is recorded is the memory each operation found, and the operation. -/
inductive Attacked {β : Type} : RingProg β → List (Ring 64 Byte × RingOp 64 Byte) → Prop
  | cut (p : RingProg β) : Attacked p []
  | act {o : RingOp 64 Byte} {k : o.Res → RingProg β} {l : List (Ring 64 Byte × RingOp 64 Byte)}
      (r : Ring 64 Byte)
      (h : Attacked (k (RingOp.exec r o).1) l) : Attacked (.act o k) ((r, o) :: l)

/-- What the producer may do to the memory: store inside the data region, and move its own index. -/
def ProducerMay (capacity : Nat) : RingOp 64 Byte → Prop
  | .write i _ => i < capacity
  | .storeTail _ => True
  | .loadHead => True
  | .loadTail => True
  | .read _ => False
  | .storeHead _ => False

/-- What the consumer may do: read inside the data region, and move its own index. -/
def ConsumerMay (capacity : Nat) : RingOp 64 Byte → Prop
  | .read i => i < capacity
  | .storeHead _ => True
  | .loadHead => True
  | .loadTail => True
  | .write _ _ => False
  | .storeTail _ => False

/-- Every operation of a call that is attacked is one of its program's. -/
theorem Attacked.all {β : Type} {D : RingOp 64 Byte → Prop} {p : RingProg β}
    {l : List (Ring 64 Byte × RingOp 64 Byte)}
    (h : Attacked p l) (hp : p.All D) : ∀ x ∈ l, D x.2 := by
  induction h with
  | cut p => exact nofun
  | act r h ih =>
    intro x hx
    rcases List.mem_cons.mp hx with rfl | hx
    · exact hp.1
    · exact ih (hp.2 _) x hx

section hostile

variable {capacity : BitVec 64} (hp : capacity.toNat.isPowerOfTwo)

include hp in
theorem mask_lt (i : BitVec 64) : (i &&& mask capacity).toNat < capacity.toNat := by
  rw [mask_toNat hp]
  exact Nat.mod_lt _ (good_of_isPowerOfTwo hp).pos

include hp in
theorem enqueue_all (byte : Byte) : (enqueue capacity byte).All (ProducerMay capacity.toNat) := by
  refine ⟨trivial, fun head => ⟨trivial, fun tail => Prog.All.ite trivial ?_⟩⟩
  exact ⟨mask_lt hp tail, fun _ => ⟨trivial, fun _ => trivial⟩⟩

include hp in
theorem dequeue_all : (dequeue capacity).All (ConsumerMay capacity.toNat) := by
  refine ⟨trivial, fun head => ⟨trivial, fun tail => Prog.All.ite trivial ?_⟩⟩
  exact ⟨mask_lt hp head, fun _ => ⟨trivial, fun _ => trivial⟩⟩

end hostile

/-- Between two parties that keep to their roles the byte queue is a bounded queue of its capacity,
and the free space a producer is told is there and stays. Against a peer that stores anything, each
side accesses the data region inside its capacity and moves its own index only. -/
theorem byteQueue_safe (capacity : BitVec 64) (hp : capacity.toNat.isPowerOfTwo) :
    (∀ {E : Sig} (Y : System Role Unit E byteQueue)
      (party : Role → Prog (callSig E byteQueue Unit) Empty) (env : Y.Env)
        (r : Ring 64 Byte) (s : Y.Conf), Y.cap () = capacity.toNat →
          (∀ side, (party side).All (Keeps side)) →
      Y.Reaches (fun _ _ => True) (start Y party r env) s →
        RefinesFifo Y party env s ∧ RoomSeen s ∧
          ∀ ch s', s.step .consumer ch = some s' → (s'.ring ()).len ≤ (s.ring ()).len) ∧
      (∀ byte l, Attacked (enqueue capacity byte) l → ∀ x ∈ l,
        ProducerMay capacity.toNat x.2 ∧ (RingOp.exec x.1 x.2).2.head = x.1.head) ∧
      ∀ l, Attacked (dequeue capacity) l → ∀ x ∈ l,
        ConsumerMay capacity.toNat x.2 ∧ (RingOp.exec x.1 x.2).2.tail = x.1.tail := by
  refine ⟨fun Y party env r s hcap hparty h => ⟨?_, ?_,
    fun ch s' hs => consumer_frees hp hcap hparty h hs ()⟩, ?_, ?_⟩
  · exact System.simulates (fits hp hcap) (fun _ _ => True) (rel_start party env r)
      (fun _ => exclusive hparty)
      (fun _ _ _ _ _ _ _ => trivial) h
  · have hfits := fits (Y := Y) hp hcap
    have hanswers : System.Answers (fun f => Room (Y.cap ()) f) s := by
      refine System.answers_of_reaches hfits (fun _ => nofun) (fun _ f => ?_) (rel_start party env r)
        (fun _ => exclusive hparty) (fun _ _ _ _ _ he => nomatch he) h
      change RingLib.Returns (Y.cap ()) _ _ (byteQueue.body (Y.cap ()) f) _
      rw [hcap]
      exact byteQueue_returns hp f
    obtain ⟨a, -, hr⟩ := System.simulates hfits (fun _ _ => True) (rel_start party env r)
      (fun _ => exclusive hparty)
      (fun _ _ _ _ _ _ _ => trivial) h
    intro q o k' k room hth hb
    exact hanswers.returned (hr.guar hth nofun).1 hth hb
  · intro byte l hl x hx
    have hmay := hl.all (enqueue_all hp byte) x hx
    refine ⟨hmay, ?_⟩
    cases hx : x.2 with
    | storeHead v =>
      rw [hx] at hmay
      exact hmay.elim
    | _ => rfl
  · intro l hl x hx
    have hmay := hl.all (dequeue_all hp) x hx
    refine ⟨hmay, ?_⟩
    cases hx : x.2 with
    | storeTail v =>
      rw [hx] at hmay
      exact hmay.elim
    | _ => rfl

/-- One producer that enqueues a byte again and again, and a consumer that dequeues. -/
def endless : Role → Prog (callSig ⟨Empty, Empty.elim⟩ byteQueue Unit) Empty
  | .producer => .forever (.act (.call () (.enqueue 97)) fun _ => .ret ())
  | .consumer => .forever (.act (.call () .dequeue) fun _ => .ret ())

/-- Eight bytes, and nothing else in the world. -/
def alone : System Role Unit ⟨Empty, Empty.elim⟩ byteQueue where
  Env := Unit
  Choice := Unit
  Note := Unit
  cap _ := 8
  exec _ _ o _ := o.elim
  note o _ := o.elim

theorem byteQueue_safe_eight :
    (∃ s, (start alone endless ⟨7, 3, fun _ => 0⟩ ()).runs (fun _ _ => true)
      (List.replicate 6 (.producer, ())) = some s ∧
      RefinesFifo alone endless () s ∧ (s.ring ()).contents 8 = [97]) ∧
      ∀ x ∈ [((⟨0, 2, fun _ => 0⟩, .loadHead) : Ring 64 Byte × RingOp 64 Byte),
        (⟨9, 0, fun _ => 0⟩, .loadTail),
          (⟨-1, -1, fun _ => 1⟩, .write 1 97), (⟨4, 5, fun _ => 2⟩, .storeTail 10)],
        ProducerMay 8 x.2 ∧ (RingOp.exec x.1 x.2).2.head = x.1.head := by
  have hsafe := byteQueue_safe 8 ⟨3, rfl⟩
  refine ⟨⟨_, rfl, ?_, rfl⟩, ?_⟩
  · have hreach : alone.Reaches (fun _ _ => True) (start alone endless ⟨7, 3, fun _ => 0⟩ ()) _ :=
      System.Reaches.runs (fun _ _ _ => trivial) .init
        (show (start alone endless ⟨7, 3, fun _ => 0⟩ ()).runs
        (fun _ _ => true) (List.replicate 6 (.producer, ())) = some _ from rfl)
    refine (hsafe.1 alone endless () ⟨7, 3, fun _ => 0⟩ _ rfl (fun side => ?_) hreach).1
    cases side with
    | producer => exact Prog.All.forever ⟨rfl, fun _ => trivial⟩
    | consumer => exact Prog.All.forever ⟨rfl, fun _ => trivial⟩
  · -- the peer lowers the tail and moves the head back while the byte is on its way
    exact hsafe.2.1 97 _ (.act _ (.act _ (.act _ (.act _ (.cut _)))))

end Lerux.ByteQueue

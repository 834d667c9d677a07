import Lerux.Mt7921.Transmit

/-!
# What the radio reads of a descriptor

A call that has run out of looks leaves its descriptor to the radio, and the next call writes over
the buffer that it names. As long as no call does so, a ring has one descriptor at most that the
radio has not taken: what it reads of it is what was posted (`RingInv.flight`), and its index moves
on once, when that descriptor is taken.

`reachable_posts` is what holds along every run in which a buffer is only written while the rings
that share it are drained. `Overtaken` is a run in which it is not.
-/

namespace Lerux.Mt7921.Transmit

open Lerux.Base

/-- The buffer that the descriptors of a ring name. -/
def Tx.buffer : Tx → Buffer
  | data => .txwi
  | fwdl => .bounce
  | mcu => .bounce

def Buffer.size : Buffer → Nat
  | bounce => Transmit.bounce
  | txwi => txdLen + txpLen
  | frame => buf

theorem Tx.count_pos (t : Tx) : 1 < t.count := by
  cases t <;> decide

/-! ### Descriptors -/

theorem descCtrl_toNat {len : Nat} (h : len ≤ bounce) : (descCtrl len true).toNat =
    2 ^ 30 * 1 + len * 2 ^ 16 := by
  unfold bounce at h
  have hmask : (BitVec.ofNat 32 len &&& 0x3fff).toNat = len := by
    rw [BitVec.toNat_and, BitVec.toNat_ofNat]
    show len % 2 ^ 32 &&& 2 ^ 14 - 1 = len
    rw [Nat.and_two_pow_sub_one_eq_mod]
    omega
  have hshift : ((BitVec.ofNat 32 len &&& 0x3fff) <<< 16).toNat = len * 2 ^ 16 := by
    rw [BitVec.toNat_shiftLeft, hmask, Nat.shiftLeft_eq]
    omega
  show ((BitVec.ofNat 32 len &&& 0x3fff) <<< 16 ||| lastSec0).toNat = _
  rw [BitVec.toNat_or, hshift, Nat.or_comm, Nat.two_pow_add_eq_or_of_lt (by omega)]
  rfl

theorem descLen_descCtrl {len : Nat} (h : len ≤ bounce) : descLen (descCtrl len true) = len := by
  rw [descLen, BitVec.toNat_and, BitVec.toNat_ushiftRight, descCtrl_toNat h, Nat.shiftRight_eq_div_pow]
  show (2 ^ 30 * 1 + len * 2 ^ 16) / 2 ^ 16 &&& 2 ^ 14 - 1 = len
  rw [Nat.and_two_pow_sub_one_eq_mod]
  unfold bounce at h
  omega

theorem descCtrl_done {len : Nat} (h : len ≤ bounce) : descCtrl len true &&& dmaDone = 0 := by
  have hdone : dmaDone = BitVec.twoPow 32 31 := by decide
  have hbit : (descCtrl len true).getLsbD 31 = false := by
    rw [BitVec.getLsbD, descCtrl_toNat h]
    unfold bounce at h
    exact Nat.testBit_lt_two_pow (by omega)
  rw [hdone, BitVec.and_twoPow, hbit]
  rfl

/-- The descriptor names the buffer of its ring. -/
structure Names (t : Tx) (desc : Desc) : Prop where
  buf0 : desc.buf0 = dmaPhys + BitVec.ofNat 32 t.buffer.off
  len : descLen desc.ctrl ≤ t.buffer.size
  done : desc.ctrl &&& dmaDone = 0

theorem names_post (t : Tx) {len : Nat} (h : len ≤ t.buffer.size) :
    Names t ⟨dmaPhys + BitVec.ofNat 32 t.buffer.off, descCtrl len true, 0, 0⟩ := by
  have hsize : t.buffer.size ≤ bounce := by cases t <;> decide
  refine ⟨rfl, ?_, descCtrl_done (Nat.le_trans h hsize)⟩
  show descLen (descCtrl len true) ≤ t.buffer.size
  rw [descLen_descCtrl (Nat.le_trans h hsize)]
  exact h

theorem Names.off {t : Tx} {desc : Desc} (h : Names t desc) : (desc.buf0 - dmaPhys).toNat =
    t.buffer.off := by
  rw [h.buf0]
  cases t <;> rfl

/-- A buffer is shared with a ring, or lies apart from what the radio reads for its descriptors. -/
theorem shares_or_apart (b : Buffer) (t : Tx) : b.shares t ∨
    (b.off + b.size ≤ t.buffer.off ∨ t.buffer.off + t.buffer.size ≤ b.off) ∧
      (t = .data → b.off + b.size ≤ Buffer.frame.off ∨ Buffer.frame.off + buf ≤ b.off) := by
  cases b <;> cases t <;> first | exact Or.inl trivial | exact Or.inr (by decide)

/-- Writing another buffer leaves what the radio reads of a descriptor. -/
theorem Names.lookAt_fill {t : Tx} {desc : Desc} (h : Names t desc) {b : Buffer} (hb : ¬b.shares t)
    {data : List UInt8}
    (hdata : data.length ≤ b.size) (bytes : Nat → UInt8) : lookAt
      (writeAt bytes b.off data) t desc = lookAt bytes t desc := by
  have hlen := h.len
  obtain hshares | ⟨hbuffer, hframe⟩ := shares_or_apart b t
  · exact absurd hshares hb
  have hread : (if t = .data then readAt (writeAt bytes b.off data) Buffer.frame.off buf else []) =
      if t = .data then readAt bytes Buffer.frame.off buf else [] := by
    by_cases ht : t = .data
    · have hapart := hframe ht
      rw [if_pos ht, if_pos ht, readAt_writeAt_of_disjoint (by omega)]
    · rw [if_neg ht, if_neg ht]
  rw [lookAt, lookAt, h.off, readAt_writeAt_of_disjoint (by omega), hread]

/-! ### The invariant -/

/-- Where the driver stands in a post. -/
inductive Stage
  | idle
  | filled (b : Buffer)
  | written (t : Tx)
  | rung (t : Tx)

/-- The descriptors that were posted at each ring, and whether all of the current call were taken
but for the one that it waits for. -/
structure At where
  stage : Stage
  sure : Bool
  posts : Tx → Nat

/-- A ring, of whose next descriptor the radio may have read what it names and not moved on (`half`). -/
structure RingInv (t : Tx) (stage : Stage) (posts : Nat) (half : Bool) (c : TxMem)
    (bytes : Nat → UInt8) : Prop where
  length : c.posted.length = posts
  cpu : c.cpu = posts % t.count
  dma : c.dma = c.advanced % t.count
  taken : c.taken.length = c.advanced + half.toNat
  le : c.taken.length ≤ posts
  one : posts ≤ c.advanced + 1
  sound : c.taken <+: c.posted
  flight : c.taken.length < posts → Names t (c.descs (c.taken.length % t.count)) ∧
    c.posted[c.taken.length]? = some (lookAt bytes t (c.descs (c.taken.length % t.count)))
  filled : ∀ b, stage = .filled b → b.shares t → posts = c.advanced
  written : stage = .written t → posts = c.advanced ∧ Names t (c.descs (posts % t.count))
  rung : stage = .rung t → 0 < posts ∧ Names t (c.descs ((posts - 1) % t.count))

structure CallInv (y : At) (m : Mem) : Prop where
  sure : y.sure = true → ∀ t n, (t, n) ∈ m.mine → n < (m.ring t).taken.length ∨
    (y.stage = .rung t ∧ n + 1 = y.posts t)
  early : m.early = 0

structure Inv (y : At) (half : Tx → Bool) (m : Mem) : Prop where
  ring : ∀ t, RingInv t y.stage (y.posts t) (half t) (m.ring t) m.bytes
  call : CallInv y m

section rings

variable {t : Tx} {stage stage' : Stage} {posts : Nat} {half : Bool} {c : TxMem} {bytes : Nat → UInt8}

/-- A ring is drained when the radio's index is the driver's. -/
theorem RingInv.drained (h : RingInv t stage posts half c bytes) (heq : c.dma = c.cpu) :
    posts = c.advanced := by
  have hle := h.le
  have hone := h.one
  have htaken := h.taken
  rw [h.dma, h.cpu] at heq
  by_contra hne
  have hnext : posts = c.advanced + 1 := by omega
  rw [hnext, Nat.add_mod, Nat.mod_eq_of_lt t.count_pos] at heq
  have hlt := Nat.mod_lt c.advanced (Nat.lt_trans Nat.zero_lt_one t.count_pos)
  have hcount := t.count_pos
  rcases Nat.lt_or_eq_of_le (Nat.succ_le_of_lt hlt) with hlt' | hwrap
  · rw [Nat.mod_eq_of_lt hlt'] at heq
    omega
  · rw [show c.advanced % t.count + 1 = t.count from hwrap, Nat.mod_self] at heq
    omega

/-- Moving on to a stage of another ring. -/
theorem RingInv.pass (h : RingInv t stage posts half c bytes) (hfilled : ∀ b, stage' ≠ .filled b)
    (hwritten : stage' ≠ .written t)
    (hrung : stage' ≠ .rung t) : RingInv t stage' posts half c bytes :=
  { h with
    filled := fun b hb => absurd hb (hfilled b)
    written := fun hs => absurd hs hwritten
    rung := fun hs => absurd hs hrung }

theorem RingInv.fill (h : RingInv t stage posts half c bytes) {b : Buffer} {data : List UInt8}
    (hdata : data.length ≤ b.size)
    (hclear : b.shares t → c.dma = c.cpu) :
    RingInv t (.filled b) posts half c (writeAt bytes b.off data) := by
  refine { h with flight := ?_, filled := ?_, written := fun hs => (by cases hs), rung := fun hs => (by cases hs) }
  · intro hlt
    by_cases hshares : b.shares t
    · have hdrained := h.drained (hclear hshares)
      have htaken := h.taken
      omega
    · obtain ⟨hnames, hposted⟩ := h.flight hlt
      exact ⟨hnames, hposted.trans (congrArg some (hnames.lookAt_fill hshares hdata bytes).symm)⟩
  · rintro b' hb' hshares
    cases hb'
    exact h.drained (hclear hshares)

theorem RingInv.write (h : RingInv t stage posts half c bytes) (hdrained : posts = c.advanced)
    {desc : Desc} (hnames : Names t desc) :
    RingInv t (.written t) posts half { c with descs := Function.update c.descs (posts % t.count) desc } bytes := by
  have htaken := h.taken
  refine { h with flight := ?_, filled := ?_, written := ?_, rung := ?_ }
  · intro hlt
    have hlt : c.taken.length < posts := hlt
    omega
  · rintro b hb
    cases hb
  · refine fun _ => ⟨hdrained, ?_⟩
    show Names t (Function.update c.descs (posts % t.count) desc (posts % t.count))
    rw [Function.update_self]
    exact hnames
  · rintro hs
    cases hs

theorem RingInv.kick (h : RingInv t (.written t) posts half c bytes) :
    RingInv t (.rung t) (posts + 1) half
      { c with cpu := (posts + 1) % t.count, posted := c.posted ++ [lookAt bytes t (c.descs (posts % t.count))] } bytes := by
  obtain ⟨hdrained, hnames⟩ := h.written rfl
  have htaken := h.taken
  have hle := h.le
  constructor
  · show (c.posted ++ [_]).length = posts + 1
    rw [List.length_append, h.length, List.length_singleton]
  · rfl
  · exact h.dma
  · exact h.taken
  · exact Nat.le_succ_of_le hle
  · show posts + 1 ≤ c.advanced + 1
    omega
  · exact h.sound.trans (List.prefix_append _ _)
  · intro _
    have hnext : c.taken.length = posts := by omega
    show Names t (c.descs (c.taken.length % t.count)) ∧ (c.posted ++ [_])[c.taken.length]? =
      some (lookAt bytes t (c.descs (c.taken.length % t.count)))
    rw [hnext, ← h.length, List.getElem?_concat_length]
    exact ⟨h.length.symm ▸ hnames, rfl⟩
  · rintro b hb
    cases hb
  · rintro hs
    cases hs
  · exact fun _ => ⟨Nat.succ_pos _, hnames⟩

theorem RingInv.take (h : RingInv t stage posts false c bytes) (hne : c.dma ≠ c.cpu) :
    RingInv t stage posts true { c with taken := c.taken ++ [lookAt bytes t (c.descs c.dma)] } bytes := by
  have htaken : c.taken.length = c.advanced := h.taken
  have hle := h.le
  have hone := h.one
  have hlt : c.taken.length < posts := by
    by_contra hnot
    have hall : posts = c.advanced := by omega
    exact hne (by rw [h.dma, h.cpu, hall])
  obtain ⟨-, hposted⟩ := h.flight hlt
  have hlength : (c.taken ++ [lookAt bytes t (c.descs c.dma)]).length = c.taken.length + 1 := by
    rw [List.length_append, List.length_singleton]
  refine { h with taken := ?_, le := ?_, sound := ?_, flight := ?_ }
  · show (c.taken ++ [_]).length = c.advanced + 1
    omega
  · show (c.taken ++ [_]).length ≤ posts
    omega
  · have hsound := List.prefix_iff_eq_take.mp h.sound
    refine List.prefix_iff_eq_take.mpr ?_
    show c.taken ++ [_] = c.posted.take (c.taken ++ [_]).length
    rw [hlength, List.take_add_one, ← hsound, hposted, h.dma, ← htaken]
    rfl
  · intro hlt'
    have hlt' : (c.taken ++ [lookAt bytes t (c.descs c.dma)]).length < posts := hlt'
    omega

theorem RingInv.advance (h : RingInv t stage posts true c bytes) :
    RingInv t stage posts false { c with dma := (c.dma + 1) % t.count, advanced := c.advanced +
      1 } bytes := by
  have htaken : c.taken.length = c.advanced + 1 := h.taken
  have hle := h.le
  have hone := h.one
  refine { h with dma := ?_, taken := ?_, one := ?_, filled := ?_, written := ?_ }
  · show (c.dma + 1) % t.count = (c.advanced + 1) % t.count
    rw [h.dma, Nat.mod_add_mod]
  · exact htaken
  · show posts ≤ c.advanced + 1 + 1
    omega
  · intro b hb hshares
    have hall := h.filled b hb hshares
    omega
  · intro hs
    have hall := (h.written hs).1
    omega

end rings

/-- The rings that share the buffer are drained. -/
def Clear (m : Mem) (b : Buffer) : Prop := ∀ t, b.shares t → (m.ring t).dma = (m.ring t).cpu

section actions

variable {stage : Stage} {sure : Bool} {posts : Tx → Nat} {half : Tx → Bool} {m : Mem} {t : Tx}

theorem Inv.next (h : Inv ⟨.idle, sure, posts⟩ half m) :
    Inv ⟨.idle, true, posts⟩ half { m with mine := [] } :=
  ⟨h.ring, fun _ _ _ hmem => (by cases hmem), h.call.early⟩

theorem Inv.fill (h : Inv ⟨stage, sure, posts⟩ half m) (hstage : ∀ t, stage ≠ .rung t) {b : Buffer}
    (hclear : Clear m b)
    {data : List UInt8} (hdata : data.length ≤ b.size) :
    Inv ⟨.filled b, sure, posts⟩ half { m with bytes := writeAt m.bytes b.off data } := by
  refine ⟨fun t => (h.ring t).fill hdata (hclear t), fun hsure t n hmem => ?_, h.call.early⟩
  obtain hlt | ⟨hrung, -⟩ := h.call.sure hsure t n hmem
  · exact Or.inl hlt
  · exact absurd hrung (hstage t)

/-- What is done to one ring leaves the others. -/
theorem set_ring {c : TxMem} {stage' : Stage} {posts' : Tx → Nat} (h : Inv ⟨stage, sure, posts⟩ half m)
    (hring : RingInv t stage' (posts' t) (half t) c m.bytes) (hposts : ∀ t', t' ≠ t → posts' t' = posts t')
    (hfilled : ∀ b, stage' ≠ .filled b) (hstage : ∀ t', t' ≠ t → stage' ≠ .written t' ∧ stage' ≠
      .rung t') (t' : Tx) :
    RingInv t' stage' (posts' t') (half t') ((m.set t c).ring t') m.bytes := by
  by_cases ht : t' = t
  · subst ht
    show RingInv t' stage' (posts' t') (half t') (Function.update m.ring t' c t') m.bytes
    rw [Function.update_self]
    exact hring
  · show RingInv t' stage' (posts' t') (half t') (Function.update m.ring t c t') m.bytes
    rw [Function.update_of_ne ht, hposts t' ht]
    exact (h.ring t').pass hfilled (hstage t' ht).1 (hstage t' ht).2

theorem Inv.write {b : Buffer} (h : Inv ⟨.filled b, sure, posts⟩ half m) (hshares : b.shares t)
    {desc : Desc}
    (hnames : Names t desc) :
    Inv ⟨.written t, sure, posts⟩ half
      (m.set t { m.ring t with descs := Function.update (m.ring t).descs (posts t % t.count) desc }) := by
  refine ⟨?_, ?_, h.call.early⟩
  · refine set_ring h ((h.ring t).write ((h.ring t).filled b rfl hshares) hnames)
      (fun _ _ => rfl) nofun fun t' ht => ⟨?_, nofun⟩
    exact fun heq => ht (Stage.written.inj heq).symm
  · intro hsure t' n hmem
    obtain hlt | ⟨hrung, -⟩ := h.call.sure hsure t' n hmem
    · left
      show n < (Function.update m.ring t _ t').taken.length
      by_cases ht : t' = t
      · subst ht
        rw [Function.update_self]
        exact hlt
      · rw [Function.update_of_ne ht]
        exact hlt
    · cases hrung

theorem Inv.kick (h : Inv ⟨.written t, sure, posts⟩ half m) :
    Inv ⟨.rung t, sure, Function.update posts t (posts t + 1)⟩ half
      { m.set t { m.ring t with
          cpu := (posts t + 1) % t.count
          posted := (m.ring t).posted ++ [lookAt m.bytes t
            ((m.ring t).descs ((m.ring t).posted.length % t.count))] } with
        mine := m.mine ++ [(t, (m.ring t).posted.length)] } := by
  have hring := (h.ring t).kick
  rw [(h.ring t).length]
  refine ⟨?_, ?_, h.call.early⟩
  · refine set_ring h ?_ (fun t' ht => Function.update_of_ne ht _ _) nofun fun t' ht => ⟨nofun,
      fun heq => ht (Stage.rung.inj heq).symm⟩
    show RingInv t (.rung t) (Function.update posts t (posts t + 1) t) (half t) _ m.bytes
    rw [Function.update_self]
    exact hring
  · intro hsure t' n hmem
    have hmem : (t', n) ∈ m.mine ++ [(t, posts t)] := hmem
    rw [List.mem_append, List.mem_singleton] at hmem
    obtain hmem | heq := hmem
    · obtain hlt | ⟨hrung, -⟩ := h.call.sure hsure t' n hmem
      · left
        show n < (Function.update m.ring t _ t').taken.length
        by_cases ht : t' = t
        · subst ht
          rw [Function.update_self]
          exact hlt
        · rw [Function.update_of_ne ht]
          exact hlt
      · cases hrung
    · cases heq
      refine Or.inr ⟨rfl, ?_⟩
      show posts t + 1 = Function.update posts t (posts t + 1) t
      rw [Function.update_self]

/-- The index that was read before the doorbell tells when the descriptor is taken. -/
theorem Inv.index (h : Inv ⟨.rung t, sure, posts⟩ half m)
    (hne : (m.ring t).dma % 2 ^ 8 ≠ (posts t - 1) % t.count % 2 ^ 8) : (m.ring t).taken.length =
      posts t := by
  have hring := h.ring t
  have hle := hring.le
  have hone := hring.one
  have htaken := hring.taken
  dsimp only at hle hone
  rw [hring.dma] at hne
  by_contra hnot
  have hadvanced : (m.ring t).advanced = posts t - 1 := by omega
  exact hne (by rw [hadvanced])

theorem Inv.done (h : Inv ⟨.rung t, sure, posts⟩ half m) (htaken : (m.ring t).taken.length = posts t) :
    Inv ⟨.idle, sure, posts⟩ half m := by
  refine ⟨fun t' => (h.ring t').pass nofun nofun nofun, fun hsure t' n hmem => ?_, h.call.early⟩
  obtain hlt | ⟨hrung, hlast⟩ := h.call.sure hsure t' n hmem
  · exact Or.inl hlt
  · have ht : t = t' := Stage.rung.inj hrung
    subst ht
    have hlast : n + 1 = posts t := hlast
    left
    omega

theorem Inv.expire (h : Inv ⟨.rung t, sure, posts⟩ half m) : Inv ⟨.idle, false, posts⟩ half m :=
  ⟨fun t' => (h.ring t').pass nofun nofun nofun, fun hsure => (by cases hsure), h.call.early⟩

theorem Inv.reply (h : Inv ⟨.idle, sure, posts⟩ half m) {ok : Bool} (hok : ok = true → sure = true) :
    Inv ⟨.idle, sure, posts⟩ half { m with early := m.early + if ok && m.owes then 1 else 0 } := by
  refine ⟨h.ring, h.call.sure, ?_⟩
  have howes : (ok && m.owes) = false := by
    cases ok with
    | false => rfl
    | true =>
      rw [Bool.true_and, Mem.owes, List.any_eq_false]
      rintro ⟨t, n⟩ hmem
      obtain hlt | ⟨hrung, -⟩ := h.call.sure (hok rfl) t n hmem
      · simpa using hlt
      · cases hrung
  show m.early + (if (ok && m.owes) = true then 1 else 0) = 0
  rw [howes, h.call.early]
  rfl

theorem Inv.radio {y : At} {c : TxMem} {half' : Bool} (h : Inv y half m)
    (hring : RingInv t y.stage (y.posts t) half' c m.bytes) (htaken : (m.ring t).taken.length ≤
      c.taken.length) :
    Inv y (Function.update half t half') (m.set t c) := by
  refine ⟨fun t' => ?_, fun hsure t' n hmem => ?_, h.call.early⟩
  · show RingInv t' y.stage (y.posts t') _ (Function.update m.ring t c t') m.bytes
    by_cases ht : t' = t
    · subst ht
      rw [Function.update_self, Function.update_self]
      exact hring
    · rw [Function.update_of_ne ht, Function.update_of_ne ht]
      exact h.ring t'
  · refine (h.call.sure hsure t' n hmem).imp_left fun hlt => ?_
    show n < (Function.update m.ring t c t').taken.length
    by_cases ht : t' = t
    · subst ht
      rw [Function.update_self]
      omega
    · rw [Function.update_of_ne ht]
      exact hlt

end actions

/-! ### The outline -/

def Ghost : Party → Type
  | .driver => At
  | .radio _ => Bool

def MayDo (m : Mem) : Op → Prop
  | .fill b _ => Clear m b
  | _ => True

def outline : Outline Party sig Mem where
  step := Does
  Ghost := Ghost
  ok := fun _ _ _ => True
  calm := fun _ _ => True
  may := fun _ _ m o => MayDo m o
  inv := fun G m => Inv (G .driver) (fun t => G (.radio t)) m

section outline

variable {y : At} {α : Type}

theorem performs_driver {o : Op} {Q : o.Res → At → Prop}
    (h : ∀ half m r m', Inv y half m → MayDo m o → Does .driver m o r m' → ∃ y', Inv y' half m' ∧ Q r y') :
    outline.Performs .driver o Q y := by
  refine ⟨trivial, fun G m hG hmay hinv r m' hstep => ?_⟩
  have hinv : Inv (G .driver) (fun t => G (.radio t)) m := hinv
  rw [show G .driver = y from hG] at hinv
  obtain ⟨y', hinv', hQ⟩ := h _ m r m' hinv hmay hstep
  exact ⟨y', hinv', hQ⟩

theorem safe_driver {o : Op} {f : o.Res → Code α} {Q : α → At → Prop}
    (h : ∀ half m r m', Inv y half m → MayDo m o → Does .driver m o r m' →
      ∃ y', Inv y' half m' ∧ outline.Safe .driver (f r) Q y') :
    outline.Safe .driver ((op o).bind f) Q y :=
  performs_driver h

theorem performs_radio {t : Tx} {o : Op} {Q : o.Res → Bool → Prop} {half : Bool}
    (h : ∀ y halves m r m', halves t = half → Inv y halves m → Does (.radio t) m o r m' →
      ∃ half', Inv y (Function.update halves t half') m' ∧ Q r half') :
    outline.Performs (.radio t) o Q half := by
  refine ⟨trivial, fun G m hG _ hinv r m' hstep => ?_⟩
  let halves : Tx → Bool := fun t => G (.radio t)
  obtain ⟨half', hinv', hQ⟩ := h (G .driver) halves m r m' hG hinv hstep
  let ghost : outline.Ghost (.radio t) := half'
  refine ⟨ghost, ?_, hQ⟩
  have hhalves : (fun t' => Function.update G (.radio t) ghost (.radio t')) =
    Function.update halves t half' := by
    funext t'
    by_cases ht : t' = t
    · subst ht
      exact (Function.update_self (Party.radio t') ghost G).trans
        (Function.update_self t' half' halves).symm
    · have hne : Party.radio t' ≠ .radio t := fun heq => ht (Party.radio.inj heq)
      exact (Function.update_of_ne hne ghost G).trans (Function.update_of_ne ht half' halves).symm
  show Inv (G .driver) (fun t' => Function.update G (.radio t) ghost (.radio t')) m'
  exact hhalves ▸ hinv'

end outline

/-! ### The programs -/

/-- The driver's heads are at its counts. -/
def Heads (mac : Mac) (y : At) : Prop := ∀ t, mac.heads t = y.posts t % t.count

/-- What a post or a call comes back with. If it says true, it waits for nothing and what was sure
before still is. -/
structure Comes (sure : Bool) (r : Bool × Mac) (y : At) : Prop where
  heads : Heads r.2 y
  done : r.1 = true → y.stage = .idle ∧ y.sure = sure
  left : y.stage = .idle ∨ ∃ t, y.stage = .rung t

section programs

variable {mac : Mac} {t : Tx} {sure : Bool} {posts : Tx → Nat}

theorem safe_waitDone (spins : Nat) :
    outline.Safe .driver (waitDone t ((posts t - 1) % t.count) ((posts t - 1) % t.count % 2 ^ 8) spins)
      (fun ok y => y.posts = posts ∧ (ok = true → y.stage = .idle ∧ y.sure = sure) ∧
        (y.stage = .idle ∨ y.stage = .rung t))
      ⟨.rung t, sure, posts⟩ := by
  induction spins with
  | zero => exact ⟨rfl, fun h => (by cases h), Or.inr rfl⟩
  | succ spins ih =>
    refine safe_driver fun half m _ _ h _ hstep => ?_
    cases hstep
    have hdone := ((h.ring t).rung rfl).2.done
    refine ⟨_, h, Outline.Safe.ite (fun hset => absurd hdone hset) fun _ => ?_⟩
    refine safe_driver fun half m _ _ h _ hstep => ?_
    cases hstep
    by_cases hindex : (m.ring t).dma % 2 ^ 8 ≠ (posts t - 1) % t.count % 2 ^ 8
    · exact ⟨_, h.done (h.index hindex), Outline.Safe.ite
        (fun _ => ⟨rfl, fun _ => ⟨rfl, rfl⟩, Or.inl rfl⟩) fun hsame => absurd hindex hsame⟩
    · exact ⟨_, h, Outline.Safe.ite (fun hne => absurd hne hindex) fun _ => ih⟩

theorem safe_postTx {b : Buffer} (hshares : b.shares t)
    (hheads : ∀ t, mac.heads t = posts t % t.count) {len : Nat}
    (hlen : len ≤ t.buffer.size) :
    outline.Safe .driver (postTx mac t t.buffer len) (Comes sure) ⟨.filled b, sure, posts⟩ := by
  refine safe_driver fun half m _ _ h _ hstep => ?_
  cases hstep
  rw [hheads t]
  refine ⟨_, h.write hshares (names_post t hlen), ?_⟩
  refine safe_driver fun half m _ _ h _ hstep => ?_
  cases hstep
  have hindex : (m.ring t).dma = posts t % t.count := by
    rw [(h.ring t).dma, ← ((h.ring t).written rfl).1]
  rw [hindex]
  refine ⟨_, h, ?_⟩
  refine safe_driver fun half m _ _ h _ hstep => ?_
  cases hstep
  rw [Nat.mod_add_mod]
  refine ⟨_, h.kick, ?_⟩
  have hposts : Function.update posts t (posts t + 1) t - 1 = posts t := by
    rw [Function.update_self, Nat.add_sub_cancel]
  have hwait : outline.Safe .driver (waitDone t (posts t % t.count) (posts t % t.count % 2 ^ 8) mcuSpin)
      (fun ok y => y.posts = Function.update posts t (posts t + 1) ∧
        (ok = true → y.stage = .idle ∧ y.sure = sure) ∧
        (y.stage = .idle ∨ y.stage = .rung t)) ⟨.rung t, sure, Function.update posts t (posts t + 1)⟩ := by
    have hlooks := @safe_waitDone t sure (Function.update posts t (posts t + 1)) mcuSpin
    rw [hposts] at hlooks
    exact hlooks
  refine hwait.seq fun ok y hy => ?_
  obtain ⟨hposts, hdone, hleft⟩ := hy
  refine ⟨fun t' => ?_, hdone, hleft.imp_right fun hs => ⟨t, hs⟩⟩
  show Function.update mac.heads t ((posts t + 1) % t.count) t' = y.posts t' % t'.count
  rw [hposts]
  by_cases ht : t' = t
  · subst ht
    rw [Function.update_self, Function.update_self]
  · rw [Function.update_of_ne ht, Function.update_of_ne ht]
    exact hheads t'

theorem safe_txBounce (ht : Buffer.bounce.shares t) (hbuffer : t.buffer = .bounce)
    (hheads : ∀ t, mac.heads t = posts t % t.count)
    {data : List UInt8} (hdata : data.length ≤ bounce) :
    outline.Safe .driver (txBounce mac t data) (Comes sure) ⟨.idle, sure, posts⟩ := by
  refine safe_driver fun half m _ _ h hclear hstep => ?_
  cases hstep
  refine ⟨_, h.fill nofun hclear hdata, ?_⟩
  have hpost : outline.Safe .driver (postTx mac t t.buffer data.length) (Comes sure)
    ⟨.filled .bounce, sure, posts⟩ :=
    safe_postTx ht hheads (by rw [hbuffer]; exact hdata)
  rw [hbuffer] at hpost
  exact hpost

/-- A call that does nothing comes back with false. -/
theorem comes_false (hheads : ∀ t, mac.heads t = posts t % t.count) :
    Comes sure (false, mac) ⟨.idle, sure, posts⟩ :=
  ⟨hheads, fun h => (by cases h), Or.inl rfl⟩

theorem safe_scatter (hheads : ∀ t, mac.heads t = posts t % t.count) (chunk : List UInt8) :
    outline.Safe .driver (scatter mac chunk) (Comes sure) ⟨.idle, sure, posts⟩ := by
  refine Outline.Safe.ite (fun _ => comes_false hheads) fun hlen => ?_
  exact safe_txBounce (t := .fwdl) trivial rfl hheads (Nat.not_lt.mp hlen)

theorem length_put (out : List UInt8) (off : Nat) (data : List UInt8) : (put out off data).length =
    out.length :=
  List.length_mapIdx

theorem length_writeMcuTxd (cmd : Word) (seq payload : Nat) : (writeMcuTxd cmd seq payload).length =
    mcuTxdLen := by
  unfold writeMcuTxd
  dsimp only
  split <;> simp only [length_put, List.length_replicate]

theorem length_writeScan {ssid req : List UInt8} {seq : Nat} (h : writeScan ssid seq = some req) :
    req.length = scanReqLen := by
  unfold writeScan at h
  split at h
  · cases h
  · rw [Option.some_inj] at h
    subst h
    split <;> simp only [length_put, List.length_replicate]

theorem length_writeTxd (txwi frame : List UInt8) : (writeTxd txwi frame).length = txwi.length := by
  unfold writeTxd
  dsimp only
  rw [length_put, length_put, apply_ite List.length]
  simp only [length_put, ite_self]

theorem length_writeTxwi {frame txwi : List UInt8} {phys : Word} (h : writeTxwi frame phys = some txwi) :
    txwi.length = txdLen + txpLen := by
  unfold writeTxwi at h
  split at h
  · cases h
  · rw [Option.some_inj] at h
    subst h
    rw [length_put, length_put, length_put, length_writeTxd, List.length_replicate]

theorem safe_postMcu (hheads : ∀ t, mac.heads t = posts t % t.count) (cmd : Word) (payload : List UInt8) :
    outline.Safe .driver (postMcu mac cmd payload) (Comes sure) ⟨.idle, sure, posts⟩ := by
  have hheads : ∀ t, (nextSeq mac).heads t = posts t % t.count := hheads
  refine Outline.Safe.ite (fun _ => comes_false hheads) fun hlen => ?_
  refine safe_txBounce (t := .mcu) trivial rfl hheads ?_
  rw [List.length_append, length_writeMcuTxd]
  exact Nat.not_lt.mp hlen

theorem safe_command (hheads : ∀ t, mac.heads t = posts t % t.count) (cmd : Word)
    (payload : List UInt8) (wait : Bool) :
    outline.Safe .driver (command mac cmd payload wait) (Comes sure) ⟨.idle, sure, posts⟩ := by
  refine Outline.Safe.ite (fun _ => safe_scatter hheads payload) fun _ => ?_
  refine (safe_postMcu hheads cmd payload).seq fun r y hr => ?_
  obtain ⟨ok, mac'⟩ := r
  refine Outline.Safe.ite (fun _ => hr) fun _ => Outline.Safe.ite (fun hfalse => ?_) fun htrue => ?_
  · exact ⟨hr.heads, fun h => (by cases h), hr.left⟩
  · have hok : ok = true := by simpa using htrue
    obtain ⟨hidle, hsure⟩ := hr.done hok
    refine safe_driver fun half m _ _ h _ hstep => ?_
    cases hstep
    exact ⟨y, h, hr.heads, fun _ => ⟨hidle, hsure⟩, hr.left⟩

theorem safe_startScan (hheads : ∀ t, mac.heads t = posts t % t.count) (ssid : List UInt8) :
    outline.Safe .driver (startScan mac ssid) (Comes sure) ⟨.idle, sure, posts⟩ := by
  have hheads : ∀ t, (nextSeq mac).heads t = posts t % t.count := hheads
  unfold startScan
  dsimp only
  cases hscan : writeScan ssid (nextSeq mac).seq with
  | none => exact comes_false hheads
  | some req =>
    refine safe_txBounce (t := .mcu) trivial rfl hheads ?_
    rw [List.length_append, length_writeMcuTxd, length_writeScan hscan]
    decide

theorem safe_setChannel (hheads : ∀ t, mac.heads t = posts t % t.count) (channel band : UInt8) :
    outline.Safe .driver (setChannel mac channel band) (Comes sure) ⟨.idle, sure, posts⟩ := by
  -- the two commands are any, lest their lengths be computed
  unfold setChannel
  generalize extCmd 0x4e = cmd
  generalize extCmd 0x08 = cmd'
  generalize writeChan channel band = body
  refine (safe_command hheads cmd body true).seq fun r y hr => ?_
  obtain ⟨ok, mac'⟩ := r
  refine Outline.Safe.ite (fun _ => ⟨hr.heads, fun h => (by cases h), hr.left⟩) fun htrue => ?_
  have hok : ok = true := by simpa using htrue
  obtain ⟨hidle, hsure⟩ := hr.done hok
  obtain ⟨stage, sure', posts'⟩ := y
  dsimp only at hidle hsure
  subst hidle hsure
  exact safe_command hr.heads cmd' body true

theorem safe_tx80211 (hheads : ∀ t, mac.heads t = posts t % t.count) (frame : List UInt8) :
    outline.Safe .driver (tx80211 mac frame) (Comes sure) ⟨.idle, sure, posts⟩ := by
  refine Outline.Safe.ite (fun _ => comes_false hheads) fun hlen => ?_
  cases htxwi : writeTxwi frame (dmaPhys + BitVec.ofNat 32 Buffer.frame.off) with
  | none => exact comes_false hheads
  | some txwi =>
    have hlength : txwi.length ≤ Buffer.txwi.size := Nat.le_of_eq (length_writeTxwi htxwi)
    have hframe : frame.length ≤ Buffer.frame.size := by
      show frame.length ≤ buf
      omega
    refine safe_driver fun half m _ _ h hclear hstep => ?_
    cases hstep
    refine ⟨_, h.fill nofun hclear hlength, ?_⟩
    refine safe_driver fun half m _ _ h hclear hstep => ?_
    cases hstep
    refine ⟨_, h.fill nofun hclear hframe, ?_⟩
    exact safe_postTx (t := .data) (b := .frame) trivial hheads (Nat.le_refl _)

theorem safe_run (hheads : ∀ t, mac.heads t = posts t % t.count) (call : Call) :
    outline.Safe .driver (call.run mac) (Comes sure) ⟨.idle, sure, posts⟩ := by
  unfold Call.run
  cases call with
  | command cmd payload wait => exact safe_command hheads cmd payload wait
  | scatter chunk => exact safe_scatter hheads chunk
  | startScan ssid => exact safe_startScan hheads ssid
  | setChannel channel band => exact safe_setChannel hheads channel band
  | tx80211 frame => exact safe_tx80211 hheads frame

theorem safe_driverLoop {y : At} (hheads : Heads mac y) (hidle : y.stage = .idle) :
    outline.Safe .driver (driverLoop mac) (fun _ _ => True) y := by
  refine Outline.Safe.iterate (fun mac y => Heads mac y ∧ y.stage = .idle) ⟨hheads, hidle⟩
    (fun _ _ _ => trivial) fun mac y hy => ?_
  obtain ⟨hheads, hidle⟩ := hy
  obtain ⟨stage, sure, posts⟩ := y
  dsimp only at hidle
  subst hidle
  refine safe_driver fun half m call _ h _ hstep => ?_
  cases hstep
  refine ⟨_, h.next, ?_⟩
  simp only [Prog.bind_eq]
  refine Outline.Safe.seq (safe_run hheads call) fun r y hr => ?_
  obtain ⟨ok, mac'⟩ := r
  obtain ⟨stage, sure, posts'⟩ := y
  refine safe_driver fun half m _ _ h _ hstep => ?_
  cases hstep
  cases ok with
  | true =>
    obtain ⟨hidle, hsure⟩ := hr.done rfl
    dsimp only at hidle hsure
    subst hidle
    exact ⟨_, h.reply fun _ => hsure, hr.heads, rfl⟩
  | false =>
    -- a call that ran out of looks forgets its descriptor
    have hforget : Inv ⟨.idle, false, posts'⟩ half m := by
      obtain hstage | ⟨t, hstage⟩ := hr.left
      · dsimp only at hstage
        subst hstage
        exact ⟨h.ring, fun hsure => (by cases hsure), h.call.early⟩
      · dsimp only at hstage
        subst hstage
        exact h.expire
    exact ⟨_, hforget.reply fun hok => (by cases hok), hr.heads, rfl⟩

theorem safe_radioLoop (t : Tx) : outline.Safe (.radio t) radioLoop (fun _ _ => True) false := by
  refine Outline.Safe.forever (fun half => half = false) rfl (fun _ _ => trivial) ?_
  rintro half rfl
  refine performs_radio fun y halves m _ _ hhalf h hstep => ?_
  cases hstep with
  | take _ _ hne =>
    have hring := h.ring t
    rw [hhalf] at hring
    refine ⟨true, h.radio (hring.take hne) ?_, ?_⟩
    · show (m.ring t).taken.length ≤ ((m.ring t).taken ++ [_]).length
      rw [List.length_append]
      exact Nat.le_add_right _ _
    refine performs_radio fun y halves m _ _ hhalf h hstep => ?_
    cases hstep
    have hring := h.ring t
    rw [hhalf] at hring
    exact ⟨false, h.radio hring.advance (Nat.le_refl _), rfl⟩

end programs

/-! ### Runs -/

/-- Where the driver is about to write a buffer, the rings that share it are drained. -/
def Waits (s : System) (t : Party) : Prop := ∀ b data k, s.prog t = .act (.fill b data) k → Clear s.mem b

/-- The radio reads for each descriptor what was posted with it, and a call that returns true has
had its descriptors taken. -/
structure Faithful (m : Mem) : Prop where
  read : ∀ t, (m.ring t).taken <+: (m.ring t).posted
  late : m.early = 0

theorem inv_start (seq : Nat) (bytes : Nat → UInt8) :
    Inv ⟨.idle, false, fun _ => 0⟩ (fun _ => false) (start seq bytes).mem := by
  refine ⟨fun t => ?_, fun hsure => (by cases hsure), rfl⟩
  constructor
  · rfl
  · exact (Nat.zero_mod _).symm
  · exact (Nat.zero_mod _).symm
  · rfl
  · exact Nat.le_refl _
  · exact Nat.zero_le _
  · exact List.nil_prefix
  · exact fun hlt => absurd hlt (Nat.lt_irrefl 0)
  · exact fun _ _ _ => rfl
  · rintro hs
    cases hs
  · rintro hs
    cases hs

/-- Along every run in which a buffer is written only while the rings that share it are drained. -/
theorem reachable_posts {seq : Nat} {bytes : Nat → UInt8} {s : System}
    (h : Reach Does Waits (start seq bytes) s) :
    Faithful s.mem := by
  have hholds : outline.Holds s := by
    refine Outline.holds_of_reach (O := outline) ?_ ?_ h
    · refine ⟨fun | .driver => ⟨.idle, false, fun _ => 0⟩ | .radio _ => false, inv_start seq bytes,
        fun t => ?_⟩
      cases t with
      | driver => exact safe_driverLoop (fun t => (Nat.zero_mod _).symm) rfl
      | radio t => exact safe_radioLoop t
    · intro s t G o k hmay hp _
      cases o with
      | fill b data => exact hmay b data k hp
      | _ => trivial
  obtain ⟨G, hinv, -⟩ := hholds
  exact ⟨fun t => (hinv.ring t).sound, hinv.call.early⟩

/-- Waiting is nothing more to do while no descriptor is posted. -/
theorem waits_of_clear {s : System} {t : Party} (h : ∀ b, Clear s.mem b) : Waits s t := fun b _ _ _ => h b

/-- A chunk is posted, and the radio takes it. -/
theorem reachable_posts_taken : ∃ s : System, Reach Does Waits (start 0 fun _ => 0) s ∧
    ((s.mem.ring .fwdl).taken.map Post.data = [[7]]) ∧ Faithful s.mem := by
  have hclear : ∀ b, Clear (start 0 fun _ => 0).mem b := fun _ _ _ => rfl
  have h0 : Reach Does Waits (start 0 fun _ => 0) _ := .init
  have h1 := h0.step (waits_of_clear hclear) (.turn (t := .driver) rfl)
  have h2 := h1.step (waits_of_clear hclear) (.act (t := .driver) rfl (.next _ (.scatter [7])))
  have h3 := h2.step (waits_of_clear fun _ _ _ => rfl) (.act (t := .driver) rfl (.fill _ _ _))
  have h4 := h3.step (waits_of_clear fun _ _ _ => rfl) (.act (t := .driver) rfl (.descWrite _ _ _ _))
  have h5 := h4.step (waits_of_clear fun _ t _ => by cases t <;> rfl)
    (.act (t := .driver) rfl (.dmaIdx _ _))
  have h6 := h5.step (waits_of_clear fun _ t _ => by cases t <;> rfl)
    (.act (t := .driver) rfl (.kick _ _ _))
  have h7 := h6.step (fun _ _ _ hp => by cases hp) (.turn (t := .radio .fwdl) rfl)
  have h8 := h7.step (fun _ _ _ hp => by cases hp)
    (.act (t := .radio .fwdl) rfl (.take _ .fwdl (by decide)))
  exact ⟨_, h8, by decide, reachable_posts h8⟩

/-- One access of the driver, whose program then goes on as `p`. -/
theorem reach_act {init : System} {f : Party → Code Empty} {m m' : Mem} {o : Op} {k : o.Res → Code Empty}
    (h : Reach Does (fun _ _ => True) init ⟨f, m⟩) (hf : f .driver = .act o k) {r : o.Res}
      (hs : Does .driver m o r m')
    {p : Code Empty} (hp : k r = p) : Reach Does (fun _ _ => True) init ⟨Function.update f .driver p, m'⟩ :=
  hp ▸ h.step trivial (.act hf hs)

/-- Nothing moves while the driver looks, and its call comes back with false. -/
theorem reach_expire {init : System} {t : Tx} {idx index : Nat} {m : Mem}
    (hctrl : ((m.ring t).descs idx).ctrl &&& dmaDone = 0)
    (hdma : (m.ring t).dma % 2 ^ 8 = index) {k : Bool → Code Empty} (n : Nat) {f : Party → Code Empty}
    (h : Reach Does (fun _ _ => True) init ⟨f, m⟩) (hf : f .driver = (waitDone t idx index n).bind k) :
    Reach Does (fun _ _ => True) init ⟨Function.update f .driver (k false), m⟩ := by
  have hself : ∀ (f : Party → Code Empty) (p : Code Empty), Function.update f .driver p .driver = p :=
    fun f p => Function.update_self ..
  induction n generalizing f with
  | zero =>
    rw [show k false = f .driver from hf.symm, Function.update_eq_self]
    exact h
  | succ n ih =>
    have hlook : (if ((m.ring t).descs idx).ctrl &&& dmaDone ≠ 0 then (Prog.ret true : Code Bool)
        else .act (.dmaIdx t) fun now : Nat => if now ≠ index then .ret true
          else waitDone t idx index n).bind k =
        .act (.dmaIdx t) fun now : Nat => (if now ≠ index then (Prog.ret true : Code Bool)
          else waitDone t idx index n).bind k := by
      rw [if_neg (not_not.mpr hctrl)]
      rfl
    have hrest : (if (m.ring t).dma % 2 ^ 8 ≠ index then (Prog.ret true : Code Bool)
      else waitDone t idx index n).bind k =
        (waitDone t idx index n).bind k := by
      rw [if_neg (not_not.mpr hdma)]
    have hread := reach_act h hf (.readCtrl m t idx) hlook
    have hindex := reach_act hread (hself _ _) (.dmaIdx m t) hrest
    have hnext := ih hindex (hself _ _)
    rw [Function.update_idem, Function.update_idem] at hnext
    exact hnext

/-- The same within a post, a call and the loop of calls. -/
theorem reach_expire_call {init : System} {t : Tx} {idx index : Nat} {s : System}
    (h : Reach Does (fun _ _ => True) init s) {β γ : Type} {f : Bool → Code β} {g : β → Code γ}
      {k : γ → Code Empty}
    (hp : s.prog .driver = (((waitDone t idx index mcuSpin).bind f).bind g).bind k)
    (hctrl : ((s.mem.ring t).descs idx).ctrl &&& dmaDone = 0) (hdma : (s.mem.ring t).dma % 2 ^ 8 = index) :
    Reach Does (fun _ _ => True) init ⟨Function.update s.prog .driver (((f false).bind g).bind k),
      s.mem⟩ := by
  rw [Prog.bind_assoc, Prog.bind_assoc] at hp
  have hexpire := reach_expire hctrl hdma mcuSpin h hp
  rw [← Prog.bind_assoc] at hexpire
  exact hexpire

/-- The descriptor of a chunk is left to the radio, and the next chunk is copied into the buffer
before it is taken. -/
theorem chunk_overwritten : ¬∀ (seq : Nat) (bytes : Nat → UInt8) (s : System),
    Reach Does (fun _ _ => True) (start seq bytes) s → Faithful s.mem := by
  intro h
  have h0 : Reach Does (fun _ _ => True) (start 0 fun _ => 0) _ := .init
  have h1 := h0.step trivial (.turn (t := .driver) rfl)
  have h2 := h1.step trivial (.act (t := .driver) rfl (.next _ (.scatter [1])))
  have h3 := h2.step trivial (.act (t := .driver) rfl (.fill _ _ _))
  have h4 := h3.step trivial (.act (t := .driver) rfl (.descWrite _ _ _ _))
  have h5 := h4.step trivial (.act (t := .driver) rfl (.dmaIdx _ _))
  have h6 := h5.step trivial (.act (t := .driver) rfl (.kick _ _ _))
  have h7 := reach_expire_call (t := .fwdl) h6 rfl (by decide) rfl
  have h8 := h7.step trivial (.act (t := .driver) rfl (.reply _ _))
  have h9 := h8.step trivial (.turn (t := .driver) rfl)
  have h10 := h9.step trivial (.act (t := .driver) rfl (.next _ (.scatter [2])))
  have h11 := h10.step trivial (.act (t := .driver) rfl (.fill _ _ _))
  have h12 := h11.step trivial (.turn (t := .radio .fwdl) rfl)
  have h13 := h12.step trivial (.act (t := .radio .fwdl) rfl (.take _ .fwdl (by decide)))
  have hread := List.prefix_iff_eq_take.mp ((h 0 _ _ h13).read .fwdl)
  have hbytes := congrArg (List.map Post.data) hread
  exact absurd hbytes (by decide)

end Lerux.Mt7921.Transmit

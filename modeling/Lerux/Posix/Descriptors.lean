import Lerux.Posix.Files

/-!
# Descriptors over any file server

What the table of descriptors and the lent buffer come to when the server behind the rings may do
anything: it may answer with any status, length and descriptor, late or not at all, and write all
over the shared memory at any moment. A call that fails leaves the table as it was, a transfer moves
the cursor by what it reports, and no access leaves the windows of the share (`perform_law`). A
completion is taken only under the id of the command that is in flight (`exchanges_matched`).
-/

namespace Lerux.Posix

open Lerux.Base
open Lerux.FatFs (Buffer Command slice copyAt)

variable {σ : Type}

/-! ### What a client keeps -/

def ShareAccess.Inside (a : ShareAccess σ) : Prop := a.offset + a.bytes.length ≤ shareMin

/-- The bytes that were read, in the order of the accesses. -/
def loaded (accesses : List (ShareAccess σ)) : List UInt8 :=
  accesses.flatMap fun a => if a.store then [] else a.bytes

/-- The id of the exchange after `k` others; 0 is skipped. -/
def idAfter (k : Nat) : Nat := k % (2 ^ 64 - 1) + 1

/-- The completion at the front of a ring that was looked at. -/
def front (ring : Ring 64 FsCmpl) : Option FsCmpl := (fsMessageDequeue ring).1

def Full (ring : Ring 64 FsCmd) : Prop := RingWord.isFull ring.tail ring.head fsQueueCapacity = true

/-- A command that is refused leaves the ring full. -/
theorem fsEnqueue_full {queue : Ring 64 FsCmd} {cmd : FsCmd} (h : (fsEnqueue queue cmd).1 ≠ 0) :
    Full (fsEnqueue queue cmd).2 := by
  unfold fsEnqueue at h ⊢
  dsimp only at h ⊢
  by_cases hfull : RingWord.isFull queue.tail queue.head fsQueueCapacity = true
  · rwa [if_pos hfull]
  · rw [if_neg hfull] at h
    exact absurd rfl h

/-- When a wake returned, a completion with the id of the exchange was at the front. -/
def Exchange.Arrived (e : Exchange) : Prop := ∃ ring ∈ e.looks, ∃ cmpl, front ring = some cmpl ∧
    cmpl.id = e.id

/-- The exchange put a command with its id in the ring. -/
def Exchange.Sent (e : Exchange) : Prop := ∃ before cmd, cmd.id = e.id ∧ fsEnqueue before cmd = (0, e.sent)

/-- The id of the command is the one of the completion taken, and that is the one at the front when
the last wake returned. Without one, two wakes passed or the command ring was full. -/
structure Exchange.Matched (e : Exchange) : Prop where
  looks : e.looks.length ≤ 2
  taken : ∀ cmpl, e.result = .ok cmpl → e.Sent ∧ cmpl.id = e.id ∧ ∃ ring,
    e.looks.getLast? = some ring ∧ front ring = some cmpl
  missed : ∀ err, e.result = .error err → ¬e.Arrived ∧
    (err = .enomem ∧ e.looks = [] ∧ Full e.sent ∨ err = .fileErr ∧ e.Sent ∧ e.looks.length = 2)

theorem Exchange.Matched.arrived {e : Exchange} (h : e.Matched) {cmpl : FsCmpl}
    (hok : e.result = .ok cmpl) : e.Arrived := by
  obtain ⟨-, hid, ring, hlast, hfront⟩ := h.taken cmpl hok
  exact ⟨ring, List.mem_of_getLast? hlast, cmpl, hfront, hid⟩

/-- Between two calls. -/
structure Safe (c : Client σ) : Prop where
  flight : c.flight = .idle
  room : shareMin ≤ c.shareLen
  inside : ∀ a ∈ c.accesses, a.Inside
  matched : ∀ (k : Nat) (e : Exchange), c.exchanges[k]? = some e → e.id.toNat = idAfter k ∧ e.Matched
  next : c.nextId.toNat = idAfter c.exchanges.length

/-- Where a call has come to: the table, the lent buffer, and what was read since `c`. -/
structure At (c : Client σ) (slots : Fin tableLen → Slot) (lent loads : List UInt8) (s : Client σ) :
    Prop where
  slots : s.slots = slots
  lent : s.lent = lent
  accesses : ∃ new, s.accesses = c.accesses ++ new ∧ loaded new = loads
  exchanges : c.exchanges <+: s.exchanges
  safe : Safe s

/-- What an exchange does to a client. -/
structure Exchanged (s s' : Client σ) (result : Except Errno FsCmpl) : Prop where
  slots : s'.slots = s.slots
  lent : s'.lent = s.lent
  accesses : s'.accesses = s.accesses
  shareLen : s'.shareLen = s.shareLen
  flight : s'.flight = .idle
  next : s'.nextId = if s.nextId + 1 = 0 then 1 else s.nextId + 1
  recorded : ∃ e, s'.exchanges = s.exchanges ++ [e] ∧ e.id = s.nextId ∧ e.result = result ∧ e.Matched

/-- Inside an exchange that began in `s` and has looked at some completion rings. -/
structure Begun (s : Client σ) (looks : List (Ring 64 FsCmpl)) (t : Client σ) : Prop where
  flight : t.flight = .waiting s.nextId
  looks : t.looks = looks
  slots : t.slots = s.slots
  lent : t.lent = s.lent
  accesses : t.accesses = s.accesses
  shareLen : t.shareLen = s.shareLen
  exchanges : t.exchanges = s.exchanges
  next : t.nextId = if s.nextId + 1 = 0 then 1 else s.nextId + 1

/-- Its command is in the ring, and none of the completions it took was for it. -/
structure Waiting (s : Client σ) (looks : List (Ring 64 FsCmpl)) (t : Client σ) : Prop where
  begun : Begun s looks t
  sent : ∃ before cmd, cmd.id = s.nextId ∧ fsEnqueue before cmd = (0, t.sent)
  missed : ∀ ring ∈ looks, ∀ cmpl, front ring = some cmpl → cmpl.id ≠ s.nextId

section exchanges

variable {peer : Peer σ} {s t : Client σ} {looks : List (Ring 64 FsCmpl)} {params : Command}
  {R : Errno → Client σ → Prop}

theorem Begun.turned (h : Begun s looks t) (p : σ) (mem : Mem) : Begun s looks { t with peer := p, mem } :=
  ⟨h.flight, h.looks, h.slots, h.lent, h.accesses, h.shareLen, h.exchanges, h.next⟩

theorem enqueue_begun (h : Begun s [] t) :
    Ends (fsCommandEnqueue peer s.nextId params) t
      (fun status t' => if status ≠ 0 then Begun s [] t' ∧ Full t'.sent else Waiting s [] t') R := by
  have hturn : Ends (turn peer) t (fun _ => Begun s []) R := h.turned _ _
  unfold fsCommandEnqueue
  refine Ends.seq hturn (fun _ t' h' => ?_) fun _ _ h => h
  refine Ends.bind (Ends.get (Ends.bind (Ends.set (Ends.pure ?_))))
  have hbegun : ∀ command, Begun s [] { t' with mem := { t'.mem with command }, staged := [], sent := command } :=
    fun _ => ⟨h'.flight, h'.looks, h'.slots, h'.lent, h'.accesses, h'.shareLen, h'.exchanges, h'.next⟩
  split
  · next hstatus =>
    exact ⟨hbegun _, fsEnqueue_full hstatus⟩
  · next hstatus =>
    refine ⟨hbegun _, ⟨t'.mem.command, FsCmd.mk s.nextId params t'.staged, rfl, ?_⟩,
      fun _ hmem => (List.not_mem_nil hmem).elim⟩
    rw [not_not] at hstatus
    exact Prod.ext hstatus rfl

/-- A ring is looked at after a wake. -/
theorem takeMatch_begun (h : Begun s looks t) : Ends takeMatch t
    (fun got t' => ∃ ring, Begun s (looks ++ [ring]) t' ∧ t'.sent = t.sent ∧ got =
      (front ring).filter fun cmpl => cmpl.id = s.nextId)
    R := by
  unfold takeMatch
  refine Ends.bind (Ends.get ?_)
  rw [h.flight]
  exact ⟨t.mem.completion,
    ⟨rfl, congrArg (· ++ _) h.looks, h.slots, h.lent, h.accesses, h.shareLen, h.exchanges, h.next⟩,
      rfl, rfl⟩

theorem finish_begun (h : Begun s looks t) {result : Except Errno FsCmpl}
    (hmatched : (⟨s.nextId, t.sent, looks, result⟩ : Exchange).Matched) :
    Ends (finish s.nextId result) t (fun cmpl => (Exchanged s · (.ok cmpl))) fun err =>
      (Exchanged s · (.error err)) := by
  have hrecorded : t.exchanges ++ [⟨s.nextId, t.sent, t.looks, result⟩] =
    s.exchanges ++ [⟨s.nextId, t.sent, looks, result⟩] := by
    rw [h.exchanges, h.looks]
  unfold finish
  refine Ends.bind (Ends.modify (Ends.bind (Ends.modify ?_)))
  cases result with
  | ok cmpl => exact ⟨h.slots, h.lent, h.accesses, h.shareLen, rfl, h.next, _, hrecorded, rfl, rfl,
    hmatched⟩
  | error err => exact ⟨h.slots, h.lent, h.accesses, h.shareLen, rfl, h.next, _, hrecorded, rfl,
    rfl, hmatched⟩

/-- The wakes that are left. -/
theorem await_waiting (left : Nat) : ∀ (looks : List (Ring 64 FsCmpl)) (t : Client σ),
    Waiting s looks t → looks.length + left = 2 →
    Ends (await peer s.nextId left) t (fun cmpl => (Exchanged s · (.ok cmpl))) fun err =>
      (Exchanged s · (.error err)) := by
  induction left with
  | zero =>
    intro looks t h hlooks
    refine finish_begun h.begun ⟨hlooks.le, fun cmpl hok => (by cases hok), fun err herr => ?_⟩
    cases herr
    refine ⟨?_, .inr ⟨rfl, h.sent, hlooks⟩⟩
    rintro ⟨ring, hring, cmpl, hfront, hid⟩
    exact h.missed ring hring cmpl hfront hid
  | succ left ih =>
    intro looks t h hlooks
    unfold await
    have hturn : Ends (turn peer) t (fun _ => Waiting s looks) fun _ _ => False :=
      ⟨h.begun.turned _ _, h.sent, h.missed⟩
    refine Ends.seq hturn (fun _ t' h' => ?_) fun _ _ hfalse => hfalse.elim
    refine Ends.seq (takeMatch_begun h'.begun) (fun got t'' hgot => ?_) fun _ _ hfalse => hfalse
    obtain ⟨ring, h'', hsent, hgot⟩ := hgot
    have hlength : (looks ++ [ring]).length + left = 2 := by
      rw [List.length_append, List.length_singleton]
      omega
    have hput := h'.sent
    rw [← hsent] at hput
    cases got with
    | none =>
      refine ih _ t'' ⟨h'', hput, fun other hother cmpl hfront => ?_⟩ hlength
      rcases List.mem_append.mp hother with hother | hother
      · exact h'.missed other hother cmpl hfront
      · rw [List.mem_singleton.mp hother] at hfront
        simpa using Option.filter_eq_none_iff.mp hgot.symm cmpl hfront
    | some cmpl =>
      obtain ⟨hfront, hid⟩ := Option.filter_eq_some_iff.mp hgot.symm
      have htwo : (looks ++ [ring]).length ≤ 2 := by omega
      refine finish_begun h'' ⟨htwo, fun cmpl' hok => ?_, fun err herr => by cases herr⟩
      cases hok
      exact ⟨hput, of_decide_eq_true hid, ring, List.getLast?_concat, hfront⟩

theorem exchange_spec (h : s.flight = .idle) :
    Ends (exchange peer params) s (fun cmpl => (Exchanged s · (.ok cmpl))) fun err =>
      (Exchanged s · (.error err)) := by
  unfold exchange allocId
  refine Ends.bind (Ends.get ?_)
  rw [h]
  refine Ends.bind (Ends.modify (Ends.bind (Ends.bind (Ends.get (Ends.bind (Ends.set (Ends.pure ?_)))))))
  refine Ends.bind (Ends.modify ?_)
  refine Ends.seq (@enqueue_begun _ peer s _ params _ ?_) (fun status t ht => ?_) fun _ _ hfalse => hfalse
  · exact ⟨rfl, rfl, rfl, rfl, rfl, rfl, rfl, rfl⟩
  refine Ends.ite (fun hstatus => ?_) fun hstatus => ?_
  · rw [if_pos hstatus] at ht
    refine finish_begun ht.1 ⟨Nat.zero_le _, fun cmpl hok => (by cases hok), fun err herr => ?_⟩
    cases herr
    exact ⟨fun ⟨ring, hring, _⟩ => List.not_mem_nil hring, .inl ⟨rfl, rfl, ht.2⟩⟩
  · rw [if_neg hstatus] at ht
    exact await_waiting 2 [] t ht rfl

end exchanges

section safe

variable {peer : Peer σ} {c s s' : Client σ} {slots : Fin tableLen → Slot} {lent loads : List UInt8}
  {R : Errno → Client σ → Prop}

theorem idAfter_succ (k : Nat) : idAfter (k + 1) = if idAfter k = 2 ^ 64 - 1 then 1 else idAfter k + 1 := by
  unfold idAfter
  split <;> omega

theorem Exchanged.safe {result : Except Errno FsCmpl} (h : Exchanged s s' result) (hs : Safe s) :
    Safe s' := by
  obtain ⟨last, hexchanges, hid, -, hmatched⟩ := h.recorded
  refine ⟨h.flight, ?_, ?_, ?_, ?_⟩
  · rw [h.shareLen]
    exact hs.room
  · rw [h.accesses]
    exact hs.inside
  · intro k e hk
    rw [hexchanges] at hk
    obtain hbefore | ⟨rfl, rfl⟩ : s.exchanges[k]? = some e ∨ k = s.exchanges.length ∧ last = e := by
      rcases Nat.lt_trichotomy k s.exchanges.length with hlt | rfl | hgt
      · exact .inl (by rwa [List.getElem?_append_left hlt] at hk)
      · exact .inr ⟨rfl, by simpa using hk⟩
      · rw [List.getElem?_eq_none (by rw [List.length_append, List.length_singleton]; omega)] at hk
        cases hk
    · exact hs.matched k e hbefore
    · exact ⟨by rw [hid]; exact hs.next, hmatched⟩
  · have hzero : s.nextId + 1 = 0 ↔ idAfter s.exchanges.length = 2 ^ 64 - 1 := by
      rw [← hs.next, ← BitVec.toNat_inj]
      have hlt := s.nextId.isLt
      rw [BitVec.toNat_add, show (1 : BitVec 64).toNat = 1 from rfl, show (0 : BitVec 64).toNat =
        0 from rfl]
      omega
    rw [h.next, hexchanges, List.length_append, List.length_singleton, idAfter_succ]
    by_cases hlast : idAfter s.exchanges.length = 2 ^ 64 - 1
    · rw [if_pos hlast, if_pos (hzero.mpr hlast)]
      rfl
    · rw [if_neg hlast, if_neg fun h => hlast (hzero.mp h), ← hs.next]
      have hnext := hs.next
      have := s.nextId.isLt
      rw [← hnext] at hlast
      rw [BitVec.toNat_add]
      exact Nat.mod_eq_of_lt (show s.nextId.toNat + 1 < 2 ^ 64 by omega)

theorem Exchanged.grown {result : Except Errno FsCmpl} (h : Exchanged s s' result) :
    s.exchanges <+: s'.exchanges := by
  obtain ⟨e, hexchanges, -⟩ := h.recorded
  exact ⟨_, hexchanges.symm⟩

theorem At.exchanged {result : Except Errno FsCmpl} (h : At c slots lent loads s)
    (he : Exchanged s s' result) : At c slots lent loads s' :=
  ⟨he.slots.trans h.slots, he.lent.trans h.lent,
    by rw [he.accesses]; exact h.accesses, h.exchanges.trans he.grown, he.safe h.safe⟩

theorem exchange_at (h : At c slots lent loads s) (params : Command) :
    Ends (exchange peer params) s (fun _ => At c slots lent loads) fun _ => At c slots lent loads :=
  (exchange_spec h.safe.flight).mono (fun _ _ => h.exchanged) fun _ _ => h.exchanged

theorem turn_at (h : At c slots lent loads s) : Ends (turn peer) s (fun _ => At c slots lent loads) R :=
  ⟨h.slots, h.lent, h.accesses, h.exchanges,
    ⟨h.safe.flight, h.safe.room, h.safe.inside, h.safe.matched, h.safe.next⟩⟩

/-- One more access. -/
theorem At.access {a : ShareAccess σ} (h : At c slots lent loads s) (ha : a.Inside)
    (hslots : s'.slots = s.slots) (hlent : s'.lent = s.lent)
    (haccesses : s'.accesses = s.accesses ++ [a]) (hflight : s'.flight = s.flight)
      (hlen : s'.shareLen = s.shareLen)
    (hexchanges : s'.exchanges = s.exchanges) (hnext : s'.nextId = s.nextId) : At c slots lent
      (loads ++ loaded [a]) s' := by
  obtain ⟨new, hnew, hloads⟩ := h.accesses
  refine ⟨hslots.trans h.slots, hlent.trans h.lent, ⟨new ++ [a], ?_, ?_⟩, ?_,
    hflight.trans h.safe.flight, ?_, ?_, ?_, ?_⟩
  · rw [haccesses, hnew, List.append_assoc]
  · rw [loaded, List.flatMap_append]
    exact congrArg (· ++ _) hloads
  · rw [hexchanges]
    exact h.exchanges
  · rw [hlen]
    exact h.safe.room
  · rw [haccesses]
    intro b hb
    rcases List.mem_append.mp hb with hb | hb
    · exact h.safe.inside b hb
    · rwa [List.mem_singleton.mp hb]
  · rw [hexchanges]
    exact h.safe.matched
  · rw [hnext, hexchanges]
    exact h.safe.next

theorem toShare_at {offset : Nat} {bytes : List UInt8} (h : At c slots lent loads s)
    (hin : offset + bytes.length ≤ shareMin) :
    Ends (toShare peer offset bytes) s (fun _ => At c slots lent loads) R := by
  unfold toShare
  refine Ends.seq (turn_at h) (fun _ t ht => ?_) fun _ _ hfalse => hfalse
  have hmore := @At.access _ c t { t with
    mem := { t.mem with share := copyAt offset bytes t.mem.share }
    staged := t.staged ++ [(offset, bytes)]
    accesses := t.accesses ++ [⟨true, offset, bytes, t.peer, t.mem⟩] } slots lent loads
    ⟨true, offset, bytes, t.peer, t.mem⟩ ht hin rfl rfl rfl rfl rfl rfl rfl
  rwa [show loads ++ loaded [⟨true, offset, bytes, t.peer, t.mem⟩] =
    loads from List.append_nil loads] at hmore

theorem length_slice (bytes : FatFs.Bytes) (offset size : Nat) : (slice bytes offset size).length =
    size := by
  rw [slice, List.length_map, List.length_range]

theorem fromShare_at {offset size : Nat} (h : At c slots lent loads s) (hin : offset + size ≤ shareMin) :
    Ends (fromShare peer offset size) s (fun bytes s' => bytes.length = size ∧
      At c slots lent (loads ++ bytes) s') R := by
  unfold fromShare
  refine Ends.seq (turn_at h) (fun _ t ht => ?_) fun _ _ hfalse => hfalse
  have hlength := length_slice t.mem.share offset size
  have hmore := @At.access _ c t { t with
    accesses := t.accesses ++ [⟨false, offset, slice t.mem.share offset size, t.peer, t.mem⟩] }
      slots lent loads
    ⟨false, offset, slice t.mem.share offset size, t.peer, t.mem⟩ ht
      (by rwa [ShareAccess.Inside, hlength]) rfl rfl rfl rfl rfl rfl rfl
  rw [show loaded [⟨false, offset, slice t.mem.share offset size, t.peer, t.mem⟩] =
    slice t.mem.share offset size from
    List.append_nil _] at hmore
  exact ⟨hlength, hmore⟩

theorem place_at {path : List UInt8} {offset : Nat} (h : At c slots lent loads s)
    (hin : offset + pathLimit ≤ shareMin) :
    Ends (place peer path offset) s (fun _ => At c slots lent loads) fun _ => At c slots lent loads := by
  unfold place
  refine Ends.ite (fun _ => h) fun hlength => ?_
  refine Ends.bind (Ends.get ?_)
  refine Ends.ite (fun _ => h) fun _ => ?_
  exact Ends.seq (toShare_at h (by omega)) (fun _ _ h' => h') fun _ _ hfalse => hfalse

end safe

/-! ### Transfers -/

section transfers

variable {peer : Peer σ} {c s : Client σ} {t : Transfer σ} {fd : Fd} {server cursor : BitVec 64}
  {access : Access} {len : Nat}
  {buf : List UInt8}

theorem keepOr_ends {done : Nat} {err : Errno} {Q : Nat → Client σ → Prop}
    {R : Errno → Client σ → Prop} (hQ : 0 < done → Q done s)
    (hR : done = 0 → R err s) : Ends (keepOr done err) s Q R := by
  unfold keepOr
  exact Ends.ite (fun hpos => hQ hpos) fun hzero => hR (by omega)

theorem completedLen_le {data : BitVec 64} {chunk n : Nat} (h : completedLen data chunk = some n) :
    n ≤ chunk := by
  unfold completedLen at h
  split at h
  · cases h
    assumption
  · cases h

/-- What holds between two turns of a transfer holds at its end, with the bytes that it reports. It
fails only before the first one. -/
theorem transfer_ends {I : Nat → Client σ → Prop}
    (hstage : ∀ done chunk s, I done s → done + chunk ≤ len → chunk ≤ dataLen →
      Ends (t.stage done chunk) s (fun _ => I done) fun _ _ => False)
    (hexchange : ∀ done params s, I done s →
      Ends (exchange peer params) s (fun _ => I done) fun _ => I done)
    (hland : ∀ done n s, I done s → done + n ≤ len → n ≤ dataLen →
      Ends (t.land done n >>= fun _ => setCursor fd (cursor + BitVec.ofNat 64 (done + n))) s
        (fun _ => I (done + n)) fun _ _ => False)
    (fuel : Nat) : ∀ (done : Nat) (s : Client σ), done ≤ len → I done s →
      Ends (transfer peer t fd len fuel (cursor + BitVec.ofNat 64 done) done) s (fun n s' => n ≤
        len ∧ I n s') fun _ => I 0 := by
  induction fuel with
  | zero => exact fun done s hle h => ⟨hle, h⟩
  | succ fuel ih =>
    intro done s hle h
    unfold transfer
    refine Ends.ite (fun _ => ⟨hle, h⟩) fun hmore => ?_
    have hchunk : done + min (len - done) dataLen ≤ len := by omega
    have hkeep : ∀ (err : Errno) (s' : Client σ), I done s' →
      Ends (keepOr done err) s' (fun n s'' => n ≤ len ∧ I n s'') fun _ => I 0 :=
      fun err s' h' => keepOr_ends (fun _ => ⟨hle, h'⟩) fun hzero => hzero ▸ h'
    refine Ends.seq (hstage done _ s h hchunk (min_le_right _ _))
      (fun _ s₁ h₁ => ?_) fun _ _ hfalse => hfalse.elim
    refine Ends.bind (Ends.attempt ((hexchange done _ s₁ h₁).mono (fun cmpl s₂ h₂ => ?_)
      fun err s₂ h₂ => hkeep err s₂ h₂))
    dsimp only
    cases mapStatus cmpl.status with
    | error err => exact hkeep err s₂ h₂
    | ok _ =>
      cases hlen : completedLen cmpl.data (min (len - done) dataLen) with
      | none => exact hkeep .fileErr s₂ h₂
      | some n =>
        have hn := completedLen_le hlen
        have hcursor : cursor + BitVec.ofNat 64 done + BitVec.ofNat 64 n =
          cursor + BitVec.ofNat 64 (done + n) := by
          rw [BitVec.ofNat_add, BitVec.add_assoc]
        dsimp only
        rw [hcursor]
        have hmoved := hland done n s₂ h₂ (by omega) (by omega)
        have hrest : ∀ s₃, I (done + n) s₃ → Ends (if n < min (len - done) dataLen then pure (done + n)
            else transfer peer t fd len fuel (cursor + BitVec.ofNat 64 (done + n)) (done + n)) s₃
              (fun n s' => n ≤ len ∧ I n s') fun _ => I 0 :=
          fun s₃ h₃ => Ends.ite (fun _ => ⟨by omega, h₃⟩) fun _ => ih (done + n) s₃ (by omega) h₃
        have hwhole := Ends.seq hmoved (fun _ s₃ h₃ => hrest s₃ h₃) fun _ _ hfalse => hfalse.elim
        rwa [bind_assoc] at hwhole

/-- The table while a transfer is under way. -/
def moving (c : Client σ) (fd : Fd) (server : BitVec 64) (access : Access) (cursor : BitVec 64)
    (done : Nat) : Fin tableLen → Slot :=
  Function.update c.slots fd.index (.file server access (cursor + BitVec.ofNat 64 done))

theorem moving_zero (h : c.slots fd.index = .file server access cursor) :
    moving c fd server access cursor 0 = c.slots := by
  rw [moving, show cursor + BitVec.ofNat 64 0 = cursor from BitVec.add_zero cursor, ← h,
    Function.update_eq_self]

theorem setCursor_at {lent loads : List UInt8} {done done' : Nat}
    (h : At c (moving c fd server access cursor done) lent loads s) :
    Ends (setCursor fd (cursor + BitVec.ofNat 64 done')) s
      (fun _ => At c (moving c fd server access cursor done') lent loads)
      fun _ _ => False := by
  refine ⟨?_, h.lent, h.accesses, h.exchanges,
    ⟨h.safe.flight, h.safe.room, h.safe.inside, h.safe.matched, h.safe.next⟩⟩
  change Function.update s.slots fd.index ((s.slots fd.index).withCursor _) = _
  rw [h.slots, moving, moving, Function.update_self, Function.update_idem]
  rfl

theorem copyOut_at {slots : Fin tableLen → Slot} {loads bytes : List UInt8}
    (h : At c slots (loads ++ buf.drop loads.length) (loads ++ bytes) s) :
    Ends (copyOut loads.length bytes) s (fun _ => At c slots
      ((loads ++ bytes) ++ buf.drop (loads ++ bytes).length) (loads ++ bytes))
      fun _ _ => False := by
  refine ⟨h.slots, ?_, h.accesses, h.exchanges,
    ⟨h.safe.flight, h.safe.room, h.safe.inside, h.safe.matched, h.safe.next⟩⟩
  change s.lent.take loads.length ++ bytes ++ s.lent.drop (loads.length + bytes.length) = _
  rw [h.lent, List.take_left, List.drop_append, List.drop_eq_nil_of_le (Nat.le_add_right _ _),
    List.nil_append, Nat.add_sub_cancel_left,
    List.drop_drop, List.length_append]

/-- The bytes read so far stand in front of the rest of the buffer. -/
def ReadTo (c : Client σ) (fd : Fd) (server : BitVec 64) (access : Access) (cursor : BitVec 64)
    (buf : List UInt8) (n : Nat)
    (s : Client σ) : Prop :=
  ∃ bytes, bytes.length = n ∧ At c (moving c fd server access cursor n) (bytes ++ buf.drop n) bytes s

theorem read_land {done n : Nat} (h : ReadTo c fd server access cursor buf done s) (hn : n ≤ dataLen) :
    Ends ((readTransfer peer server).land done n >>=
      fun _ => setCursor fd (cursor + BitVec.ofNat 64 (done + n))) s
      (fun _ => ReadTo c fd server access cursor buf (done + n)) fun _ _ => False := by
  obtain ⟨loads, rfl, h⟩ := h
  have hin : dataAt + n ≤ shareMin := by
    unfold dataLen at hn
    have : dataAt ≤ shareMin := by decide
    omega
  have hland : Ends ((readTransfer peer server).land loads.length n) s (fun _ s' => ∃ bytes,
    bytes.length = n ∧
      At c (moving c fd server access cursor loads.length)
        ((loads ++ bytes) ++ buf.drop (loads ++ bytes).length) (loads ++ bytes) s')
      fun _ _ => False := by
    refine Ends.seq (fromShare_at h hin) (fun bytes s' h' => ?_) fun _ _ hfalse => hfalse
    exact (copyOut_at h'.2).mono (fun _ _ h'' => ⟨bytes, h'.1, h''⟩) fun _ _ hfalse => hfalse
  refine Ends.seq hland (fun _ s' h' => ?_) fun _ _ hfalse => hfalse
  obtain ⟨bytes, rfl, h'⟩ := h'
  refine (setCursor_at h').mono (fun _ s'' h'' => ⟨loads ++ bytes, List.length_append, ?_⟩)
    fun _ _ hfalse => hfalse
  rwa [List.length_append] at h''

theorem read_transfer (h : At c c.slots buf [] s) (hslot : c.slots fd.index = .file server access cursor) :
    Ends (transfer peer (readTransfer peer server) fd buf.length buf.length cursor 0) s
      (fun n s' => n ≤ buf.length ∧ ReadTo c fd server access cursor buf n s') fun _ =>
        At c c.slots buf [] := by
  have hstart : ReadTo c fd server access cursor buf 0 s := ⟨[], rfl, by rwa [moving_zero hslot]⟩
  have hends := @transfer_ends σ peer (readTransfer peer server) fd cursor buf.length
    (ReadTo c fd server access cursor buf)
    (fun _ _ _ h _ _ => h)
    (fun _ params _ ⟨bytes, hlength, h⟩ =>
      (exchange_at h params).mono (fun _ _ h' => ⟨bytes, hlength, h'⟩) fun _ _ h' => ⟨bytes, hlength, h'⟩)
    (fun _ _ _ h _ hn => read_land h hn) buf.length 0 s (Nat.zero_le _) hstart
  rw [show cursor + BitVec.ofNat 64 0 = cursor from BitVec.add_zero cursor] at hends
  refine hends.mono (fun _ _ h' => h') fun _ s' h' => ?_
  obtain ⟨bytes, hlength, h'⟩ := h'
  obtain rfl := List.length_eq_zero_iff.mp hlength
  rwa [moving_zero hslot] at h'

theorem write_transfer (h : At c c.slots buf [] s) (hslot : c.slots fd.index = .file server access cursor) :
    Ends (transfer peer (writeTransfer peer server buf) fd buf.length buf.length cursor 0) s
      (fun n s' => n ≤ buf.length ∧ At c (moving c fd server access cursor n) buf [] s') fun _ =>
        At c c.slots buf [] := by
  have hstart : At c (moving c fd server access cursor 0) buf [] s := by rwa [moving_zero hslot]
  have hends := @transfer_ends σ peer (writeTransfer peer server buf) fd cursor buf.length
    (fun n => At c (moving c fd server access cursor n) buf [])
    (fun done chunk _ h hfits hchunk => toShare_at h (by
      have hlength : ((buf.drop done).take chunk).length ≤ chunk := List.length_take_le _ _
      have hroom : dataAt + dataLen = shareMin := by decide
      omega))
    (fun _ params _ h => exchange_at h params) (fun _ _ _ h _ _ => setCursor_at h) buf.length 0 s
      (Nat.zero_le _) hstart
  rw [show cursor + BitVec.ofNat 64 0 = cursor from BitVec.add_zero cursor] at hends
  refine hends.mono (fun _ _ h' => h') fun _ s' h' => ?_
  rwa [moving_zero hslot] at h'

end transfers

/-! ### Calls -/

/-- The lowest number that is free. -/
def Lowest (c : Client σ) (fd : Fd) : Prop :=
  c.slots fd.index = .empty ∧ ∀ other : Fd, other.number < fd.number → c.slots other.index ≠ .empty

/-- The one exchange of a close frees the slot just when a completion arrives, and tells how it went. -/
def ClosedBy (c c' : Client σ) (fd : Fd) (result : Except Errno Unit) (e : Exchange) : Prop :=
  (e.Arrived ∧ ∃ cmpl, e.result = .ok cmpl ∧ result = mapStatus cmpl.status ∧
      c'.slots = Function.update c.slots fd.index .empty) ∨
    ¬e.Arrived ∧ ∃ err, e.result = .error err ∧ result = .error err ∧ c'.slots = c.slots

/-- A close of a slot of its own kind is one exchange; any other slot is refused. -/
def Closes (c c' : Client σ) (fd : Fd) (mine : Prop) (result : Except Errno Unit) : Prop :=
  (mine ∧ ∃ e, c'.exchanges = c.exchanges ++ [e] ∧ ClosedBy c c' fd result e) ∨
    (¬mine ∧ result = .error .ebadf ∧ c'.slots = c.slots ∧ c'.exchanges = c.exchanges)

def Slot.IsFile : Slot → Prop
  | .file _ _ _ => True
  | .empty | .dir _ => False

def Slot.IsDir : Slot → Prop
  | .dir _ => True
  | .empty | .file _ _ _ => False

/-- What a request comes to: its reply, the table, and the lent buffer. -/
def Law (c c' : Client σ) : Request → Except Errno Reply → Prop
  | .openFile _ how, .ok reply => ∃ fd server, reply = .fd fd ∧ Lowest c fd ∧
      c'.slots = Function.update c.slots fd.index (.file server (accessOf how) 0)
  | .openDir _, .ok reply => ∃ fd server, reply = .fd fd ∧ Lowest c fd ∧ c'.slots =
    Function.update c.slots fd.index (.dir server)
  | .readDir fd buf, .ok reply => (∃ server, c.slots fd.index = .dir server) ∧ c'.slots = c.slots ∧
      ((reply = .name none ∧ c'.lent = buf) ∨ ∃ name, reply = .name (some name.length) ∧
        name.length ≤ buf.length ∧
        loaded (c'.accesses.drop c.accesses.length) = name ∧ c'.lent = name ++ buf.drop name.length)
  | .read fd buf, .ok reply => ∃ bytes server access cursor, reply = .count bytes.length ∧
    bytes.length ≤ buf.length ∧
      c.slots fd.index = .file server access cursor ∧ access.canRead ∧
      c'.slots = Function.update c.slots fd.index
        (.file server access (cursor + BitVec.ofNat 64 bytes.length)) ∧
      loaded (c'.accesses.drop c.accesses.length) = bytes ∧ c'.lent = bytes ++ buf.drop bytes.length
  | .write fd buf, .ok reply => ∃ n server access cursor, reply = .count n ∧ n ≤ buf.length ∧
      c.slots fd.index = .file server access cursor ∧ access.canWrite ∧
      c'.slots = Function.update c.slots fd.index
        (.file server access (cursor + BitVec.ofNat 64 n)) ∧ c'.lent = buf
  | .close fd, reply => Closes c c' fd (c.slots fd.index).IsFile (reply.map fun _ => ())
  | .closeDir fd, reply => Closes c c' fd (c.slots fd.index).IsDir (reply.map fun _ => ())
  | .mkdir _, _ | .unlink _, _ | .rename _ _, _ | .stat _, _ => c'.slots = c.slots
  | req, .error _ => c'.slots = c.slots ∧ c'.lent = req.buf

section calls

variable {peer : Peer σ} {c s : Client σ} {slots : Fin tableLen → Slot}
  {lent loads buf : List UInt8} {fd : Fd}
  {req : Request} {R : Errno → Client σ → Prop}

theorem idle_at (h : At c slots lent loads s) : Ends idle s (fun _ => At c slots lent loads) R := by
  unfold idle
  refine Ends.bind (Ends.get ?_)
  rw [h.safe.flight]
  exact h

theorem orThrow_at {α : Type} (h : At c slots lent loads s) (r : Except Errno α) :
    Ends (orThrow r) s (fun _ => At c slots lent loads) fun _ => At c slots lent loads := by
  cases r with
  | ok a => exact h
  | error err => exact h

theorem setSlot_at (h : At c slots lent loads s) (index : Fin tableLen) (slot : Slot) :
    Ends (setSlot index slot) s (fun _ => At c (Function.update slots index slot) lent loads) R :=
  ⟨congrArg (Function.update · index slot) h.slots, h.lent, h.accesses, h.exchanges,
    ⟨h.safe.flight, h.safe.room, h.safe.inside, h.safe.matched, h.safe.next⟩⟩

theorem freeSlot_at (h : At c c.slots lent loads s) :
    Ends freeSlot s (fun index s' => Lowest c (Fd.ofIndex index) ∧ At c c.slots lent loads s')
      fun _ => At c c.slots lent loads := by
  unfold freeSlot
  refine Ends.bind (Ends.get ?_)
  cases hfind : (List.finRange tableLen).find? (fun i => s.slots i = .empty) with
  | none => exact h
  | some index =>
    refine ⟨?_, h⟩
    obtain ⟨hempty, k, hk, hat, hbefore⟩ := List.find?_eq_some_iff_getElem.mp hfind
    rw [List.getElem_finRange] at hat
    rw [h.slots] at hempty hbefore
    refine ⟨of_decide_eq_true hempty, fun other hlt hnone => ?_⟩
    have hindex : (index : Nat) = k := by rw [← hat]; rfl
    have hlow := other.low
    have hother : (other.index : Nat) = other.number - 3 := rfl
    change other.number < (index : Nat) + 3 at hlt
    have hno := hbefore other.index (by omega)
    rw [List.getElem_finRange] at hno
    exact absurd (decide_eq_true hnone) (by simpa using hno)

/-- A call that places a path and ends with the status of its command. -/
theorem path_at {path : List UInt8} {offset : Nat} {command : Buffer → Command}
    (h : At c slots lent loads s)
    (hin : offset + pathLimit ≤ shareMin) {α : Type} {next : FsCmpl → Call σ α} {Q : α → Client σ → Prop}
    (hR : ∀ err s', At c slots lent loads s' → R err s')
    (hnext : ∀ cmpl s', At c slots lent loads s' → Ends (next cmpl) s' Q R) :
    Ends (place peer path offset >>= fun path => exchange peer (command path) >>= next) s Q R :=
  Ends.seq (place_at h hin) (fun path _ h₁ => Ends.seq (exchange_at h₁ (command path))
    (fun cmpl s₂ h₂ => hnext cmpl s₂ h₂) hR) hR

/-- A call that opens something takes the lowest free number for it. -/
theorem opened_at (h : At c c.slots lent loads s) (path : List UInt8) (command : Buffer → Command)
    (slot : FsCmpl → Slot) :
    Ends (do
        idle
        let index ← freeSlot
        let path ← place peer path pathA
        let cmpl ← exchange peer (command path)
        orThrow (mapStatus cmpl.status)
        setSlot index (slot cmpl)
        pure (Fd.ofIndex index)) s
      (fun fd s' => Lowest c fd ∧ ∃ cmpl, At c (Function.update c.slots fd.index (slot cmpl)) lent loads s')
      fun _ => At c c.slots lent loads := by
  refine Ends.seq (idle_at h) (fun _ s₁ h₁ => ?_) fun _ _ hfalse => hfalse
  refine Ends.seq (freeSlot_at h₁) (fun index s₂ h₂ => ?_) fun _ _ h' => h'
  refine path_at h₂.2 (by decide) (fun _ _ h' => h') fun cmpl s₃ h₃ => ?_
  refine Ends.seq (orThrow_at h₃ _) (fun _ s₄ h₄ => ?_) fun _ _ h' => h'
  refine Ends.seq (setSlot_at h₄ index _) (fun _ s₅ h₅ => ?_) fun _ _ hfalse => hfalse
  exact ⟨h₂.1, cmpl, h₅⟩

/-- A call that places a path and answers the status of its command. -/
theorem placed_at (h : At c slots lent loads s) (path : List UInt8) (command : Buffer → Command) :
    Ends (do
        idle
        let path ← place peer path pathA
        let cmpl ← exchange peer (command path)
        orThrow (mapStatus cmpl.status)) s
      (fun _ => At c slots lent loads) fun _ => At c slots lent loads := by
  refine Ends.seq (idle_at h) (fun _ s₁ h₁ => ?_) fun _ _ hfalse => hfalse
  exact path_at h₁ (by decide) (fun _ _ h' => h') fun cmpl s₂ h₂ => orThrow_at h₂ _

theorem rename_at (h : At c slots lent loads s) (from_ to_ : List UInt8) :
    Ends (rename peer from_ to_) s (fun _ => At c slots lent loads) fun _ => At c slots lent loads := by
  unfold rename
  refine Ends.seq (idle_at h) (fun _ s₁ h₁ => ?_) fun _ _ hfalse => hfalse
  refine Ends.seq (place_at h₁ (by decide)) (fun old s₂ h₂ => ?_) fun _ _ h' => h'
  exact path_at h₂ (by decide) (fun _ _ h' => h') fun cmpl s₃ h₃ => orThrow_at h₃ _

theorem stat_at (h : At c slots lent [] s) (path : List UInt8) :
    Ends (stat peer path) s (fun _ s' => ∃ loads, At c slots lent loads s') fun _ s' => ∃ loads,
      At c slots lent loads s' := by
  unfold stat
  refine Ends.seq (idle_at (R := fun _ _ => False) h) (fun _ s₁ h₁ => ?_) fun _ _ hfalse => hfalse.elim
  refine path_at h₁ (by decide) (fun _ _ h' => ⟨_, h'⟩) fun cmpl s₂ h₂ => ?_
  refine Ends.seq (orThrow_at h₂ _) (fun _ s₃ h₃ => ?_) fun _ _ h' => ⟨_, h'⟩
  rw [map_eq_pure_bind]
  exact Ends.seq (fromShare_at h₃ (by decide)) (fun bytes s₄ h₄ => ⟨_, h₄.2⟩) fun _ _ hfalse => hfalse

theorem readDir_law (h : At c c.slots buf [] s) (fd : Fd) : Ends (readDir peer fd buf) s
    (fun name s' => (∃ server, c.slots fd.index = .dir server) ∧
      ((name = none ∧ At c c.slots buf [] s') ∨ ∃ bytes, name = some bytes.length ∧
        bytes.length ≤ buf.length ∧
        At c c.slots (bytes ++ buf.drop bytes.length) bytes s'))
    fun _ => At c c.slots buf [] := by
  unfold readDir dirLive
  refine Ends.seq (idle_at h) (fun _ s₁ h₁ => ?_) fun _ _ hfalse => hfalse
  refine Ends.bind (Ends.bind (Ends.get ?_))
  rw [h₁.slots]
  cases hslot : c.slots fd.index with
  | empty => exact h₁
  | file _ _ _ => exact h₁
  | dir server =>
    refine Ends.pure (Ends.ite (fun _ => h₁) fun _ => ?_)
    refine Ends.seq (exchange_at h₁ _) (fun cmpl s₂ h₂ => ?_) fun _ _ h' => h'
    refine Ends.ite (fun _ => ⟨⟨server, rfl⟩, .inl ⟨rfl, h₂⟩⟩) fun _ => ?_
    refine Ends.seq (orThrow_at h₂ _) (fun _ s₃ h₃ => ?_) fun _ _ h' => h'
    cases hlen : completedLen cmpl.data (min buf.length dataLen) with
    | none => exact h₃
    | some n =>
      have hn := completedLen_le hlen
      have hroom : dataAt + dataLen = shareMin := by decide
      refine Ends.seq (fromShare_at h₃ (show dataAt + n ≤ shareMin by omega))
        (fun bytes s₄ h₄ => ?_) fun _ _ hfalse => hfalse
      obtain ⟨rfl, h₄⟩ := h₄
      have hcopy : Ends (copyOut 0 bytes) s₄
        (fun _ => At c c.slots (bytes ++ buf.drop bytes.length) bytes) fun _ _ => False :=
        @copyOut_at σ c s₄ buf c.slots [] bytes h₄
      refine Ends.seq hcopy (fun _ s₅ h₅ => ?_) fun _ _ hfalse => hfalse.elim
      exact ⟨⟨server, rfl⟩, .inr ⟨bytes, rfl, by omega, h₅⟩⟩

theorem read_law (h : At c c.slots buf [] s) (fd : Fd) : Ends (read peer fd buf) s
    (fun n s' => ∃ server access cursor, n ≤ buf.length ∧
      c.slots fd.index = .file server access cursor ∧ access.canRead ∧
      ReadTo c fd server access cursor buf n s')
    fun _ => At c c.slots buf [] := by
  unfold read live
  refine Ends.seq (idle_at h) (fun _ s₁ h₁ => ?_) fun _ _ hfalse => hfalse
  refine Ends.bind (Ends.bind (Ends.get ?_))
  rw [h₁.slots]
  cases hslot : c.slots fd.index with
  | empty => exact h₁
  | dir _ => exact h₁
  | file server access cursor =>
    refine Ends.pure (Ends.ite (fun _ => h₁) fun hcan => ?_)
    have hread : access.canRead := by simpa using hcan
    refine Ends.ite (fun _ => ?_) fun _ => ?_
    · exact ⟨server, access, cursor, Nat.zero_le _, rfl, hread, [], rfl, by rwa [moving_zero hslot]⟩
    · exact (read_transfer h₁ hslot).mono (fun n s' h' => ⟨server, access, cursor, h'.1, rfl, hread,
        h'.2⟩) fun _ _ h' => h'

theorem write_law (h : At c c.slots buf [] s) (fd : Fd) : Ends (write peer fd buf) s
    (fun n s' => ∃ server access cursor, n ≤ buf.length ∧
      c.slots fd.index = .file server access cursor ∧ access.canWrite ∧
      At c (moving c fd server access cursor n) buf [] s')
    fun _ => At c c.slots buf [] := by
  unfold write live
  refine Ends.seq (idle_at h) (fun _ s₁ h₁ => ?_) fun _ _ hfalse => hfalse
  refine Ends.bind (Ends.bind (Ends.get ?_))
  rw [h₁.slots]
  cases hslot : c.slots fd.index with
  | empty => exact h₁
  | dir _ => exact h₁
  | file server access cursor =>
    refine Ends.pure (Ends.ite (fun _ => h₁) fun hcan => ?_)
    have hwrite : access.canWrite := by simpa using hcan
    refine Ends.ite (fun _ => ?_) fun _ => ?_
    · exact ⟨server, access, cursor, Nat.zero_le _, rfl, hwrite, by rwa [moving_zero hslot]⟩
    · exact (write_transfer h₁ hslot).mono
        (fun n s' h' => ⟨server, access, cursor, h'.1, rfl, hwrite, h'.2⟩) fun _ _ h' => h'

/-- The one exchange of a close. -/
theorem closed_at (h : At c c.slots lent loads s) (hsame : s.exchanges = c.exchanges) (fd : Fd)
    (command : Command) :
    Ends (do
        let cmpl ← exchange peer command
        setSlot fd.index .empty
        orThrow (mapStatus cmpl.status)) s
      (fun _ s' => (∃ e, s'.exchanges = c.exchanges ++ [e] ∧ ClosedBy c s' fd (.ok ()) e) ∧ Safe s')
      fun err s' => (∃ e, s'.exchanges = c.exchanges ++ [e] ∧ ClosedBy c s' fd (.error err) e) ∧
        Safe s' := by
  refine Ends.seq (exchange_spec h.safe.flight) (fun cmpl s₁ h₁ => ?_) fun err s₁ h₁ => ?_
  · obtain ⟨e, hexchanges, -, hresult, hmatched⟩ := h₁.recorded
    rw [hsame] at hexchanges
    have hat := h.exchanged h₁
    have harrived := hmatched.arrived hresult
    refine Ends.bind (Ends.modify ?_)
    have hslots : Function.update s₁.slots fd.index .empty =
      Function.update c.slots fd.index .empty := by rw [hat.slots]
    have hsafe : Safe { s₁ with slots := Function.update s₁.slots fd.index .empty } :=
      ⟨hat.safe.flight, hat.safe.room, hat.safe.inside, hat.safe.matched, hat.safe.next⟩
    cases hstatus : mapStatus cmpl.status with
    | ok _ => exact ⟨⟨e, hexchanges, .inl ⟨harrived, cmpl, hresult, hstatus.symm, hslots⟩⟩, hsafe⟩
    | error err => exact ⟨⟨e, hexchanges, .inl ⟨harrived, cmpl, hresult, hstatus.symm, hslots⟩⟩, hsafe⟩
  · obtain ⟨e, hexchanges, -, hresult, hmatched⟩ := h₁.recorded
    rw [hsame] at hexchanges
    have hat := h.exchanged h₁
    exact ⟨⟨e, hexchanges, .inr ⟨(hmatched.missed err hresult).1, err, hresult, rfl, hat.slots⟩⟩, hat.safe⟩

theorem At.loaded (h : At c slots lent loads s) : Posix.loaded (s.accesses.drop c.accesses.length) =
    loads := by
  obtain ⟨new, hnew, hloads⟩ := h.accesses
  rwa [hnew, List.drop_left]

theorem close_law (h : At c c.slots lent loads s) (hsame : s.exchanges = c.exchanges) (fd : Fd) :
    Ends (close peer fd) s
    (fun _ s' => Closes c s' fd (c.slots fd.index).IsFile (.ok ()) ∧ Safe s')
    fun err s' => Closes c s' fd (c.slots fd.index).IsFile (.error err) ∧ Safe s' := by
  unfold close idle
  refine Ends.bind (Ends.bind (Ends.get ?_))
  rw [h.safe.flight]
  refine Ends.pure (Ends.bind (Ends.get ?_))
  rw [h.slots]
  cases c.slots fd.index with
  | empty => exact ⟨.inr ⟨id, rfl, h.slots, hsame⟩, h.safe⟩
  | dir _ => exact ⟨.inr ⟨id, rfl, h.slots, hsame⟩, h.safe⟩
  | file server _ _ =>
    exact (closed_at h hsame fd (.fileClose server.toNat)).mono (fun _ _ h' => ⟨.inl ⟨trivial, h'.1⟩, h'.2⟩)
      fun _ _ h' => ⟨.inl ⟨trivial, h'.1⟩, h'.2⟩

theorem closeDir_law (h : At c c.slots lent loads s) (hsame : s.exchanges = c.exchanges) (fd : Fd) :
    Ends (closeDir peer fd) s
    (fun _ s' => Closes c s' fd (c.slots fd.index).IsDir (.ok ()) ∧ Safe s')
    fun err s' => Closes c s' fd (c.slots fd.index).IsDir (.error err) ∧ Safe s' := by
  unfold closeDir idle
  refine Ends.bind (Ends.bind (Ends.get ?_))
  rw [h.safe.flight]
  refine Ends.pure (Ends.bind (Ends.get ?_))
  rw [h.slots]
  cases c.slots fd.index with
  | empty => exact ⟨.inr ⟨id, rfl, h.slots, hsame⟩, h.safe⟩
  | file _ _ _ => exact ⟨.inr ⟨id, rfl, h.slots, hsame⟩, h.safe⟩
  | dir server =>
    exact (closed_at h hsame fd (.dirClose server.toNat)).mono (fun _ _ h' => ⟨.inl ⟨trivial, h'.1⟩, h'.2⟩)
      fun _ _ h' => ⟨.inl ⟨trivial, h'.1⟩, h'.2⟩

theorem Closes.grown {mine : Prop} {result : Except Errno Unit} (h : Closes c s fd mine result) :
    c.exchanges <+: s.exchanges := by
  rcases h with ⟨-, e, hexchanges, -⟩ | ⟨-, -, -, hexchanges⟩
  · exact ⟨[e], hexchanges.symm⟩
  · rw [hexchanges]

/-- Where a call has come to, whether it has failed or not. -/
structure Kept (c s : Client σ) : Prop where
  exchanges : c.exchanges <+: s.exchanges
  safe : Safe s

theorem At.kept (h : At c slots lent loads s) : Kept c s := ⟨h.exchanges, h.safe⟩

/-- Every call keeps to the law, from where its buffer has been lent. -/
theorem call_law (req : Request) (h : At c c.slots req.buf [] s) (hsame : s.exchanges = c.exchanges) :
    Ends (req.call peer) s (fun reply s' => Law c s' req (.ok reply) ∧ Kept c s') fun err s' =>
      Law c s' req (.error err) ∧ Kept c s' := by
  cases req with
  | openFile path how =>
    refine Ends.map ((opened_at h path (.fileOpen · (wireFlags how)) fun cmpl => .file cmpl.data
      (accessOf how) 0).mono ?_ ?_)
    · rintro fd s' ⟨hlowest, cmpl, h'⟩
      exact ⟨⟨fd, cmpl.data, rfl, hlowest, h'.slots⟩, h'.kept⟩
    · exact fun err s' h' => ⟨⟨h'.slots, h'.lent⟩, h'.kept⟩
  | openDir path =>
    refine Ends.map ((opened_at h path .dirOpen fun cmpl => .dir cmpl.data).mono ?_ ?_)
    · rintro fd s' ⟨hlowest, cmpl, h'⟩
      exact ⟨⟨fd, cmpl.data, rfl, hlowest, h'.slots⟩, h'.kept⟩
    · exact fun err s' h' => ⟨⟨h'.slots, h'.lent⟩, h'.kept⟩
  | readDir fd buf =>
    refine Ends.map ((readDir_law h fd).mono ?_ fun err s' h' => ⟨⟨h'.slots, h'.lent⟩, h'.kept⟩)
    rintro name s' ⟨hdir, ⟨rfl, h'⟩ | ⟨bytes, rfl, hle, h'⟩⟩
    · exact ⟨⟨hdir, h'.slots, .inl ⟨rfl, h'.lent⟩⟩, h'.kept⟩
    · exact ⟨⟨hdir, h'.slots, .inr ⟨bytes, rfl, hle, h'.loaded, h'.lent⟩⟩, h'.kept⟩
  | read fd buf =>
    refine Ends.map ((read_law h fd).mono ?_ fun err s' h' => ⟨⟨h'.slots, h'.lent⟩, h'.kept⟩)
    rintro n s' ⟨server, access, cursor, hle, hslot, hcan, bytes, rfl, h'⟩
    exact ⟨⟨bytes, server, access, cursor, rfl, hle, hslot, hcan, h'.slots, h'.loaded, h'.lent⟩, h'.kept⟩
  | write fd buf =>
    refine Ends.map ((write_law h fd).mono ?_ fun err s' h' => ⟨⟨h'.slots, h'.lent⟩, h'.kept⟩)
    rintro n s' ⟨server, access, cursor, hle, hslot, hcan, h'⟩
    exact ⟨⟨n, server, access, cursor, rfl, hle, hslot, hcan, h'.slots, h'.lent⟩, h'.kept⟩
  | mkdir path =>
    exact Ends.map ((placed_at h path .dirCreate).mono (fun _ _ h' => ⟨h'.slots, h'.kept⟩)
      fun _ _ h' => ⟨h'.slots, h'.kept⟩)
  | unlink path =>
    exact Ends.map ((placed_at h path .fileRemove).mono (fun _ _ h' => ⟨h'.slots, h'.kept⟩)
      fun _ _ h' => ⟨h'.slots, h'.kept⟩)
  | rename from_ to_ =>
    exact Ends.map ((rename_at h from_ to_).mono (fun _ _ h' => ⟨h'.slots, h'.kept⟩) fun _ _ h' =>
      ⟨h'.slots, h'.kept⟩)
  | stat path =>
    exact Ends.map ((stat_at h path).mono (fun _ _ ⟨_, h'⟩ => ⟨h'.slots, h'.kept⟩) fun _ _ ⟨_,
      h'⟩ => ⟨h'.slots, h'.kept⟩)
  | close fd =>
    exact Ends.map ((close_law h hsame fd).mono (fun _ _ h' => ⟨h'.1, h'.1.grown, h'.2⟩)
      fun _ _ h' => ⟨h'.1, h'.1.grown, h'.2⟩)
  | closeDir fd =>
    exact Ends.map ((closeDir_law h hsame fd).mono (fun _ _ h' => ⟨h'.1, h'.1.grown, h'.2⟩)
      fun _ _ h' => ⟨h'.1, h'.1.grown, h'.2⟩)

end calls

/-! ### Runs -/

section runs

variable {peer : Peer σ} {c : Client σ}

theorem perform_spec (h : Safe c) (req : Request) : Ends (perform peer req) c
    (fun reply c' => Law c c' req (.ok reply) ∧ Kept c c') fun err c' => Law c c' req (.error err) ∧
      Kept c c' := by
  unfold perform
  refine Ends.bind (Ends.modify (call_law req ?_ rfl))
  exact ⟨rfl, rfl, ⟨[], (List.append_nil _).symm, rfl⟩, List.prefix_rfl, h.flight, h.room, h.inside,
    h.matched, h.next⟩

/-- The end of a call. -/
theorem perform_kept (h : Safe c) (req : Request) :
    Law c (final (perform peer req) c) req (outcome (perform peer req) c) ∧
      Kept c (final (perform peer req) c) := by
  have hends := (@perform_spec _ peer _ h req).final
  cases hout : outcome (perform peer req) c with
  | ok reply => exact hends.1 reply hout
  | error err => exact hends.2 err hout

theorem bind_safe {mem : Mem} {shareLen : Nat} {p : σ} (h : bind (some mem) shareLen p = .ok c) :
    Safe c := by
  unfold bind at h
  dsimp only at h
  split at h
  · cases h
  · next hlen =>
    cases h
    exact ⟨rfl, Nat.le_of_not_lt hlen, fun a ha => (List.not_mem_nil ha).elim,
      fun k e hk => by simp at hk, rfl⟩

theorem Ran.safe (h : Ran peer c) : Safe c := by
  induction h with
  | bind h => exact bind_safe h
  | call _ req ih => exact (perform_kept ih req).2.safe

end runs

/-- The turns of a server, and the commands it has taken and not answered. -/
structure Served where
  turns : Nat
  pending : List (BitVec 64)

/-- A server that takes all commands in each turn, and answers them from a turn on: each with
success and the number 2. -/
def serverFrom (first : Nat) : Peer Served := fun p mem =>
  let pending := p.pending ++ (mem.command.contents fsQueueCapacity.toNat).map FsCmd.id
  let mem := { mem with command := mem.command.storeHead mem.command.tail }
  if p.turns < first then (⟨p.turns + 1, pending⟩, mem)
  else (⟨p.turns + 1, []⟩, { mem with completion := pending.foldl (fun ring id => (fsEnqueue ring ⟨id, 0, 2⟩).2) mem.completion })

def freshClient : Client Served where
  shareLen := shareMin
  nextId := 1
  flight := .idle
  slots _ := .empty
  lent := []
  mem := ⟨⟨0, 0, fun _ => ⟨0, .dirOpen ⟨0, 0⟩, []⟩⟩, ⟨0, 0, fun _ => ⟨0, 0, 0⟩⟩, fun _ => 0x41⟩
  peer := ⟨0, []⟩
  staged := []
  sent := ⟨0, 0, fun _ => ⟨0, .dirOpen ⟨0, 0⟩, []⟩⟩
  looks := []
  exchanges := []
  accesses := []

theorem freshClient_ran (peer : Peer Served) : Ran peer freshClient :=
  .bind (show bind (some freshClient.mem) shareMin ⟨0, []⟩ = .ok freshClient from rfl)

/-- A file opened. -/
def openedClient : Client Served := final (perform (serverFrom 0) (.openFile [0x61] .read)) freshClient

/-- A read of three bytes there, of which the server grants two. -/
def readThree : Request := .read ⟨3, by decide, by decide⟩ [0, 0, 0]

end Lerux.Posix

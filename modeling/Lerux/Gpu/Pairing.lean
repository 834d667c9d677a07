import Lerux.Gpu.Path

/-!
# Responses of the graphics path and their display records

The client has requests outstanding, with distinct ids, and each response it gets answers one of them. A
display record is copied for an OK response to a display request, at that request's own offset, and for
nothing else: as long as no request is noted in a slot that another request in flight still needs.

The requests in flight are those the virtualiser has forwarded and has no response to. `NotesOk`
says that the table has the note of every one of them that wants a copy.
-/

namespace Lerux.Gpu

open Lerux.Base Lerux.RecordQueues Lerux.RecordPath Lerux.SerialQueue

abbrev LogEntry := Entry Pd Queue Item (BitVec 64)

/-! ### What the record says -/

/-- The request with this id is done with. -/
def settle (id : BitVec 32) (reqs : List GpuReq) : List GpuReq := reqs.eraseP fun r => r.id = id

def askedStep (reqs : List GpuReq) : LogEntry → List GpuReq
  | .move _ .clientReq (.push (.inl req)) => reqs ++ [req]
  | .move _ .clientResp (.pop x) => settle (itemId x) reqs
  | _ => reqs

/-- The requests the client has outstanding. -/
def asked (log : List LogEntry) : List GpuReq := log.foldl askedStep []

def inFlightStep (reqs : List GpuReq) : LogEntry → List GpuReq
  | .move _ .driverReq (.push (.inl req)) => reqs ++ [req]
  | .move _ .driverResp (.pop x) => settle (itemId x) reqs
  | _ => reqs

/-- The requests forwarded to the driver and not answered to the virtualiser. -/
def inFlight (log : List LogEntry) : List GpuReq := log.foldl inFlightStep []

def takenStep (resp : Option GpuResp) : LogEntry → Option GpuResp
  | .move _ .driverResp (.pop (.inr p)) => some p
  | .move _ .clientResp (.push _) => none
  | _ => resp

/-- The driver's response the virtualiser has taken and not yet passed on. -/
def taken (log : List LogEntry) : Option GpuResp := log.foldl takenStep none

def copiedStep (offsets : List (BitVec 64)) : LogEntry → List (BitVec 64)
  | .move _ .driverResp (.pop _) => []
  | .note _ offset => offsets ++ [offset]
  | _ => offsets

/-- The offsets copied since the virtualiser last took a response. -/
def copied (log : List LogEntry) : List (BitVec 64) := log.foldl copiedStep []

/-- What an entry of the record must satisfy, after `before`. -/
def Sound (before : List LogEntry) : LogEntry → Prop
  -- the client takes a response to a request it has outstanding
  | .move _ .clientResp (.pop x) => ∃ r ∈ asked before, r.id = itemId x
  -- a response becomes visible: its request's display record has been copied, if it is due
  | .move _ .clientResp (.push x) => ∃ r ∈ asked before, r.id = itemId x ∧
      ∀ resp, x = .inr resp → resp.status = .ok → r.code = .getDisplayInfo → inRange r.memOffset = true →
        taken before = some resp ∧ r.memOffset ∈ copied before
  -- a copy is made for an OK response to a display request, at that request's offset
  | .note _ offset => ∃ resp, taken before = some resp ∧ resp.status = .ok ∧ ∃ r ∈ asked before,
    r.id = resp.id ∧
      r.code = .getDisplayInfo ∧ offset = r.memOffset
  | _ => True

/-- Every response answers an outstanding request, and the display records are copied where they are due. -/
def Paired (log : List LogEntry) : Prop := ∀ before e after, log = before ++ e :: after → Sound before e

theorem asked_snoc (log : List LogEntry) (e : LogEntry) : asked (log ++ [e]) = askedStep (asked log) e := by
  rw [asked, List.foldl_append]
  rfl

theorem inFlight_snoc (log : List LogEntry) (e : LogEntry) : inFlight (log ++ [e]) =
    inFlightStep (inFlight log) e := by
  rw [inFlight, List.foldl_append]
  rfl

theorem taken_snoc (log : List LogEntry) (e : LogEntry) : taken (log ++ [e]) = takenStep (taken log) e := by
  rw [taken, List.foldl_append]
  rfl

theorem copied_snoc (log : List LogEntry) (e : LogEntry) :
    copied (log ++ [e]) = copiedStep (copied log) e := by
  rw [copied, List.foldl_append]
  rfl

theorem Paired.snoc {log : List LogEntry} {e : LogEntry} (h : Paired log) (he : Sound log e) :
    Paired (log ++ [e]) := by
  intro before e' after heq
  rcases List.eq_nil_or_concat after with rfl | ⟨after, x, rfl⟩
  · obtain ⟨rfl, hx⟩ := List.append_inj' heq rfl
    obtain ⟨rfl, -⟩ := List.cons.inj hx
    exact he
  · rw [List.concat_eq_append, ← List.cons_append, ← List.append_assoc] at heq
    exact h before e' after (List.append_inj' heq rfl).1

/-- The request with a given id leaves the list. -/
theorem exists_settle {reqs : List GpuReq} {id : BitVec 32} (h : id ∈ reqs.map GpuReq.id) :
    ∃ r l l', r.id = id ∧ reqs = l ++ r :: l' ∧ settle id reqs = l ++ l' := by
  obtain ⟨a, ha, hid⟩ := List.mem_map.mp h
  obtain ⟨r, l, l', -, hr, heq, her⟩ := List.exists_of_eraseP
    (p := fun r : GpuReq => decide (r.id = id)) ha (by simpa using hid)
  exact ⟨r, l, l', by simpa using hr, heq, her⟩

/-! ### The notes -/

/-- The response to this request comes with a display record. -/
def Wants (req : GpuReq) : Prop := req.code = .getDisplayInfo ∧ inRange req.memOffset = true

instance (req : GpuReq) : Decidable (Wants req) := inferInstanceAs (Decidable (_ ∧ _))

/-- An OK response with this note has a record copied. -/
def Note.Copying (note : Note) : Prop := note.live = true ∧ note.code = .getDisplayInfo ∧
    inRange note.memOffset = true

/-- Two requests share a slot that one of them needs. -/
def Clash (req req' : GpuReq) : Prop := noteSlot req.id = noteSlot req'.id ∧ (Wants req ∨ Wants req')

instance (req req' : GpuReq) : Decidable (Clash req req') := inferInstanceAs (Decidable (_ ∧ _))

structure NotesOk (notes : Nat → Note) (reqs : List GpuReq) : Prop where
  set : ∀ r ∈ reqs, Wants r → notes (noteSlot r.id) = noteOf r
  copying : ∀ i, (notes i).Copying → ∃ r ∈ reqs, noteSlot r.id = i ∧ Wants r
  alone : ∀ r ∈ reqs, ∀ r' ∈ reqs, noteSlot r.id = noteSlot r'.id → Wants r → r' = r

theorem noteOf_memOffset {req : GpuReq} (h : req.code = .getDisplayInfo) : (noteOf req).memOffset =
    req.memOffset :=
  if_pos h

theorem wants_of_copying {req : GpuReq} (h : (noteOf req).Copying) : Wants req := by
  obtain ⟨-, hc, hr⟩ := h
  have hc : req.code = .getDisplayInfo := hc
  rw [noteOf_memOffset hc] at hr
  exact ⟨hc, hr⟩

theorem Wants.copying {req : GpuReq} (h : Wants req) : (noteOf req).Copying :=
  ⟨rfl, h.1, by rw [noteOf_memOffset h.1]; exact h.2⟩

namespace NotesOk

variable {notes : Nat → Note} {reqs reqs' : List GpuReq} {req : GpuReq}

theorem congr (h : NotesOk notes reqs) (hmem : ∀ r, r ∈ reqs' ↔ r ∈ reqs) : NotesOk notes reqs' where
  set r hr := h.set r ((hmem r).mp hr)
  copying i hi := by
    obtain ⟨r, hr, hrest⟩ := h.copying i hi
    exact ⟨r, (hmem r).mpr hr, hrest⟩
  alone r hr r' hr' := h.alone r ((hmem r).mp hr) r' ((hmem r').mp hr')

/-- A request is noted in a slot nobody in flight needs. -/
theorem add (h : NotesOk notes reqs) (hno : ∀ r ∈ reqs, ¬Clash req r) :
    NotesOk (Function.update notes (noteSlot req.id) (noteOf req)) (reqs ++ [req]) where
  set r hr hw := by
    rcases List.mem_append.mp hr with hr | hr
    · have hne : noteSlot r.id ≠ noteSlot req.id := fun heq => hno r hr ⟨heq.symm, .inr hw⟩
      rw [Function.update_of_ne hne]
      exact h.set r hr hw
    · rw [List.mem_singleton.mp hr, Function.update_self]
  copying i hi := by
    by_cases heq : i = noteSlot req.id
    · subst heq
      rw [Function.update_self] at hi
      exact ⟨req, by simp, rfl, wants_of_copying hi⟩
    · rw [Function.update_of_ne heq] at hi
      obtain ⟨r, hr, hrest⟩ := h.copying i hi
      exact ⟨r, List.mem_append_left _ hr, hrest⟩
  alone r hr r' hr' heq hw := by
    rcases List.mem_append.mp hr with h1 | h1 <;> rcases List.mem_append.mp hr' with h2 | h2
    · exact h.alone r h1 r' h2 heq hw
    · obtain rfl := List.mem_singleton.mp h2
      exact (hno r h1 ⟨heq.symm, .inr hw⟩).elim
    · obtain rfl := List.mem_singleton.mp h1
      exact (hno r' h2 ⟨heq, .inl hw⟩).elim
    · rw [List.mem_singleton.mp h1, List.mem_singleton.mp h2]

/-- The note of a request is cleared when its response has been dealt with. -/
theorem clear (h : NotesOk notes (reqs ++ [req])) (hid : ∀ r ∈ reqs, r.id ≠ req.id) :
    NotesOk (Function.update notes (noteSlot req.id)
      { notes (noteSlot req.id) with live := false }) reqs where
  set r hr hw := by
    have hne : noteSlot r.id ≠ noteSlot req.id := by
      intro heq
      have := h.alone r (List.mem_append_left _ hr) req (by simp) heq hw
      exact hid r hr (by rw [this])
    rw [Function.update_of_ne hne]
    exact h.set r (List.mem_append_left _ hr) hw
  copying i hi := by
    by_cases heq : i = noteSlot req.id
    · subst heq
      rw [Function.update_self] at hi
      exact nomatch hi.1
    · rw [Function.update_of_ne heq] at hi
      obtain ⟨r, hr, rfl, hw⟩ := h.copying i hi
      rcases List.mem_append.mp hr with hr | hr
      · exact ⟨r, hr, rfl, hw⟩
      · rw [List.mem_singleton.mp hr] at heq
        exact (heq rfl).elim
  alone r hr r' hr' := h.alone r (List.mem_append_left _ hr) r' (List.mem_append_left _ hr')

/-- The note in a request's slot leads to a copy only if it is the request's own. -/
theorem own (h : NotesOk notes reqs) (hr : req ∈ reqs) (hc : (notes (noteSlot req.id)).Copying) :
    Wants req ∧ notes (noteSlot req.id) = noteOf req := by
  obtain ⟨r, hr', heq, hw⟩ := h.copying _ hc
  obtain rfl := h.alone r hr' req hr heq hw
  exact ⟨hw, h.set req hr hw⟩

end NotesOk

/-! ### The invariant -/

/-- The client: the requests outstanding, and whether it has to notify the virtualiser. -/
structure ClientAt where
  outstanding : List GpuReq
  fresh : Bool

/-- What the virtualiser deals with: a request it has taken or noted, or a response it has taken, for which
the copy has been seen to, or the note cleared. -/
inductive VirtHand
  | free
  | got (req : GpuReq)
  | noted (req : GpuReq)
  | taken (resp : GpuResp) (req : GpuReq)
  | settled (resp : GpuResp) (req : GpuReq)
  | cleared (resp : GpuResp) (req : GpuReq)

namespace VirtHand

def req : VirtHand → List GpuReq
  | free => []
  | got req => [req]
  | noted req => [req]
  | taken _ req => [req]
  | settled _ req => [req]
  | cleared _ req => [req]

/-- The request whose note is in the table though it is not in flight. -/
def table : VirtHand → List GpuReq
  | noted req => [req]
  | taken _ req => [req]
  | settled _ req => [req]
  | _ => []

/-- The copy for a response has been made, if it is due. -/
def Copied (log : List LogEntry) (resp : GpuResp) (req : GpuReq) : Prop :=
  resp.status = .ok → Wants req → req.memOffset ∈ copied log

def Ok (log : List LogEntry) : VirtHand → Prop
  | taken resp req => Gpu.taken log = some resp ∧ req.id = resp.id
  | settled resp req => Gpu.taken log = some resp ∧ req.id = resp.id ∧ Copied log resp req
  | cleared resp req => Gpu.taken log = some resp ∧ req.id = resp.id ∧ Copied log resp req
  | _ => True

end VirtHand

/-- The virtualiser: what it deals with, and whether each of its two inputs has been seen empty since it was
started. -/
structure VirtAt where
  hand : VirtHand
  seenReq : Bool
  seenResp : Bool

/-- The driver: the requests it has to answer, and whether it has to notify the virtualiser. -/
structure DriverAt where
  held : List GpuReq
  fresh : Bool

structure PairInv (c : ClientAt) (v : VirtAt) (d : DriverAt) (queue : Queue → List Item) (env : Env)
    (log : List LogEntry) :
    Prop where
  outstanding : c.outstanding = asked log
  few : (asked log).length ≤ gpuQueueCapacity
  distinct : ((asked log).map GpuReq.id).Nodup
  way : ((asked log).map GpuReq.id).Perm
    (ids (queue .clientReq) ++ v.hand.req.map GpuReq.id ++ (inFlight log).map GpuReq.id ++
      ids (queue .clientResp))
  flight : ((inFlight log).map GpuReq.id).Perm (ids (queue .driverReq) ++ d.held.map GpuReq.id ++
    ids (queue .driverResp))
  own : ∀ r, Sum.inl r ∈ queue .clientReq ∨ r ∈ v.hand.req ∨ r ∈ inFlight log → r ∈ asked log
  kind : Kind queue
  hand : v.hand.Ok log
  notes : NotesOk env.notes (inFlight log ++ v.hand.table)
  paired : Paired log
  wakeResp : queue .driverResp ≠ [] → env.virtDriver = true ∨ d.fresh = true ∨ v.seenResp = false
  wakeReq : queue .clientReq ≠ [] → env.virtClient = true ∨ c.fresh = true ∨ v.seenReq = false

section steps

variable {c : ClientAt} {v : VirtAt} {d : DriverAt} {queue : Queue → List Item} {env : Env}
  {log : List LogEntry}

theorem PairInv.total (h : PairInv c v d queue env log) :
    (queue .clientReq).length + v.hand.req.length + (inFlight log).length + (queue .clientResp).length ≤
      gpuQueueCapacity := by
  have hl := h.way.length_eq
  simp only [List.length_append, List.length_map, ids] at hl
  have := h.few
  omega

theorem PairInv.total_flight (h : PairInv c v d queue env log) :
    (queue .driverReq).length + d.held.length + (queue .driverResp).length = (inFlight log).length := by
  have hl := h.flight.length_eq
  simp only [List.length_append, List.length_map, ids] at hl
  omega

/-- What holds of a hand depends on the last response taken and the copies made since. -/
theorem VirtHand.Ok.congr {hand : VirtHand} {log' : List LogEntry} (h : hand.Ok log)
    (ht : Gpu.taken log' = Gpu.taken log)
    (hc : copied log' = copied log) : hand.Ok log' := by
  cases hand with
  | taken resp req => exact ⟨ht.trans h.1, h.2⟩
  | settled resp req => exact ⟨ht.trans h.1, h.2.1, fun ho hw => by rw [hc]; exact h.2.2 ho hw⟩
  | cleared resp req => exact ⟨ht.trans h.1, h.2.1, fun ho hw => by rw [hc]; exact h.2.2 ho hw⟩
  | _ => trivial

/-- The client queues a request with a new id. -/
theorem PairInv.submit (h : PairInv c v d queue env log) {req : GpuReq}
    (hlt : c.outstanding.length < gpuQueueCapacity)
    (hid : ∀ r ∈ c.outstanding, r.id ≠ req.id) :
    PairInv ⟨c.outstanding ++ [req], true⟩ v d
      (Function.update queue .clientReq (queue .clientReq ++ [.inl req])) env
      (log ++ [.move .client .clientReq (.push (.inl req))]) := by
  rw [h.outstanding] at hlt hid
  have hasked : asked (log ++ [.move .client .clientReq (.push (.inl req))]) = asked log ++ [req] :=
    asked_snoc _ _
  have hflight : inFlight (log ++ [.move .client .clientReq (.push (.inl req))]) = inFlight log :=
    inFlight_snoc _ _
  refine ⟨by
    rw [hasked, h.outstanding], ?_, ?_, ?_, ?_, ?_, h.kind.push rfl, ?_, ?_, ?_, ?_,
    fun _ => .inr (.inl rfl)⟩
  · rw [hasked, List.length_append, List.length_singleton]
    omega
  · rw [hasked, List.map_append, List.nodup_append]
    refine ⟨h.distinct, by simp, ?_⟩
    intro a ha b hb heq
    obtain ⟨r, hr, rfl⟩ := List.mem_map.mp ha
    rw [List.map_singleton, List.mem_singleton] at hb
    exact hid r hr (heq.trans hb)
  · have hway := h.way
    rw [List.perm_iff_count] at hway ⊢
    intro a
    have := hway a
    rw [hasked, hflight]
    simp only [ids, List.map_append, List.count_append, Function.update_self, ne_eq, reduceCtorEq,
      not_false_eq_true,
      Function.update_of_ne, List.map_cons, List.map_nil, itemId, Numbered.id] at this ⊢
    omega
  · rw [hflight]
    simpa using h.flight
  · intro r hr
    rw [hasked, List.mem_append]
    rw [hflight] at hr
    simp only [Function.update_self, List.mem_append, List.mem_singleton, Sum.inl.injEq] at hr ⊢
    rcases hr with (hr | hr) | hr | hr
    · exact .inl (h.own r (.inl hr))
    · exact .inr hr
    · exact .inl (h.own r (.inr (.inl hr)))
    · exact .inl (h.own r (.inr (.inr hr)))
  · exact h.hand.congr (taken_snoc _ _) (copied_snoc _ _)
  · rw [hflight]
    exact h.notes
  · exact h.paired.snoc trivial
  · simpa using h.wakeResp

/-- Requests on their way have other ids than the responses the client has not taken. -/
theorem PairInv.apart (h : PairInv c v d queue env log) {r : GpuReq} {x : Item}
    (hr : Sum.inl r ∈ queue .clientReq ∨ r ∈ v.hand.req ∨ r ∈ inFlight log) (hx : x ∈ queue .clientResp) :
    r.id ≠ itemId x := by
  have hnd := h.way.nodup_iff.mp h.distinct
  rw [List.nodup_append] at hnd
  refine hnd.2.2 _ ?_ _ (List.mem_map_of_mem hx)
  simp only [List.mem_append]
  rcases hr with hr | hr | hr
  · exact .inl (.inl (List.mem_map.mpr ⟨_, hr, rfl⟩))
  · exact .inl (.inr (List.mem_map_of_mem hr))
  · exact .inr (List.mem_map_of_mem hr)

/-- What the virtualiser deals with has another id than the requests in flight. -/
theorem PairInv.hand_apart (h : PairInv c v d queue env log) {r r' : GpuReq} (hr : r ∈ v.hand.req)
    (hr' : r' ∈ inFlight log) :
    r'.id ≠ r.id := by
  have hnd := h.way.nodup_iff.mp h.distinct
  rw [List.nodup_append, List.nodup_append] at hnd
  refine (hnd.1.2.2 _ ?_ _ (List.mem_map_of_mem hr')).symm
  exact List.mem_append_right _ (List.mem_map_of_mem hr)

/-- The client takes a response. -/
theorem PairInv.receive (h : PairInv c v d queue env log) {x : Item} {q : List Item}
    (hq : queue .clientResp = x :: q) :
    PairInv ⟨settle (itemId x) c.outstanding, c.fresh⟩ v d (Function.update queue .clientResp q) env
      (log ++ [.move .client .clientResp (.pop x)]) := by
  have hasked : asked (log ++ [.move .client .clientResp (.pop x)]) =
    settle (itemId x) (asked log) := asked_snoc _ _
  have hflight : inFlight (log ++ [.move .client .clientResp (.pop x)]) = inFlight log := inFlight_snoc _ _
  have hmem : itemId x ∈ (asked log).map GpuReq.id := by
    rw [h.way.mem_iff, hq]
    simp [ids]
  obtain ⟨r, l, l', hid, heq, hset⟩ := exists_settle hmem
  refine ⟨by rw [hasked, h.outstanding], ?_, ?_, ?_, ?_, ?_, h.kind.pop hq, ?_, ?_, ?_, ?_, ?_⟩
  · have hfew := h.few
    rw [heq] at hfew
    rw [hasked, hset]
    simp only [List.length_append, List.length_cons] at hfew ⊢
    omega
  · rw [hasked]
    exact h.distinct.sublist (List.eraseP_sublist.map _)
  · have hway := h.way
    rw [List.perm_iff_count] at hway ⊢
    intro a
    have := hway a
    rw [hasked, hset, hflight]
    rw [heq, hq] at this
    simp only [ids, List.map_append, List.count_append, Function.update_self, ne_eq, reduceCtorEq,
      not_false_eq_true,
      Function.update_of_ne, List.map_cons, List.count_cons, hid] at this ⊢
    omega
  · rw [hflight]
    simpa using h.flight
  · intro r' hr'
    rw [hflight, Function.update_of_ne (by simp)] at hr'
    have hr := h.own r' hr'
    have hne := h.apart hr' (x := x) (by rw [hq]; exact List.mem_cons_self)
    rw [hasked, hset]
    rw [heq] at hr
    simp only [List.mem_append, List.mem_cons] at hr ⊢
    rcases hr with hr | rfl | hr
    · exact .inl hr
    · exact (hne hid).elim
    · exact .inr hr
  · exact h.hand.congr (taken_snoc _ _) (copied_snoc _ _)
  · rw [hflight]
    exact h.notes
  · refine h.paired.snoc ⟨r, ?_, hid⟩
    rw [heq]
    simp
  · simpa using h.wakeResp
  · simpa using h.wakeReq

/-- The virtualiser takes a request. -/
theorem PairInv.take_req (h : PairInv c v d queue env log) (hv : v.hand = .free) {req : GpuReq}
    {q : List Item}
    (hq : queue .clientReq = .inl req :: q) :
    PairInv c { v with hand := .got req } d (Function.update queue .clientReq q) env
      (log ++ [.move .virt .clientReq (.pop (.inl req))]) := by
  have hasked : asked (log ++ [.move .virt .clientReq (.pop (.inl req))]) = asked log := asked_snoc _ _
  have hflight : inFlight (log ++ [.move .virt .clientReq (.pop (.inl req))]) = inFlight log :=
    inFlight_snoc _ _
  refine ⟨by
    rw [hasked, h.outstanding], by rw [hasked]; exact h.few, by rw [hasked]; exact h.distinct, ?_, ?_, ?_,
    h.kind.pop hq, trivial, ?_, h.paired.snoc trivial, ?_, ?_⟩
  · have hway := h.way
    rw [List.perm_iff_count] at hway ⊢
    intro a
    have := hway a
    rw [hasked, hflight]
    rw [hq, hv] at this
    simp only [ids, List.count_append, Function.update_self, ne_eq, reduceCtorEq, not_false_eq_true,
      Function.update_of_ne, List.map_cons, List.count_cons, List.map_nil, List.count_nil,
        VirtHand.req, itemId, Numbered.id] at this ⊢
    omega
  · rw [hflight]
    simpa using h.flight
  · intro r hr
    rw [hflight, Function.update_self] at hr
    rw [hasked]
    rcases hr with hr | hr | hr
    · exact h.own r (.inl (by rw [hq]; exact List.mem_cons_of_mem _ hr))
    · obtain rfl : r = req := List.mem_singleton.mp hr
      exact h.own r (.inl (by rw [hq]; exact List.mem_cons_self))
    · exact h.own r (.inr (.inr hr))
  · have hnotes := h.notes
    rw [hv] at hnotes
    rw [hflight]
    exact hnotes
  · simpa using h.wakeResp
  · intro _
    exact h.wakeReq (by rw [hq]; exact List.cons_ne_nil _ _)

/-- The virtualiser answers a blob request itself. -/
theorem PairInv.reject (h : PairInv c v d queue env log) {req : GpuReq} (hv : v.hand = .got req) :
    PairInv c { v with hand := .free } d
      (Function.update queue .clientResp (queue .clientResp ++ [.inr ⟨.errInvalidParameter, req.id⟩])) env
      (log ++ [.move .virt .clientResp (.push (.inr ⟨.errInvalidParameter, req.id⟩))]) := by
  have hasked : asked (log ++ [.move .virt .clientResp
    (.push (.inr ⟨.errInvalidParameter, req.id⟩))]) = asked log :=
    asked_snoc _ _
  have hflight : inFlight (log ++ [.move .virt .clientResp
    (.push (.inr ⟨.errInvalidParameter, req.id⟩))]) = inFlight log :=
    inFlight_snoc _ _
  refine ⟨by
    rw [hasked, h.outstanding], by rw [hasked]; exact h.few, by rw [hasked]; exact h.distinct, ?_, ?_, ?_,
    h.kind.push rfl, trivial, ?_, ?_, ?_, ?_⟩
  · have hway := h.way
    rw [List.perm_iff_count] at hway ⊢
    intro a
    have := hway a
    rw [hasked, hflight]
    rw [hv] at this
    simp only [ids, List.map_append, List.count_append, Function.update_self, ne_eq, reduceCtorEq,
      not_false_eq_true,
      Function.update_of_ne, List.map_cons, List.count_cons, List.map_nil, List.count_nil,
        VirtHand.req, itemId, Numbered.id] at this ⊢
    omega
  · rw [hflight]
    simpa using h.flight
  · intro r hr
    rw [hflight, Function.update_of_ne (by simp)] at hr
    rw [hasked]
    rcases hr with hr | hr | hr
    · exact h.own r (.inl hr)
    · exact nomatch hr
    · exact h.own r (.inr (.inr hr))
  · have hnotes := h.notes
    rw [hv] at hnotes
    rw [hflight]
    exact hnotes
  · refine h.paired.snoc ⟨req, h.own req (.inr (.inl ?_)), rfl, ?_⟩
    · rw [hv]
      exact List.mem_singleton_self req
    · rintro resp heq hok
      rw [← Sum.inr.inj heq] at hok
      exact nomatch hok
  · simpa using h.wakeResp
  · simpa using h.wakeReq

/-- The virtualiser notes a request, in a slot no request in flight needs. -/
theorem PairInv.note (h : PairInv c v d queue env log) {req : GpuReq} (hv : v.hand = .got req)
    (hno : ∀ r ∈ inFlight log, ¬Clash req r) :
    PairInv c { v with hand := .noted req } d queue
      { env with notes := Function.update env.notes (noteSlot req.id) (noteOf req) } log := by
  have hway := h.way
  have hown := h.own
  have hnotes := h.notes
  rw [hv] at hway hown hnotes
  rw [show VirtHand.table (.got req) = [] from rfl, List.append_nil] at hnotes
  exact ⟨h.outstanding, h.few, h.distinct, hway, h.flight, hown, h.kind, trivial, hnotes.add hno,
    h.paired, h.wakeResp, h.wakeReq⟩

/-- The virtualiser forwards a request. -/
theorem PairInv.put_req (h : PairInv c v d queue env log) {req : GpuReq} (hv : v.hand = .noted req) :
    PairInv c { v with hand := .free } d (Function.update queue .driverReq
      (queue .driverReq ++ [.inl req])) env
      (log ++ [.move .virt .driverReq (.push (.inl req))]) := by
  have hasked : asked (log ++ [.move .virt .driverReq (.push (.inl req))]) = asked log := asked_snoc _ _
  have hflight : inFlight (log ++ [.move .virt .driverReq (.push (.inl req))]) =
    inFlight log ++ [req] := inFlight_snoc _ _
  refine ⟨by
    rw [hasked, h.outstanding], by rw [hasked]; exact h.few, by rw [hasked]; exact h.distinct, ?_, ?_, ?_,
    h.kind.push rfl, trivial, ?_, h.paired.snoc trivial, ?_, ?_⟩
  · have hway := h.way
    rw [List.perm_iff_count] at hway ⊢
    intro a
    have := hway a
    rw [hasked, hflight]
    rw [hv] at this
    simp only [List.map_append, List.count_append, ne_eq, reduceCtorEq, not_false_eq_true,
      Function.update_of_ne, List.map_cons, List.count_cons, List.map_nil, List.count_nil,
        VirtHand.req] at this ⊢
    omega
  · have hf := h.flight
    rw [List.perm_iff_count] at hf ⊢
    intro a
    have := hf a
    rw [hflight]
    simp only [ids, List.map_append, List.count_append, Function.update_self, ne_eq, reduceCtorEq,
      not_false_eq_true,
      Function.update_of_ne, List.map_cons, List.map_nil, itemId, Numbered.id] at this ⊢
    omega
  · intro r hr
    rw [hflight, Function.update_of_ne (by simp), List.mem_append] at hr
    rw [hasked]
    rcases hr with hr | hr | hr | hr
    · exact h.own r (.inl hr)
    · exact nomatch hr
    · exact h.own r (.inr (.inr hr))
    · exact h.own r (.inr (.inl (by rw [hv]; exact hr)))
  · have hnotes := h.notes
    rw [hv] at hnotes
    rw [hflight, show VirtHand.table .free = [] from rfl, List.append_nil]
    exact hnotes
  · simpa using h.wakeResp
  · simpa using h.wakeReq

/-- The driver takes a request. -/
theorem PairInv.serve_req (h : PairInv c v d queue env log) {req : GpuReq} {q : List Item}
    (hq : queue .driverReq = .inl req :: q) :
    PairInv c v { d with held := d.held ++ [req] } (Function.update queue .driverReq q) env
      (log ++ [.move .driver .driverReq (.pop (.inl req))]) := by
  have hasked : asked (log ++ [.move .driver .driverReq (.pop (.inl req))]) = asked log := asked_snoc _ _
  have hflight : inFlight (log ++ [.move .driver .driverReq (.pop (.inl req))]) = inFlight log :=
    inFlight_snoc _ _
  refine ⟨by
    rw [hasked, h.outstanding], by rw [hasked]; exact h.few, by rw [hasked]; exact h.distinct, ?_, ?_, ?_,
    h.kind.pop hq, h.hand.congr (taken_snoc _ _) (copied_snoc _ _), ?_, h.paired.snoc trivial, ?_, ?_⟩
  · rw [hasked, hflight]
    simpa using h.way
  · have hf := h.flight
    rw [List.perm_iff_count] at hf ⊢
    intro a
    have := hf a
    rw [hflight]
    rw [hq] at this
    simp only [ids, List.map_append, List.count_append, Function.update_self, ne_eq, reduceCtorEq,
      not_false_eq_true,
      Function.update_of_ne, List.map_cons, List.count_cons, List.map_nil, List.count_nil, itemId,
        Numbered.id] at this ⊢
    omega
  · rw [hasked, hflight]
    simpa using h.own
  · rw [hflight]
    exact h.notes
  · simpa using h.wakeResp
  · simpa using h.wakeReq

/-- The driver answers one of the requests it has taken. -/
theorem PairInv.serve_resp (h : PairInv c v d queue env log) {i : Nat} {req : GpuReq}
    (hi : d.held[i]? = some req)
    (status : GpuRespStatus) :
    PairInv c v ⟨d.held.eraseIdx i, true⟩
      (Function.update queue .driverResp (queue .driverResp ++ [.inr ⟨status, req.id⟩])) env
      (log ++ [.move .driver .driverResp (.push (.inr ⟨status, req.id⟩))]) := by
  have hasked : asked (log ++ [.move .driver .driverResp (.push (.inr ⟨status, req.id⟩))]) =
    asked log := asked_snoc _ _
  have hflight : inFlight (log ++ [.move .driver .driverResp (.push (.inr ⟨status, req.id⟩))]) =
    inFlight log :=
    inFlight_snoc _ _
  refine ⟨by
    rw [hasked, h.outstanding], by rw [hasked]; exact h.few, by rw [hasked]; exact h.distinct, ?_, ?_, ?_,
    h.kind.push rfl, h.hand.congr (taken_snoc _ _) (copied_snoc _ _), ?_, h.paired.snoc trivial,
      fun _ => .inr (.inl rfl), ?_⟩
  · rw [hasked, hflight]
    simpa using h.way
  · obtain ⟨hlt, rfl⟩ := List.getElem?_eq_some_iff.mp hi
    have hperm := (List.getElem_cons_eraseIdx_perm hlt).map GpuReq.id
    have hf := h.flight
    rw [List.perm_iff_count] at hf hperm ⊢
    intro a
    have h1 := hf a
    have h2 := hperm a
    rw [hflight]
    simp only [ids, List.map_append, List.count_append, Function.update_self, ne_eq, reduceCtorEq,
      not_false_eq_true,
      Function.update_of_ne, List.map_cons, List.count_cons, List.map_nil, List.count_nil, itemId,
        Numbered.id] at h1 h2 ⊢
    omega
  · rw [hasked, hflight]
    simpa using h.own
  · rw [hflight]
    exact h.notes
  · simpa using h.wakeReq

/-- The virtualiser takes a response: it answers a request in flight. -/
theorem PairInv.take_resp (h : PairInv c v d queue env log) (hv : v.hand = .free) {resp : GpuResp}
    {q : List Item}
    (hq : queue .driverResp = .inr resp :: q) :
    ∃ req, PairInv c { v with hand := .taken resp req } d (Function.update queue .driverResp q) env
      (log ++ [.move .virt .driverResp (.pop (.inr resp))]) := by
  have hasked : asked (log ++ [.move .virt .driverResp (.pop (.inr resp))]) = asked log := asked_snoc _ _
  have hflight : inFlight (log ++ [.move .virt .driverResp (.pop (.inr resp))]) =
    settle resp.id (inFlight log) :=
    inFlight_snoc _ _
  have hmem : resp.id ∈ (inFlight log).map GpuReq.id := by
    rw [h.flight.mem_iff, hq]
    simp [ids, itemId, Numbered.id]
  obtain ⟨req, l, l', hid, heq, hset⟩ := exists_settle hmem
  rw [hset] at hflight
  refine ⟨req,
    by rw [hasked, h.outstanding], by rw [hasked]; exact h.few, by rw [hasked]; exact h.distinct, ?_, ?_, ?_,
    h.kind.pop hq, ⟨taken_snoc _ _, hid⟩, ?_, h.paired.snoc trivial, ?_, ?_⟩
  · have hway := h.way
    rw [List.perm_iff_count] at hway ⊢
    intro a
    have := hway a
    rw [hasked, hflight]
    rw [heq, hv] at this
    simp only [List.map_append, List.count_append, ne_eq, reduceCtorEq, not_false_eq_true,
      Function.update_of_ne, List.map_cons, List.count_cons, List.map_nil, List.count_nil,
        VirtHand.req] at this ⊢
    omega
  · have hf := h.flight
    rw [List.perm_iff_count] at hf ⊢
    intro a
    have := hf a
    rw [hflight]
    rw [heq, hq] at this
    simp only [ids, List.map_append, List.count_append, Function.update_self, ne_eq, reduceCtorEq,
      not_false_eq_true,
      Function.update_of_ne, List.map_cons, List.count_cons, itemId, Numbered.id, hid] at this ⊢
    omega
  · intro r hr
    rw [hflight, Function.update_of_ne (by simp)] at hr
    rw [hasked]
    rcases hr with hr | hr | hr
    · exact h.own r (.inl hr)
    · obtain rfl : r = req := List.mem_singleton.mp hr
      exact h.own r (.inr (.inr (by rw [heq]; simp)))
    · refine h.own r (.inr (.inr ?_))
      rw [heq]
      simp only [List.mem_append, List.mem_cons] at hr ⊢
      rcases hr with hr | hr
      · exact .inl hr
      · exact .inr (.inr hr)
  · have hnotes := h.notes
    rw [hv, heq] at hnotes
    rw [hflight]
    refine hnotes.congr fun r => ?_
    simp only [VirtHand.table, List.append_nil, List.mem_append, List.mem_cons, List.not_mem_nil, or_false]
    exact or_right_comm.trans or_assoc
  · intro _
    exact h.wakeResp (by rw [hq]; exact List.cons_ne_nil _ _)
  · simpa using h.wakeReq

/-- No copy is due for the response. -/
theorem PairInv.settle (h : PairInv c v d queue env log) {resp : GpuResp} {req : GpuReq}
    (hv : v.hand = .taken resp req)
    (hno : resp.status = .ok → ¬Wants req) : PairInv c { v with hand := .settled resp req } d queue
      env log := by
  have hway := h.way
  have hown := h.own
  have hnotes := h.notes
  have hhand := h.hand
  rw [hv] at hway hown hnotes hhand
  exact ⟨h.outstanding, h.few, h.distinct, hway, h.flight, hown, h.kind,
    ⟨hhand.1, hhand.2, fun hok hw => (hno hok hw).elim⟩, hnotes, h.paired, h.wakeResp, h.wakeReq⟩

/-- The copy is made, at the offset the request asks for. -/
theorem PairInv.copy (h : PairInv c v d queue env log) {resp : GpuResp} {req : GpuReq}
    (hv : v.hand = .taken resp req)
    (hok : resp.status = .ok) (hcode : req.code = .getDisplayInfo) {clientData : Nat → BitVec 8} :
    PairInv c { v with hand := .settled resp req } d queue { env with clientData := clientData }
      (log ++ [.note .virt req.memOffset]) := by
  have hasked : asked (log ++ [.note .virt req.memOffset]) = asked log := asked_snoc _ _
  have hflight : inFlight (log ++ [.note .virt req.memOffset]) = inFlight log := inFlight_snoc _ _
  have hcopied : copied (log ++ [.note .virt req.memOffset]) = copied log ++ [req.memOffset] :=
    copied_snoc _ _
  have hway := h.way
  have hown := h.own
  have hnotes := h.notes
  have hhand := h.hand
  rw [hv] at hway hown hnotes hhand
  refine ⟨by
    rw [hasked, h.outstanding], by rw [hasked]; exact h.few, by rw [hasked]; exact h.distinct, ?_, ?_, ?_,
    h.kind, ⟨(taken_snoc _ _).trans hhand.1, hhand.2, fun _ _ => ?_⟩, ?_, ?_, h.wakeResp, h.wakeReq⟩
  · rw [hasked, hflight]
    exact hway
  · rw [hflight]
    exact h.flight
  · rw [hasked, hflight]
    exact hown
  · rw [hcopied]
    simp
  · rw [hflight]
    exact hnotes
  · exact h.paired.snoc ⟨resp, hhand.1, hok, req,
      hown req (.inr (.inl (List.mem_singleton_self req))), hhand.2, hcode, rfl⟩

/-- The note of the request is cleared. -/
theorem PairInv.clear (h : PairInv c v d queue env log) {resp : GpuResp} {req : GpuReq}
    (hv : v.hand = .settled resp req) :
    PairInv c { v with hand := .cleared resp req } d queue
      { env with notes := Function.update env.notes (noteSlot resp.id) { env.notes (noteSlot resp.id) with live := false } }
      log := by
  have hapart : ∀ r ∈ inFlight log, r.id ≠ req.id := fun r hr =>
    h.hand_apart (by rw [hv]; exact List.mem_singleton_self req) hr
  have hway := h.way
  have hown := h.own
  have hnotes := h.notes
  have hhand := h.hand
  rw [hv] at hway hown hnotes hhand
  refine ⟨h.outstanding, h.few, h.distinct, hway, h.flight, hown, h.kind, hhand, ?_, h.paired,
    h.wakeResp, h.wakeReq⟩
  rw [← hhand.2.1, show VirtHand.table (.cleared resp req) = [] from rfl, List.append_nil]
  exact hnotes.clear hapart

/-- The response becomes visible to the client. -/
theorem PairInv.put_resp (h : PairInv c v d queue env log) {resp : GpuResp} {req : GpuReq}
    (hv : v.hand = .cleared resp req) :
    PairInv c { v with hand := .free } d (Function.update queue .clientResp
      (queue .clientResp ++ [.inr resp])) env
      (log ++ [.move .virt .clientResp (.push (.inr resp))]) := by
  have hasked : asked (log ++ [.move .virt .clientResp (.push (.inr resp))]) = asked log := asked_snoc _ _
  have hflight : inFlight (log ++ [.move .virt .clientResp (.push (.inr resp))]) = inFlight log :=
    inFlight_snoc _ _
  have hhand := h.hand
  rw [hv] at hhand
  obtain ⟨htaken, hid, hcopied⟩ := hhand
  refine ⟨by
    rw [hasked, h.outstanding], by rw [hasked]; exact h.few, by rw [hasked]; exact h.distinct, ?_, ?_, ?_,
    h.kind.push rfl, trivial, ?_, ?_, ?_, ?_⟩
  · have hway := h.way
    rw [List.perm_iff_count] at hway ⊢
    intro a
    have := hway a
    rw [hasked, hflight]
    rw [hv] at this
    simp only [ids, List.map_append, List.count_append, Function.update_self, ne_eq, reduceCtorEq,
      not_false_eq_true,
      Function.update_of_ne, List.map_cons, List.count_cons, List.map_nil, List.count_nil,
        VirtHand.req, itemId, Numbered.id, hid] at this ⊢
    omega
  · rw [hflight]
    simpa using h.flight
  · intro r hr
    rw [hflight, Function.update_of_ne (by simp)] at hr
    rw [hasked]
    rcases hr with hr | hr | hr
    · exact h.own r (.inl hr)
    · exact nomatch hr
    · exact h.own r (.inr (.inr hr))
  · have hnotes := h.notes
    rw [hv] at hnotes
    rw [hflight]
    exact hnotes
  · refine h.paired.snoc ⟨req, h.own req (.inr (.inl ?_)), hid, ?_⟩
    · rw [hv]
      exact List.mem_singleton_self req
    · rintro resp' heq hok hcode hrange
      obtain rfl := Sum.inr.inj heq
      exact ⟨htaken, hcopied hok ⟨hcode, hrange⟩⟩
  · simpa using h.wakeResp
  · simpa using h.wakeReq

/-- A step that moves no record and leaves the notes alone. -/
theorem PairInv.wake (h : PairInv c v d queue env log) {c' : ClientAt} {u : VirtAt} {x : DriverAt}
    {env' : Env}
    (hc : c'.outstanding = c.outstanding) (hv : u.hand = v.hand) (hd : x.held = d.held)
      (hn : env'.notes = env.notes)
    (h2 : queue .driverResp ≠ [] → env'.virtDriver = true ∨ x.fresh = true ∨ u.seenResp = false)
    (h3 : queue .clientReq ≠ [] → env'.virtClient = true ∨ c'.fresh = true ∨ u.seenReq = false) :
    PairInv c' u x queue env' log :=
  ⟨by rw [hc]; exact h.outstanding, h.few, h.distinct, by rw [hv]; exact h.way, by rw [hd]; exact h.flight,
    by rw [hv]; exact h.own, h.kind, by rw [hv]; exact h.hand, by rw [hv, hn]; exact h.notes, h.paired, h2, h3⟩

end steps

/-! ### The outline -/

/-- The virtualiser deals with nothing while it waits, and has seen its inputs empty. -/
def VirtAt.rest : VirtAt := ⟨.free, true, true⟩

def pairOk : (t : Pd) → Know ClientAt VirtAt DriverAt t → Ev → Prop
  | _, _, .dropped _ => False
  | .client, g, .clientActs => ClientAt.fresh g = false
  | .virt, g, .virtNotified => g = VirtAt.rest
  | .driver, g, .driverActs held => g = (⟨held, false⟩ : DriverAt)
  | _, _, _ => True

/-- A request is noted where it clashes with none in flight. -/
def pairMay (s : gpuSystem.Lists) : Ev → Prop
  | .setNote req => ∀ r ∈ inFlight s.log, ¬Clash req r
  | _ => True

def pairOutline : Outline Pd (callSig evSig (recordLib GpuReq GpuResp) Queue) gpuSystem.Lists :=
  outline gpuSystem pairOk pairMay PairInv

section domains

/-! ### The virtualiser -/

/-- A full response queue holds all that is outstanding. -/
theorem safe_full_clientResp {g : VirtAt} :
    pairOutline.Safe .virt (queueFull .clientResp)
      (fun full (g' : VirtAt) => g' = if full = true then { g with seenResp := true } else g) g := by
  refine performs_virt_call fun c d queue env log h r m hspec => ?_
  obtain ⟨rfl, rfl⟩ := Prod.mk.inj hspec
  refine ⟨_, ?_, rfl⟩
  split
  · rename_i hfull
    have hlen : (queue .clientResp).length = gpuQueueCapacity := of_decide_eq_true hfull
    have htotal := h.total
    have hflight := h.total_flight
    have hnil : queue .driverResp = [] := List.length_eq_zero_iff.mp (by omega)
    exact still (h.wake (u := { g with seenResp := true }) rfl rfl rfl rfl
      (fun hne => (hne hnil).elim) h.wakeReq)
  · exact still h

theorem safe_full_driverReq {g : VirtAt} :
    pairOutline.Safe .virt (queueFull .driverReq)
      (fun full (g' : VirtAt) => g' = if full = true then { g with seenReq := true } else g) g := by
  refine performs_virt_call fun c d queue env log h r m hspec => ?_
  obtain ⟨rfl, rfl⟩ := Prod.mk.inj hspec
  refine ⟨_, ?_, rfl⟩
  split
  · rename_i hfull
    have hlen : (queue .driverReq).length = gpuQueueCapacity := of_decide_eq_true hfull
    have htotal := h.total
    have hflight := h.total_flight
    have hnil : queue .clientReq = [] := List.length_eq_zero_iff.mp (by omega)
    exact still (h.wake (u := { g with seenReq := true }) rfl rfl rfl rfl h.wakeResp
      (fun hne => (hne hnil).elim))
  · exact still h

/-- What a dequeue of the virtualiser leaves it with. -/
theorem safe_dequeueResp {g : VirtAt} (hg : g.hand = .free) :
    pairOutline.Safe .virt (dequeueResp .driverResp)
      (fun got (g' : VirtAt) => match got with
        | none => g' = { g with seenResp := true }
        | some resp => ∃ req, g' = { g with hand := .taken resp req }) g := by
  refine performs_virt_call fun c d queue env log h r m hspec => ?_
  by_cases hq : queue .driverResp = []
  · rw [hq] at hspec
    obtain ⟨rfl, rfl⟩ := Prod.mk.inj hspec
    exact ⟨_, still (h.wake (u := { g with seenResp := true }) rfl rfl rfl rfl
      (fun hne => (hne hq).elim) h.wakeReq), rfl⟩
  · obtain ⟨x, q, hq⟩ := List.exists_cons_of_ne_nil hq
    obtain ⟨resp, rfl⟩ := h.kind.head_resp (.inr rfl) hq
    rw [hq] at hspec ⊢
    obtain ⟨rfl, rfl⟩ := Prod.mk.inj hspec
    obtain ⟨req, h'⟩ := h.take_resp hg hq
    exact ⟨_, h', req, rfl⟩

theorem safe_dequeueReq {g : VirtAt} (hg : g.hand = .free) :
    pairOutline.Safe .virt (dequeueReq .clientReq)
      (fun got (g' : VirtAt) => g' = match got with
        | none => { g with seenReq := true }
        | some req => { g with hand := .got req }) g := by
  refine performs_virt_call fun c d queue env log h r m hspec => ?_
  by_cases hq : queue .clientReq = []
  · rw [hq] at hspec
    obtain ⟨rfl, rfl⟩ := Prod.mk.inj hspec
    exact ⟨_, still (h.wake (u := { g with seenReq := true }) rfl rfl rfl rfl h.wakeResp
      (fun hne => (hne hq).elim)), rfl⟩
  · obtain ⟨x, q, hq⟩ := List.exists_cons_of_ne_nil hq
    obtain ⟨req, rfl⟩ := h.kind.head_req (.inl rfl) hq
    rw [hq] at hspec ⊢
    obtain ⟨rfl, rfl⟩ := Prod.mk.inj hspec
    exact ⟨_, h.take_req hg hq, rfl⟩

/-- There is room for whatever the virtualiser deals with. -/
theorem safe_enqueueResp {g : VirtAt} {resp : GpuResp} {req : GpuReq} (hg : g.hand = .cleared resp req) :
    pairOutline.Safe .virt (enqueueResp .clientResp resp)
      (fun put (g' : VirtAt) => put = 0 ∧ g' = { g with hand := .free }) g := by
  refine performs_virt_call fun c d queue env log h r m hspec => ?_
  have htotal := h.total
  rw [hg] at htotal
  simp only [VirtHand.req, List.length_singleton] at htotal
  have hspec : push gpuQueueCapacity (Sum.inr resp) (queue .clientResp) = (r, m) := hspec
  rw [push, if_neg (by omega)] at hspec
  obtain ⟨rfl, rfl⟩ := Prod.mk.inj hspec
  exact ⟨_, h.put_resp hg, rfl, rfl⟩

theorem safe_reject {g : VirtAt} {req : GpuReq} (hg : g.hand = .got req) :
    pairOutline.Safe .virt (enqueueResp .clientResp ⟨.errInvalidParameter, req.id⟩)
      (fun put (g' : VirtAt) => put = 0 ∧ g' = { g with hand := .free }) g := by
  refine performs_virt_call fun c d queue env log h r m hspec => ?_
  have htotal := h.total
  rw [hg] at htotal
  simp only [VirtHand.req, List.length_singleton] at htotal
  have hspec : push gpuQueueCapacity (Sum.inr ⟨.errInvalidParameter, req.id⟩) (queue .clientResp) =
    (r, m) := hspec
  rw [push, if_neg (by omega)] at hspec
  obtain ⟨rfl, rfl⟩ := Prod.mk.inj hspec
  exact ⟨_, h.reject hg, rfl, rfl⟩

theorem safe_enqueueReq {g : VirtAt} {req : GpuReq} (hg : g.hand = .noted req) :
    pairOutline.Safe .virt (enqueueReq .driverReq req)
      (fun put (g' : VirtAt) => put = 0 ∧ g' = { g with hand := .free }) g := by
  refine performs_virt_call fun c d queue env log h r m hspec => ?_
  have htotal := h.total
  have hflight := h.total_flight
  rw [hg] at htotal
  simp only [VirtHand.req, List.length_singleton] at htotal
  have hspec : push gpuQueueCapacity (Sum.inl req) (queue .driverReq) = (r, m) := hspec
  rw [push, if_neg (by omega)] at hspec
  obtain ⟨rfl, rfl⟩ := Prod.mk.inj hspec
  exact ⟨_, h.put_req hg, rfl, rfl⟩

/-- Events of the virtualiser that leave the notes and its notifications alone. -/
def Ev.plain : Ev → Bool
  | .notify _ => true
  | .checkDisplayInfo => true
  | .setDisplayInfo => true
  | .clearDisplayInfo => true
  | _ => false

theorem exec_plain {o : Ev} (ho : o.plain = true) {env env' : Env} {ch : Choice} {r : o.Res}
    (he : exec .virt env o ch = some (r, env')) :
    env'.notes = env.notes ∧ env'.virtDriver = env.virtDriver ∧ env'.virtClient = env.virtClient := by
  cases o with
  | notify peer =>
    cases peer with
    | virt => exact nomatch he
    | client =>
      obtain ⟨-, rfl⟩ := Prod.mk.inj (Option.some.inj he)
      exact ⟨rfl, rfl, rfl⟩
    | driver =>
      obtain ⟨-, rfl⟩ := Prod.mk.inj (Option.some.inj he)
      exact ⟨rfl, rfl, rfl⟩
  | checkDisplayInfo =>
    obtain ⟨-, rfl⟩ := Prod.mk.inj (Option.some.inj he)
    exact ⟨rfl, rfl, rfl⟩
  | setDisplayInfo =>
    obtain ⟨-, rfl⟩ := Prod.mk.inj (Option.some.inj he)
    exact ⟨rfl, rfl, rfl⟩
  | clearDisplayInfo =>
    obtain ⟨-, rfl⟩ := Prod.mk.inj (Option.some.inj he)
    exact ⟨rfl, rfl, rfl⟩
  | _ => exact nomatch ho

theorem safe_plain {o : Ev} (ho : o.plain = true) {g : VirtAt} :
    pairOutline.Safe .virt (ev o) (fun _ (g' : VirtAt) => g' = g) g := by
  have hok : pairOk .virt g o := by
    cases o with
    | virtNotified => exact nomatch ho
    | dropped site => exact nomatch ho
    | _ => trivial
  have hn : ∀ r, noted o r = none := by
    cases o with
    | copy offset => exact nomatch ho
    | _ => exact fun _ => rfl
  refine performs_virt_ev hok hn fun c d s _ h ch r env' he => ?_
  obtain ⟨h1, h2, h3⟩ := exec_plain ho he
  refine ⟨g, ?_, rfl⟩
  exact h.wake rfl rfl rfl h1 (by rw [h2]; exact h.wakeResp) (by rw [h3]; exact h.wakeReq)

theorem safe_setNote {g : VirtAt} {req : GpuReq} (hg : g.hand = .got req) :
    pairOutline.Safe .virt (ev (.setNote req))
      (fun _ (g' : VirtAt) => g' = { g with hand := .noted req }) g := by
  refine performs_virt_ev trivial (fun _ => rfl) fun c d s hm h ch r env' he => ?_
  obtain ⟨-, rfl⟩ := Prod.mk.inj (Option.some.inj he)
  refine ⟨_, ?_, rfl⟩
  exact h.note hg hm

/-- What the virtualiser knows from the note of a response: it leads to a copy exactly if the request is due
one, at its own offset. -/
def Read (g : VirtAt) (resp : GpuResp) (req : GpuReq) (note : Note) (g' : VirtAt) : Prop :=
  (copies note resp ∧ inRange note.memOffset = true ∧ req.code = .getDisplayInfo ∧
    note.memOffset = req.memOffset ∧ g' = g) ∨
    (¬(copies note resp ∧ inRange note.memOffset = true) ∧ g' = { g with hand := .settled resp req })

theorem safe_note {g : VirtAt} {resp : GpuResp} {req : GpuReq} (hg : g.hand = .taken resp req) :
    pairOutline.Safe .virt (ev (.note resp.id)) (Read g resp req) g := by
  refine performs_virt_ev trivial (fun _ => rfl) fun c d s _ h ch r env' he => ?_
  obtain ⟨rfl, rfl⟩ := Prod.mk.inj (Option.some.inj he)
  have hnotes := h.notes
  have hhand := h.hand
  rw [hg] at hnotes hhand
  have hmem : req ∈ inFlight s.log ++ VirtHand.table (.taken resp req) := by simp [VirtHand.table]
  rw [← hhand.2]
  by_cases hc : copies (Env.notes s.env (noteSlot req.id)) resp ∧
    inRange (Env.notes s.env (noteSlot req.id)).memOffset = true
  · obtain ⟨hw, heq⟩ := hnotes.own hmem ⟨hc.1.1, hc.1.2.1, hc.2⟩
    refine ⟨g, h, .inl ⟨hc.1, hc.2, hw.1, ?_, rfl⟩⟩
    rw [heq]
    exact noteOf_memOffset hw.1
  · refine ⟨_, h.settle hg fun hok hw => hc ?_, .inr ⟨hc, rfl⟩⟩
    rw [hnotes.set req hmem hw]
    exact ⟨⟨rfl, hw.1, hok⟩, hw.copying.2.2⟩

theorem safe_copy {g : VirtAt} {resp : GpuResp} {req : GpuReq} (hg : g.hand = .taken resp req)
    (hok : resp.status = .ok)
    (hcode : req.code = .getDisplayInfo) :
    pairOutline.Safe .virt (ev (.copy req.memOffset))
      (fun _ (g' : VirtAt) => g' = { g with hand := .settled resp req }) g := by
  refine ⟨trivial, ?_⟩
  rintro G s hG - hi r s' ⟨ch, env', he, rfl⟩
  obtain ⟨-, rfl⟩ := Prod.mk.inj (Option.some.inj he)
  subst hG
  exact ⟨_, PairInv.copy hi hg hok hcode, rfl⟩

/-- The copy is seen to. -/
theorem safe_copyDisplay {g g' : VirtAt} {resp : GpuResp} {req : GpuReq} {note : Note}
    (hg : g.hand = .taken resp req)
    (hread : Read g resp req note g') :
    pairOutline.Safe .virt (Prog.when (copies note resp) (copyDisplay note.memOffset))
      (fun _ (g' : VirtAt) => g' = { g with hand := .settled resp req }) g' := by
  rcases hread with ⟨hc, hr, hcode, hoff, rfl⟩ | ⟨hno, rfl⟩
  · refine Outline.Safe.when (fun _ => Outline.Safe.when (fun _ => ?_) fun hn => (hn hr).elim)
      fun hn => (hn hc).elim
    rw [hoff]
    exact safe_copy hg hc.2.2 hcode
  · exact Outline.Safe.when (fun hc => Outline.Safe.when (fun hr => (hno ⟨hc, hr⟩).elim) fun _ =>
      rfl) fun _ => rfl

theorem safe_clearLive {g : VirtAt} {resp : GpuResp} {req : GpuReq} (hg : g.hand = .settled resp req) :
    pairOutline.Safe .virt (ev (.clearLive resp.id))
      (fun _ (g' : VirtAt) => g' = { g with hand := .cleared resp req }) g := by
  refine performs_virt_ev trivial (fun _ => rfl) fun c d s _ h ch r env' he => ?_
  obtain ⟨-, rfl⟩ := Prod.mk.inj (Option.some.inj he)
  refine ⟨_, ?_, rfl⟩
  exact h.clear hg

theorem safe_forwardResponses (seenReq seenResp : Bool) :
    pairOutline.Safe .virt forwardResponses (fun _ (g' : VirtAt) => g' = ⟨.free, seenReq, true⟩)
      (⟨.free, seenReq, seenResp⟩ : VirtAt) := by
  refine Outline.Safe.iterate (fun _ (g : VirtAt) => g = ⟨.free, seenReq, seenResp⟩) rfl
    (fun _ _ _ => trivial) ?_
  rintro moved g rfl
  refine safe_full_clientResp.seq ?_
  rintro full g rfl
  refine Outline.Safe.ite (fun hfull => ?_) fun hfull => ?_
  · rw [if_pos hfull]
    rfl
  · rw [if_neg hfull]
    refine (safe_dequeueResp rfl).seq fun got g hgot => ?_
    cases got with
    | none =>
      rw [hgot]
      rfl
    | some resp =>
      obtain ⟨req, rfl⟩ := hgot
      refine (safe_note rfl).seq fun note g hread => ?_
      refine (safe_copyDisplay rfl hread).seq ?_
      rintro _ g rfl
      refine (safe_clearLive rfl).seq ?_
      rintro _ g rfl
      refine (safe_enqueueResp rfl).seq ?_
      rintro put g ⟨rfl, rfl⟩
      refine (safe_plain (o := .notify .client) rfl).seq ?_
      rintro _ g rfl
      rfl

theorem safe_forwardRequests (seenReq seenResp : Bool) :
    pairOutline.Safe .virt forwardRequests (fun _ (g' : VirtAt) => g' = ⟨.free, true, seenResp⟩)
      (⟨.free, seenReq, seenResp⟩ : VirtAt) := by
  refine Outline.Safe.iterate (fun _ (g : VirtAt) => g = ⟨.free, seenReq, seenResp⟩) rfl
    (fun _ _ _ => trivial) ?_
  rintro moved g rfl
  refine safe_full_driverReq.seq ?_
  rintro full g rfl
  refine Outline.Safe.ite (fun hfull => ?_) fun hfull => ?_
  · rw [if_pos hfull]
    rfl
  · rw [if_neg hfull]
    refine (safe_dequeueReq rfl).seq ?_
    rintro got g rfl
    cases got with
    | none => rfl
    | some req =>
      refine Outline.Safe.ite (fun _ => ?_) fun _ => ?_
      · refine Outline.Safe.seq (R := fun _ (g : VirtAt) => g = ⟨.free, seenReq, seenResp⟩) ?_ ?_
        · refine (safe_reject rfl).seq ?_
          rintro put g ⟨rfl, rfl⟩
          exact safe_plain (o := .notify .client) rfl
        · rintro _ g rfl
          rfl
      · refine (safe_setNote rfl).seq ?_
        rintro _ g rfl
        refine (safe_enqueueReq rfl).seq ?_
        rintro put g ⟨rfl, rfl⟩
        refine (safe_plain (o := .notify .driver) rfl).seq ?_
        rintro _ g rfl
        rfl

theorem safe_forwardEvents (g : VirtAt) :
    pairOutline.Safe .virt forwardEvents (fun _ (g' : VirtAt) => g' = g) g := by
  refine (safe_plain (o := .checkDisplayInfo) rfl).seq ?_
  rintro set g rfl
  refine Outline.Safe.when (fun _ => ?_) fun _ => rfl
  refine (safe_plain (o := .setDisplayInfo) rfl).seq ?_
  rintro _ g rfl
  exact safe_plain (o := .clearDisplayInfo) rfl

theorem safe_pump (seenReq seenResp : Bool) :
    pairOutline.Safe .virt pump (fun _ (g' : VirtAt) => g' = VirtAt.rest)
      (⟨.free, seenReq, seenResp⟩ : VirtAt) := by
  refine Outline.Safe.iterate (fun _ (g : VirtAt) => ∃ seenReq seenResp, g = ⟨.free, seenReq, seenResp⟩)
    ⟨_, _, rfl⟩ (fun _ _ _ => trivial) ?_
  rintro _ g ⟨seenReq, seenResp, rfl⟩
  refine (safe_forwardResponses seenReq seenResp).seq ?_
  rintro responses g rfl
  refine (safe_forwardRequests seenReq true).seq ?_
  rintro requests g rfl
  refine (safe_forwardEvents _).seq ?_
  rintro _ g rfl
  exact Outline.Safe.ite (fun _ => rfl) fun _ => ⟨_, _, rfl⟩

theorem safe_virtNotified :
    pairOutline.Safe .virt (ev .virtNotified) (fun (channels : VirtChannels) (g' : VirtAt) =>
      (channels.driver = true ∨ channels.client = true) ∧ g' = ⟨.free, false, false⟩) VirtAt.rest := by
  refine performs_virt_ev rfl (fun _ => rfl) fun c d s _ h ch r env'
    (he : exec .virt s.env .virtNotified ch = some (r, env')) => ?_
  simp only [exec] at he
  split at he
  · rename_i hpending
    obtain ⟨rfl, rfl⟩ := Prod.mk.inj (Option.some.inj he)
    refine ⟨(⟨.free, false, false⟩ : VirtAt), ?_, by simpa using hpending, rfl⟩
    exact h.wake rfl rfl rfl rfl (fun _ => .inr (.inr rfl)) fun _ => .inr (.inr rfl)
  · exact nomatch he

theorem safe_virtLoop : pairOutline.Safe .virt virtLoop (fun _ _ => True) VirtAt.rest := by
  refine Outline.Safe.forever (fun g : VirtAt => g = VirtAt.rest) rfl (fun _ _ => trivial) ?_
  rintro g rfl
  refine safe_virtNotified.seq ?_
  rintro channels g ⟨hch, rfl⟩
  exact Outline.Safe.when (fun _ => safe_pump false false) fun hno => (hno hch).elim

/-! ### The driver -/

theorem safe_driver_dequeue {g : DriverAt} :
    pairOutline.Safe .driver (dequeueReq .driverReq)
      (fun got (g' : DriverAt) => g' = match got with
        | none => g
        | some req => { g with held := g.held ++ [req] }) g := by
  refine performs_driver_call fun c v queue env log h r m hspec => ?_
  by_cases hq : queue .driverReq = []
  · rw [hq] at hspec
    obtain ⟨rfl, rfl⟩ := Prod.mk.inj hspec
    exact ⟨_, still h, rfl⟩
  · obtain ⟨x, q, hq⟩ := List.exists_cons_of_ne_nil hq
    obtain ⟨req, rfl⟩ := h.kind.head_req (.inr rfl) hq
    rw [hq] at hspec ⊢
    obtain ⟨rfl, rfl⟩ := Prod.mk.inj hspec
    exact ⟨_, h.serve_req hq, rfl⟩

theorem safe_answer {g : DriverAt} {i : Nat} {req : GpuReq} (hi : g.held[i]? = some req)
    (status : GpuRespStatus) :
    pairOutline.Safe .driver (enqueueResp .driverResp ⟨status, req.id⟩)
      (fun put (g' : DriverAt) => put = 0 ∧ g' = ⟨g.held.eraseIdx i, true⟩) g := by
  refine performs_driver_call fun c v queue env log h r m hspec => ?_
  have htotal := h.total
  have hflight := h.total_flight
  obtain ⟨hlt, -⟩ := List.getElem?_eq_some_iff.mp hi
  have hspec : push gpuQueueCapacity (Sum.inr ⟨status, req.id⟩) (queue .driverResp) = (r, m) := hspec
  rw [push, if_neg (by omega)] at hspec
  obtain ⟨rfl, rfl⟩ := Prod.mk.inj hspec
  exact ⟨_, h.serve_resp hi status, rfl, rfl⟩

theorem safe_driver_notify {g : DriverAt} :
    pairOutline.Safe .driver (notify .virt) (fun _ (g' : DriverAt) => g' = ⟨g.held, false⟩) g := by
  refine performs_driver_ev trivial (fun _ => rfl) fun c v s _ h ch r env' he => ?_
  obtain ⟨-, rfl⟩ := Prod.mk.inj (Option.some.inj he)
  exact ⟨(⟨g.held, false⟩ : DriverAt), h.wake rfl rfl rfl rfl (fun _ => .inl rfl) h.wakeReq, rfl⟩

theorem safe_store {g : DriverAt} (i : Nat) (b : BitVec 8) :
    pairOutline.Safe .driver (ev (.store i b)) (fun _ (g' : DriverAt) => g' = g) g := by
  refine performs_driver_ev trivial (fun _ => rfl) fun c v s _ h ch r env' he => ?_
  obtain ⟨-, rfl⟩ := Prod.mk.inj (Option.some.inj he)
  exact ⟨g, h.wake rfl rfl rfl rfl h.wakeResp h.wakeReq, rfl⟩

theorem safe_driver_event {g : DriverAt} :
    pairOutline.Safe .driver (ev .setDisplayInfo) (fun _ (g' : DriverAt) => g' = g) g := by
  refine performs_driver_ev trivial (fun _ => rfl) fun c v s _ h ch r env' he => ?_
  obtain ⟨-, rfl⟩ := Prod.mk.inj (Option.some.inj he)
  exact ⟨g, h.wake rfl rfl rfl rfl h.wakeResp h.wakeReq, rfl⟩

theorem safe_driver_wait {g : DriverAt} :
    pairOutline.Safe .driver (ev .wait) (fun _ (g' : DriverAt) => g' = g) g := by
  refine performs_driver_ev trivial (fun _ => rfl) fun c v s _ h ch r env'
    (he : exec .driver s.env .wait ch = some (r, env')) => ?_
  simp only [exec] at he
  split at he
  · obtain ⟨-, rfl⟩ := Prod.mk.inj (Option.some.inj he)
    exact ⟨g, h.wake rfl rfl rfl rfl h.wakeResp h.wakeReq, rfl⟩
  · exact nomatch he

theorem safe_driverAct (acc : List GpuReq × Bool) (a : DriverAct) :
    pairOutline.Safe .driver (driverAct acc a) (fun acc (g' : DriverAt) => g' = ⟨acc.1, acc.2⟩)
      (⟨acc.1, acc.2⟩ : DriverAt) := by
  cases a with
  | take =>
    refine safe_driver_dequeue.seq ?_
    rintro got g rfl
    cases got <;> rfl
  | answer i status =>
    simp only [driverAct]
    split
    · rfl
    · rename_i req hi
      refine (safe_answer (g := ⟨acc.1, acc.2⟩) hi status).seq ?_
      rintro put g ⟨rfl, rfl⟩
      rfl
  | store i b =>
    refine (safe_store i b).seq ?_
    rintro _ g rfl
    rfl
  | setDisplayInfo =>
    refine safe_driver_event.seq ?_
    rintro _ g rfl
    rfl
  | notify =>
    refine safe_driver_notify.seq ?_
    rintro _ g rfl
    rfl
  | wait =>
    refine safe_driver_wait.seq ?_
    rintro _ g rfl
    rfl

theorem safe_driverLoop : pairOutline.Safe .driver driverLoop (fun _ _ => True)
    (⟨[], false⟩ : DriverAt) := by
  refine Outline.Safe.iterate (fun held (g : DriverAt) => g = ⟨held, false⟩) rfl (fun _ _ _ => trivial) ?_
  rintro held g rfl
  refine Outline.Safe.seq (R := fun _ (g : DriverAt) => g = ⟨held, false⟩) ?_ ?_
  · refine performs_driver_ev rfl (fun _ => rfl) fun c v s _ h ch r env' he => ?_
    cases ch with
    | driverActs as =>
      obtain ⟨-, rfl⟩ := Prod.mk.inj (Option.some.inj he)
      exact ⟨_, h, rfl⟩
    | none => exact nomatch he
    | clientActs as => exact nomatch he
  rintro acts g rfl
  refine Outline.Safe.seq (R := fun (acc : List GpuReq × Bool) (g : DriverAt) => g = ⟨acc.1, acc.2⟩) ?_ ?_
  · refine Outline.Safe.fold (O := pairOutline) (t := .driver)
      (fun _ (acc : List GpuReq × Bool) (g : DriverAt) => g = ⟨acc.1, acc.2⟩) ?_ (fun _ _ hg => hg) rfl
    rintro a _ acc g rfl
    exact safe_driverAct acc a
  rintro acc g rfl
  refine Outline.Safe.seq (R := fun _ (g : DriverAt) => g = ⟨acc.1, false⟩) ?_ ?_
  · refine Outline.Safe.when (fun _ => safe_driver_notify) fun hno => ?_
    rw [Bool.not_eq_true] at hno
    rw [hno]
  · rintro _ g rfl
    rfl

/-! ### The client -/

theorem safe_submit {g : ClientAt} {req : GpuReq} (hlt : g.outstanding.length < gpuQueueCapacity)
    (hid : ∀ r ∈ g.outstanding, r.id ≠ req.id) :
    pairOutline.Safe .client (enqueueReq .clientReq req)
      (fun put (g' : ClientAt) => put = 0 ∧ g' = ⟨g.outstanding ++ [req], true⟩) g := by
  refine performs_client_call fun v d queue env log h r m hspec => ?_
  have hway := h.way.length_eq
  rw [← h.outstanding] at hway
  simp only [List.length_append, List.length_map, ids] at hway
  have hspec : push gpuQueueCapacity (Sum.inl req) (queue .clientReq) = (r, m) := hspec
  rw [push, if_neg (by omega)] at hspec
  obtain ⟨rfl, rfl⟩ := Prod.mk.inj hspec
  exact ⟨_, h.submit hlt hid, rfl, rfl⟩

theorem safe_receive {g : ClientAt} :
    pairOutline.Safe .client (dequeueResp .clientResp)
      (fun got (g' : ClientAt) => g' = match got with
        | none => g
        | some resp => ⟨settle resp.id g.outstanding, g.fresh⟩) g := by
  refine performs_client_call fun v d queue env log h r m hspec => ?_
  by_cases hq : queue .clientResp = []
  · rw [hq] at hspec
    obtain ⟨rfl, rfl⟩ := Prod.mk.inj hspec
    exact ⟨_, still h, rfl⟩
  · obtain ⟨x, q, hq⟩ := List.exists_cons_of_ne_nil hq
    obtain ⟨resp, rfl⟩ := h.kind.head_resp (.inl rfl) hq
    rw [hq] at hspec ⊢
    obtain ⟨rfl, rfl⟩ := Prod.mk.inj hspec
    exact ⟨_, h.receive hq, rfl⟩

theorem safe_client_notify {g : ClientAt} :
    pairOutline.Safe .client (notify .virt) (fun _ (g' : ClientAt) => g' = ⟨g.outstanding, false⟩) g := by
  refine performs_client_ev trivial (fun _ => rfl) fun v d s _ h ch r env' he => ?_
  obtain ⟨-, rfl⟩ := Prod.mk.inj (Option.some.inj he)
  exact ⟨(⟨g.outstanding, false⟩ : ClientAt), h.wake rfl rfl rfl rfl h.wakeResp fun _ => .inl rfl, rfl⟩

theorem safe_client_event {g : ClientAt} :
    pairOutline.Safe .client (ev .clearDisplayInfo) (fun _ (g' : ClientAt) => g' = g) g := by
  refine performs_client_ev trivial (fun _ => rfl) fun v d s _ h ch r env' he => ?_
  obtain ⟨-, rfl⟩ := Prod.mk.inj (Option.some.inj he)
  exact ⟨g, h.wake rfl rfl rfl rfl h.wakeResp h.wakeReq, rfl⟩

theorem safe_client_wait {g : ClientAt} :
    pairOutline.Safe .client (ev .wait) (fun _ (g' : ClientAt) => g' = g) g := by
  refine performs_client_ev trivial (fun _ => rfl) fun v d s _ h ch r env'
    (he : exec .client s.env .wait ch = some (r, env')) => ?_
  simp only [exec] at he
  split at he
  · obtain ⟨-, rfl⟩ := Prod.mk.inj (Option.some.inj he)
    exact ⟨g, h.wake rfl rfl rfl rfl h.wakeResp h.wakeReq, rfl⟩
  · exact nomatch he

theorem safe_clientAct (acc : List GpuReq × Bool) (a : ClientAct) :
    pairOutline.Safe .client (clientAct acc a) (fun acc (g' : ClientAt) => g' = ⟨acc.1, acc.2⟩)
      (⟨acc.1, acc.2⟩ : ClientAt) := by
  cases a with
  | submit req =>
    refine Outline.Safe.ite (fun hsub => ?_) fun _ => rfl
    refine (safe_submit (g := ⟨acc.1, acc.2⟩) hsub.1 hsub.2).seq ?_
    rintro put g ⟨rfl, rfl⟩
    rfl
  | receive =>
    refine safe_receive.seq ?_
    rintro got g rfl
    cases got <;> rfl
  | clearDisplayInfo =>
    refine safe_client_event.seq ?_
    rintro _ g rfl
    rfl
  | notify =>
    refine safe_client_notify.seq ?_
    rintro _ g rfl
    rfl
  | wait =>
    refine safe_client_wait.seq ?_
    rintro _ g rfl
    rfl

theorem safe_clientLoop : pairOutline.Safe .client clientLoop (fun _ _ => True)
    (⟨[], false⟩ : ClientAt) := by
  refine Outline.Safe.iterate (fun outstanding (g : ClientAt) => g = ⟨outstanding, false⟩) rfl
    (fun _ _ _ => trivial) ?_
  rintro outstanding g rfl
  refine Outline.Safe.seq (R := fun _ (g : ClientAt) => g = ⟨outstanding, false⟩) ?_ ?_
  · refine performs_client_ev rfl (fun _ => rfl) fun v d s _ h ch r env' he => ?_
    cases ch with
    | clientActs as =>
      obtain ⟨-, rfl⟩ := Prod.mk.inj (Option.some.inj he)
      exact ⟨_, h, rfl⟩
    | none => exact nomatch he
    | driverActs as => exact nomatch he
  rintro acts g rfl
  refine Outline.Safe.seq (R := fun (acc : List GpuReq × Bool) (g : ClientAt) => g = ⟨acc.1, acc.2⟩) ?_ ?_
  · refine Outline.Safe.fold (O := pairOutline) (t := .client)
      (fun _ (acc : List GpuReq × Bool) (g : ClientAt) => g = ⟨acc.1, acc.2⟩) ?_ (fun _ _ hg => hg) rfl
    rintro a _ acc g rfl
    exact safe_clientAct acc a
  rintro acc g rfl
  refine Outline.Safe.seq (R := fun _ (g : ClientAt) => g = ⟨acc.1, false⟩) ?_ ?_
  · refine Outline.Safe.when (fun _ => safe_client_notify) fun hno => ?_
    rw [Bool.not_eq_true] at hno
    rw [hno]
  · rintro _ g rfl
    rfl

end domains

/-! ### Every run -/

theorem pair_init (driverData clientData : Nat → BitVec 8) :
    PairInv ⟨[], false⟩ VirtAt.rest ⟨[], false⟩ (fun _ => []) (Env.boot driverData clientData) [] where
  outstanding := rfl
  few := Nat.zero_le _
  distinct := List.nodup_nil
  way := List.Perm.refl _
  flight := List.Perm.refl _
  own r h := by
    rcases h with h | h | h <;> exact nomatch h
  kind _ _ h := nomatch h
  hand := trivial
  notes := ⟨nofun, (fun _ h => nomatch h.1), nofun⟩
  paired before e after h := by simp at h
  wakeResp h := (h rfl).elim
  wakeReq h := (h rfl).elim

theorem good_capacity : Ring.Good 32 gpuQueueCapacity := ⟨⟨by decide, by decide⟩, by decide⟩

theorem rel_boot (slot : Queue → Nat → Item) (driverData clientData : Nat → BitVec 8) :
    System.Rel gpuSystem (fun _ => .exact) ⟨programs, ⟨fun _ => [], Env.boot driverData clientData, []⟩⟩
      (boot slot driverData clientData) where
  env := rfl
  log := rfl
  ring q := ⟨by simp [boot, Ring.len], by rw [Ring.contents_eq_nil_iff]; rfl⟩
  thread t := rfl

theorem pair_holds (driverData clientData : Nat → BitVec 8) :
    pairOutline.Holds ⟨programs, ⟨fun _ => [], Env.boot driverData clientData, []⟩⟩ := by
  refine ⟨known ⟨[], false⟩ VirtAt.rest ⟨[], false⟩, pair_init driverData clientData, fun t => ?_⟩
  cases t with
  | client => exact safe_clientLoop
  | virt => exact safe_virtLoop
  | driver => exact safe_driverLoop

/-- With nobody at work and nothing pending, all that is outstanding is in the client's response queue. -/
theorem PairInv.answered {c : ClientAt} {queue : Queue → List Item} {env : Env} {log : List LogEntry}
    (h : PairInv c VirtAt.rest ⟨[], false⟩ queue env log) (hc : c.fresh = false)
      (hq : queue .driverReq = [])
    (hp : env.virtDriver = false ∧ env.virtClient = false) :
    ((asked log).map GpuReq.id).Perm (ids (queue .clientResp)) := by
  have hresp : queue .driverResp = [] := by
    by_contra hne
    rcases h.wakeResp hne with hw | hw | hw
    · exact nomatch hp.1.symm.trans hw
    · exact nomatch hw
    · exact nomatch hw
  have hreq : queue .clientReq = [] := by
    by_contra hne
    rcases h.wakeReq hne with hw | hw | hw
    · exact nomatch hp.2.symm.trans hw
    · exact nomatch hc.symm.trans hw
    · exact nomatch hw
  have hflight := h.flight
  have hway := h.way
  rw [hq, hresp] at hflight
  rw [hreq, List.perm_nil.mp hflight] at hway
  simpa [ids, VirtAt.rest, VirtHand.req] using hway

/-- The virtualiser notes no request in a slot that another request in flight needs. -/
def Apart (s : gpuSystem.Conf) (t : Pd) : Prop :=
  ∀ req, gpuSystem.At s t (.setNote req) → ∀ r ∈ inFlight s.log, ¬Clash req r

/-- No handler runs, the client rests, the driver has answered all it was sent, and no notification to the
virtualiser is pending. -/
structure Quiescent (s : gpuSystem.Conf) : Prop where
  client : gpuSystem.At s .client .clientActs
  virt : gpuSystem.At s .virt .virtNotified
  driver : gpuSystem.At s .driver (.driverActs [])
  served : (s.ring .driverReq).contents gpuQueueCapacity = []
  pending : (s.env : Env).virtDriver = false ∧ (s.env : Env).virtClient = false

/-- In every run in which no two requests share a slot that one of them needs, each response the
client takes answers a request it has outstanding, display records are copied for the OK responses
to display requests and for no others, nothing is dropped, and when the path is quiescent every
outstanding request has its response in the client's queue. -/
theorem responses_paired {slot : Queue → Nat → Item} {driverData clientData : Nat → BitVec 8}
    {s : gpuSystem.Conf}
    (h : System.Reaches gpuSystem Apart (boot slot driverData clientData) s) :
    Paired s.log ∧ ((asked s.log).map GpuReq.id).Nodup ∧ (∀ t site, ¬gpuSystem.At s t (.dropped site)) ∧
      (Quiescent s →
        ((asked s.log).map GpuReq.id).Perm (ids ((s.ring .clientResp).contents gpuQueueCapacity))) := by
  have hlog : ∀ (a : State Pd (callSig evSig (recordLib GpuReq GpuResp) Queue) gpuSystem.Lists)
    (s : gpuSystem.Conf),
      System.Rel gpuSystem (fun _ => .exact) a s → a.mem.log = s.log := by
    intro a s hrel
    rw [hrel.log]
    refine List.filter_eq_self.mpr fun e _ => ?_
    cases e <;> rfl
  obtain ⟨a, hreach, hrel⟩ := System.simulates (Y := gpuSystem) (fits fun _ => good_capacity)
    (fun a t => ∀ o k, a.prog t = .act (.ev o) k → pairMay a.mem o) (rel_boot slot driverData clientData)
    (fun s hs => exclusive hs) (fun a s t _ hrel hp hm o k hk => by
      cases o with
      | setNote req =>
        have hno := hm req (System.At.of_shown (hp.symm.trans hk))
        rw [← hlog a s hrel] at hno
        exact hno
      | _ => trivial) h
  obtain ⟨G, hinv, hcov⟩ := Outline.holds_of_reach (pair_holds driverData clientData)
    (fun s t G o k hm hp _ => by
    cases o with
    | call q f => trivial
    | ev o => exact hm o k hp) hreach
  have hinv : PairInv (G .client) (G .virt) (G .driver) a.mem.queue a.mem.env a.mem.log := hinv
  rw [hlog a s hrel, hrel.env] at hinv
  have hat : ∀ t o, gpuSystem.At s t o → pairOk t (G t) o := by
    intro t o hto
    obtain ⟨k', hk'⟩ := hto.thread
    have hp := hrel.thread t
    rw [hk'] at hp
    exact hcov.ok hp
  refine ⟨hinv.paired, hinv.distinct, fun t site hts => ?_, fun hquiet => ?_⟩
  · have := hat t _ hts
    cases t <;> exact this
  · have hc : ClientAt.fresh (G .client) = false := hat _ _ hquiet.client
    have hv : G .virt = VirtAt.rest := hat _ _ hquiet.virt
    have hd : G .driver = (⟨[], false⟩ : DriverAt) := hat _ _ hquiet.driver
    rw [hv, hd] at hinv
    have hq : a.mem.queue .driverReq = [] := (hrel.ring .driverReq).2.symm.trans hquiet.served
    rw [show (s.ring .clientResp).contents gpuQueueCapacity =
      a.mem.queue .clientResp from (hrel.ring .clientResp).2]
    exact hinv.answered hc hq hquiet.pending

/-! ### Two requests in one slot -/

def displayZero : GpuReq := ⟨.getDisplayInfo, 0, 0⟩
def flushSixteen : GpuReq := ⟨.resourceFlush, 16, 0⟩

def bootZero : gpuSystem.Conf := boot (fun _ _ => .inl displayZero) (fun _ => 0) fun _ => 0

/-- The client asks for the display with id 0 and for a flush with id 16; both are forwarded, and
the first is answered. -/
def displayFlush : List (Pd × Choice) :=
  List.flatten [
    [(.client, .none), (.client, .clientActs [.submit displayZero, .submit flushSixteen])],
      .replicate 12 (.client, .none),
    .replicate 67 (.virt, .none), [(.driver, .none), (.driver, .driverActs [.take, .answer 0 .ok])],
    .replicate 12 (.driver, .none), .replicate 51 (.virt, .none)]

/-- The record up to the response, which follows the dequeue without a copy. -/
def displayFlushLog : List LogEntry :=
  [.move .client .clientReq (.push (.inl displayZero)),
    .move .client .clientReq (.push (.inl flushSixteen)),
    .move .virt .clientReq (.pop (.inl displayZero)), .move .virt .driverReq (.push (.inl displayZero)),
    .move .virt .clientReq (.pop (.inl flushSixteen)), .move .virt .driverReq (.push (.inl flushSixteen)),
    .move .driver .driverReq (.pop (.inl displayZero)), .move .driver .driverResp (.push (.inr ⟨.ok, 0⟩)),
    .move .virt .driverResp (.pop (.inr ⟨.ok, 0⟩))]

theorem displayFlush_runs :
    (bootZero.runs (fun _ _ => true) displayFlush).map (fun s => (s.log : List LogEntry)) =
      some (displayFlushLog ++ [.move .virt .clientResp (.push (.inr ⟨.ok, 0⟩))]) := by
  decide +kernel

/-- The client is shown an OK response to its display request though no display record was copied. -/
theorem display_not_copied : ∃ s : gpuSystem.Conf,
    System.Reaches gpuSystem (fun _ _ => True) bootZero s ∧ ¬Paired s.log := by
  obtain ⟨s, hs, hlog⟩ := Option.map_eq_some_iff.mp displayFlush_runs
  refine ⟨s, System.Reaches.init.runs (fun _ _ _ => trivial) hs, fun hp => ?_⟩
  obtain ⟨r, hr, hid, hcopy⟩ := hp displayFlushLog _ [] hlog
  have hr : r = displayZero := by
    have hasked : asked displayFlushLog = [displayZero, flushSixteen] := by decide +kernel
    rw [hasked] at hr
    simp only [List.mem_cons, List.not_mem_nil, or_false] at hr
    rcases hr with rfl | rfl
    · rfl
    · exact absurd hid (by decide)
  subst hr
  have hmem := (hcopy ⟨.ok, 0⟩ rfl rfl rfl (by decide +kernel)).2
  exact absurd hmem (by decide +kernel)

/-- Whether a step notes a request in a slot another one in flight needs. -/
def apart (s : gpuSystem.Conf) (t : Pd) : Bool :=
  match (System.nextEvent (s.thread t) : Option Ev) with
  | some (.setNote req) => (inFlight s.log).all fun r => !decide (Clash req r)
  | _ => true

theorem apart_sound {s : gpuSystem.Conf} {t : Pd} (h : apart s t = true) : Apart s t := by
  intro req hat r hr
  have hat : (System.nextEvent (s.thread t) : Option Ev) = some (.setNote req) := hat
  rw [apart, hat] at h
  have := List.all_eq_true.mp h r hr
  simpa using this

def flushSeventeen : GpuReq := ⟨.resourceFlush, 17, 0⟩

/-- The client asks for the display and for a flush whose note has another slot, and the driver
answers the flush first. -/
def displayAndFlush : List (Pd × Choice) :=
  List.flatten [
    [(.client, .none), (.client, .clientActs [.submit displayZero, .submit flushSeventeen])],
      .replicate 12 (.client, .none),
    .replicate 67 (.virt, .none),
    [(.driver, .none), (.driver, .driverActs [.take, .take, .answer 1 .ok, .answer 0 .ok])],
    .replicate 22 (.driver, .none), .replicate 69 (.virt, .none)]

/-- Everybody rests, and the display record has been copied. -/
def displayed (s : gpuSystem.Conf) : Bool :=
  decide ((System.nextEvent (s.thread .client) : Option Ev) = some .clientActs) &&
    decide ((System.nextEvent (s.thread .virt) : Option Ev) = some .virtNotified) &&
    decide ((System.nextEvent (s.thread .driver) : Option Ev) = some (.driverActs [])) &&
    decide (((s.ring .driverReq).contents gpuQueueCapacity).length = 0) &&
    !(s.env : Env).virtDriver && !(s.env : Env).virtClient &&
    decide (asked s.log = [displayZero, flushSeventeen]) && decide (copied s.log = [0])

theorem displayAndFlush_runs : (bootZero.runs apart displayAndFlush).map displayed = some true := by
  decide +kernel

theorem responses_paired_display : ∃ s : gpuSystem.Conf, System.Reaches gpuSystem Apart bootZero s ∧
    Quiescent s ∧
    copied s.log = [0] ∧ Paired s.log ∧ [0, 17].Perm
      (ids ((s.ring .clientResp).contents gpuQueueCapacity)) := by
  obtain ⟨s, hs, hv⟩ := Option.map_eq_some_iff.mp displayAndFlush_runs
  simp only [displayed, Bool.and_eq_true, decide_eq_true_eq, Bool.not_eq_true'] at hv
  obtain ⟨⟨⟨⟨⟨⟨⟨hc, hvirt⟩, hd⟩, hreq⟩, h1⟩, h2⟩, hasked⟩, hcopied⟩ := hv
  have hreach := System.Reaches.init.runs (fun s t => apart_sound) hs
  have hquiet : Quiescent s := ⟨hc, hvirt, hd, List.length_eq_zero_iff.mp hreq, h1, h2⟩
  have hpaired := responses_paired hreach
  have hperm := hpaired.2.2.2 hquiet
  rw [hasked] at hperm
  exact ⟨s, hreach, hquiet, hcopied, hpaired.1, hperm⟩

end Lerux.Gpu

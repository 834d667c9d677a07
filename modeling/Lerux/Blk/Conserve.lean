import Lerux.Blk.Path

/-!
# Every block request is answered once, in order

The ids of the requests a client has queued are, in order, those of the responses it has taken, of the
responses and requests on their way, and of what the virtualiser and the driver hold. The client keeps at
most `capacity` of them outstanding, so no ring a record is moved to is ever full.

Nothing is stranded: a queue with something in it has a consumer that is notified, about to be notified, or
still to look at it (`wakeDriver`, `wakeResp`, `wakeReq`).
-/

namespace Lerux.Blk

open Lerux.Base Lerux.RecordQueues Lerux.RecordPath Lerux.SerialQueue

abbrev LogEntry := Entry Pd Queue Item Empty

/-- The ids of the requests the client has queued. -/
def requestIds (log : List LogEntry) : List (BitVec 32) :=
  log.filterMap fun
    | .move _ .clientReq (.push x) => some (itemId x)
    | _ => none

/-- The ids of the responses the client has taken. -/
def responseIds (log : List LogEntry) : List (BitVec 32) :=
  log.filterMap fun
    | .move _ .clientResp (.pop x) => some (itemId x)
    | _ => none

theorem requestIds_append (l l' : List LogEntry) : requestIds (l ++ l') = requestIds l ++ requestIds l' :=
  List.filterMap_append

theorem responseIds_append (l l' : List LogEntry) : responseIds (l ++ l') = responseIds l ++
    responseIds l' :=
  List.filterMap_append

theorem requestIds_skip {log : List LogEntry} {e : LogEntry} (h : requestIds [e] = []) :
    requestIds (log ++ [e]) = requestIds log := by
  rw [requestIds_append, h, List.append_nil]

theorem responseIds_skip {log : List LogEntry} {e : LogEntry} (h : responseIds [e] = []) :
    responseIds (log ++ [e]) = responseIds log := by
  rw [responseIds_append, h, List.append_nil]

/-! ### The invariant -/

/-- The client: the requests outstanding, and whether it has to notify the virtualiser. -/
structure ClientAt where
  outstanding : Nat
  fresh : Bool

/-- The virtualiser: the ids it holds, whether each of its two inputs has been seen empty since it was
started, and whether it is about to notify the driver. -/
structure VirtAt where
  reqs : List (BitVec 32)
  resps : List (BitVec 32)
  seenReq : Bool
  seenResp : Bool
  firing : Bool

/-- The driver: the id it holds, whether its input has been seen empty, and whether it is about to
notify. -/
structure DriverAt where
  hand : List (BitVec 32)
  seen : Bool
  firing : Bool

structure PathInv (cap : Nat) (c : ClientAt) (v : VirtAt) (d : DriverAt) (queue : Queue → List Item)
    (env : Env)
    (log : List LogEntry) : Prop where
  order : requestIds log = responseIds log ++ ids (queue .clientResp) ++ v.resps ++
    ids (queue .driverResp) ++ d.hand ++
    ids (queue .driverReq) ++ v.reqs ++ ids (queue .clientReq)
  count : (requestIds log).length = (responseIds log).length + c.outstanding
  bound : c.outstanding ≤ cap
  kind : Kind queue
  wakeDriver : queue .driverReq ≠ [] → env.driverVirt = true ∨ v.firing = true ∨ d.seen = false
  wakeResp : queue .driverResp ≠ [] → env.virtDriver = true ∨ d.firing = true ∨ v.seenResp = false
  wakeReq : queue .clientReq ≠ [] → env.virtClient = true ∨ c.fresh = true ∨ v.seenReq = false

section steps

variable {cap : Nat} {c : ClientAt} {v : VirtAt} {d : DriverAt} {queue : Queue → List Item} {env : Env}
  {log : List LogEntry}

/-- Whatever is outstanding is somewhere on its way. -/
theorem PathInv.total (h : PathInv cap c v d queue env log) :
    (queue .clientResp).length + v.resps.length + (queue .driverResp).length + d.hand.length +
      (queue .driverReq).length + v.reqs.length + (queue .clientReq).length = c.outstanding := by
  have hl := congrArg List.length h.order
  simp only [List.length_append, ids_length] at hl
  have hc := h.count
  omega

/-- The client queues a request. -/
theorem PathInv.submit (h : PathInv cap c v d queue env log) (hlt : c.outstanding < cap) (req : BlkReq) :
    PathInv cap ⟨c.outstanding + 1, true⟩ v d
      (Function.update queue .clientReq (queue .clientReq ++ [.inl req])) env
      (log ++ [.move .client .clientReq (.push (.inl req))]) where
  order := by
    rw [requestIds_append, responseIds_skip rfl, h.order]
    simp [requestIds, itemId, Numbered.id]
  count := by
    rw [requestIds_append, responseIds_skip rfl, List.length_append, h.count]
    rfl
  bound := hlt
  kind := h.kind.push rfl
  wakeDriver := by simpa using h.wakeDriver
  wakeResp := by simpa using h.wakeResp
  wakeReq _ := .inr (.inl rfl)

/-- The client takes a response. -/
theorem PathInv.receive (h : PathInv cap c v d queue env log) {x : Item} {q : List Item}
    (hq : queue .clientResp = x :: q) :
    PathInv cap ⟨c.outstanding - 1, c.fresh⟩ v d (Function.update queue .clientResp q) env
      (log ++ [.move .client .clientResp (.pop x)]) := by
  have htotal := h.total
  have hcount := h.count
  have hbound := h.bound
  rw [hq, List.length_cons] at htotal
  refine ⟨?_, ?_, ?_, h.kind.pop hq, ?_, ?_, ?_⟩
  · rw [requestIds_skip rfl, responseIds_append, h.order, hq]
    simp [responseIds]
  · rw [requestIds_skip rfl, responseIds_append, List.length_append, hcount]
    change _ = _ + 1 + (c.outstanding - 1)
    omega
  · change c.outstanding - 1 ≤ cap
    omega
  · simpa using h.wakeDriver
  · simpa using h.wakeResp
  · simpa using h.wakeReq

/-- The virtualiser takes a request. -/
theorem PathInv.take_req (h : PathInv cap c v d queue env log) (hv : v.reqs = []) {x : Item} {q : List Item}
    (hq : queue .clientReq = x :: q) :
    PathInv cap c { v with reqs := [itemId x] } d (Function.update queue .clientReq q) env
      (log ++ [.move .virt .clientReq (.pop x)]) where
  order := by
    rw [requestIds_skip rfl, responseIds_skip rfl, h.order, hq, hv]
    simp
  count := by rw [requestIds_skip rfl, responseIds_skip rfl, h.count]
  bound := h.bound
  kind := h.kind.pop hq
  wakeDriver := by simpa using h.wakeDriver
  wakeResp := by simpa using h.wakeResp
  wakeReq _ := h.wakeReq (by rw [hq]; exact List.cons_ne_nil _ _)

/-- The virtualiser forwards the request it holds. -/
theorem PathInv.put_req (h : PathInv cap c v d queue env log) {x : Item} (hx : x.isLeft = true)
    (hv : v.reqs = [itemId x]) :
    PathInv cap c { v with reqs := [], firing := true } d
      (Function.update queue .driverReq (queue .driverReq ++ [x])) env
      (log ++ [.move .virt .driverReq (.push x)]) where
  order := by
    rw [requestIds_skip rfl, responseIds_skip rfl, h.order, hv]
    simp
  count := by rw [requestIds_skip rfl, responseIds_skip rfl, h.count]
  bound := h.bound
  kind := h.kind.push hx
  wakeDriver _ := .inr (.inl rfl)
  wakeResp := by simpa using h.wakeResp
  wakeReq := by simpa using h.wakeReq

/-- The driver takes a request. -/
theorem PathInv.serve_req (h : PathInv cap c v d queue env log) (hd : d.hand = []) {x : Item}
    {q : List Item}
    (hq : queue .driverReq = x :: q) :
    PathInv cap c v { d with hand := [itemId x] } (Function.update queue .driverReq q) env
      (log ++ [.move .driver .driverReq (.pop x)]) where
  order := by
    rw [requestIds_skip rfl, responseIds_skip rfl, h.order, hq, hd]
    simp
  count := by rw [requestIds_skip rfl, responseIds_skip rfl, h.count]
  bound := h.bound
  kind := h.kind.pop hq
  wakeDriver _ := h.wakeDriver (by rw [hq]; exact List.cons_ne_nil _ _)
  wakeResp := by simpa using h.wakeResp
  wakeReq := by simpa using h.wakeReq

/-- The driver answers the request it holds. -/
theorem PathInv.serve_resp (h : PathInv cap c v d queue env log) {resp : BlkResp}
    (hd : d.hand = [resp.id]) :
    PathInv cap c v { d with hand := [], firing := true }
      (Function.update queue .driverResp (queue .driverResp ++ [.inr resp])) env
      (log ++ [.move .driver .driverResp (.push (.inr resp))]) where
  order := by
    rw [requestIds_skip rfl, responseIds_skip rfl, h.order, hd]
    simp [itemId, Numbered.id]
  count := by rw [requestIds_skip rfl, responseIds_skip rfl, h.count]
  bound := h.bound
  kind := h.kind.push rfl
  wakeDriver := by simpa using h.wakeDriver
  wakeResp _ := .inr (.inl rfl)
  wakeReq := by simpa using h.wakeReq

/-- The virtualiser takes a response. -/
theorem PathInv.take_resp (h : PathInv cap c v d queue env log) (hv : v.resps = []) {x : Item}
    {q : List Item}
    (hq : queue .driverResp = x :: q) :
    PathInv cap c { v with resps := [itemId x] } d (Function.update queue .driverResp q) env
      (log ++ [.move .virt .driverResp (.pop x)]) where
  order := by
    rw [requestIds_skip rfl, responseIds_skip rfl, h.order, hq, hv]
    simp
  count := by rw [requestIds_skip rfl, responseIds_skip rfl, h.count]
  bound := h.bound
  kind := h.kind.pop hq
  wakeDriver := by simpa using h.wakeDriver
  wakeResp _ := h.wakeResp (by rw [hq]; exact List.cons_ne_nil _ _)
  wakeReq := by simpa using h.wakeReq

/-- The virtualiser passes on the response it holds. -/
theorem PathInv.put_resp (h : PathInv cap c v d queue env log) {x : Item} (hx : x.isRight = true)
    (hv : v.resps = [itemId x]) :
    PathInv cap c { v with resps := [] } d
      (Function.update queue .clientResp (queue .clientResp ++ [x])) env
      (log ++ [.move .virt .clientResp (.push x)]) where
  order := by
    rw [requestIds_skip rfl, responseIds_skip rfl, h.order, hv]
    simp
  count := by rw [requestIds_skip rfl, responseIds_skip rfl, h.count]
  bound := h.bound
  kind := h.kind.push hx
  wakeDriver := by simpa using h.wakeDriver
  wakeResp := by simpa using h.wakeResp
  wakeReq := by simpa using h.wakeReq

/-- A step that moves no record. -/
theorem PathInv.wake (h : PathInv cap c v d queue env log) {c' : ClientAt} {u : VirtAt}
    {x : DriverAt} {env' : Env}
    (hc : c'.outstanding = c.outstanding) (hr : u.reqs = v.reqs) (hp : u.resps = v.resps)
      (hd : x.hand = d.hand)
    (h1 : queue .driverReq ≠ [] → env'.driverVirt = true ∨ u.firing = true ∨ x.seen = false)
    (h2 : queue .driverResp ≠ [] → env'.virtDriver = true ∨ x.firing = true ∨ u.seenResp = false)
    (h3 : queue .clientReq ≠ [] → env'.virtClient = true ∨ c'.fresh = true ∨ u.seenReq = false) :
    PathInv cap c' u x queue env' log :=
  ⟨by rw [hr, hp, hd]; exact h.order, by rw [hc]; exact h.count, by rw [hc]; exact h.bound, h.kind, h1, h2, h3⟩

end steps

/-! ### The outline -/

/-- The virtualiser and the driver hold nothing while they wait, and have seen their inputs empty. -/
def VirtAt.rest : VirtAt := ⟨[], [], true, true, false⟩
def DriverAt.rest : DriverAt := ⟨[], true, false⟩

def pathOk : (t : Pd) → Know ClientAt VirtAt DriverAt t → Ev → Prop
  | _, _, .dropped _ => False
  | .client, g, .acts => ClientAt.fresh g = false
  | .virt, g, .virtNotified => g = VirtAt.rest
  | .driver, g, .driverNotified => g = DriverAt.rest
  | _, _, _ => True

def pathOutline (cap : Nat) : Outline Pd (callSig evSig (recordLib BlkReq BlkResp) Queue)
    (blkSystem cap).Lists :=
  outline (blkSystem cap) pathOk (fun _ _ => True) (PathInv cap)

section domains

variable {cap : Nat}

/-! ### The virtualiser -/

/-- A full response queue holds all that is outstanding. -/
theorem safe_full_clientResp {g : VirtAt} :
    (pathOutline cap).Safe .virt (queueFull .clientResp)
      (fun full (g' : VirtAt) => g' = if full = true then { g with seenResp := true } else g) g := by
  refine performs_virt_call fun c d queue env log h r m hspec => ?_
  obtain ⟨rfl, rfl⟩ := Prod.mk.inj hspec
  refine ⟨_, ?_, rfl⟩
  split
  · rename_i hfull
    have hlen : (queue .clientResp).length = cap := of_decide_eq_true hfull
    have htotal := h.total
    have hbound := h.bound
    have hnil : queue .driverResp = [] := List.length_eq_zero_iff.mp (by omega)
    exact still (h.wake (u := { g with seenResp := true }) rfl rfl rfl rfl h.wakeDriver
      (fun hne => (hne hnil).elim) h.wakeReq)
  · exact still h

theorem safe_full_driverReq {g : VirtAt} :
    (pathOutline cap).Safe .virt (queueFull .driverReq)
      (fun full (g' : VirtAt) => g' = if full = true then { g with seenReq := true } else g) g := by
  refine performs_virt_call fun c d queue env log h r m hspec => ?_
  obtain ⟨rfl, rfl⟩ := Prod.mk.inj hspec
  refine ⟨_, ?_, rfl⟩
  split
  · rename_i hfull
    have hlen : (queue .driverReq).length = cap := of_decide_eq_true hfull
    have htotal := h.total
    have hbound := h.bound
    have hnil : queue .clientReq = [] := List.length_eq_zero_iff.mp (by omega)
    exact still (h.wake (u := { g with seenReq := true }) rfl rfl rfl rfl h.wakeDriver h.wakeResp
      (fun hne => (hne hnil).elim))
  · exact still h

/-- What a dequeue of the virtualiser leaves it with. -/
theorem safe_dequeueResp {g : VirtAt} (hg : g.resps = []) :
    (pathOutline cap).Safe .virt (dequeueResp .driverResp)
      (fun got (g' : VirtAt) => g' = match got with
        | none => { g with seenResp := true }
        | some resp => { g with resps := [resp.id] }) g := by
  refine performs_virt_call fun c d queue env log h r m hspec => ?_
  by_cases hq : queue .driverResp = []
  · rw [hq] at hspec
    obtain ⟨rfl, rfl⟩ := Prod.mk.inj hspec
    exact ⟨_, still (h.wake (u := { g with seenResp := true }) rfl rfl rfl rfl h.wakeDriver
      (fun hne => (hne hq).elim) h.wakeReq), rfl⟩
  · obtain ⟨x, q, hq⟩ := List.exists_cons_of_ne_nil hq
    obtain ⟨resp, rfl⟩ := h.kind.head_resp (.inr rfl) hq
    rw [hq] at hspec ⊢
    obtain ⟨rfl, rfl⟩ := Prod.mk.inj hspec
    exact ⟨_, h.take_resp hg hq, rfl⟩

theorem safe_dequeueReq {g : VirtAt} (hg : g.reqs = []) :
    (pathOutline cap).Safe .virt (dequeueReq .clientReq)
      (fun got (g' : VirtAt) => g' = match got with
        | none => { g with seenReq := true }
        | some req => { g with reqs := [req.id] }) g := by
  refine performs_virt_call fun c d queue env log h r m hspec => ?_
  by_cases hq : queue .clientReq = []
  · rw [hq] at hspec
    obtain ⟨rfl, rfl⟩ := Prod.mk.inj hspec
    exact ⟨_, still (h.wake (u := { g with seenReq := true }) rfl rfl rfl rfl h.wakeDriver
      h.wakeResp (fun hne => (hne hq).elim)), rfl⟩
  · obtain ⟨x, q, hq⟩ := List.exists_cons_of_ne_nil hq
    obtain ⟨req, rfl⟩ := h.kind.head_req (.inl rfl) hq
    rw [hq] at hspec ⊢
    obtain ⟨rfl, rfl⟩ := Prod.mk.inj hspec
    exact ⟨_, h.take_req hg hq, rfl⟩

/-- There is room for the response the virtualiser holds. -/
theorem safe_enqueueResp {g : VirtAt} {resp : BlkResp} (hg : g.resps = [resp.id]) :
    (pathOutline cap).Safe .virt (enqueueResp .clientResp resp)
      (fun put (g' : VirtAt) => put = 0 ∧ g' = { g with resps := [] }) g := by
  refine performs_virt_call fun c d queue env log h r m hspec => ?_
  have htotal := h.total
  have hbound := h.bound
  rw [hg, List.length_singleton] at htotal
  have hspec : push cap (Sum.inr resp) (queue .clientResp) = (r, m) := hspec
  rw [push, if_neg (by omega)] at hspec
  obtain ⟨rfl, rfl⟩ := Prod.mk.inj hspec
  exact ⟨_, h.put_resp rfl hg, rfl, rfl⟩

theorem safe_enqueueReq {g : VirtAt} {req : BlkReq} (hg : g.reqs = [req.id]) :
    (pathOutline cap).Safe .virt (enqueueReq .driverReq req)
      (fun put (g' : VirtAt) => put = 0 ∧ g' = { g with reqs := [], firing := true }) g := by
  refine performs_virt_call fun c d queue env log h r m hspec => ?_
  have htotal := h.total
  have hbound := h.bound
  rw [hg, List.length_singleton] at htotal
  have hspec : push cap (Sum.inl req) (queue .driverReq) = (r, m) := hspec
  rw [push, if_neg (by omega)] at hspec
  obtain ⟨rfl, rfl⟩ := Prod.mk.inj hspec
  exact ⟨_, h.put_req rfl hg, rfl, rfl⟩

theorem safe_notify_client {g : VirtAt} :
    (pathOutline cap).Safe .virt (notify .client) (fun _ (g' : VirtAt) => g' = g) g := by
  refine performs_virt_ev trivial (fun _ => rfl) fun c d s _ h ch r env' he => ?_
  obtain ⟨-, rfl⟩ := Prod.mk.inj (Option.some.inj he)
  exact ⟨g, h.wake rfl rfl rfl rfl h.wakeDriver h.wakeResp h.wakeReq, rfl⟩

theorem safe_notify_driver {g : VirtAt} :
    (pathOutline cap).Safe .virt (notify .driver)
      (fun _ (g' : VirtAt) => g' = { g with firing := false }) g := by
  refine performs_virt_ev trivial (fun _ => rfl) fun c d s _ h ch r env' he => ?_
  obtain ⟨-, rfl⟩ := Prod.mk.inj (Option.some.inj he)
  exact ⟨{ g with firing := false }, h.wake rfl rfl rfl rfl (fun _ => .inl rfl) h.wakeResp h.wakeReq, rfl⟩

/-- The virtualiser leaves `forward_responses` having seen the driver's responses empty. -/
theorem safe_forwardResponses (seenReq seenResp : Bool) :
    (pathOutline cap).Safe .virt forwardResponses (fun _ (g' : VirtAt) => g' =
      ⟨[], [], seenReq, true, false⟩)
      (⟨[], [], seenReq, seenResp, false⟩ : VirtAt) := by
  refine Outline.Safe.iterate (fun _ (g : VirtAt) => g = ⟨[], [], seenReq, seenResp, false⟩) rfl
    (fun _ _ _ => trivial) ?_
  rintro moved g rfl
  refine safe_full_clientResp.seq ?_
  rintro full g rfl
  refine Outline.Safe.ite (fun hfull => ?_) fun hfull => ?_
  · rw [if_pos hfull]
    rfl
  · rw [if_neg hfull]
    refine (safe_dequeueResp rfl).seq ?_
    rintro got g rfl
    cases got with
    | none => rfl
    | some resp =>
      refine (safe_enqueueResp rfl).seq ?_
      rintro put g ⟨rfl, rfl⟩
      refine safe_notify_client.seq ?_
      rintro _ g rfl
      rfl

theorem safe_forwardRequests (seenReq seenResp : Bool) :
    (pathOutline cap).Safe .virt forwardRequests (fun _ (g' : VirtAt) => g' =
      ⟨[], [], true, seenResp, false⟩)
      (⟨[], [], seenReq, seenResp, false⟩ : VirtAt) := by
  refine Outline.Safe.iterate (fun _ (g : VirtAt) => g = ⟨[], [], seenReq, seenResp, false⟩) rfl
    (fun _ _ _ => trivial) ?_
  rintro moved g rfl
  refine safe_full_driverReq.seq ?_
  rintro full g rfl
  refine Outline.Safe.ite (fun hfull => ?_) fun hfull => ?_
  · rw [if_pos hfull]
    rfl
  · rw [if_neg hfull]
    refine (safe_dequeueReq rfl).seq ?_
    rintro got g rfl
    cases got with
    | none => rfl
    | some req =>
      refine (safe_enqueueReq rfl).seq ?_
      rintro put g ⟨rfl, rfl⟩
      refine safe_notify_driver.seq ?_
      rintro _ g rfl
      rfl

theorem safe_pump (seenReq seenResp : Bool) :
    (pathOutline cap).Safe .virt pump (fun _ (g' : VirtAt) => g' = VirtAt.rest)
      (⟨[], [], seenReq, seenResp, false⟩ : VirtAt) := by
  refine Outline.Safe.iterate (fun _ (g : VirtAt) => ∃ seenReq seenResp,
    g = ⟨[], [], seenReq, seenResp, false⟩)
    ⟨_, _, rfl⟩ (fun _ _ _ => trivial) ?_
  rintro _ g ⟨seenReq, seenResp, rfl⟩
  refine (safe_forwardResponses seenReq seenResp).seq ?_
  rintro responses g rfl
  refine (safe_forwardRequests seenReq true).seq ?_
  rintro requests g rfl
  exact Outline.Safe.ite (fun _ => rfl) fun _ => ⟨_, _, rfl⟩

theorem safe_virtNotified :
    (pathOutline cap).Safe .virt (ev .virtNotified) (fun (channels : VirtChannels) (g' : VirtAt) =>
      (channels.driver = true ∨ channels.client = true) ∧
        g' = ⟨[], [], false, false, false⟩) VirtAt.rest := by
  refine performs_virt_ev rfl (fun _ => rfl) fun c d s _ h ch r env'
    (he : exec .virt s.env .virtNotified ch = some (r, env')) => ?_
  simp only [exec] at he
  split at he
  · rename_i hpending
    obtain ⟨rfl, rfl⟩ := Prod.mk.inj (Option.some.inj he)
    refine ⟨_, h.wake (u := ⟨[], [], false, false, false⟩) rfl rfl rfl rfl h.wakeDriver
      (fun _ => .inr (.inr rfl)) fun _ => .inr (.inr rfl),
      by simpa using hpending, rfl⟩
  · exact nomatch he

theorem safe_virtLoop : (pathOutline cap).Safe .virt virtLoop (fun _ _ => True) VirtAt.rest := by
  refine Outline.Safe.forever (fun g : VirtAt => g = VirtAt.rest) rfl (fun _ _ => trivial) ?_
  rintro g rfl
  refine safe_virtNotified.seq ?_
  rintro channels g ⟨hch, rfl⟩
  exact Outline.Safe.when (fun _ => safe_pump false false) fun hno => (hno hch).elim

/-! ### The driver -/

theorem safe_device {g : DriverAt} (read : Bool) (sector len : Nat) :
    (pathOutline cap).Safe .driver (ev (.device read sector len)) (fun _ (g' : DriverAt) => g' = g) g := by
  refine performs_driver_ev trivial (fun _ => rfl) fun c v s _ h ch r env' he => ?_
  cases ch with
  | device ok =>
    obtain ⟨-, rfl⟩ := Prod.mk.inj (Option.some.inj he)
    exact ⟨g, h, rfl⟩
  | none => exact nomatch he
  | irq b => exact nomatch he
  | acts as => exact nomatch he

theorem safe_finish {g : DriverAt} (capacityBlocks : Nat) (req : BlkReq) :
    (pathOutline cap).Safe .driver (finish capacityBlocks req) (fun _ (g' : DriverAt) => g' = g) g := by
  have htransfer : ∀ read, (pathOutline cap).Safe .driver (transfer capacityBlocks read req)
    (fun _ (g' : DriverAt) => g' = g) g := by
    intro read
    unfold transfer
    split
    · rfl
    · exact (safe_device _ _ _).seq fun _ _ hg => hg
  unfold finish
  split
  · exact htransfer true
  · exact htransfer false
  · rfl
  · rfl

theorem safe_driver_dequeue {g : DriverAt} (hg : g.hand = []) :
    (pathOutline cap).Safe .driver (dequeueReq .driverReq)
      (fun got (g' : DriverAt) => g' = match got with
        | none => { g with seen := true }
        | some req => { g with hand := [req.id] }) g := by
  refine performs_driver_call fun c v queue env log h r m hspec => ?_
  by_cases hq : queue .driverReq = []
  · rw [hq] at hspec
    obtain ⟨rfl, rfl⟩ := Prod.mk.inj hspec
    exact ⟨_, still (h.wake (x := { g with seen := true }) rfl rfl rfl rfl
      (fun hne => (hne hq).elim) h.wakeResp h.wakeReq), rfl⟩
  · obtain ⟨x, q, hq⟩ := List.exists_cons_of_ne_nil hq
    obtain ⟨req, rfl⟩ := h.kind.head_req (.inr rfl) hq
    rw [hq] at hspec ⊢
    obtain ⟨rfl, rfl⟩ := Prod.mk.inj hspec
    exact ⟨_, h.serve_req hg hq, rfl⟩

theorem safe_driver_enqueue {g : DriverAt} {resp : BlkResp} (hg : g.hand = [resp.id]) :
    (pathOutline cap).Safe .driver (enqueueResp .driverResp resp)
      (fun put (g' : DriverAt) => put = 0 ∧ g' = { g with hand := [], firing := true }) g := by
  refine performs_driver_call fun c v queue env log h r m hspec => ?_
  have htotal := h.total
  have hbound := h.bound
  rw [hg, List.length_singleton] at htotal
  have hspec : push cap (Sum.inr resp) (queue .driverResp) = (r, m) := hspec
  rw [push, if_neg (by omega)] at hspec
  obtain ⟨rfl, rfl⟩ := Prod.mk.inj hspec
  exact ⟨_, h.serve_resp hg, rfl, rfl⟩

theorem safe_notify_virt {g : DriverAt} :
    (pathOutline cap).Safe .driver (notify .virt)
      (fun _ (g' : DriverAt) => g' = { g with firing := false }) g := by
  refine performs_driver_ev trivial (fun _ => rfl) fun c v s _ h ch r env' he => ?_
  obtain ⟨-, rfl⟩ := Prod.mk.inj (Option.some.inj he)
  exact ⟨{ g with firing := false }, h.wake rfl rfl rfl rfl h.wakeDriver (fun _ => .inl rfl) h.wakeReq, rfl⟩

theorem safe_serve (capacityBlocks : Nat) (seen : Bool) :
    (pathOutline cap).Safe .driver (serve capacityBlocks) (fun _ (g' : DriverAt) => g' = DriverAt.rest)
      (⟨[], seen, false⟩ : DriverAt) := by
  refine Outline.Safe.iterate (fun _ (g : DriverAt) => g = ⟨[], seen, false⟩) rfl (fun _ _ _ => trivial) ?_
  rintro _ g rfl
  refine (safe_driver_dequeue rfl).seq ?_
  rintro got g rfl
  cases got with
  | none => rfl
  | some req =>
    refine (safe_finish capacityBlocks req).seq ?_
    rintro done g rfl
    refine (safe_driver_enqueue rfl).seq ?_
    rintro put g ⟨rfl, rfl⟩
    refine safe_notify_virt.seq ?_
    rintro _ g rfl
    rfl

/-- Without a notification from the virtualiser the driver has nothing new to look at. -/
theorem safe_driverNotified :
    (pathOutline cap).Safe .driver (ev .driverNotified) (fun (channels : DriverChannels) (g' : DriverAt) =>
      g' = ⟨[], !channels.virt, false⟩) DriverAt.rest := by
  refine performs_driver_ev rfl (fun _ => rfl) fun c v s _ h ch r env'
    (he : exec .driver s.env .driverNotified ch = some (r, env')) => ?_
  cases ch with
  | irq b =>
    simp only [exec] at he
    split at he
    · obtain ⟨rfl, rfl⟩ := Prod.mk.inj (Option.some.inj he)
      refine ⟨_, h.wake (x := ⟨[], !(s.env : Env).driverVirt, false⟩) rfl rfl rfl rfl
        (fun hne => ?_) h.wakeResp h.wakeReq, rfl⟩
      rcases h.wakeDriver hne with hw | hw | hw
      · exact .inr (.inr (by simp [hw]))
      · exact .inr (.inl hw)
      · exact nomatch hw
    · exact nomatch he
  | none => exact nomatch he
  | device ok => exact nomatch he
  | acts as => exact nomatch he

theorem safe_driverLoop (capacityBlocks : Nat) :
    (pathOutline cap).Safe .driver (driverLoop capacityBlocks) (fun _ _ => True) DriverAt.rest := by
  refine Outline.Safe.forever (fun g : DriverAt => g = DriverAt.rest) rfl (fun _ _ => trivial) ?_
  rintro g rfl
  refine safe_driverNotified.seq ?_
  rintro channels g rfl
  refine Outline.Safe.when (fun _ => safe_serve capacityBlocks _) fun hno => ?_
  rw [Bool.not_eq_true] at hno
  rw [hno]
  rfl

/-! ### The client -/

theorem safe_submit (outstanding : Nat) (fresh : Bool) (req : BlkReq) (hlt : outstanding < cap) :
    (pathOutline cap).Safe .client (enqueueReq .clientReq req)
      (fun put (g' : ClientAt) => put = 0 ∧ g' = ⟨outstanding + 1, true⟩)
        (⟨outstanding, fresh⟩ : ClientAt) := by
  refine performs_client_call fun v d queue env log h r m hspec => ?_
  have htotal : _ = outstanding := h.total
  have hspec : push cap (Sum.inl req) (queue .clientReq) = (r, m) := hspec
  rw [push, if_neg (by omega)] at hspec
  obtain ⟨rfl, rfl⟩ := Prod.mk.inj hspec
  exact ⟨_, h.submit hlt req, rfl, rfl⟩

theorem safe_receive (outstanding : Nat) (fresh : Bool) :
    (pathOutline cap).Safe .client (dequeueResp .clientResp)
      (fun got (g' : ClientAt) => g' = match got with
        | none => ⟨outstanding, fresh⟩
        | some _ => ⟨outstanding - 1, fresh⟩) (⟨outstanding, fresh⟩ : ClientAt) := by
  refine performs_client_call fun v d queue env log h r m hspec => ?_
  by_cases hq : queue .clientResp = []
  · rw [hq] at hspec
    obtain ⟨rfl, rfl⟩ := Prod.mk.inj hspec
    exact ⟨_, still h, rfl⟩
  · obtain ⟨x, q, hq⟩ := List.exists_cons_of_ne_nil hq
    obtain ⟨resp, rfl⟩ := h.kind.head_resp (.inl rfl) hq
    rw [hq] at hspec ⊢
    obtain ⟨rfl, rfl⟩ := Prod.mk.inj hspec
    exact ⟨_, h.receive hq, rfl⟩

theorem safe_client_notify {g : ClientAt} :
    (pathOutline cap).Safe .client (notify .virt)
      (fun _ (g' : ClientAt) => g' = ⟨g.outstanding, false⟩) g := by
  refine performs_client_ev trivial (fun _ => rfl) fun v d s _ h ch r env' he => ?_
  obtain ⟨-, rfl⟩ := Prod.mk.inj (Option.some.inj he)
  exact ⟨⟨g.outstanding, false⟩, h.wake rfl rfl rfl rfl h.wakeDriver h.wakeResp fun _ => .inl rfl, rfl⟩

theorem safe_wait {g : ClientAt} : (pathOutline cap).Safe .client (ev .wait)
    (fun _ (g' : ClientAt) => g' = g) g := by
  refine performs_client_ev trivial (fun _ => rfl) fun v d s _ h ch r env'
    (he : exec .client s.env .wait ch = some (r, env')) => ?_
  simp only [exec] at he
  split at he
  · obtain ⟨-, rfl⟩ := Prod.mk.inj (Option.some.inj he)
    exact ⟨g, h.wake rfl rfl rfl rfl h.wakeDriver h.wakeResp h.wakeReq, rfl⟩
  · exact nomatch he

theorem safe_clientAct (acc : Nat × Bool) (a : Act) :
    (pathOutline cap).Safe .client (clientAct cap acc a) (fun acc (g' : ClientAt) => g' = ⟨acc.1, acc.2⟩)
      (⟨acc.1, acc.2⟩ : ClientAt) := by
  cases a with
  | submit req =>
    refine Outline.Safe.ite (fun hlt => ?_) fun _ => rfl
    refine (safe_submit acc.1 acc.2 req hlt).seq ?_
    rintro put g ⟨rfl, rfl⟩
    rfl
  | receive =>
    refine (safe_receive acc.1 acc.2).seq ?_
    rintro got g rfl
    cases got <;> rfl
  | notify =>
    refine safe_client_notify.seq ?_
    rintro _ g rfl
    rfl
  | wait =>
    refine safe_wait.seq ?_
    rintro _ g rfl
    rfl

theorem safe_clientLoop : (pathOutline cap).Safe .client (clientLoop cap) (fun _ _ => True)
    (⟨0, false⟩ : ClientAt) := by
  refine Outline.Safe.iterate (fun outstanding (g : ClientAt) => g = ⟨outstanding, false⟩) rfl
    (fun _ _ _ => trivial) ?_
  rintro outstanding g rfl
  refine Outline.Safe.seq (R := fun _ (g : ClientAt) => g = ⟨outstanding, false⟩) ?_ ?_
  · refine performs_client_ev rfl (fun _ => rfl) fun v d s _ h ch r env' he => ?_
    cases ch with
    | acts as =>
      obtain ⟨-, rfl⟩ := Prod.mk.inj (Option.some.inj he)
      exact ⟨_, h, rfl⟩
    | none => exact nomatch he
    | irq b => exact nomatch he
    | device ok => exact nomatch he
  rintro acts g rfl
  refine Outline.Safe.seq (R := fun (acc : Nat × Bool) (g : ClientAt) => g = ⟨acc.1, acc.2⟩) ?_ ?_
  · refine Outline.Safe.fold (O := pathOutline cap) (t := .client)
      (fun _ (acc : Nat × Bool) (g : ClientAt) => g = ⟨acc.1, acc.2⟩) ?_
      (fun _ _ hg => hg) rfl
    rintro a _ acc g rfl
    exact safe_clientAct acc a
  rintro acc g rfl
  refine Outline.Safe.seq (R := fun _ (g : ClientAt) => g = ⟨acc.1, false⟩) ?_ ?_
  · refine Outline.Safe.when (fun _ => safe_client_notify) fun hno => ?_
    rw [Bool.not_eq_true] at hno
    rw [hno]
  · rintro _ g rfl
    rfl

end domains

/-! ### Every run -/

theorem path_init (cap : Nat) :
    PathInv cap ⟨0, false⟩ VirtAt.rest DriverAt.rest (fun _ => []) ⟨false, false, false, false⟩ [] where
  order := rfl
  count := rfl
  bound := Nat.zero_le _
  kind _ _ h := nomatch h
  wakeDriver h := (h rfl).elim
  wakeResp h := (h rfl).elim
  wakeReq h := (h rfl).elim

theorem rel_boot (cap capacityBlocks : Nat) (slot : Queue → Nat → Item) :
    System.Rel (blkSystem cap) (fun _ => .exact)
      ⟨programs cap capacityBlocks, ⟨fun _ => [], ⟨false, false, false, false⟩, []⟩⟩
        (boot cap capacityBlocks slot) where
  env := rfl
  log := rfl
  ring q := ⟨by simp [boot, Ring.len], by rw [Ring.contents_eq_nil_iff]; rfl⟩
  thread t := rfl

theorem path_holds (cap capacityBlocks : Nat) :
    (pathOutline cap).Holds ⟨programs cap capacityBlocks,
      ⟨fun _ => [], ⟨false, false, false, false⟩, []⟩⟩ := by
  refine ⟨known ⟨0, false⟩ VirtAt.rest DriverAt.rest, path_init cap, fun t => ?_⟩
  cases t with
  | client => exact safe_clientLoop
  | virt => exact safe_virtLoop
  | driver => exact safe_driverLoop capacityBlocks

/-- With nobody at work and nothing pending, only the client's responses are left. -/
theorem PathInv.answered {cap : Nat} {c : ClientAt} {queue : Queue → List Item} {env : Env}
    {log : List LogEntry}
    (h : PathInv cap c VirtAt.rest DriverAt.rest queue env log) (hc : c.fresh = false)
    (hp : env.virtDriver = false ∧ env.virtClient = false ∧ env.driverVirt = false) :
    requestIds log = responseIds log ++ ids (queue .clientResp) := by
  obtain ⟨hp1, hp2, hp3⟩ := hp
  have hreq : queue .driverReq = [] := by
    by_contra hne
    rcases h.wakeDriver hne with hw | hw | hw
    · exact nomatch hp3.symm.trans hw
    · exact nomatch hw
    · exact nomatch hw
  have hresp : queue .driverResp = [] := by
    by_contra hne
    rcases h.wakeResp hne with hw | hw | hw
    · exact nomatch hp1.symm.trans hw
    · exact nomatch hw
    · exact nomatch hw
  have hcreq : queue .clientReq = [] := by
    by_contra hne
    rcases h.wakeReq hne with hw | hw | hw
    · exact nomatch hp2.symm.trans hw
    · exact nomatch hc.symm.trans hw
    · exact nomatch hw
  rw [h.order, hreq, hresp, hcreq]
  simp [VirtAt.rest, DriverAt.rest]

/-- No handler runs, the client rests, and no notification to the virtualiser or the driver is pending. -/
structure Quiescent {cap : Nat} (s : (blkSystem cap).Conf) : Prop where
  client : (blkSystem cap).At s .client .acts
  virt : (blkSystem cap).At s .virt .virtNotified
  driver : (blkSystem cap).At s .driver .driverNotified
  pending : (s.env : Env).virtDriver = false ∧ (s.env : Env).virtClient = false ∧
    (s.env : Env).driverVirt = false

/-- In every run the ids of the responses the client has taken are the first ids of the requests it
queued, no record is dropped, and when the path is quiescent all other requests have their response
in the client's queue, in order. -/
theorem requests_answered {cap : Nat} (hcap : ∃ k < 32, cap = 2 ^ k) (capacityBlocks : Nat)
    (slot : Queue → Nat → Item)
    {s : (blkSystem cap).Conf}
    (h : System.Reaches (blkSystem cap) (fun _ _ => True) (boot cap capacityBlocks slot) s) :
    responseIds s.log <+: requestIds s.log ∧
      (∀ t site, ¬(blkSystem cap).At s t (.dropped site)) ∧
      (Quiescent s → requestIds s.log = responseIds s.log ++ ids ((s.ring .clientResp).contents cap)) := by
  obtain ⟨k, hk, rfl⟩ := hcap
  have hg : Ring.Good 32 (2 ^ k) :=
    ⟨⟨Nat.two_pow_pos k, Nat.pow_lt_pow_right (by omega) hk⟩, pow_dvd_pow 2 (by omega)⟩
  obtain ⟨a, hreach, hrel⟩ := System.simulates (Y := blkSystem (2 ^ k)) (fits fun _ => hg)
    (fun _ _ => True) (rel_boot (2 ^ k) capacityBlocks slot)
    (fun s hs => exclusive hs) (fun _ _ _ _ _ _ _ => trivial) h
  obtain ⟨G, hinv, hcov⟩ := Outline.holds_of_reach (path_holds (2 ^ k) capacityBlocks)
    (fun _ _ _ o _ _ _ _ => by cases o <;> trivial) hreach
  have hlog : a.mem.log = s.log := by
    rw [hrel.log]
    refine List.filter_eq_self.mpr fun e _ => ?_
    cases e <;> rfl
  have hinv : PathInv (2 ^ k) (G .client) (G .virt) (G .driver) a.mem.queue a.mem.env a.mem.log := hinv
  rw [hlog, hrel.env] at hinv
  have hat : ∀ t o, (blkSystem (2 ^ k)).At s t o → pathOk t (G t) o := by
    intro t o hto
    obtain ⟨k', hk'⟩ := hto.thread
    have hp := hrel.thread t
    rw [hk'] at hp
    exact hcov.ok hp
  refine ⟨?_, fun t site hts => ?_, fun hquiet => ?_⟩
  · rw [hinv.order]
    simp only [List.append_assoc]
    exact List.prefix_append _ _
  · have := hat t _ hts
    cases t <;> exact this
  · have hc : ClientAt.fresh (G .client) = false := hat _ _ hquiet.client
    have hv : G .virt = VirtAt.rest := hat _ _ hquiet.virt
    have hd : G .driver = DriverAt.rest := hat _ _ hquiet.driver
    rw [hv, hd] at hinv
    rw [show (s.ring .clientResp).contents (2 ^ k) = a.mem.queue .clientResp from (hrel.ring .clientResp).2]
    exact hinv.answered hc hquiet.pending

/-! ### Two requests -/

def flushSeven : BlkReq := ⟨.flush, 0, 0, 0, 7⟩
def readNine : BlkReq := ⟨.read, 0, 1, 1, 9⟩

/-- The client queues a flush and a read; both are forwarded, served and answered, and the client
takes the first response. -/
def flushAndRead : List (Pd × Choice) :=
  List.flatten [
    [(.client, .none), (.client, .acts [.submit flushSeven, .submit readNine])],
      .replicate 12 (.client, .none),
    .replicate 57 (.virt, .none), [(.driver, .none), (.driver, .irq false)], .replicate 18 (.driver, .none),
    [(.driver, .device true)], .replicate 11 (.driver, .none), .replicate 56 (.virt, .none),
    [(.client, .acts [.receive])], .replicate 6 (.client, .none)]

theorem flushAndRead_runs :
    ((boot 2 8 fun _ _ => .inl flushSeven).runs (fun _ _ => true) flushAndRead).map (fun s =>
      ((System.nextEvent (s.thread .client), System.nextEvent (s.thread .virt),
        System.nextEvent (s.thread .driver)),
        (s.env : Env), requestIds s.log, responseIds s.log)) =
      some ((some .acts, some .virtNotified, some .driverNotified), ⟨false, false, false, true⟩,
        [7, 9], [7]) := by
  decide +kernel

theorem requests_answered_flush : ∃ s : (blkSystem 2).Conf,
    System.Reaches (blkSystem 2) (fun _ _ => True) (boot 2 8 fun _ _ => .inl flushSeven) s ∧ Quiescent s ∧
      responseIds s.log = [7] ∧ ids ((s.ring .clientResp).contents 2) = [9] := by
  obtain ⟨s, hs, hv⟩ := Option.map_eq_some_iff.mp flushAndRead_runs
  simp only [Prod.mk.injEq] at hv
  obtain ⟨⟨hc, hvirt, hd⟩, hrest⟩ := hv
  obtain ⟨henv, hrest⟩ := Prod.mk.inj hrest
  obtain ⟨hreq, hresp⟩ := Prod.mk.inj hrest
  have hreach := System.Reaches.init.runs (fun _ _ _ => trivial) hs
  have hquiet : Quiescent s := ⟨hc, hvirt, hd, by rw [henv]; exact ⟨rfl, rfl, rfl⟩⟩
  have hanswered := (requests_answered ⟨1, by decide, rfl⟩ 8 _ hreach).2.2 hquiet
  rw [hreq, hresp] at hanswered
  exact ⟨s, hreach, hquiet, hresp, (List.cons.inj hanswered).2.symm⟩

end Lerux.Blk

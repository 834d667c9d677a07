import Lerux.Bcm2711.Rings

/-!
# The pumps of the GENET driver

`main.rs` serves a client over two pairs of shared rings: the client posts descriptors of its region
on a free ring and takes them back from the used ring. Every notification runs `pump_tx` and
`pump_rx` and then sends the notifications that they ask for. One turn of a loop is one action here,
so the client and the controller act between the turns.

A pump that leaves a turn early has dequeued its descriptor already: `pump_tx` when the hardware
ring is full, `pump_rx` when the frame is longer than the client's buffer. `descriptors_conserved`
says that these two turns are the only ones that lose a descriptor, along every run until then.
-/

namespace Lerux.Bcm2711.Pumps

open Lerux.Base

/-- A descriptor of the shared rings. -/
structure Descriptor where
  addr : Nat
  len : Nat
  cookie : Nat
deriving DecidableEq

def clientDmaSize : Nat := 0x200000

/-- The length of `pkt_buf`. -/
def pktBuf : Nat := 1518

/-- The free and the used ring of one direction, and all that was posted, dequeued, enqueued and
taken so far. -/
structure Rings where
  free : List Descriptor := []
  used : List Descriptor := []
  posted : List Descriptor := []
  dequeued : List Descriptor := []
  enqueued : List Descriptor := []
  taken : List Descriptor := []

/-- The client posts a descriptor. -/
def Rings.post (r : Rings) (desc : Descriptor) : Rings :=
  { r with free := r.free ++ [desc], posted := r.posted ++ [desc] }

/-- The client takes a descriptor back. -/
def Rings.take (r : Rings) : Option Rings :=
  match r.used with
  | [] => none
  | desc :: used => some { r with used, taken := r.taken ++ [desc] }

def Rings.dequeue (r : Rings) : Option (Descriptor × Rings) :=
  match r.free with
  | [] => none
  | desc :: free => some (desc, { r with free, dequeued := r.dequeued ++ [desc] })

def Rings.enqueue (r : Rings) (desc : Descriptor) : Rings :=
  { r with used := r.used ++ [desc], enqueued := r.enqueued ++ [desc] }

structure ChannelSet where
  client : Bool
  device : Bool
deriving DecidableEq

/-- Where the handler stands: before a turn of one of the loops, or behind both. -/
inductive Phase
  | idle
  | pumpTx
  | pumpRx
  | finish
  | panicked
deriving DecidableEq

/-- `client` is the region of the client, and `frames` what was given to the controller. -/
structure State where
  genet : Genet
  mem : Mem
  client : Nat → UInt8
  rx : Rings := {}
  tx : Rings := {}
  phase : Phase := .idle
  device : Bool := false
  notifyTx : Bool := false
  notifyRx : Bool := false
  notifications : Nat := 0
  frames : List (Descriptor × List UInt8) := []

/-- A turn of the loop of `pump_tx`. -/
def pumpTx (s : State) : State :=
  match s.tx.dequeue with
  | none => { s with phase := .pumpRx }
  | some (desc, tx) =>
    if pktBuf < desc.len ∨ clientDmaSize < desc.addr + desc.len then { s with tx, phase := .panicked }
    else
      let pkt := readAt s.client desc.addr desc.len
      let (sent, genet, mem) := transmit s.genet s.mem pkt
      if sent then
        { s with genet, mem, tx := tx.enqueue desc, notifyTx := true, frames := s.frames ++ [(desc, pkt)] }
      else { s with genet, mem, tx, phase := .pumpRx }

/-- A turn of the loop of `pump_rx`. -/
def pumpRx (s : State) : State :=
  match s.rx.dequeue with
  | none => { s with phase := .finish }
  | some (desc, rx) =>
    match receive s.genet s.mem with
    | (none, genet, mem) => { s with genet, mem, phase := .finish }
    | (some (addr, len), genet, mem) =>
      if len ≤ desc.len then
        if clientDmaSize < desc.addr + len then { s with genet, mem, rx, phase := .panicked }
        else
          let client := writeAt s.client desc.addr (readAt mem.bytes addr len)
          { s with genet, mem, client, rx := rx.enqueue desc, notifyRx := true }
      else { s with genet, mem, rx }

def ackInterrupts (m : Mem) : Mem := write32 (write32 m (0x0200 + 0x08) 0xffffffff)
    (0x0240 + 0x08) 0xffffffff

/-- What `notified` does behind the pumps. -/
def finish (s : State) : State :=
  { s with
    phase := .idle
    notifications := s.notifications + s.notifyTx.toNat + s.notifyRx.toNat
    mem := if s.device then (checkTxCompletions (ackInterrupts s.mem)).2 else s.mem }

/-- `notified`, up to its first turn. -/
def notified (s : State) (channels : ChannelSet) : State :=
  if ¬channels.client ∧ ¬channels.device then { s with phase := .panicked }
  else { s with phase := .pumpTx, device := channels.device, notifyTx := false, notifyRx := false }

inductive Action
  | notified (channels : ChannelSet)
  | turn
  | postTx (desc : Descriptor)
  | postRx (desc : Descriptor)
  | takeTx
  | takeRx
  | write (client : Nat → UInt8)
  | controller (mem : Mem)

/-- The client stays inside its region and inside `pkt_buf`; it may write its region at any time,
and the controller anything. -/
def step (s : State) : Action → Option State
  | .notified channels =>
    if s.phase = .idle ∧ (channels.client ∨ channels.device) then some (notified s channels) else none
  | .turn =>
    match s.phase with
    | .pumpTx => some (pumpTx s)
    | .pumpRx => some (pumpRx s)
    | .finish => some (finish s)
    | .idle => none
    | .panicked => none
  | .postTx desc =>
    if desc.len ≤ pktBuf ∧ desc.addr + desc.len ≤ clientDmaSize then
      some { s with tx := s.tx.post desc } else none
  | .postRx desc => if desc.addr + desc.len ≤ clientDmaSize then
    some { s with rx := s.rx.post desc } else none
  | .takeTx => s.tx.take.map fun tx => { s with tx }
  | .takeRx => s.rx.take.map fun rx => { s with rx }
  | .write client => some { s with client }
  | .controller mem => some { s with mem }

/-- The driver starts over rings that are set up. -/
def start (dmaPaddr : Nat) (m : Mem) (client : Nat → UInt8) : State :=
  let (genet, mem) := setupRings ⟨dmaPaddr, 0, 0⟩ m
  { genet, mem, client }

/-! ### Conservation -/

/-- All that was dequeued was enqueued, once and in order, and the rest of what was posted is free. -/
structure Rings.Conserved (r : Rings) : Prop where
  free : r.posted = r.dequeued ++ r.free
  enqueued : r.enqueued = r.dequeued
  used : r.enqueued = r.taken ++ r.used

/-- No descriptor is lost, the frame of every transmit descriptor was given to the controller, and
the handler has not stopped. -/
structure Conserved (s : State) : Prop where
  tx : s.tx.Conserved
  rx : s.rx.Conserved
  frames : s.frames.map Prod.fst = s.tx.dequeued
  running : s.phase ≠ .panicked

/-- A turn of `pump_tx` with something to send finds the next hardware descriptor free, and a turn
of `pump_rx` finds no frame that is longer than the client's next buffer. -/
def Met (s : State) : Action → Prop
  | .turn =>
    (s.phase = .pumpTx → s.tx.free ≠ [] →
      readDescStatus (s.mem.txRing (s.genet.txProd.toNat % numDesc)) &&& dmaOwn = 0) ∧
    (s.phase = .pumpRx → ∀ desc ∈ s.rx.free.head?,
      readDescStatus (s.mem.rxRing (s.genet.rxCons.toNat % numDesc)) &&& dmaOwn = 0 →
        min (readDescStatus
          (s.mem.rxRing (s.genet.rxCons.toNat % numDesc)) &&& dmaBuflengthMask).toNat bufSize ≤ desc.len)
  | _ => True

section

variable {r r' : Rings} {desc : Descriptor}

theorem Rings.dequeue_eq_some : r.dequeue = some (desc, r') ↔
    ∃ free, r.free = desc :: free ∧ r' = { r with free, dequeued := r.dequeued ++ [desc] } := by
  unfold Rings.dequeue
  cases hfree : r.free with
  | nil => simp
  | cons desc' free =>
    simp only [Option.some.injEq, Prod.mk.injEq, List.cons.injEq]
    constructor
    · rintro ⟨rfl, rfl⟩
      exact ⟨free, ⟨rfl, rfl⟩, rfl⟩
    · rintro ⟨free', ⟨rfl, rfl⟩, rfl⟩
      exact ⟨rfl, rfl⟩

theorem Rings.dequeue_eq_none : r.dequeue = none ↔ r.free = [] := by
  unfold Rings.dequeue
  cases r.free with
  | nil => simp
  | cons desc free => simp

theorem Rings.take_eq (h : r.take = some r') : r'.free = r.free ∧ r'.dequeued = r.dequeued := by
  unfold Rings.take at h
  split at h
  · cases h
  · rw [Option.some_inj] at h
    subst h
    exact ⟨rfl, rfl⟩

theorem Rings.Conserved.post (h : r.Conserved) (desc : Descriptor) : (r.post desc).Conserved where
  free := by
    show r.posted ++ [desc] = r.dequeued ++ (r.free ++ [desc])
    rw [h.free, List.append_assoc]
  enqueued := h.enqueued
  used := h.used

theorem Rings.Conserved.take (h : r.Conserved) (htake : r.take = some r') : r'.Conserved := by
  unfold Rings.take at htake
  split at htake
  · cases htake
  · next desc used hused =>
    rw [Option.some_inj] at htake
    subst htake
    refine ⟨h.free, h.enqueued, ?_⟩
    show r.enqueued = (r.taken ++ [desc]) ++ used
    rw [h.used, hused, List.append_assoc]
    rfl

/-- A descriptor passes from the free to the used ring. -/
theorem Rings.Conserved.pass (h : r.Conserved) (hdequeue : r.dequeue = some (desc, r')) :
    (r'.enqueue desc).Conserved := by
  obtain ⟨free, hfree, rfl⟩ := (Rings.dequeue_eq_some).mp hdequeue
  refine ⟨?_, ?_, ?_⟩
  · show r.posted = (r.dequeued ++ [desc]) ++ free
    rw [h.free, hfree, List.append_assoc]
    rfl
  · show r.enqueued ++ [desc] = r.dequeued ++ [desc]
    rw [h.enqueued]
  · show r.enqueued ++ [desc] = r.taken ++ (r.used ++ [desc])
    rw [h.used, List.append_assoc]

/-- A descriptor that is only dequeued is lost. -/
theorem Rings.Conserved.lost (h : r.Conserved) (hdequeue : r.dequeue = some (desc, r')) :
    ¬r'.Conserved := by
  obtain ⟨free, -, rfl⟩ := (Rings.dequeue_eq_some).mp hdequeue
  intro h'
  have hlen := congrArg List.length h'.enqueued
  rw [show ({ r with free, dequeued := r.dequeued ++ [desc] } : Rings).enqueued =
    r.enqueued from rfl, h.enqueued,
    List.length_append, List.length_singleton] at hlen
  omega

end

/-! ### The turns -/

variable {s s' : State}

/-- What the client posted lies inside its region. -/
structure Inside (s : State) : Prop where
  tx : ∀ desc ∈ s.tx.free, desc.len ≤ pktBuf ∧ desc.addr + desc.len ≤ clientDmaSize
  rx : ∀ desc ∈ s.rx.free, desc.addr + desc.len ≤ clientDmaSize

theorem transmit_fst (g : Genet) (m : Mem) (buf : List UInt8) :
    (transmit g m buf).1 = decide (readDescStatus (m.txRing (g.txProd.toNat % numDesc)) &&& dmaOwn =
      0) := by
  unfold transmit
  dsimp only
  split
  · next hown => rw [decide_eq_false hown]
  · next hown => rw [decide_eq_true (not_not.mp hown)]

/-- The frame that `receive` finds fits a length exactly if what the status word says does. -/
theorem receive_fits (g : Genet) (m : Mem) (n : Nat) :
    (∀ addr len, (receive g m).1 = some (addr, len) → len ≤ n) ↔
    (readDescStatus (m.rxRing (g.rxCons.toNat % numDesc)) &&& dmaOwn = 0 →
      min (readDescStatus (m.rxRing (g.rxCons.toNat % numDesc)) &&& dmaBuflengthMask).toNat
        bufSize ≤ n) := by
  unfold receive
  dsimp only
  generalize readDescStatus (m.rxRing (g.rxCons.toNat % numDesc)) = stat
  split
  · next hnone =>
    refine iff_of_true (fun _ _ h => by cases h) fun hown => ?_
    rw [hnone.resolve_left (fun h => h hown)]
    exact Nat.zero_le n
  · next hsome =>
    split
    · next hlen => exact iff_of_true (fun _ _ h => by cases h) fun _ => hlen ▸ Nat.zero_le n
    · constructor
      · exact fun h _ => h _ _ rfl
      · intro h addr len heq
        cases heq
        exact h (not_not.mp fun hown => hsome (.inl hown))

theorem conserved_pumpTx (h : Conserved s) (hinside : Inside s) (hphase : s.phase = .pumpTx) :
    Conserved (pumpTx s) ↔ Met s .turn := by
  have hmet : Met s .turn ↔ (s.tx.free ≠ [] →
    readDescStatus (s.mem.txRing (s.genet.txProd.toNat % numDesc)) &&& dmaOwn = 0) := by
    simp [Met, hphase]
  rw [hmet]
  unfold pumpTx
  cases hdequeue : s.tx.dequeue with
  | none => exact iff_of_true ⟨h.tx, h.rx, h.frames, Phase.noConfusion⟩ fun hfree => absurd ((Rings.dequeue_eq_none).mp hdequeue) hfree
  | some p =>
    obtain ⟨desc, tx⟩ := p
    obtain ⟨free, hfree, htx⟩ := (Rings.dequeue_eq_some).mp hdequeue
    obtain ⟨hlen, haddr⟩ := hinside.tx desc (by rw [hfree]; exact List.mem_cons_self)
    have hne : s.tx.free ≠ [] := by rw [hfree]; exact List.cons_ne_nil desc free
    have hsent := transmit_fst s.genet s.mem (readAt s.client desc.addr desc.len)
    dsimp only
    rw [if_neg (by omega)]
    by_cases hown : readDescStatus (s.mem.txRing (s.genet.txProd.toNat % numDesc)) &&& dmaOwn = 0
    · rw [decide_eq_true hown] at hsent
      rw [if_pos hsent]
      refine iff_of_true ⟨h.tx.pass hdequeue, h.rx, ?_, by rw [hphase]; exact Phase.noConfusion⟩
        fun _ => hown
      show (s.frames ++ [(desc, _)]).map Prod.fst = tx.dequeued
      rw [List.map_append, h.frames, htx]
      rfl
    · rw [decide_eq_false hown] at hsent
      rw [if_neg (by rw [hsent]; exact Bool.false_ne_true)]
      exact iff_of_false (fun hlost => h.tx.lost hdequeue hlost.tx) fun hfound => hown (hfound hne)

theorem conserved_pumpRx (h : Conserved s) (hinside : Inside s) (hphase : s.phase = .pumpRx) :
    Conserved (pumpRx s) ↔ Met s .turn := by
  have hmet : Met s .turn ↔ ∀ desc ∈ s.rx.free.head?, ∀ addr len,
    (receive s.genet s.mem).1 = some (addr, len) → len ≤ desc.len := by
    simp only [receive_fits]
    simp [Met, hphase]
  rw [hmet]
  unfold pumpRx
  cases hdequeue : s.rx.dequeue with
  | none =>
    refine iff_of_true ⟨h.tx, h.rx, h.frames, Phase.noConfusion⟩ fun desc hdesc => ?_
    rw [(Rings.dequeue_eq_none).mp hdequeue] at hdesc
    cases hdesc
  | some p =>
    obtain ⟨desc, rx⟩ := p
    obtain ⟨free, hfree, -⟩ := (Rings.dequeue_eq_some).mp hdequeue
    have haddr := hinside.rx desc (by rw [hfree]; exact List.mem_cons_self)
    rw [hfree]
    rcases hreceive : receive s.genet s.mem with ⟨_ | ⟨addr, len⟩, genet, mem⟩
    · exact iff_of_true ⟨h.tx, h.rx, h.frames, Phase.noConfusion⟩ fun _ _ _ _ heq => by cases heq
    · dsimp only
      by_cases hlen : len ≤ desc.len
      · rw [if_pos hlen, if_neg (by omega)]
        refine iff_of_true ⟨h.tx, h.rx.pass hdequeue, h.frames,
          by rw [hphase]; exact Phase.noConfusion⟩ fun desc' hdesc _ _ heq => ?_
        cases hdesc
        cases heq
        exact hlen
      · rw [if_neg hlen]
        exact iff_of_false (fun hlost => h.rx.lost hdequeue hlost.rx) fun hfits =>
          hlen (hfits desc rfl addr len rfl)

/-! ### Runs -/

theorem pumpTx_free (s : State) : (∀ desc ∈ (pumpTx s).tx.free, desc ∈ s.tx.free) ∧
    (pumpTx s).rx = s.rx := by
  unfold pumpTx
  cases hdequeue : s.tx.dequeue with
  | none => exact ⟨fun desc hdesc => hdesc, rfl⟩
  | some p =>
    obtain ⟨desc, tx⟩ := p
    obtain ⟨free, hfree, rfl⟩ := (Rings.dequeue_eq_some).mp hdequeue
    have htail : ∀ desc' ∈ free, desc' ∈ s.tx.free := fun desc' hdesc => by
      rw [hfree]
      exact List.mem_cons_of_mem desc hdesc
    dsimp only
    split
    · exact ⟨htail, rfl⟩
    · split
      · exact ⟨htail, rfl⟩
      · exact ⟨htail, rfl⟩

theorem pumpRx_free (s : State) : (∀ desc ∈ (pumpRx s).rx.free, desc ∈ s.rx.free) ∧
    (pumpRx s).tx = s.tx := by
  unfold pumpRx
  cases hdequeue : s.rx.dequeue with
  | none => exact ⟨fun desc hdesc => hdesc, rfl⟩
  | some p =>
    obtain ⟨desc, rx⟩ := p
    obtain ⟨free, hfree, rfl⟩ := (Rings.dequeue_eq_some).mp hdequeue
    have htail : ∀ desc' ∈ free, desc' ∈ s.rx.free := fun desc' hdesc => by
      rw [hfree]
      exact List.mem_cons_of_mem desc hdesc
    rcases receive s.genet s.mem with ⟨_ | ⟨addr, len⟩, genet, mem⟩
    · exact ⟨fun desc hdesc => hdesc, rfl⟩
    · dsimp only
      split
      · split
        · exact ⟨htail, rfl⟩
        · exact ⟨htail, rfl⟩
      · exact ⟨htail, rfl⟩

/-- The client posts inside its region, and nobody else posts. -/
theorem inside_step {a : Action} (h : Inside s) (hstep : step s a = some s') : Inside s' := by
  cases a with
  | notified channels =>
    rw [step, notified] at hstep
    split at hstep
    · rw [Option.some_inj] at hstep
      subst hstep
      split
      · exact ⟨h.tx, h.rx⟩
      · exact ⟨h.tx, h.rx⟩
    · cases hstep
  | turn =>
    rw [step] at hstep
    split at hstep
    · cases hstep
      obtain ⟨hfree, hrx⟩ := pumpTx_free s
      exact ⟨fun desc hdesc => h.tx desc (hfree desc hdesc), hrx ▸ h.rx⟩
    · cases hstep
      obtain ⟨hfree, htx⟩ := pumpRx_free s
      exact ⟨htx ▸ h.tx, fun desc hdesc => h.rx desc (hfree desc hdesc)⟩
    · cases hstep
      exact ⟨h.tx, h.rx⟩
    · cases hstep
    · cases hstep
  | postTx desc =>
    rw [step] at hstep
    split at hstep
    · next hinside =>
      cases hstep
      exact ⟨List.forall_mem_append.mpr ⟨h.tx, List.forall_mem_singleton.mpr hinside⟩, h.rx⟩
    · cases hstep
  | postRx desc =>
    rw [step] at hstep
    split at hstep
    · next hinside =>
      cases hstep
      exact ⟨h.tx, List.forall_mem_append.mpr ⟨h.rx, List.forall_mem_singleton.mpr hinside⟩⟩
    · cases hstep
  | takeTx =>
    obtain ⟨tx, htake, rfl⟩ := Option.map_eq_some_iff.mp hstep
    refine ⟨?_, h.rx⟩
    rw [(Rings.take_eq htake).1]
    exact h.tx
  | takeRx =>
    obtain ⟨rx, htake, rfl⟩ := Option.map_eq_some_iff.mp hstep
    refine ⟨h.tx, ?_⟩
    rw [(Rings.take_eq htake).1]
    exact h.rx
  | write client =>
    cases hstep
    exact ⟨h.tx, h.rx⟩
  | controller mem =>
    cases hstep
    exact ⟨h.tx, h.rx⟩

/-- A step conserves the descriptors exactly if it meets the condition. -/
theorem conserved_step {a : Action} (h : Conserved s) (hinside : Inside s)
    (hstep : step s a = some s') : Conserved s' ↔ Met s a := by
  cases a with
  | notified channels =>
    rw [step, notified] at hstep
    split at hstep
    · next hidle =>
      rw [Option.some_inj, if_neg (by rcases hidle.2 with hc | hd <;> simp [*])] at hstep
      subst hstep
      exact iff_of_true ⟨h.tx, h.rx, h.frames, Phase.noConfusion⟩ trivial
    · cases hstep
  | turn =>
    rw [step] at hstep
    split at hstep
    · next hphase =>
      cases hstep
      exact conserved_pumpTx h hinside hphase
    · next hphase =>
      cases hstep
      exact conserved_pumpRx h hinside hphase
    · next hphase =>
      cases hstep
      exact iff_of_true ⟨h.tx, h.rx, h.frames, Phase.noConfusion⟩ (by simp [Met, hphase])
    · cases hstep
    · cases hstep
  | postTx desc =>
    rw [step] at hstep
    split at hstep
    · cases hstep
      exact iff_of_true ⟨h.tx.post desc, h.rx, h.frames, h.running⟩ trivial
    · cases hstep
  | postRx desc =>
    rw [step] at hstep
    split at hstep
    · cases hstep
      exact iff_of_true ⟨h.tx, h.rx.post desc, h.frames, h.running⟩ trivial
    · cases hstep
  | takeTx =>
    obtain ⟨tx, htake, rfl⟩ := Option.map_eq_some_iff.mp hstep
    refine iff_of_true ⟨h.tx.take htake, h.rx, ?_, h.running⟩ trivial
    rw [h.frames, (Rings.take_eq htake).2]
  | takeRx =>
    obtain ⟨rx, htake, rfl⟩ := Option.map_eq_some_iff.mp hstep
    exact iff_of_true ⟨h.tx, h.rx.take htake, h.frames, h.running⟩ trivial
  | write client =>
    cases hstep
    exact iff_of_true ⟨h.tx, h.rx, h.frames, h.running⟩ trivial
  | controller mem =>
    cases hstep
    exact iff_of_true ⟨h.tx, h.rx, h.frames, h.running⟩ trivial

theorem conserved_start (dmaPaddr : Nat) (m : Mem) (client : Nat → UInt8) :
    Conserved (start dmaPaddr m client) :=
  ⟨⟨rfl, rfl, rfl⟩, ⟨rfl, rfl, rfl⟩, rfl, Phase.noConfusion⟩

theorem inside_start (dmaPaddr : Nat) (m : Mem) (client : Nat → UInt8) :
    Inside (start dmaPaddr m client) where
  tx _ hdesc := by cases hdesc
  rx _ hdesc := by cases hdesc

/-- In every run whose turns meet the condition no descriptor is lost, and the next step keeps it so
exactly if it meets the condition too. -/
theorem descriptors_conserved {dmaPaddr : Nat} {m : Mem} {client : Nat → UInt8}
    (h : Steps step Met (start dmaPaddr m client) s) :
    Conserved s ∧ ∀ a s', step s a = some s' → (Conserved s' ↔ Met s a) := by
  obtain ⟨hconserved, hinside⟩ : Conserved s ∧ Inside s :=
    h.keeps (I := fun s => Conserved s ∧ Inside s)
      (fun hinv hmet hstep => ⟨(conserved_step hinv.1 hinv.2 hstep).mpr hmet, inside_step hinv.2 hstep⟩)
      ⟨conserved_start dmaPaddr m client, inside_start dmaPaddr m client⟩
  exact ⟨hconserved, fun a s' hstep => conserved_step hconserved hinside hstep⟩

def zero : State := start 0 ⟨fun _ => 0, fun _ => ⟨0, 0, 0⟩, fun _ => ⟨0, 0, 0⟩, fun _ => 0⟩ fun _ => 0

def desc60 : Descriptor := ⟨0, 60, 0⟩

/-- Two frames are sent and their descriptors come back. -/
theorem descriptors_conserved_send : ∃ s, Steps step Met zero s ∧ s.tx.used = [desc60, ⟨60, 100, 1⟩] ∧
    Conserved s := by
  let s₁ : State := { zero with tx := (zero.tx.post desc60).post ⟨60, 100, 1⟩ }
  let s₂ := notified s₁ ⟨true, false⟩
  have hown₁ : readDescStatus (s₂.mem.txRing (s₂.genet.txProd.toNat % numDesc)) &&& dmaOwn = 0 := by
    decide +kernel
  have hown₂ : readDescStatus ((pumpTx s₂).mem.txRing ((pumpTx s₂).genet.txProd.toNat % numDesc)) &&&
      dmaOwn = 0 := by
    decide +kernel
  have hphase : (pumpTx s₂).phase = .pumpTx := by decide +kernel
  have hposted : Steps step Met zero s₁ :=
    (Steps.start.next (a := .postTx desc60) trivial rfl).next (a := .postTx ⟨60, 100, 1⟩) trivial rfl
  have hnotified : Steps step Met zero s₂ := hposted.next (a := .notified ⟨true, false⟩) trivial rfl
  have hfirst : Steps step Met zero (pumpTx s₂) :=
    hnotified.next (a := .turn) ⟨fun _ _ => hown₁, Phase.noConfusion⟩ rfl
  have hsent : Steps step Met zero (pumpTx (pumpTx s₂)) :=
    hfirst.next (a := .turn) ⟨fun _ _ => hown₂, fun h => nomatch hphase.symm.trans h⟩ (by
      unfold step
      rw [hphase])
  exact ⟨pumpTx (pumpTx s₂), hsent, by decide +kernel, (descriptors_conserved hsent).1⟩

/-- Seventeen frames are posted before the controller sends one. -/
theorem descriptor_lost : ¬∀ (dmaPaddr : Nat) (m : Mem) (client : Nat → UInt8) (s : State),
    Steps step (fun _ _ => True) (start dmaPaddr m client) s → Conserved s := by
  intro h
  have hrun : ((List.replicate 17 (Action.postTx desc60) ++ Action.notified ⟨true, false⟩ ::
    List.replicate 17 Action.turn).foldlM step
      zero).map (fun s : State => (s.tx.dequeued.length, s.tx.enqueued.length)) = some (17, 16) := by
    decide +kernel
  obtain ⟨s, hs, hlen⟩ := Option.map_eq_some_iff.mp hrun
  have hkept := (h 0 _ _ s (Steps.of_foldlM (fun _ _ _ => trivial) hs)).tx.enqueued
  rw [Prod.mk.injEq, hkept] at hlen
  omega

end Lerux.Bcm2711.Pumps

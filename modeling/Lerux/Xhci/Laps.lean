import Mathlib.Tactic.SplitIfs
import Lerux.Xhci.Rings

/-!
# The laps of a ring

A descriptor that a lap leaves out, because the link of that lap is in front of it, keeps the cycle
bit of an earlier lap. The cycle state changes with each lap, so the bit is that of the lap before
exactly when an even number of laps has left it out since, and only then the controller waits there.
`Laps` says where the links of the laps were, `Kept` what that means for the cycle bits, and `Leads`
that the descriptors in flight lead the controller to the index of the driver.

The rings of single descriptors have their links in the last descriptor, and leave none out. For the
control ring the runs are exact exactly when the sizes of the transfers are `Clear`.
-/

namespace Lerux.Xhci

/-- How far a ring is in its lap, and where the links of the laps before are, the latest first. -/
structure Laps where
  index : Nat
  links : List Nat

namespace Laps

def first : Laps := ⟨0, []⟩

/-- The cycle state of the lap. -/
def cycle (l : Laps) : Bool := l.links.length % 2 == 0

/-- How many of the laps directly before this one have left a descriptor out. -/
def skipped (l : Laps) (slot : Nat) : Nat := (l.links.takeWhile (· < slot)).length

def room (l : Laps) (count : Nat) : Laps :=
  if l.index + count > ringLast then ⟨0, l.index :: l.links⟩ else l

def advance (l : Laps) (count : Nat) : Laps := { l with index := l.index + count }

def put (l : Laps) (count : Nat) : Laps := (l.room count).advance count

/-- Each descriptor that this lap has come to was left out by an even number of laps. -/
def Clear (l : Laps) : Prop := ∀ slot ≤ l.index, l.skipped slot % 2 = 0

instance instDecidableClear (l : Laps) : Decidable l.Clear :=
  inferInstanceAs (Decidable (∀ slot ≤ l.index, l.skipped slot % 2 = 0))

/-- The laps stay clear when room is made for transfers of these sizes. -/
def ClearAll : Laps → List Nat → Prop
  | l, [] => l.Clear
  | l, count :: rest => l.Clear ∧ (l.put count).ClearAll rest

theorem ClearAll.head {l : Laps} {counts : List Nat} (h : l.ClearAll counts) : l.Clear := by
  cases counts with
  | nil => exact h
  | cons count rest => exact h.1

theorem cycle_link (l : Laps) : cycle ⟨0, l.index :: l.links⟩ = !l.cycle := by
  simp only [cycle, List.length_cons]
  rcases Nat.mod_two_eq_zero_or_one l.links.length with hlen | hlen <;> simp [hlen, Nat.add_mod]

theorem skipped_zero (l : Laps) : l.skipped 0 = 0 := by
  unfold skipped
  cases l.links with
  | nil => rfl
  | cons link links => rfl

theorem clear_of_index_zero {l : Laps} (h : l.index = 0) : l.Clear := by
  intro slot hslot
  rw [h, Nat.le_zero] at hslot
  rw [hslot, l.skipped_zero]

theorem Clear.room {l : Laps} (h : l.Clear) (count : Nat) : (l.room count).Clear := by
  unfold Laps.room
  split
  · exact clear_of_index_zero rfl
  · exact h

theorem Clear.of_advance {l : Laps} {count : Nat} (h : (l.advance count).Clear) : l.Clear :=
  fun slot hslot => h slot (hslot.trans (Nat.le_add_right _ _))

/-- Single descriptors use each lap to its end. -/
theorem clearAll_single {l : Laps} (hlinks : ∀ link ∈ l.links, link = ringLast)
    (hindex : l.index ≤ ringLast) {counts : List Nat}
    (hcounts : ∀ count ∈ counts, count = 1) : l.ClearAll counts := by
  have hclear : ∀ l : Laps, (∀ link ∈ l.links, link = ringLast) → l.index ≤ ringLast → l.Clear := by
    intro l hlinks hindex slot hslot
    unfold skipped
    cases hl : l.links with
    | nil => rfl
    | cons link links =>
      have hlink : link = ringLast := hlinks link (by rw [hl]; exact List.mem_cons_self)
      rw [List.takeWhile_cons_of_neg]
      · rfl
      · simp only [decide_eq_true_eq]
        omega
  induction counts generalizing l with
  | nil => exact hclear l hlinks hindex
  | cons count rest ih =>
    refine ⟨hclear l hlinks hindex, ?_⟩
    have hcount : count = 1 := hcounts count List.mem_cons_self
    subst hcount
    have hrest : ∀ count ∈ rest, count = 1 := fun count hmem => hcounts count (List.mem_cons_of_mem _ hmem)
    unfold put Laps.room advance
    by_cases hroom : l.index + 1 > ringLast
    · rw [if_pos hroom]
      refine ih ?_ (by simp [ringLast]) hrest
      intro link hmem
      rcases List.mem_cons.mp hmem with rfl | hmem
      · omega
      · exact hlinks link hmem
    · rw [if_neg hroom]
      exact ih hlinks (by simp only; omega) hrest

end Laps

/-! ### The cycle bits of a ring -/

namespace Host

variable {h : Host} {ring ring' : Ring} {index cycle : Nat} {t : Trb}

@[simp] theorem ringIndex_setRingIndex :
    (h.setRingIndex ring index).ringIndex ring' = if ring' = ring then index else h.ringIndex ring' := by
  cases ring <;> cases ring' <;> rfl

@[simp] theorem ringCycle_setRingIndex : (h.setRingIndex ring index).ringCycle ring' =
    h.ringCycle ring' := by
  cases ring <;> cases ring' <;> rfl

@[simp] theorem dma_setRingIndex : (h.setRingIndex ring index).dma = h.dma := by cases ring <;> rfl

@[simp] theorem written_setRingIndex : (h.setRingIndex ring index).written = h.written := by
  cases ring <;> rfl

@[simp] theorem ringIndex_setRingCycle : (h.setRingCycle ring cycle).ringIndex ring' =
    h.ringIndex ring' := by
  cases ring <;> cases ring' <;> rfl

@[simp] theorem ringCycle_setRingCycle :
    (h.setRingCycle ring cycle).ringCycle ring' = if ring' = ring then cycle else h.ringCycle ring' := by
  cases ring <;> cases ring' <;> rfl

@[simp] theorem dma_setRingCycle : (h.setRingCycle ring cycle).dma = h.dma := by cases ring <;> rfl

@[simp] theorem written_setRingCycle : (h.setRingCycle ring cycle).written = h.written := by
  cases ring <;> rfl

@[simp] theorem ringIndex_writeTrb : (h.writeTrb ring index t).ringIndex ring' =
    h.ringIndex ring' := by cases ring' <;> rfl

@[simp] theorem ringCycle_writeTrb : (h.writeTrb ring index t).ringCycle ring' =
    h.ringCycle ring' := by cases ring' <;> rfl

@[simp] theorem dma_writeTrb :
    (h.writeTrb ring index t).dma = Function.update h.dma ring (Function.update (h.dma ring) index t) := rfl

@[simp] theorem written_writeTrb : (h.writeTrb ring index t).written =
    Function.update h.written ring (h.written ring ++ [t]) := rfl

/-- Behind `ensure_room`, `push_trb` writes no link. -/
theorem pushTrb_of_ne {d : Driver} (h31 : h.ringIndex ring ≠ ringLast) :
    (h.pushTrb d ring t).2 =
      (h.writeTrb ring (h.ringIndex ring) (t.withCycle (h.ringCycle ring))).setRingIndex ring
        (h.ringIndex ring + 1) := by
  simp only [pushTrb, if_neg h31]

end Host

namespace Act

variable {d : Driver} {a : Act} {h : Host} {ring : Ring}

/-- A piece of a call leaves the other rings alone. -/
theorem run_of_ne (hne : ring ≠ a.ring) :
    (a.run d h).ringIndex ring = h.ringIndex ring ∧ (a.run d h).ringCycle ring = h.ringCycle ring ∧
      (a.run d h).dma ring = h.dma ring ∧ (a.run d h).written ring = h.written ring := by
  have hlink : ∀ {r : Ring}, ring ≠ r → (h.writeLink d r).ringIndex ring = h.ringIndex ring ∧
      (h.writeLink d r).ringCycle ring = h.ringCycle ring ∧ (h.writeLink d r).dma ring = h.dma ring ∧
      (h.writeLink d r).written ring = h.written ring := by
    intro r hr
    simp [Host.writeLink, hr]
  cases a with
  | ensureRoom r count =>
    simp only [run, Host.ensureRoom]
    split
    · exact hlink hne
    · exact ⟨rfl, rfl, rfl, rfl⟩
  | pushTrb r t =>
    simp only [Act.ring] at hne
    simp only [run, Host.pushTrb]
    split
    · simpa [hne] using hlink hne
    · simp [hne]

end Act

theorem linkTrb_cycle (d : Driver) (ring : Ring) (c : Bool) : (Host.linkTrb d ring c.toNat).cycle = c := by
  cases d <;> cases ring <;> cases c <;> decide

/-- The controller follows a link to the base of the ring, with the next cycle state. -/
theorem after_linkTrb (d : Driver) (ring : Ring) (c : Bool) (slot : Nat) :
    Consumer.after (d.ringPhys ring) ⟨slot, c⟩ (Host.linkTrb d ring c.toNat) = ⟨0, !c⟩ := by
  cases d <;> cases ring <;> cases c <;> rfl

/-- The cycle bits of a ring and the laps it has made. -/
structure Kept (h : Host) (ring : Ring) (l : Laps) : Prop where
  index : h.ringIndex ring = l.index
  cycle : h.ringCycle ring = l.cycle.toNat
  last : l.index ≤ ringLast
  below : ∀ slot < l.index, (h.dma ring slot).cycle = l.cycle
  above : ∀ slot ≤ ringLast, l.index ≤ slot → (h.dma ring slot).cycle = (l.cycle ^^ l.skipped slot % 2 == 0)

namespace Kept

variable {d : Driver} {h : Host} {ring : Ring} {l : Laps}

theorem zeroed : Kept .zeroed ring .first where
  index := by cases ring <;> rfl
  cycle := by cases ring <;> rfl
  last := Nat.zero_le _
  below slot hslot := absurd hslot (Nat.not_lt_zero slot)
  above slot _ _ := by
    have hzero : (Host.zeroed.dma ring slot).cycle = false := by simp [Host.zeroed, Trb.cycle]
    have hskip : Laps.first.skipped slot = 0 := rfl
    rw [hzero, hskip]
    rfl

theorem writeLink (hk : Kept h ring l) : Kept (h.writeLink d ring) ring ⟨0, l.index :: l.links⟩ := by
  have hcycle := l.cycle_link
  constructor
  · simp [Host.writeLink]
  · rw [hcycle]
    simp only [Host.writeLink, Host.ringCycle_setRingCycle, if_true, Host.ringCycle_setRingIndex,
      Host.ringCycle_writeTrb, hk.cycle]
    cases l.cycle <;> rfl
  · exact Nat.zero_le _
  · exact fun slot hslot => absurd hslot (Nat.not_lt_zero slot)
  · intro slot hslot _
    rw [hcycle]
    simp only [Host.writeLink, Host.dma_setRingCycle, Host.dma_setRingIndex, Host.dma_writeTrb,
      Function.update_self]
    by_cases hlt : l.index < slot
    · have hskip : Laps.skipped ⟨0, l.index :: l.links⟩ slot = l.skipped slot + 1 := by
        simp [Laps.skipped, hlt]
      rw [hskip, hk.index, Function.update_of_ne hlt.ne', hk.above slot hslot hlt.le]
      rcases Nat.mod_two_eq_zero_or_one (l.skipped slot) with hmod | hmod <;> simp [hmod, Nat.add_mod]
    · have hskip : Laps.skipped ⟨0, l.index :: l.links⟩ slot = 0 := by
        simp [Laps.skipped, hlt]
      rw [hskip, hk.index, hk.cycle]
      by_cases heq : slot = l.index
      · rw [heq, Function.update_self, linkTrb_cycle]
        simp
      · rw [Function.update_of_ne heq, hk.below slot (by omega)]
        simp

theorem ensureRoom (hk : Kept h ring l) (count : Nat) :
    Kept (h.ensureRoom d ring count) ring (l.room count) := by
  simp only [Host.ensureRoom, Laps.room, hk.index]
  split
  · exact hk.writeLink
  · exact hk

theorem push (hk : Kept h ring l) (hlast : l.index + 1 ≤ ringLast) {t : Trb}
    (ht : (t.withCycle l.cycle.toNat).cycle = l.cycle) :
    Kept (h.pushTrb d ring t).2 ring (l.advance 1) := by
  have hne : h.ringIndex ring ≠ ringLast := by
    rw [hk.index]
    omega
  rw [Host.pushTrb_of_ne hne]
  have hdma : ∀ slot, slot ≠ l.index → Function.update (h.dma ring) (h.ringIndex ring)
    (t.withCycle (h.ringCycle ring)) slot = h.dma ring slot := by
    intro slot hslot
    rw [hk.index, Function.update_of_ne hslot]
  constructor
  · simp [hk.index, Laps.advance]
  · simpa [Laps.advance, Laps.cycle] using hk.cycle
  · exact hlast
  · intro slot hslot
    simp only [Host.dma_setRingIndex, Host.dma_writeTrb, Function.update_self]
    by_cases heq : slot = l.index
    · rw [heq, ← hk.index, Function.update_self, hk.cycle]
      exact ht
    · rw [hdma slot heq]
      exact hk.below slot (by simp only [Laps.advance] at hslot; omega)
  · intro slot hslot hle
    simp only [Laps.advance] at hle
    simp only [Host.dma_setRingIndex, Host.dma_writeTrb, Function.update_self]
    rw [hdma slot (by omega)]
    exact hk.above slot hslot (by omega)

end Kept

/-! ### The way of the controller -/

/-- The descriptors in flight lie in the controller's way, and lead it to the end. -/
def Leads (base : BitVec 64) (dma : Nat → Trb) (stop : Consumer) : Consumer → List Trb → Prop
  | c, [] => c = stop
  | c, t :: ts => dma c.slot = t ∧ t.cycle = c.cycle ∧ Leads base dma stop (c.after base t) ts

/-- Where the descriptors in flight are. -/
def visits (base : BitVec 64) : Consumer → List Trb → List Nat
  | _, [] => []
  | c, t :: ts => c.slot :: visits base (c.after base t) ts

namespace Leads

variable {base : BitVec 64} {dma : Nat → Trb} {stop c : Consumer} {ts : List Trb} {t : Trb}

theorem write (h : Leads base dma stop c ts) (hfree : stop.slot ∉ visits base c ts)
    (ht : t.cycle = stop.cycle) :
    Leads base (Function.update dma stop.slot t) (stop.after base t) c (ts ++ [t]) := by
  induction ts generalizing c with
  | nil =>
    obtain rfl : c = stop := h
    exact ⟨Function.update_self .., ht, rfl⟩
  | cons u ts ih =>
    obtain ⟨hdma, hcycle, hrest⟩ := h
    rw [visits, List.mem_cons, not_or] at hfree
    refine ⟨?_, hcycle, ih hrest hfree.2⟩
    rw [Function.update_of_ne (Ne.symm hfree.1), hdma]

theorem visits_append (h : Leads base dma stop c ts) : visits base c (ts ++ [t]) =
    visits base c ts ++ [stop.slot] := by
  induction ts generalizing c with
  | nil =>
    obtain rfl : c = stop := h
    rfl
  | cons u ts ih => rw [List.cons_append, visits, ih h.2.2, visits, List.cons_append]

theorem next (h : Leads base dma stop c (t :: ts)) : c.next dma = some t := by
  obtain ⟨hdma, hcycle, -⟩ := h
  rw [Consumer.next, hdma, if_pos hcycle]

end Leads

/-! ### The pieces of a call -/

/-- The caller leaves the cycle bit to the ring. -/
structure Trb.Plain (t : Trb) : Prop where
  cycle : t.cycle = false
  isLink : t.isLink = false

namespace Trb.Plain

theorem mk_d3 {d0 d1 d2 d3 : Word} (hcycle : d3.getLsbD 0 = false)
    (hlink : ((d3 >>> 10) &&& 0x3f == trbLink) = false) :
    Trb.Plain ⟨d0, d1, d2, d3⟩ :=
  ⟨hcycle, hlink⟩

theorem withCycle_cycle {t : Trb} (h : t.Plain) (c : Bool) : (t.withCycle c.toNat).cycle = c := by
  have hd3 : t.d3.getLsbD 0 = false := h.cycle
  simp only [Trb.withCycle, Trb.cycle, BitVec.getLsbD_or, hd3, Bool.false_or]
  cases c <;> decide

end Trb.Plain

theorem withCycle_isLink (t : Trb) (c : Bool) : (t.withCycle c.toNat).isLink = t.isLink := by
  have hshift : BitVec.ofNat 32 c.toNat >>> 10 = 0 := by cases c <;> decide
  simp only [Trb.withCycle, Trb.isLink, BitVec.ushiftRight_or_distrib, hshift]
  simp

theorem withCycle_chained (t : Trb) (c : Bool) : (t.withCycle c.toNat).chained = t.chained := by
  have hbit : (BitVec.ofNat 32 c.toNat).getLsbD 4 = false := by cases c <;> decide
  simp only [Trb.withCycle, Trb.chained, BitVec.getLsbD_or, hbit, Bool.or_false]

/-- A transfer ends with the last of these descriptors. -/
def Ends (ts : List Trb) : Prop := ∀ t ∈ ts.getLast?, t.chained = false ∧ t.isLink = false

theorem ends_append_of_ne_nil {ts us : List Trb} (h : us ≠ []) : Ends (ts ++ us) ↔ Ends us := by
  simp [Ends, List.getLast?_append_of_ne_nil ts h]

/-- No command has the type of a link: its type has a bit that the other has not. -/
theorem Command.plain_trb (c : Command) : c.trb.Plain := by
  constructor
  · simp [Command.trb, Trb.cycle, trbType]
  · by_contra hlink
    have hkind : (c.trb.d3 >>> 10) &&& 0x3f = trbLink := by
      rw [Bool.not_eq_false, Trb.isLink] at hlink
      exact eq_of_beq hlink
    have h3 := congrArg (·.getLsbD 3) hkind
    have h4 := congrArg (·.getLsbD 4) hkind
    obtain ⟨d0, d1, kind, ep, slot⟩ := c
    cases kind <;> simp [Command.trb, CommandKind.code, trbType, trbLink, trbEnableSlot,
      trbDisableSlot, trbAddress, trbConfigure,
      trbEvaluate, trbResetEp, trbSetDeq] at h3 h4

namespace Call

variable (d : Driver) (c : Call)

theorem plain_trbs : ∀ t ∈ c.trbs d, t.Plain := by
  cases c with
  | submitCmd command =>
    intro t ht
    obtain rfl := List.mem_singleton.mp ht
    exact command.plain_trb
  | queueIntr packet =>
    intro t ht
    obtain rfl := List.mem_singleton.mp ht
    simp only [intrTrb]
    exact .mk_d3 (by decide) (by decide)
  | queueControl control =>
    have hsetup : control.setup.Plain := by
      simp only [Control.setup]
      split_ifs <;> exact .mk_d3 (by decide) (by decide)
    have hdata : (control.data d).Plain := by
      simp only [Control.data]
      split_ifs <;> exact .mk_d3 (by decide) (by decide)
    have hstatus : control.status.Plain := by
      simp only [Control.status]
      split_ifs <;> exact .mk_d3 (by decide) (by decide)
    intro t ht
    simp only [trbs] at ht
    split at ht <;> simp only [List.mem_cons, List.not_mem_nil, or_false] at ht
    · rcases ht with rfl | rfl
      · exact hsetup
      · exact hstatus
    · rcases ht with rfl | rfl | rfl
      · exact hsetup
      · exact hdata
      · exact hstatus

theorem ends_trbs : Ends (c.trbs d) := by
  cases c with
  | submitCmd command =>
    have hchained : command.trb.chained = false := by simp [Command.trb, Trb.chained, trbType]
    simpa [Ends, trbs] using ⟨hchained, command.plain_trb.isLink⟩
  | queueIntr packet =>
    have hchained : (intrTrb d packet).chained = false := by
      show (isp ||| ioc ||| trbType trbNormal).getLsbD 4 = false
      decide
    have hplain := plain_trbs d (queueIntr packet) (intrTrb d packet) (List.mem_singleton_self _)
    simpa [Ends, trbs] using ⟨hchained, hplain.isLink⟩
  | queueControl control =>
    have hstatus : control.status.chained = false ∧ control.status.isLink = false := by
      refine ⟨?_, ?_⟩
      · simp only [Control.status, Trb.chained]
        split_ifs <;> decide
      · simp only [Control.status, Trb.isLink]
        split_ifs <;> decide
    by_cases hlen : control.len = 0#16 <;> simpa [Ends, trbs, hlen] using hstatus

theorem trbs_ne_nil : c.trbs d ≠ [] := by
  have hlen := c.length_trbs d
  have hpos := c.count_pos
  intro hnil
  rw [hnil, List.length_nil] at hlen
  omega

end Call

/-! ### The invariant -/

/-- How far the driver is in a call on the ring. A link is written when nothing is in flight; then
the descriptors in flight are that link and those of the transfer, in front of the index. -/
inductive Stage (ring : Ring) (l : Laps) (written : List Trb) (places : List Nat) : List Act → Prop
  | room {ts : List Trb} : ts ≠ [] → ts.length ≤ 3 → (∀ t ∈ ts, t.Plain) → Ends ts → Ends written →
      places = [] →
      Stage ring l written places (.ensureRoom ring ts.length :: ts.map (.pushTrb ring))
  | push {ts : List Trb} : l.index + ts.length ≤ ringLast → (∀ t ∈ ts, t.Plain) → Ends (written ++ ts) →
      (∀ slot ∈ places, slot < l.index ∨ (29 ≤ slot ∧ l.index + ts.length ≤ 3)) →
      Stage ring l written places (ts.map (.pushTrb ring))

/-- The pieces of the call that are on the ring. -/
def System.due (s : System) (ring : Ring) : List Act := s.todo.filter (·.ring = ring)

/-- How the ring and the controller are, with the descriptors in flight. -/
structure Inv (d : Driver) (s : System) (ring : Ring) (l : Laps) (pending : List Trb) : Prop where
  kept : Kept s.host ring l
  written : s.host.written ring = s.taken ring ++ pending
  unsplit : (s.host.written ring).IsChain (fun t next => t.chained → next.isLink = false)
  leads : Leads (d.ringPhys ring) (s.host.dma ring) ⟨l.index, l.cycle⟩ (s.consumer ring) pending
  stage : Stage ring l (s.host.written ring) (visits (d.ringPhys ring) (s.consumer ring) pending)
    (s.due ring)

namespace Inv

variable {d : Driver} {s s' : System} {ring : Ring} {l : Laps} {pending : List Trb} {calls : List Call}

theorem start : Inv d (.start calls) ring .first [] where
  kept := .zeroed
  written := rfl
  unsplit := .nil
  leads := rfl
  stage := @Stage.push ring _ _ _ [] (Nat.zero_le _) (by simp)
    (by simp [Ends, System.start, Host.zeroed]) (by simp [visits])

theorem exact (h : Inv d s ring l pending) (hclear : l.Clear) : s.Exact ring := by
  have hnil : pending = [] → s.next ring = none := by
    rintro rfl
    have hstop : s.consumer ring = ⟨l.index, l.cycle⟩ := h.leads
    have hbit := h.kept.above l.index h.kept.last le_rfl
    rw [hclear l.index le_rfl] at hbit
    rw [System.next, Consumer.next, hstop, if_neg]
    rw [hbit]
    cases l.cycle <;> simp
  constructor
  · rw [System.consumed, System.pushed, h.written, List.filter_append]
    exact List.prefix_append _ _
  · intro hnone
    cases pending with
    | nil => rw [System.consumed, System.pushed, h.written, List.append_nil]
    | cons t ts =>
      rw [System.next, h.leads.next] at hnone
      cases hnone
  · exact h.unsplit
  · intro htaken
    refine hnil ?_
    have hw := h.written
    rw [htaken] at hw
    exact List.append_cancel_left (hw.symm.trans (List.append_nil _).symm)

theorem ends_of_idle (h : Inv d s ring l pending) (hidle : s.due ring = []) :
    Ends (s.host.written ring) := by
  have hstage := h.stage
  rw [hidle] at hstage
  generalize hdue : ([] : List Act) = due at hstage
  cases hstage with
  | room hne => cases hdue
  | push hroom hplain hends hplaces =>
    obtain rfl := List.map_eq_nil_iff.mp hdue.symm
    rwa [List.append_nil] at hends

/-- When the last transfer is complete nothing is in flight. -/
theorem pending_eq_nil (h : Inv d s ring l pending) (hidle : s.due ring = [])
    (hdone : s.consumed ring = s.pushed ring) : pending = [] := by
  have hends := h.ends_of_idle hidle
  by_contra hne
  rw [System.consumed, System.pushed, h.written, List.filter_append, List.self_eq_append_right,
    List.filter_eq_nil_iff] at hdone
  have hlast : (pending.getLast hne).chained = false ∧ (pending.getLast hne).isLink = false := by
    refine hends _ ?_
    rw [h.written, List.getLast?_append_of_ne_nil _ hne, List.getLast?_eq_some_getLast hne]
    rfl
  have hlink := hdone _ (List.getLast_mem hne)
  simp [hlast.2] at hlink

theorem call {c : Call} {rest : List Call} (h : Inv d s ring l pending) (htodo : s.todo = [])
    (hdone : s.consumed c.ring = s.pushed c.ring) : Inv d { s with ahead := rest, todo := c.acts d } ring l pending := by
  have hidle : s.due ring = [] := by rw [System.due, htodo, List.filter_nil]
  refine ⟨h.kept, h.written, h.unsplit, h.leads, ?_⟩
  by_cases hring : c.ring = ring
  · subst hring
    obtain rfl := h.pending_eq_nil hidle hdone
    have hends : Ends (s.host.written c.ring) := h.ends_of_idle hidle
    have hdue : System.due { s with ahead := rest, todo := c.acts d } c.ring = c.acts d := by
      refine List.filter_eq_self.mpr ?_
      simp [Call.acts, Act.ring]
    rw [hdue, Call.acts, ← c.length_trbs d]
    refine .room (c.trbs_ne_nil d) ?_ (c.plain_trbs d) (c.ends_trbs d) hends rfl
    rw [c.length_trbs]
    exact c.count_le
  · have hdue : System.due { s with ahead := rest, todo := c.acts d } ring = s.due ring := by
      rw [hidle]
      refine List.filter_eq_nil_iff.mpr ?_
      simp [Call.acts, Act.ring, hring]
    rw [hdue]
    exact h.stage

end Inv

/-- A piece of a call writes a descriptor at the index, or nothing. -/
def Act.laps (ring : Ring) (l : Laps) : Act → Laps
  | ensureRoom r count => if r = ring then l.room count else l
  | pushTrb r _ => if r = ring then l.advance 1 else l

namespace Inv

variable {d : Driver} {s s' : System} {ring : Ring} {l : Laps} {pending : List Trb} {a : Act}
  {acts : List Act}

theorem act_other (h : Inv d s ring l pending) (htodo : s.todo = a :: acts) (hring : ring ≠ a.ring) :
    Inv d { s with host := a.run d s.host, todo := acts } ring l pending := by
  obtain ⟨hindex, hcycle, hdma, hwritten⟩ := Act.run_of_ne (d := d) (h := s.host) hring
  have hdue : System.due { s with host := a.run d s.host, todo := acts } ring = s.due ring := by
    rw [System.due, System.due, htodo, List.filter_cons_of_neg (by simpa using Ne.symm hring)]
  refine ⟨⟨?_, ?_, h.kept.last, ?_, ?_⟩, ?_, ?_, ?_, ?_⟩
  · exact hindex.trans h.kept.index
  · exact hcycle.trans h.kept.cycle
  · simpa only [hdma] using h.kept.below
  · simpa only [hdma] using h.kept.above
  · exact hwritten.trans h.written
  · simpa only [hwritten] using h.unsplit
  · simpa only [hdma] using h.leads
  · simpa only [hwritten, hdue] using h.stage

/-- The driver writes a link, when the transfer does not fit in front of the last descriptor. -/
theorem room {ts : List Trb} (h : Inv d s ring l []) (hne : ts ≠ []) (hcount : ts.length ≤ 3)
    (hplain : ∀ t ∈ ts, t.Plain)
    (hends : Ends ts) (hlast : Ends (s.host.written ring)) (hdue : acts.filter (·.ring = ring) =
      ts.map (.pushTrb ring)) :
    ∃ new, Inv d { s with host := s.host.ensureRoom d ring ts.length, todo := acts } ring
      (l.room ts.length) new := by
  have hstop : s.consumer ring = ⟨l.index, l.cycle⟩ := h.leads
  have hkept := h.kept.ensureRoom (d := d) ts.length
  by_cases hroom : l.index + ts.length > ringLast
  · have hlink : s.host.ensureRoom d ring ts.length = s.host.writeLink d ring := by
      rw [Host.ensureRoom, if_pos (by rwa [h.kept.index])]
    have hlaps : l.room ts.length = ⟨0, l.index :: l.links⟩ := by rw [Laps.room, if_pos hroom]
    have hcycle : Laps.cycle ⟨0, l.index :: l.links⟩ = !l.cycle := Laps.cycle_link l
    rw [hlink, hlaps] at hkept ⊢
    have hwritten : (s.host.writeLink d ring).written ring = s.host.written ring ++
      [Host.linkTrb d ring l.cycle.toNat] := by
      simp [Host.writeLink, h.kept.cycle]
    have hdma : (s.host.writeLink d ring).dma ring =
      Function.update (s.host.dma ring) l.index (Host.linkTrb d ring l.cycle.toNat) := by
      simp [Host.writeLink, h.kept.cycle, h.kept.index]
    refine ⟨[Host.linkTrb d ring l.cycle.toNat], hkept, ?_, ?_, ?_, ?_⟩
    · show (s.host.writeLink d ring).written ring = _
      rw [hwritten, h.written, List.append_nil]
    · show List.IsChain _ ((s.host.writeLink d ring).written ring)
      rw [hwritten]
      refine List.isChain_append.mpr ⟨h.unsplit, .singleton _, ?_⟩
      intro t ht next _ hchained
      rw [(hlast t ht).1] at hchained
      cases hchained
    · show Leads _ ((s.host.writeLink d ring).dma ring) _ (s.consumer ring) _
      have hleads := h.leads.write (t := Host.linkTrb d ring l.cycle.toNat) (by simp [visits])
        (linkTrb_cycle d ring l.cycle)
      rw [after_linkTrb] at hleads
      rw [hdma, hcycle]
      exact hleads
    · show Stage ring _ ((s.host.writeLink d ring).written ring) _ (acts.filter (·.ring = ring))
      rw [hdue, hstop]
      refine .push (by simp only [ringLast]; omega) hplain ((ends_append_of_ne_nil hne).mpr hends) ?_
      intro slot hslot
      obtain rfl : slot = l.index := by simpa [visits] using hslot
      simp only [ringLast] at hroom
      refine .inr ⟨by omega, ?_⟩
      show 0 + ts.length ≤ 3
      omega
  · have hstay : s.host.ensureRoom d ring ts.length = s.host := by
      rw [Host.ensureRoom, if_neg (by rwa [h.kept.index])]
    have hlaps : l.room ts.length = l := by rw [Laps.room, if_neg hroom]
    rw [hstay, hlaps]
    refine ⟨[], h.kept, h.written, h.unsplit, h.leads, ?_⟩
    show Stage ring l (s.host.written ring) _ (acts.filter (·.ring = ring))
    rw [hdue]
    exact .push (by omega) hplain ((ends_append_of_ne_nil hne).mpr hends) (by simp [visits])

/-- The driver writes a descriptor of the transfer. -/
theorem push {t : Trb} {ts : List Trb} (h : Inv d s ring l pending)
    (hroom : l.index + (ts.length + 1) ≤ ringLast)
    (hplain : ∀ u ∈ t :: ts, u.Plain) (hends : Ends (s.host.written ring ++ t :: ts))
    (hplaces : ∀ slot ∈ visits (d.ringPhys ring) (s.consumer ring) pending,
      slot < l.index ∨ (29 ≤ slot ∧ l.index + (ts.length + 1) ≤ 3))
    (hdue : acts.filter (·.ring = ring) = ts.map (.pushTrb ring)) :
    ∃ new, Inv d { s with host := (s.host.pushTrb d ring t).2, todo := acts } ring (l.advance 1) new := by
  have ht := hplain t List.mem_cons_self
  have hne : s.host.ringIndex ring ≠ ringLast := by
    rw [h.kept.index]
    omega
  have hkept := h.kept.push (d := d) (by omega) (ht.withCycle_cycle l.cycle)
  have hwritten : (s.host.pushTrb d ring t).2.written ring = s.host.written ring ++
    [t.withCycle l.cycle.toNat] := by
    simp [Host.pushTrb_of_ne hne, h.kept.cycle]
  have hdma : (s.host.pushTrb d ring t).2.dma ring =
    Function.update (s.host.dma ring) l.index (t.withCycle l.cycle.toNat) := by
    simp [Host.pushTrb_of_ne hne, h.kept.cycle, h.kept.index]
  have hlink : (t.withCycle l.cycle.toNat).isLink = false := by rw [withCycle_isLink, ht.isLink]
  have hfree : l.index ∉ visits (d.ringPhys ring) (s.consumer ring) pending := by
    intro hmem
    rcases hplaces _ hmem with hlt | ⟨hge, hle⟩
    · exact hlt.false
    · omega
  have hafter : Consumer.after (d.ringPhys ring) ⟨l.index, l.cycle⟩ (t.withCycle l.cycle.toNat) =
    ⟨l.index + 1, l.cycle⟩ := by
    rw [Consumer.after, hlink]
    rfl
  refine ⟨pending ++ [t.withCycle l.cycle.toNat], hkept, ?_, ?_, ?_, ?_⟩
  · show (s.host.pushTrb d ring t).2.written ring = _
    rw [hwritten, h.written, List.append_assoc]
  · show List.IsChain _ ((s.host.pushTrb d ring t).2.written ring)
    rw [hwritten]
    refine List.isChain_append.mpr ⟨h.unsplit, .singleton _, ?_⟩
    intro u _ next hnext _
    obtain rfl : t.withCycle l.cycle.toNat = next := by simpa using hnext
    exact hlink
  · show Leads _ ((s.host.pushTrb d ring t).2.dma ring) _ (s.consumer ring) _
    have hleads := h.leads.write hfree (ht.withCycle_cycle l.cycle)
    rw [hafter] at hleads
    rw [hdma]
    exact hleads
  · show Stage ring _ ((s.host.pushTrb d ring t).2.written ring) (visits _ (s.consumer ring) _)
      (acts.filter (·.ring = ring))
    rw [hdue, hwritten, h.leads.visits_append]
    refine .push (by simp only [Laps.advance]; omega)
      (fun u hu => hplain u (List.mem_cons_of_mem _ hu)) ?_ ?_
    · cases ts with
      | nil =>
        rw [List.append_nil]
        intro u hu
        obtain rfl : t.withCycle l.cycle.toNat = u := by simpa using hu
        rw [withCycle_chained, hlink]
        exact ⟨(hends t (by simp)).1, rfl⟩
      | cons u us =>
        rw [List.append_cons] at hends
        have hrest := (ends_append_of_ne_nil (List.cons_ne_nil u us)).mp hends
        exact (ends_append_of_ne_nil (List.cons_ne_nil u us)).mpr hrest
    · intro slot hslot
      simp only [Laps.advance]
      rcases List.mem_append.mp hslot with hmem | hmem
      · rcases hplaces slot hmem with hlt | ⟨hge, hle⟩
        · exact .inl (by omega)
        · exact .inr ⟨hge, by omega⟩
      · obtain rfl := List.mem_singleton.mp hmem
        exact .inl (Nat.lt_succ_self _)

theorem act (h : Inv d s ring l pending) (htodo : s.todo = a :: acts) :
    ∃ new, Inv d { s with host := a.run d s.host, todo := acts } ring (a.laps ring l) new := by
  by_cases hring : ring = a.ring
  · subst hring
    have hdue : s.due a.ring = a :: acts.filter (·.ring = a.ring) := by
      rw [System.due, htodo, List.filter_cons_of_pos (by simp)]
    have hstage := h.stage
    rw [hdue] at hstage
    generalize hacts : a :: acts.filter (·.ring = a.ring) = due at hstage
    generalize hr : a.ring = ring at *
    cases hstage with
    | room hne hcount hplain hends hlast hplaces =>
      obtain ⟨rfl, hrest⟩ := List.cons.inj hacts
      obtain rfl : pending = [] := by
        cases pending with
        | nil => rfl
        | cons t ts => cases hplaces
      simpa only [Act.laps, if_true, Act.run] using h.room hne hcount hplain hends hlast hrest
    | @push ts hroom hplain hends hplaces =>
      cases ts with
      | nil => cases hacts
      | cons t ts =>
        obtain ⟨rfl, hrest⟩ := List.cons.inj hacts
        simpa only [Act.laps, if_true, Act.run] using h.push hroom hplain hends hplaces hrest
  · have hlaps : a.laps ring l = l := by
      cases a <;> simp only [Act.laps, Act.ring] at hring ⊢ <;> rw [if_neg (Ne.symm hring)]
    rw [hlaps]
    exact ⟨pending, h.act_other htodo hring⟩

theorem take_other {r : Ring} {t : Trb} (h : Inv d s ring l pending) (hring : ring ≠ r) :
    Inv d (s.take d r t) ring l pending := by
  refine ⟨h.kept, ?_, h.unsplit, ?_, ?_⟩
  · show s.host.written ring = Function.update s.taken r _ ring ++ pending
    rw [Function.update_of_ne hring]
    exact h.written
  · show Leads _ _ _ (Function.update s.consumer r _ ring) pending
    rw [Function.update_of_ne hring]
    exact h.leads
  · show Stage ring l _ (visits _ (Function.update s.consumer r _ ring) pending) _
    rw [Function.update_of_ne hring]
    exact h.stage

/-- The controller takes the first descriptor in flight. -/
theorem take {t : Trb} {ts : List Trb} (h : Inv d s ring l (t :: ts)) :
    Inv d (s.take d ring t) ring l ts := by
  refine ⟨h.kept, ?_, h.unsplit, ?_, ?_⟩
  · show s.host.written ring = Function.update s.taken ring _ ring ++ ts
    rw [Function.update_self, h.written, List.append_assoc, List.singleton_append]
  · show Leads _ _ _ (Function.update s.consumer ring _ ring) ts
    rw [Function.update_self]
    exact h.leads.2.2
  · show Stage ring l (s.host.written ring) (visits _ (Function.update s.consumer ring _ ring) ts)
      (s.due ring)
    rw [Function.update_self]
    have hstage := h.stage
    generalize s.due ring = due at hstage ⊢
    cases hstage with
    | room hne hcount hplain hends hlast hplaces => cases hplaces
    | push hroom hplain hends hplaces =>
      exact .push hroom hplain hends fun slot hslot => hplaces slot (List.mem_cons_of_mem _ hslot)

end Inv

/-! ### Runs -/

/-- The sizes of the transfers on a ring. -/
def counts (ring : Ring) (calls : List Call) : List Nat := (calls.filter (·.ring = ring)).map Call.count

section

variable {d : Driver} {ring : Ring} {l : Laps} {calls : List Call} {s s' : System}

theorem foldl_laps_of_pushes {acts : List Act} {ts : List Trb} (h : acts.filter (·.ring = ring) =
    ts.map (.pushTrb ring)) :
    acts.foldl (Act.laps ring) l = l.advance ts.length := by
  induction acts generalizing l ts with
  | nil =>
    obtain rfl : ts = [] := List.map_eq_nil_iff.mp h.symm
    rfl
  | cons a acts ih =>
    rw [List.foldl_cons]
    by_cases hring : a.ring = ring
    · rw [List.filter_cons_of_pos (by simpa using hring)] at h
      cases ts with
      | nil => cases h
      | cons t ts =>
        obtain ⟨rfl, hrest⟩ := List.cons.inj h
        rw [ih hrest]
        simp only [Act.laps, if_true, Laps.advance, List.length_cons]
        congr 1
        omega
    · rw [List.filter_cons_of_neg (by simpa using hring)] at h
      have hlaps : a.laps ring l = l := by
        cases a <;> simp only [Act.laps, Act.ring] at hring ⊢ <;> rw [if_neg hring]
      rw [hlaps, ih h]

theorem foldl_laps_acts (c : Call) :
    (c.acts d).foldl (Act.laps ring) l = if c.ring = ring then l.put c.count else l := by
  rw [Call.acts, List.foldl_cons]
  by_cases hring : c.ring = ring
  · have hpushes : ((c.trbs d).map (.pushTrb c.ring)).filter (Act.ring · = ring) =
      (c.trbs d).map (.pushTrb ring) := by
      rw [hring]
      exact List.filter_eq_self.mpr (by simp [Act.ring])
    rw [foldl_laps_of_pushes hpushes, c.length_trbs, if_pos hring, Act.laps, if_pos hring, Laps.put]
  · have hpushes : ((c.trbs d).map (.pushTrb c.ring)).filter (Act.ring · = ring) =
      List.map (.pushTrb ring) [] :=
      List.filter_eq_nil_iff.mpr (by simp [Act.ring, hring])
    rw [foldl_laps_of_pushes hpushes, if_neg hring, Act.laps, if_neg hring]
    rfl

/-- The ring is in order, and stays clear to the end of the calls. -/
def Sound (d : Driver) (s : System) (ring : Ring) : Prop :=
  ∃ l pending, Inv d s ring l pending ∧ l.Clear ∧
    (s.todo.foldl (Act.laps ring) l).ClearAll (counts ring s.ahead)

theorem Sound.step (h : Sound d s ring) (hstep : System.Step d s s') : Sound d s' ring := by
  obtain ⟨l, pending, hinv, hclear, hall⟩ := h
  cases hstep with
  | @call c rest htodo hahead hdone =>
    refine ⟨l, pending, hinv.call htodo hdone, hclear, ?_⟩
    rw [htodo, hahead, counts] at hall
    rw [foldl_laps_acts]
    by_cases hring : c.ring = ring
    · rw [List.filter_cons_of_pos (by simpa using hring)] at hall
      rw [if_pos hring]
      exact hall.2
    · rw [List.filter_cons_of_neg (by simpa using hring)] at hall
      rwa [if_neg hring]
  | @act a rest htodo =>
    obtain ⟨new, hnew⟩ := hinv.act htodo
    rw [htodo, List.foldl_cons] at hall
    refine ⟨_, new, hnew, ?_, hall⟩
    cases a with
    | ensureRoom r count =>
      rw [Act.laps]
      split
      · exact hclear.room count
      · exact hclear
    | pushTrb r t =>
      by_cases hring : r = ring
      · subst hring
        have hstage := hinv.stage
        rw [System.due, htodo, List.filter_cons_of_pos (by simp [Act.ring])] at hstage
        generalize hacts : Act.pushTrb r t :: rest.filter (·.ring = r) = due at hstage
        cases hstage with
        | room => cases hacts
        | @push ts =>
          cases ts with
          | nil => cases hacts
          | cons u ts =>
            obtain ⟨-, hrest⟩ := List.cons.inj hacts
            have hend := hall.head
            rw [foldl_laps_of_pushes hrest] at hend
            exact hend.of_advance
      · rw [Act.laps, if_neg hring]
        exact hclear
  | @take r t hnext =>
    by_cases hring : ring = r
    · subst hring
      cases pending with
      | nil =>
        rw [(hinv.exact hclear).idle (hinv.written.trans (List.append_nil _)).symm] at hnext
        cases hnext
      | cons u ts =>
        obtain rfl : u = t := Option.some.inj (hinv.leads.next.symm.trans hnext)
        exact ⟨l, ts, hinv.take, hclear, hall⟩
    · exact ⟨l, pending, hinv.take_other hring, hclear, hall⟩

theorem exact_of_clearAll (hclear : Laps.first.ClearAll (counts ring calls))
    (hreach : System.Reach d calls s) : s.Exact ring := by
  have hsound : Sound d s ring := by
    induction hreach with
    | refl => exact ⟨.first, [], .start, hclear.head, hclear⟩
    | tail _ hstep ih => exact ih.step hstep
  obtain ⟨l, pending, hinv, hclear, -⟩ := hsound
  exact hinv.exact hclear

/-! ### Runs in which the controller takes each descriptor at once -/

def Quiet (d : Driver) (s : System) (laps : Ring → Laps) : Prop := ∀ ring, Inv d s ring (laps ring) []

theorem drain {laps : Ring → Laps} {pending : List Trb} (hreach : System.Reach d calls s)
    (hring : Inv d s ring l pending)
    (hothers : ∀ r, r ≠ ring → Inv d s r (laps r) []) :
    ∃ s', System.Reach d calls s' ∧ s'.todo = s.todo ∧ s'.ahead = s.ahead ∧ Inv d s' ring l [] ∧
      ∀ r, r ≠ ring → Inv d s' r (laps r) [] := by
  induction pending generalizing s with
  | nil => exact ⟨s, hreach, rfl, rfl, hring, hothers⟩
  | cons t ts ih =>
    exact ih (s := s.take d ring t) (hreach.tail (.take hring.leads.next)) hring.take fun r hr =>
      (hothers r hr).take_other hr

theorem Quiet.act {laps : Ring → Laps} {a : Act} {acts : List Act} (hreach : System.Reach d calls s)
    (hquiet : Quiet d s laps)
    (htodo : s.todo = a :: acts) :
    ∃ s', System.Reach d calls s' ∧ s'.todo = acts ∧ s'.ahead = s.ahead ∧
      Quiet d s' fun r => a.laps r (laps r) := by
  have hlaps : ∀ r, r ≠ a.ring → a.laps r (laps r) = laps r := by
    intro r hr
    cases a <;> simp only [Act.laps, Act.ring] at hr ⊢ <;> rw [if_neg (Ne.symm hr)]
  obtain ⟨new, hnew⟩ := (hquiet a.ring).act htodo
  obtain ⟨s', hs', htodo', hahead', hring, hothers⟩ :=
    drain (hreach.tail (.act htodo)) hnew fun r hr => (hquiet r).act_other htodo hr
  refine ⟨s', hs', htodo', hahead', ?_⟩
  intro r
  by_cases hr : r = a.ring
  · rw [hr]
    exact hring
  · show Inv d s' r (a.laps r (laps r)) []
    rw [hlaps r hr]
    exact hothers r hr

theorem Inv.skipped_even (h : Inv d s ring l []) (hexact : s.Exact ring) : l.skipped l.index % 2 = 0 := by
  have hnone := hexact.idle (h.written.trans (List.append_nil _)).symm
  have hstop : s.consumer ring = ⟨l.index, l.cycle⟩ := h.leads
  have hbit := h.kept.above l.index h.kept.last le_rfl
  rcases Nat.mod_two_eq_zero_or_one (l.skipped l.index) with hmod | hmod
  · exact hmod
  · rw [hmod] at hbit
    rw [System.next, Consumer.next, hstop, if_pos (by simpa using hbit)] at hnone
    cases hnone

theorem Quiet.acts {laps : Ring → Laps} {acts : List Act} (hexact : ∀ s, System.Reach d calls s →
    s.Exact ring)
    (hreach : System.Reach d calls s) (hquiet : Quiet d s laps) (htodo : s.todo = acts)
      (hclear : (laps ring).Clear) :
    ∃ s', System.Reach d calls s' ∧ s'.todo = [] ∧ s'.ahead = s.ahead ∧
      (Quiet d s' fun r => acts.foldl (Act.laps r) (laps r)) ∧
        (acts.foldl (Act.laps ring) (laps ring)).Clear := by
  induction acts generalizing s laps with
  | nil => exact ⟨s, hreach, htodo, rfl, hquiet, hclear⟩
  | cons a acts ih =>
    obtain ⟨s', hs', htodo', hahead', hquiet'⟩ := hquiet.act hreach htodo
    have hnext : (a.laps ring (laps ring)).Clear := by
      cases a with
      | ensureRoom r count =>
        rw [Act.laps]
        split
        · exact hclear.room count
        · exact hclear
      | pushTrb r t =>
        have heven := (hquiet' ring).skipped_even (hexact s' hs')
        simp only [Act.laps] at heven ⊢
        split at heven <;> rename_i hr
        · rw [if_pos hr]
          intro slot hslot
          simp only [Laps.advance] at hslot heven
          rcases Nat.lt_or_eq_of_le hslot with hlt | rfl
          · exact hclear slot (by omega)
          · exact heven
        · rw [if_neg hr]
          exact hclear
    rw [← hahead']
    exact ih hs' hquiet' htodo' hnext

theorem clearAll_of_exact_from {laps : Ring → Laps} (hexact : ∀ s, System.Reach d calls s → s.Exact ring)
    (hreach : System.Reach d calls s) (hquiet : Quiet d s laps) (htodo : s.todo = [])
      (hclear : (laps ring).Clear) :
    (laps ring).ClearAll (counts ring s.ahead) := by
  generalize hahead : s.ahead = ahead
  induction ahead generalizing s laps with
  | nil => exact hclear
  | cons c rest ih =>
    have hdone : s.consumed c.ring = s.pushed c.ring := by
      rw [System.consumed, System.pushed, (hquiet c.ring).written, List.append_nil]
    obtain ⟨s', hs', htodo', hahead', hquiet', hclear'⟩ :=
      Quiet.acts hexact (hreach.tail (.call htodo hahead hdone))
        (fun r => (hquiet r).call htodo hdone) rfl hclear
    have hrest := ih hs' hquiet' htodo' hclear' hahead'
    rw [foldl_laps_acts] at hrest
    rw [counts]
    by_cases hring : c.ring = ring
    · rw [List.filter_cons_of_pos (by simpa using hring)]
      rw [if_pos hring] at hrest
      exact ⟨hclear, hrest⟩
    · rw [List.filter_cons_of_neg (by simpa using hring)]
      rwa [if_neg hring] at hrest

theorem clearAll_of_exact (hexact : ∀ s, System.Reach d calls s → s.Exact ring) :
    Laps.first.ClearAll (counts ring calls) :=
  have hquiet : Quiet d (.start calls) fun _ => .first := fun _ => .start
  clearAll_of_exact_from hexact .refl hquiet rfl (Laps.clear_of_index_zero rfl)

theorem exact_of_single (hsingle : ∀ c : Call, c.ring = ring → c.count = 1)
    (hreach : System.Reach d calls s) : s.Exact ring := by
  refine exact_of_clearAll (Laps.clearAll_single (by simp [Laps.first]) (Nat.zero_le _) ?_) hreach
  intro count hcount
  obtain ⟨c, hc, rfl⟩ := List.mem_map.mp hcount
  exact hsingle c (by simpa using (List.mem_filter.mp hc).2)

end

/-- The runs are exact on all rings exactly when no control transfer comes to a descriptor that an
odd number of laps has left out. On the rings of commands and interrupts they always are. -/
theorem rings_exact (d : Driver) (calls : List Call) :
    ((∀ s, System.Reach d calls s → ∀ ring, s.Exact ring) ↔ Laps.first.ClearAll (counts .ep0 calls)) ∧
      ∀ s, System.Reach d calls s → s.Exact .cmd ∧ s.Exact .intr := by
  have hcmd : ∀ s, System.Reach d calls s → s.Exact .cmd := by
    refine fun s => exact_of_single fun c hc => ?_
    cases c with
    | submitCmd => rfl
    | queueControl => cases hc
    | queueIntr => cases hc
  have hintr : ∀ s, System.Reach d calls s → s.Exact .intr := by
    refine fun s => exact_of_single fun c hc => ?_
    cases c with
    | submitCmd => cases hc
    | queueControl => cases hc
    | queueIntr => rfl
  refine ⟨⟨fun hexact => clearAll_of_exact fun s hreach => hexact s hreach .ep0, ?_⟩,
    fun s hreach => ⟨hcmd s hreach, hintr s hreach⟩⟩
  intro hclear s hreach ring
  cases ring with
  | cmd => exact hcmd s hreach
  | ep0 => exact exact_of_clearAll hclear hreach
  | intr => exact hintr s hreach

/-- A control transfer with a data stage. -/
def getDescriptor : Call := .queueControl ⟨0x80, 6, 0x100, 0, 18⟩

/-- A control transfer without one. -/
def setAddress : Call := .queueControl ⟨0, 9, 1, 0, 0⟩

/-- The first lap ends at descriptor 29, and the second comes to 30, which is still zero. -/
theorem rings_inexact :
    ¬ ∀ s, System.Reach .console (List.replicate 9 getDescriptor ++ setAddress ::
      List.replicate 10 getDescriptor) s →
      ∀ ring, s.Exact ring := by
  intro hexact
  have hclear := clearAll_of_exact fun s hreach => hexact s hreach .ep0
  have hcounts : counts .ep0 (List.replicate 9 getDescriptor ++ setAddress ::
    List.replicate 10 getDescriptor) =
      List.replicate 9 3 ++ 2 :: List.replicate 10 3 := by decide
  rw [hcounts] at hclear
  revert hclear
  simp only [List.replicate, List.cons_append, List.nil_append, Laps.ClearAll]
  decide

end Lerux.Xhci

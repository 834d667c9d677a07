import Lerux.Cothread.Invariant

/-!
# Runs of the runtime

What `step_spec` gives one call at a time, over every run from the initialisation. `RuntimeInvariant`
is the invariant in the words of the control block, without the lists that carry the proofs.

`History` numbers the waits and the signals of one semaphore in call order and records, from the
calls and the context switches they end in, which wait returned on which signal. `Tracks` ties a
history to the semaphore's bit and chain; every call keeps it, so the recorded waits return in call
order, each on a signal of its own.
-/

namespace Lerux.Cothread

variable {σ : Type} [DecidableEq σ]

/-- A call, the handle that made it, and the context switch it ended in. -/
structure Call (σ : Type) where
  op : Op σ
  caller : Int
  switch : Option Switch

/-- The calls of a run that starts with `running`. -/
def calls (running : Int) : List (Op σ) → List (Outcome σ) → List (Call σ)
  | op :: ops, out :: outs => ⟨op, running, out.switch⟩ :: calls out.world.control.running ops outs
  | _, _ => []

/-- What one call preserves, a run preserves: the property may speak of the calls so far. -/
theorem run_invariant {P : World σ → List (Call σ) → Prop}
    (hstep : ∀ w cs op out, P w cs → step w op = .ok out →
      P out.world (cs ++ [⟨op, w.control.running, out.switch⟩]))
    {w w' : World σ} {ops : List (Op σ)} {outs : List (Outcome σ)} (h : P w [])
    (hrun : run w ops = .ok (w', outs)) : P w' (calls w.control.running ops outs) := by
  suffices hfrom : ∀ pre, P w pre → P w' (pre ++ calls w.control.running ops outs) by simpa using hfrom [] h
  clear h
  induction ops generalizing w outs with
  | nil =>
    intro pre h
    cases hrun
    simpa [calls] using h
  | cons op ops ih =>
    intro pre h
    obtain ⟨out, hout, hrest⟩ := bind_eq_ok hrun
    obtain ⟨⟨w₁, outs₁⟩, hrun₁, hlast⟩ := bind_eq_ok hrest
    cases hlast
    simpa [calls] using ih hrun₁ _ (hstep w pre op out h hout)

/-! ### The invariant -/

/-- The invariant of the control block and of the semaphores. -/
structure RuntimeInvariant (w : World σ) : Prop where
  running : ∃ r, w.control.running = handle r ∧ ∀ h, (w.control.tcbs h).state = .running ↔ h = r
  sched_nodup : w.control.sched.toList.Nodup
  sched : ∀ x, x ∈ w.control.sched.toList ↔ ∃ h, x = handle h ∧ (w.control.tcbs h).state = .ready
  free_nodup : w.control.free.toList.Nodup
  free : ∀ x, x ∈ w.control.free.toList ↔ ∃ h, h ≠ root ∧ x = handle h ∧ (w.control.tcbs h).state =
    .notActive
  chains : ∃ waiters : SemId σ → List (Fin maxCothreads),
    (∀ x, Linked w.control.tcbs (w.sem x).head (waiters x) ∧ (w.sem x).tail = lastHandle (waiters x) ∧
      (waiters x).Nodup ∧ ∀ h ∈ waiters x, (w.control.tcbs h).state = .blocked) ∧
    (∀ h, (w.control.tcbs h).state = .blocked → ∃! x, h ∈ waiters x) ∧
    ∀ x, (w.sem x).set = true → waiters x = []
  root_not_blocked : (w.control.tcbs root).state ≠ .blocked

theorem handle_injective : Function.Injective handle := fun _ _ h => (handle_inj).mp h

omit [DecidableEq σ] in
theorem Inv.runtimeInvariant {w : World σ} {r : Fin maxCothreads} {ready idle : List (Fin maxCothreads)}
    {waiters : SemId σ → List (Fin maxCothreads)}
      (hi : Inv w r ready idle waiters) : RuntimeInvariant w := by
  have hc := hi.core
  refine ⟨⟨r, hi.running, hi.running_iff⟩, ?_, fun x => ?_, ?_, fun x => ?_,
    ⟨waiters, fun x => ⟨hc.linked x, hc.tail x, hc.waiters_nodup x,
      fun h hh => (hc.mem_waiters h).mpr ⟨x, hh⟩⟩,
      fun h hh => ?_, hc.set_empty⟩, hc.root_not_blocked⟩
  · rw [hc.sched.2]
    exact hc.ready_nodup.map handle_injective
  · rw [hc.sched.2, List.mem_map]
    constructor
    · rintro ⟨h, hh, rfl⟩
      exact ⟨h, rfl, (hc.mem_ready h).mp hh⟩
    · rintro ⟨h, rfl, hh⟩
      exact ⟨h, (hc.mem_ready h).mpr hh, rfl⟩
  · rw [hc.free.2]
    exact hc.idle_nodup.map handle_injective
  · rw [hc.free.2, List.mem_map]
    constructor
    · rintro ⟨h, hh, rfl⟩
      have hstate := (hc.mem_idle h).mp hh
      exact ⟨h, fun e => hc.root_active (e ▸ hstate), rfl, hstate⟩
    · rintro ⟨h, -, rfl, hh⟩
      exact ⟨h, (hc.mem_idle h).mpr hh, rfl⟩
  · obtain ⟨x, hx⟩ := (hc.mem_waiters h).mp hh
    exact ⟨x, hx, fun y hy => hc.waiters_unique hy hx⟩

theorem run_inv {c c₀ : Control} {stackSize : Nat} {bases : List Nat}
    (hinit : microkitCothreadInit c stackSize bases = .ok c₀) {ops : List (Op σ)} {w : World σ}
    {outs : List (Outcome σ)} (hrun : run ⟨c₀, fun _ => Semaphore.new⟩ ops = .ok (w, outs)) :
    ∃ r ready idle waiters, Inv w r ready idle waiters := by
  refine run_invariant (P := fun w _ => ∃ r ready idle waiters, Inv w r ready idle waiters) ?_
    ⟨_, _, _, _, init_spec hinit⟩ hrun
  rintro w - op out ⟨r, ready, idle, waiters, hi⟩ hout
  rcases step_spec hi op with ⟨p, herr, -⟩ | ⟨out', hok, r', ready', idle', waiters', hi', -, -⟩
  · rw [herr] at hout
    cases hout
  · rw [hok] at hout
    cases hout
    exact ⟨r', ready', idle', waiters', hi'⟩

/-- In every state a run reaches, the invariant holds, a started worker has its entry point, and the
next call either breaks a contract its documentation names or succeeds, with a switch that did not come
from the fallback and goes to a handle that is not destroyed. -/
theorem runtime_invariant_of_run {c c₀ : Control} {stackSize : Nat} {bases : List Nat}
    (hinit : microkitCothreadInit c stackSize bases = .ok c₀) (ops : List (Op σ)) (w : World σ)
    (outs : List (Outcome σ)) (hrun : run ⟨c₀, fun _ => Semaphore.new⟩ ops = .ok (w, outs)) :
    RuntimeInvariant w ∧ (w.control.running ≠ rootHandle → ∃ entry, started w.control = .ok entry) ∧
    ∀ op, (∃ p, step w op = .error p ∧ op.documents p) ∨ ∃ out, step w op = .ok out ∧ SwitchOk w out := by
  obtain ⟨r, ready, idle, waiters, hi⟩ := run_inv hinit hrun
  refine ⟨hi.runtimeInvariant, fun hroot => ?_, fun op => ?_⟩
  · have hne : r ≠ root := fun e => hroot (by rw [hi.running, e]; rfl)
    have hsome := hi.core.entries r hne (by rw [(hi.running_iff r).mpr rfl]; simp)
    obtain ⟨entry, hentry⟩ := Option.isSome_iff_exists.mp hsome
    refine ⟨entry, ?_⟩
    rw [started, hi.withControl, hi.running, idx_handle, ok_bind, hentry]
    rfl
  · rcases step_spec hi op with herr | ⟨out, hok, _, _, _, _, -, -, hswitch⟩
    · exact Or.inl herr
    · exact Or.inr ⟨out, hok, hswitch⟩

/-- Stacks of one page for the seven workers. -/
def pageStacks : List Nat := (List.range stackSlots).map fun i => 0x10000 + 0x1000 * i

/-- Two workers wait on channel 5, and then on a semaphore that nobody signals. The root signals the
channel until its signal is remembered. -/
def twoWaiters : List (Op Unit) :=
  [.spawn 1 0, .spawn 2 0, .yield, .waitOnChannel 5, .waitOnChannel 5, .recvNtfn 5,
    .semaphoreWait (), .recvNtfn 5,
    .semaphoreWait (), .recvNtfn 5, .recvNtfn 5]

/-- Both workers are in the channel's chain, and the root runs again. -/
theorem runtime_invariant_of_wait : ∃ c₀ w outs,
    microkitCothreadInit Control.empty 0x1000 pageStacks = .ok c₀ ∧
    run ⟨c₀, fun _ => Semaphore.new⟩ (twoWaiters.take 5) = .ok (w, outs) ∧ RuntimeInvariant w := by
  refine ⟨_, _, _, rfl, rfl, (runtime_invariant_of_run
    (show microkitCothreadInit Control.empty 0x1000 pageStacks = _ from rfl) (twoWaiters.take 5) _ _ rfl).1⟩

/-! ### Wake-ups -/

/-- The semaphore a call waits on. -/
def Op.waitsOn : Op σ → Option (SemId σ)
  | .semaphoreWait s => some (.user s)
  | .waitOnChannel channel => if h : channel < microkitMaxChannels then some (.channel ⟨channel, h⟩)
    else none
  | _ => none

/-- The semaphore a call signals. -/
def Op.signals : Op σ → Option (SemId σ)
  | .semaphoreSignal s => some (.user s)
  | .recvNtfn channel => if h : channel < microkitMaxChannels then some (.channel ⟨channel, h⟩) else none
  | _ => none

omit [DecidableEq σ] in
theorem Op.signals_of_waitsOn {op : Op σ} {x : SemId σ} (h : op.waitsOn = some x) : op.signals = none := by
  cases op with
  | semaphoreWait s | waitOnChannel channel => rfl
  | _ => cases h

/-- What happened on one semaphore, with its waits and its signals numbered in call order. `granted` are
the waits that have returned, in the order they did, each with the signal it returned on. -/
structure History where
  waits : Nat
  signals : Nat
  blocked : List (Nat × Int)
  token : Option Nat
  granted : List (Nat × Option Nat)
  absorbed : List Nat

def History.start : History := ⟨0, 0, [], none, [], []⟩

/-- A wait returns at once when the caller keeps the processor, and takes the remembered signal along. -/
def History.wait (h : History) (call : Call σ) : History :=
  if call.switch = none then { h with waits := h.waits + 1, token := none, granted := h.granted ++
    [(h.waits, h.token)] }
  else { h with waits := h.waits + 1, blocked := h.blocked ++ [(h.waits, call.caller)] }

/-- A signal that switches releases the cothread it switches to, whose wait is taken along wherever in
`blocked` that is. One that does not is absorbed if another is remembered, and is remembered otherwise. -/
def History.signal (h : History) (call : Call σ) : History :=
  match call.switch with
  | some switch =>
    { h with
      signals := h.signals + 1
      blocked := h.blocked.filter (·.2 ≠ switch.target)
      granted := h.granted ++ (h.blocked.filter (·.2 = switch.target)).map fun wait => (wait.1,
        some h.signals) }
  | none =>
    if h.token.isSome then { h with signals := h.signals + 1, absorbed := h.absorbed ++ [h.signals] }
    else { h with signals := h.signals + 1, token := some h.signals }

/-- One call, seen from the semaphore `x`. -/
def History.record (x : SemId σ) (h : History) (call : Call σ) : History :=
  if call.op.waitsOn = some x then h.wait call
  else if call.op.signals = some x then h.signal call
  else h

/-- The history of `x` over the calls of a run. -/
def history (x : SemId σ) (cs : List (Call σ)) : History := cs.foldl (History.record x) History.start

/-- The next call is one the wake-up discipline of `x` allows. A wait returns at once exactly when a
signal is remembered. A signal releases the earliest wait still blocked, by switching to its
cothread, and leaves the caller running when no wait is blocked. -/
structure Lawful (x : SemId σ) (h : History) (call : Call σ) : Prop where
  wait : call.op.waitsOn = some x → (call.switch = none ↔ h.token.isSome)
  signal : call.op.signals = some x → match h.blocked with
    | [] => call.switch = none
    | (_, waiter) :: _ => h.token = none ∧ call.switch = some ⟨waiter, false⟩

/-- The waits that have returned are the first ones called, the others are blocked in call order, and
every signal was granted to one wait, is remembered, or was absorbed. No wait is blocked while a signal is
remembered. -/
structure History.Fifo (h : History) : Prop where
  returned : h.granted.map Prod.fst = List.range h.granted.length
  blocked : h.blocked.map Prod.fst = List.range' h.granted.length h.blocked.length
  waits : h.waits = h.granted.length + h.blocked.length
  signals : ∃ used : List Nat, h.granted.map Prod.snd = used.map some ∧
    (used ++ h.token.toList ++ h.absorbed).Perm (List.range h.signals)
  quiet : h.token.isSome → h.blocked = []

/-- The history agrees with the bit and the chain of its semaphore. -/
structure Tracks (set : Bool) (chain : List (Fin maxCothreads)) (h : History) : Prop where
  fifo : h.Fifo
  token : h.token.isSome = set
  chain : h.blocked.map Prod.snd = chain.map handle

theorem start_tracks : Tracks false [] History.start :=
  ⟨⟨rfl, rfl, rfl, ⟨[], rfl, .refl _⟩, fun _ => rfl⟩, rfl, rfl⟩

theorem perm_range_succ {used absorbed : List Nat} {n : Nat} (h : (used ++ absorbed).Perm (List.range n)) :
    (used ++ [n] ++ absorbed).Perm (List.range (n + 1)) := by
  rw [List.range_succ, List.append_assoc]
  refine (List.perm_append_comm.append_left used).trans ?_
  rw [← List.append_assoc]
  exact h.append_right [n]

section record

variable {set : Bool} {chain : List (Fin maxCothreads)} {h : History}

/-- A wait consumes the remembered signal. -/
theorem Tracks.waitReturned (ht : Tracks true chain h) (hchain : chain = []) :
    Tracks false chain
      { h with waits := h.waits + 1, token := none, granted := h.granted ++ [(h.waits, h.token)] } := by
  obtain ⟨t, htoken⟩ := Option.isSome_iff_exists.mp ht.token
  have hblocked : h.blocked = [] := by
    have := ht.chain
    rw [hchain] at this
    simpa using this
  have hwaits := ht.fifo.waits
  rw [hblocked, List.length_nil, Nat.add_zero] at hwaits
  obtain ⟨used, hused, hperm⟩ := ht.fifo.signals
  refine ⟨⟨?_,
    by simp [hblocked], by simp [hblocked, hwaits], ⟨used ++ [t], ?_, ?_⟩, fun _ => hblocked⟩, rfl,
    ht.chain⟩
  · simp [ht.fifo.returned, hwaits, List.range_succ]
  · simp [hused, htoken]
  · simpa [htoken] using hperm

/-- A wait with no signal to consume joins the blocked waits. -/
theorem Tracks.waitBlocked (ht : Tracks false chain h) (r : Fin maxCothreads) :
    Tracks false (chain ++ [r])
      { h with waits := h.waits + 1, blocked := h.blocked ++ [(h.waits, handle r)] } := by
  refine ⟨⟨ht.fifo.returned, ?_, ?_, ht.fifo.signals, fun hsome => ?_⟩, ht.token, by simp [ht.chain]⟩
  · simp [ht.fifo.blocked, ht.fifo.waits, List.range'_concat]
  · simp only [List.length_append, List.length_singleton, ht.fifo.waits]
    omega
  · exact absurd (ht.token.symm.trans hsome) Bool.false_ne_true

/-- A signal with no waiter and no remembered signal before it. -/
theorem Tracks.remembered (ht : Tracks false chain h) (hblocked : h.blocked = []) :
    Tracks true chain { h with signals := h.signals + 1, token := some h.signals } := by
  have htoken : h.token = none := by simpa using ht.token
  obtain ⟨used, hused, hperm⟩ := ht.fifo.signals
  refine ⟨⟨ht.fifo.returned, ht.fifo.blocked, ht.fifo.waits, ⟨used, hused, ?_⟩, fun _ => hblocked⟩,
    rfl, ht.chain⟩
  rw [htoken, Option.toList_none, List.append_nil] at hperm
  exact perm_range_succ hperm

theorem Tracks.absorbed (ht : Tracks set chain h) :
    Tracks set chain { h with signals := h.signals + 1, absorbed := h.absorbed ++ [h.signals] } := by
  obtain ⟨used, hused, hperm⟩ := ht.fifo.signals
  refine ⟨⟨ht.fifo.returned, ht.fifo.blocked, ht.fifo.waits, ⟨used, hused, ?_⟩, ht.fifo.quiet⟩,
    ht.token, ht.chain⟩
  rw [List.range_succ, ← List.append_assoc]
  exact hperm.append_right _

/-- A signal releases the first of the blocked waits. -/
theorem Tracks.released {g : Fin maxCothreads} {rest : List (Fin maxCothreads)}
    (ht : Tracks false (g :: rest) h)
    (hnd : (g :: rest).Nodup) :
    (∃ k others, h.blocked = (k, handle g) :: others) ∧
    Tracks false rest
      { h with
        signals := h.signals + 1
        blocked := h.blocked.filter (·.2 ≠ handle g)
        granted := h.granted ++ (h.blocked.filter (·.2 = handle g)).map fun wait => (wait.1,
          some h.signals) } := by
  have htoken : h.token = none := by simpa using ht.token
  have hchain := ht.chain
  rcases hblocked : h.blocked with _ | ⟨⟨k, g'⟩, others⟩
  · simp [hblocked] at hchain
  rw [hblocked, List.map_cons, List.map_cons, List.cons.injEq] at hchain
  obtain ⟨rfl, hothers⟩ : g' = handle g ∧ _ := hchain
  have hne : ∀ wait ∈ others, wait.2 ≠ handle g := by
    intro wait hwait e
    have hin : wait.2 ∈ rest.map handle := by
      rw [← hothers]
      exact List.mem_map_of_mem hwait
    obtain ⟨g₁, hg₁, he⟩ := List.mem_map.mp hin
    rw [e, handle_inj] at he
    exact (List.nodup_cons.mp hnd).1 (he ▸ hg₁)
  have hkeep : ((k, handle g) :: others).filter (·.2 ≠ handle g) = others := by
    rw [List.filter_cons_of_neg (by simp)]
    exact List.filter_eq_self.mpr fun wait hwait => by simpa using hne wait hwait
  have htake : ((k, handle g) :: others).filter (·.2 = handle g) = [(k, handle g)] := by
    rw [List.filter_cons_of_pos (by simp)]
    rw [List.filter_eq_nil_iff.mpr fun wait hwait => by simpa using hne wait hwait]
  obtain ⟨used, hused, hperm⟩ := ht.fifo.signals
  have hnums := ht.fifo.blocked
  rw [hblocked, List.map_cons, List.length_cons, List.range'_succ, List.cons.injEq] at hnums
  refine ⟨⟨k, others, rfl⟩, ⟨⟨?_, ?_, ?_, ⟨used ++ [h.signals], ?_, ?_⟩, fun hsome => ?_⟩, ht.token, ?_⟩⟩
  · simp only [htake, List.map_cons, List.map_nil, List.map_append, ht.fifo.returned, List.length_append,
      List.length_singleton, List.range_succ]
    rw [show k = _ from hnums.1]
  · simp only [hkeep, htake, List.map_cons, List.map_nil, List.length_append, List.length_singleton]
    exact hnums.2
  · simp only [hkeep, htake, List.map_cons, List.map_nil, List.length_append, List.length_singleton]
    have := ht.fifo.waits
    rw [hblocked, List.length_cons] at this
    omega
  · simp [htake, hused]
  · rw [htoken, Option.toList_none, List.append_nil] at hperm
    simp only [htoken, Option.toList_none, List.append_nil]
    exact perm_range_succ hperm
  · exact absurd (ht.token.symm.trans hsome) Bool.false_ne_true
  · rw [hkeep]
    exact hothers

end record

/-! ### What a call does on a semaphore -/

/-- The semaphore an event is about. -/
def Event.on : Event σ → Option (SemId σ)
  | .waitReturned x _ | .waitBlocked x _ | .released x _ | .remembered x | .absorbed x => some x
  | .spawned _ | .yielded | .destroyed _ => none

/-- The event of a call and its switch are those of what the call does on `x`. -/
structure Tells (x : SemId σ) (w : World σ) (op : Op σ) (out : Outcome σ) : Prop where
  wait : op.waitsOn = some x → (out.event = .waitReturned x w.control.running ∧ out.switch = none) ∨
    (out.event = .waitBlocked x w.control.running ∧ out.switch.isSome)
  signal : op.signals = some x → (∃ g, out.event = .released x g ∧ out.switch = some ⟨g, false⟩) ∨
    ((out.event = .remembered x ∨ out.event = .absorbed x) ∧ out.switch = none)
  other : op.waitsOn ≠ some x → op.signals ≠ some x → out.event.on ≠ some x

section tells

variable {w : World σ} {x y : SemId σ} {op : Op σ} {out : Outcome σ}

omit [DecidableEq σ] in
theorem body_of_withControl {α : Type} {c : Control} {body : Control → Except Panic α} {a : α}
    (h : withControl c body = .ok a) :
    body c = .ok a := by
  unfold withControl at h
  split at h
  · exact h
  · cases h

theorem waitOn_tells (h : waitOn w y = .ok out) (hw : op.waitsOn = some y)
    (hs : op.signals = none) : Tells x w op out := by
  have hevent : (out.event = .waitReturned y w.control.running ∧ out.switch = none) ∨
      (out.event = .waitBlocked y w.control.running ∧ out.switch.isSome) := by
    obtain ⟨⟨blocked, control, links⟩, -, hrest⟩ := bind_eq_ok h
    cases blocked with
    | false =>
      cases hrest
      exact .inl ⟨rfl, rfl⟩
    | true =>
      obtain ⟨⟨control', switch⟩, -, hlast⟩ := bind_eq_ok hrest
      cases hlast
      exact .inr ⟨rfl, rfl⟩
  refine ⟨fun hx => ?_, fun hx => ?_, fun hx _ => ?_⟩
  · obtain rfl : y = x := Option.some.inj (hw.symm.trans hx)
    exact hevent
  · cases hs.symm.trans hx
  · rw [hw] at hx
    obtain ⟨he, -⟩ | ⟨he, -⟩ := hevent
    · rwa [he]
    · rwa [he]

theorem signalOn_tells (h : signalOn w y = .ok out) (hw : op.waitsOn = none)
    (hs : op.signals = some y) : Tells x w op out := by
  have hevent : (∃ g, out.event = .released y g ∧ out.switch = some ⟨g, false⟩) ∨
      ((out.event = .remembered y ∨ out.event = .absorbed y) ∧ out.switch = none) := by
    obtain ⟨⟨wake, control, links⟩, -, hrest⟩ := bind_eq_ok h
    cases hrest
    cases wake with
    | some g => exact .inl ⟨g, rfl, rfl⟩
    | none =>
      refine .inr ⟨?_, rfl⟩
      dsimp only
      split
      · exact .inr rfl
      · exact .inl rfl
  refine ⟨fun hx => ?_, fun hx => ?_, fun _ hx => ?_⟩
  · cases hw.symm.trans hx
  · obtain rfl : y = x := Option.some.inj (hs.symm.trans hx)
    exact hevent
  · rw [hs] at hx
    obtain ⟨g, he, -⟩ | ⟨he | he, -⟩ := hevent
    · rwa [he]
    · rwa [he]
    · rwa [he]

omit [DecidableEq σ] in
theorem tells_of_on_none (hw : op.waitsOn = none) (hs : op.signals = none)
    (he : out.event.on = none) : Tells x w op out where
  wait h := by cases hw.symm.trans h
  signal h := by cases hs.symm.trans h
  other _ _ h := by cases he.symm.trans h

theorem step_tells (x : SemId σ) (h : step w op = .ok out) : Tells x w op out := by
  cases op with
  | spawn entry privateArg =>
    obtain ⟨_, -, hrest⟩ := bind_eq_ok h
    cases hrest
    exact tells_of_on_none rfl rfl rfl
  | yield =>
    obtain ⟨_, -, hrest⟩ := bind_eq_ok h
    cases hrest
    exact tells_of_on_none rfl rfl rfl
  | semaphoreWait s => exact waitOn_tells h rfl rfl
  | semaphoreSignal s => exact signalOn_tells h rfl rfl
  | waitOnChannel channel =>
    obtain ⟨c, hc, hrest⟩ := bind_eq_ok h
    obtain ⟨hlt, rfl⟩ := channelIndex_eq_ok hc
    exact waitOn_tells (body_of_withControl hrest) (dif_pos hlt) rfl
  | recvNtfn channel =>
    obtain ⟨c, hc, hrest⟩ := bind_eq_ok h
    obtain ⟨hlt, rfl⟩ := channelIndex_eq_ok hc
    have hbody := body_of_withControl hrest
    split at hbody
    · cases hbody
    · exact signalOn_tells hbody rfl (dif_pos hlt)
  | destroy handle =>
    obtain ⟨_, -, hrest⟩ := bind_eq_ok h
    cases hrest
    exact tells_of_on_none rfl rfl rfl
  | entryReturn =>
    obtain ⟨_, -, hrest⟩ := bind_eq_ok h
    cases hrest
    exact tells_of_on_none rfl rfl rfl

end tells

/-- An event of another semaphore leaves `x` and its chain alone. -/
theorem frame_of_on_ne {r r' : Fin maxCothreads} {set set' : SemId σ → Bool}
    {waiters waiters' : SemId σ → List (Fin maxCothreads)} {event : Event σ} {x : SemId σ}
    (hlaw : Law r r' set set' waiters waiters' event) (hx : event.on ≠ some x) :
    set' x = set x ∧ waiters' x = waiters x := by
  have hne : ∀ {y}, some y ≠ some x → x ≠ y := fun hy e => hy (by rw [e])
  cases event with
  | spawned _ | yielded | destroyed _ => exact ⟨congrFun hlaw.1 x, congrFun hlaw.2 x⟩
  | waitReturned y waiter =>
    obtain ⟨-, -, rfl, rfl⟩ := hlaw
    exact ⟨Function.update_of_ne (hne hx) _ _, rfl⟩
  | waitBlocked y waiter =>
    obtain ⟨-, -, rfl, rfl⟩ := hlaw
    exact ⟨rfl, Function.update_of_ne (hne hx) _ _⟩
  | released y waiter =>
    obtain ⟨rest, -, -, -, rfl, rfl⟩ := hlaw
    exact ⟨rfl, Function.update_of_ne (hne hx) _ _⟩
  | remembered y =>
    obtain ⟨-, -, rfl, rfl⟩ := hlaw
    exact ⟨Function.update_of_ne (hne hx) _ _, rfl⟩
  | absorbed y =>
    obtain ⟨-, rfl, rfl⟩ := hlaw
    exact ⟨rfl, rfl⟩

/-- One call keeps every history in step with its semaphore, and is lawful for it. -/
theorem tracks_record {w : World σ} {r r' : Fin maxCothreads} {ready idle : List (Fin maxCothreads)}
    {waiters waiters' : SemId σ → List (Fin maxCothreads)} {op : Op σ} {out : Outcome σ}
      (x : SemId σ) {h : History}
    (hi : Inv w r ready idle waiters) (hout : step w op = .ok out)
    (hlaw : Law r r' (fun y => (w.sem y).set) (fun y => (out.world.sem y).set) waiters waiters' out.event)
    (ht : Tracks (w.sem x).set (waiters x) h) :
    Lawful x h ⟨op, w.control.running, out.switch⟩ ∧
      Tracks (out.world.sem x).set (waiters' x) (h.record x ⟨op, w.control.running, out.switch⟩) := by
  have htells := step_tells x hout
  have hnone : (w.sem x).set = false → h.token = none := fun hset => by
    simpa [hset] using ht.token
  unfold History.record
  by_cases hwait : op.waitsOn = some x
  · have hsignal : op.signals ≠ some x := by
      rw [Op.signals_of_waitsOn hwait]
      exact (Option.some_ne_none x).symm
    rw [if_pos hwait, History.wait]
    obtain ⟨he, hs⟩ | ⟨he, hs⟩ := htells.wait hwait
    · rw [he] at hlaw
      obtain ⟨-, hset, hset', rfl⟩ := hlaw
      have hset' := congrFun hset' x
      simp only [Function.update_self] at hset hset'
      rw [hset] at ht
      rw [if_pos hs, hset']
      exact ⟨⟨fun _ => iff_of_true hs ht.token, fun hx => absurd hx hsignal⟩,
        ht.waitReturned (hi.core.set_empty x hset)⟩
    · rw [he] at hlaw
      obtain ⟨-, hset, hset', rfl⟩ := hlaw
      have hset' := congrFun hset' x
      simp only at hset hset'
      rw [hset] at ht
      have hsome : out.switch ≠ none := by
        intro hnil
        rw [hnil] at hs
        cases hs
      rw [if_neg hsome, hset', hset, Function.update_self, hi.running]
      refine ⟨⟨fun _ => iff_of_false hsome ?_, fun hx => absurd hx hsignal⟩, ht.waitBlocked r⟩
      rw [hnone hset]
      exact Bool.false_ne_true
  rw [if_neg hwait]
  by_cases hsignal : op.signals = some x
  · rw [if_pos hsignal, History.signal]
    obtain ⟨g, he, hs⟩ | ⟨he, hs⟩ := htells.signal hsignal
    · rw [he] at hlaw
      obtain ⟨rest, hchain, rfl, hset, hset', rfl⟩ := hlaw
      have hset' := congrFun hset' x
      simp only at hset hset'
      have hnd := hi.core.waiters_nodup x
      rw [hchain] at hnd
      rw [hset, hchain] at ht
      obtain ⟨⟨k, others, hblocked⟩, ht'⟩ := ht.released hnd
      rw [hs, hset', Function.update_self, hset]
      refine ⟨⟨fun hx => absurd hx hwait, fun _ => ?_⟩, ht'⟩
      rw [hblocked]
      exact ⟨hnone hset, rfl⟩
    · rw [hs]
      dsimp only
      obtain he | he := he
      · rw [he] at hlaw
        obtain ⟨hchain, hset, hset', rfl⟩ := hlaw
        have hset' := congrFun hset' x
        simp only [Function.update_self] at hset hset'
        have hblocked := ht.chain
        rw [hchain, List.map_nil, List.map_eq_nil_iff] at hblocked
        rw [hset] at ht
        rw [hset', hnone hset]
        refine ⟨⟨fun hx => absurd hx hwait, fun _ => ?_⟩, ht.remembered hblocked⟩
        rw [hblocked]
      · rw [he] at hlaw
        obtain ⟨hset, hset', rfl⟩ := hlaw
        have hset' := congrFun hset' x
        simp only at hset hset'
        have htoken : h.token.isSome = true := by rw [ht.token, hset]
        rw [hset', if_pos htoken]
        refine ⟨⟨fun hx => absurd hx hwait, fun _ => ?_⟩, ht.absorbed⟩
        rw [ht.fifo.quiet htoken]
  · rw [if_neg hsignal]
    obtain ⟨hset, hchain⟩ := frame_of_on_ne hlaw (htells.other hwait hsignal)
    rw [hset, hchain]
    exact ⟨⟨fun hx => absurd hx hwait, fun hx => absurd hx hsignal⟩, ht⟩

/-- Every run is lawful on every semaphore and channel: at any point of it the waits that have
returned are the first ones called, each on a signal of its own, the other waits are blocked in call
order with their cothreads off the processor, and the next call does what the discipline asks of it.
-/
theorem wakeups_fifo_of_run {c c₀ : Control} {stackSize : Nat} {bases : List Nat}
    (hinit : microkitCothreadInit c stackSize bases = .ok c₀) (ops : List (Op σ)) (w : World σ)
    (outs : List (Outcome σ)) (hrun : run ⟨c₀, fun _ => Semaphore.new⟩ ops = .ok (w, outs)) (x : SemId σ) :
    (history x (calls c₀.running ops outs)).Fifo ∧
    (∀ wait ∈ (history x (calls c₀.running ops outs)).blocked,
      wait.2 ≠ w.control.running ∧ ∃ h, wait.2 = handle h ∧ (w.control.tcbs h).state = .blocked) ∧
    ∀ op out, step w op = .ok out →
      Lawful x (history x (calls c₀.running ops outs)) ⟨op, w.control.running, out.switch⟩ := by
  have hstep : ∀ (w : World σ) (cs : List (Call σ)) op out,
      (∃ r ready idle waiters, Inv w r ready idle waiters ∧ Tracks (w.sem x).set (waiters x)
        (history x cs)) →
      step w op = .ok out → Lawful x (history x cs) ⟨op, w.control.running, out.switch⟩ ∧
        ∃ r ready idle waiters,
        Inv out.world r ready idle waiters ∧
          Tracks (out.world.sem x).set (waiters x)
            (history x (cs ++ [⟨op, w.control.running, out.switch⟩])) := by
    rintro w cs op out ⟨r, ready, idle, waiters, hi, ht⟩ hout
    rcases step_spec hi op with ⟨p, herr, -⟩ | ⟨out', hok, r', ready', idle', waiters', hi', hlaw, -⟩
    · rw [herr] at hout
      cases hout
    · cases hok.symm.trans hout
      obtain ⟨hlawful, ht'⟩ := tracks_record x hi hout hlaw ht
      refine ⟨hlawful, r', ready', idle', waiters', hi', ?_⟩
      rwa [history, List.foldl_append]
  have hstart := sem_init hinit x
  have hend := run_invariant (P := fun w cs => ∃ r ready idle waiters, Inv w r ready idle waiters ∧
      Tracks (w.sem x).set (waiters x) (history x cs))
        (fun w cs op out hP hout => (hstep w cs op out hP hout).2)
    ⟨_, _, _, _, init_spec hinit, by rw [hstart]; exact start_tracks⟩ hrun
  obtain ⟨r, ready, idle, waiters, hi, ht⟩ := hend
  refine ⟨ht.fifo, fun wait hwait => ?_, fun op out hout =>
    (hstep w _ op out ⟨r, ready, idle, waiters, hi, ht⟩ hout).1⟩
  have hmem : wait.2 ∈ (waiters x).map handle := by
    rw [← ht.chain]
    exact List.mem_map_of_mem hwait
  obtain ⟨h, hh, he⟩ := List.mem_map.mp hmem
  have hblocked := (hi.core.mem_waiters h).mpr ⟨x, hh⟩
  refine ⟨fun hrunning => ?_, h, he.symm, hblocked⟩
  rw [← he, hi.running, handle_inj] at hrunning
  rw [(hi.running_iff h).mpr hrunning] at hblocked
  cases hblocked

def channelFive : SemId Unit := .channel ⟨5, by decide⟩

/-- The waits return in the order they were called. -/
theorem wakeups_fifo_of_signal : ∃ c₀ w outs,
    microkitCothreadInit Control.empty 0x1000 pageStacks = .ok c₀ ∧
    run ⟨c₀, fun _ => Semaphore.new⟩ twoWaiters = .ok (w, outs) ∧
    (history channelFive (calls c₀.running twoWaiters outs)).granted = [(0, some 0), (1, some 1)] ∧
    (history channelFive (calls c₀.running twoWaiters outs)).token = some 2 ∧
    (history channelFive (calls c₀.running twoWaiters outs)).Fifo := by
  refine ⟨_, _, _, rfl, rfl, rfl, rfl, (wakeups_fifo_of_run
    (show microkitCothreadInit Control.empty 0x1000 pageStacks =
      _ from rfl) twoWaiters _ _ rfl channelFive).1⟩

end Lerux.Cothread

import Lerux.Cothread.Runtime

/-!
# The runtime invariant

`Inv w ready free waiters` reads the control block as lists: `ready` is the scheduling queue, `free`
the free queue, and `waiters x` the handles on the chain of the semaphore `x`. Every handle is in
exactly one of them or running, by its state. `Core` is the part that does not mention the running
handle; it holds between the two halves of a call that gives the kernel thread away, and `takeNext`
makes an `Inv` out of it.

`step_spec` runs one call from a state with the invariant: the call either breaks a documented
contract or ends in a state with the invariant again, whose lists are the ones the call's event says.
-/

namespace Lerux.Cothread

theorem ok_bind {α β : Type} (a : α) (f : α → Except Panic β) : (Except.ok a >>= f) = f a := rfl

theorem bind_eq_ok {α β : Type} {x : Except Panic α} {f : α → Except Panic β} {b : β}
    (h : x >>= f = .ok b) :
    ∃ a, x = .ok a ∧ f a = .ok b := by
  cases x with
  | error p => cases h
  | ok a => exact ⟨a, rfl, h⟩

@[simp] theorem setTcb_running (c : Control) (i : Fin maxCothreads) (f : Tcb → Tcb) :
    (c.setTcb i f).running = c.running := rfl

/-! ### The circular queue as a list -/

namespace Queue

/-- Indices in range, and the tail `items` places after the head. -/
def WF (q : Queue) : Prop :=
  q.items ≤ maxCothreads ∧ q.head < maxCothreads ∧ q.tail = (q.head + q.items) % maxCothreads

/-- The queued handles, oldest first. -/
def toList (q : Queue) : List Int := (List.range q.items).map fun i => q.mem ((q.head + i) % maxCothreads)

/-- The queue holds exactly `l`. -/
def Holds (q : Queue) (l : List Int) : Prop := q.WF ∧ q.toList = l

theorem Holds.length {q : Queue} {l : List Int} (h : q.Holds l) : l.length = q.items := by
  rw [← h.2]
  simp [toList]

theorem new_holds : Queue.new.Holds [] := ⟨⟨by decide, by decide, by decide⟩, rfl⟩

theorem push_holds {q : Queue} {l : List Int} (h : q.Holds l) (hlen : l.length < maxCothreads) (x : Int) :
    ∃ q', q.push x = .ok q' ∧ q'.Holds (l ++ [x]) := by
  have hitems := h.length
  obtain ⟨⟨hle, hhead, htail⟩, rfl⟩ := h
  rw [push, if_neg (by omega)]
  refine ⟨_, rfl, ⟨show q.items + 1 ≤ maxCothreads by omega, hhead, ?_⟩, ?_⟩
  · simp only [htail, maxCothreads]
    omega
  · simp only [toList, List.range_succ, List.map_append, List.map_cons, List.map_nil]
    congr 1
    · apply List.map_congr_left
      intro i hi
      have hi : i < q.items := by simpa using hi
      apply Function.update_of_ne
      rw [htail]
      simp only [maxCothreads] at *
      omega
    · rw [htail, Function.update_self]

theorem pop_holds {q : Queue} {x : Int} {l : List Int} (h : q.Holds (x :: l)) :
    ∃ q', q.pop = some (x, q') ∧ q'.Holds l := by
  have hitems := h.length
  obtain ⟨⟨hle, hhead, htail⟩, hl⟩ := h
  simp only [List.length_cons] at hitems
  rw [toList, ← hitems, List.range_succ_eq_map, List.map_cons, List.map_map, List.cons.injEq] at hl
  rw [pop, if_neg (by omega)]
  rw [Nat.add_zero, Nat.mod_eq_of_lt hhead] at hl
  refine ⟨_, by rw [hl.1], ⟨show q.items - 1 ≤ maxCothreads by omega,
    Nat.mod_lt (q.head + 1) (by decide : 0 < maxCothreads), ?_⟩, ?_⟩
  · simp only [htail, maxCothreads]
    omega
  · rw [← hl.2, toList, show q.items - 1 = l.length by omega]
    apply List.map_congr_left
    intro i _
    simp only [Function.comp, maxCothreads]
    congr 1
    omega

theorem pop_nil {q : Queue} (h : q.Holds []) : q.pop = none := by
  rw [pop, if_pos]
  exact h.length.symm

theorem retainInto_holds (keep : Int → Bool) (l : List Int) {q fresh : Queue} {kept : List Int}
    (h : q.Holds l) (hfresh : fresh.Holds kept) (hlen : kept.length + l.length ≤ maxCothreads) :
    ∃ q', retainInto keep l.length q fresh = .ok q' ∧ q'.Holds (kept ++ l.filter keep) := by
  induction l generalizing q fresh kept with
  | nil => exact ⟨fresh, rfl, by simpa using hfresh⟩
  | cons x l ih =>
    obtain ⟨q₁, hpop, hq₁⟩ := pop_holds h
    simp only [List.length_cons] at hlen
    simp only [List.length_cons, retainInto, hpop]
    by_cases hkeep : keep x = true
    · obtain ⟨fresh₁, hpush, hfresh₁⟩ := push_holds hfresh (by omega) x
      obtain ⟨q', hq', hholds⟩ := ih hq₁ hfresh₁ (by simp; omega)
      refine ⟨q', ?_, ?_⟩
      · rw [if_pos hkeep, hpush]
        exact hq'
      · simpa [List.filter_cons, hkeep] using hholds
    · obtain ⟨q', hq', hholds⟩ := ih hq₁ hfresh (by omega)
      refine ⟨q', by rw [if_neg hkeep]; exact hq', ?_⟩
      simpa [List.filter_cons, hkeep] using hholds

theorem retain_holds {q : Queue} {l : List Int} (h : q.Holds l) (keep : Int → Bool) :
    ∃ q', q.retain keep = .ok q' ∧ q'.Holds (l.filter keep) := by
  have hlen := h.length
  have hle := h.1.1
  rw [retain, ← hlen]
  exact retainInto_holds keep l h new_holds (by simp; omega)

end Queue

/-! ### Handles and chains -/

/-- The handle of a table entry. -/
def handle (h : Fin maxCothreads) : Int := h.val

/-- The table entry of the kernel thread. -/
def root : Fin maxCothreads := ⟨0, Nat.zero_lt_succ _⟩

@[simp] theorem idx_handle (h : Fin maxCothreads) : idx (handle h) = .ok h := by
  rw [idx, dif_pos ⟨Int.natCast_nonneg h.val, by simp [handle]⟩]
  simp [handle]

@[simp] theorem handle_inj {h g : Fin maxCothreads} : handle h = handle g ↔ h = g := by
  rw [handle, handle, Int.natCast_inj, Fin.ext_iff]

@[simp] theorem handle_ne_null (h : Fin maxCothreads) : handle h ≠ nullHandle := by
  simp only [handle, nullHandle]
  omega

@[simp] theorem handle_eq_root {h : Fin maxCothreads} : handle h = rootHandle ↔ h = root := by
  rw [handle, rootHandle, Int.natCast_eq_zero, Fin.ext_iff, root]

theorem channelIndex_eq_ok {channel : Nat} {c : Fin microkitMaxChannels}
    (h : channelIndex channel = .ok c) :
    ∃ hlt : channel < microkitMaxChannels, c = ⟨channel, hlt⟩ := by
  unfold channelIndex at h
  split at h
  · cases h
    exact ⟨_, rfl⟩
  · cases h

/-- The chain that starts at `head` and follows `nextBlocked` runs through exactly `l`. -/
def Linked (tcbs : Fin maxCothreads → Tcb) : Int → List (Fin maxCothreads) → Prop
  | head, [] => head = nullHandle
  | head, h :: l => head = handle h ∧ Linked tcbs (tcbs h).nextBlocked l

/-- Where a chain through `l` ends. -/
def lastHandle (l : List (Fin maxCothreads)) : Int := (l.getLast?.map handle).getD nullHandle

theorem Linked.congr {tcbs tcbs' : Fin maxCothreads → Tcb} {l : List (Fin maxCothreads)}
    (hsame : ∀ h ∈ l, (tcbs' h).nextBlocked = (tcbs h).nextBlocked) {head : Int}
    (hl : Linked tcbs head l) : Linked tcbs' head l := by
  induction l generalizing head with
  | nil => exact hl
  | cons h l ih =>
    refine ⟨hl.1, ?_⟩
    rw [hsame h (by simp)]
    exact ih (fun g hg => hsame g (by simp [hg])) hl.2

theorem Linked.head_eq {tcbs : Fin maxCothreads → Tcb} {head : Int} {l : List (Fin maxCothreads)}
    (hl : Linked tcbs head l) : head = nullHandle ↔ l = [] := by
  cases l with
  | nil => simpa [Linked] using hl
  | cons h l => simp [hl.1]

/-- Hanging `r` on the last entry of a chain. -/
theorem Linked.append {tcbs tcbs' : Fin maxCothreads → Tcb} {last r : Fin maxCothreads}
    (hr : (tcbs' r).nextBlocked = nullHandle) (hlast : (tcbs' last).nextBlocked = handle r)
    (l : List (Fin maxCothreads)) (hnot : last ∉ l)
    (hsame : ∀ h ∈ l, (tcbs' h).nextBlocked = (tcbs h).nextBlocked) {head : Int}
    (hl : Linked tcbs head (l ++ [last])) : Linked tcbs' head (l ++ [last] ++ [r]) := by
  induction l generalizing head with
  | nil => exact ⟨hl.1, hlast, hr⟩
  | cons h l ih =>
    refine ⟨hl.1, ?_⟩
    rw [hsame h (by simp)]
    exact ih (fun hin => hnot (by simp [hin])) (fun g hg => hsame g (by simp [hg])) hl.2

theorem length_lt_of_not_mem {l : List (Fin maxCothreads)} (hl : l.Nodup) {h : Fin maxCothreads}
    (hh : h ∉ l) : l.length < maxCothreads := by
  have := List.Nodup.length_le_card (List.nodup_cons.mpr ⟨hh, hl⟩)
  simpa [Nat.succ_le_iff] using this

/-! ### The invariant -/

variable {σ : Type}

/-- The table and the queues read as lists, whatever handle is running. -/
structure Core (tcbs : Fin maxCothreads → Tcb) (sched free : Queue) (sem : SemId σ → Semaphore)
    (ready idle : List (Fin maxCothreads)) (waiters : SemId σ → List (Fin maxCothreads)) : Prop where
  sched : sched.Holds (ready.map handle)
  free : free.Holds (idle.map handle)
  ready_nodup : ready.Nodup
  idle_nodup : idle.Nodup
  mem_ready : ∀ h, h ∈ ready ↔ (tcbs h).state = .ready
  mem_idle : ∀ h, h ∈ idle ↔ (tcbs h).state = .notActive
  linked : ∀ x, Linked tcbs (sem x).head (waiters x)
  tail : ∀ x, (sem x).tail = lastHandle (waiters x)
  waiters_nodup : ∀ x, (waiters x).Nodup
  mem_waiters : ∀ h, (tcbs h).state = .blocked ↔ ∃ x, h ∈ waiters x
  waiters_unique : ∀ {x y h}, h ∈ waiters x → h ∈ waiters y → x = y
  set_empty : ∀ x, (sem x).set = true → waiters x = []
  root_active : (tcbs root).state ≠ .notActive
  root_not_blocked : (tcbs root).state ≠ .blocked
  entries : ∀ h, h ≠ root → (tcbs h).state ≠ .notActive → (tcbs h).entry.isSome

section core

variable {tcbs : Fin maxCothreads → Tcb} {sched free sched' free' : Queue} {sem : SemId σ → Semaphore}
  {ready idle ready' idle' : List (Fin maxCothreads)} {waiters : SemId σ → List (Fin maxCothreads)}

/-- One handle that waits on nothing changes state, and the two queues follow. -/
theorem Core.move (hc : Core tcbs sched free sem ready idle waiters) {h : Fin maxCothreads} {t : Tcb}
    (hnb : (tcbs h).state ≠ .blocked) (htb : t.state ≠ .blocked) (hroot : h = root → t.state ≠ .notActive)
    (hentry : h ≠ root → t.state ≠ .notActive → t.entry.isSome)
    (hs : sched'.Holds (ready'.map handle)) (hf : free'.Holds (idle'.map handle))
    (hrn : ready'.Nodup) (hin : idle'.Nodup)
    (hready : ∀ g, g ∈ ready' ↔ if g = h then t.state = .ready else g ∈ ready)
    (hidle : ∀ g, g ∈ idle' ↔ if g = h then t.state = .notActive else g ∈ idle) :
    Core (Function.update tcbs h t) sched' free' sem ready' idle' waiters := by
  have hnot : ∀ x, h ∉ waiters x := fun x hx => hnb ((hc.mem_waiters h).mpr ⟨x, hx⟩)
  have hsame : ∀ g, g ≠ h → Function.update tcbs h t g = tcbs g := fun g hg => Function.update_of_ne hg _ _
  refine ⟨hs, hf, hrn, hin, fun g => ?_, fun g => ?_, fun x => ?_, hc.tail, hc.waiters_nodup, fun g => ?_,
    hc.waiters_unique, hc.set_empty, ?_, ?_, fun g hg => ?_⟩
  · rw [hready]
    by_cases hg : g = h
    · simp [hg]
    · rw [if_neg hg, hsame g hg, hc.mem_ready]
  · rw [hidle]
    by_cases hg : g = h
    · simp [hg]
    · rw [if_neg hg, hsame g hg, hc.mem_idle]
  · refine (hc.linked x).congr fun g hg => ?_
    rw [hsame g fun e => hnot x (e ▸ hg)]
  · by_cases hg : g = h
    · subst hg
      simp only [Function.update_self, htb, false_iff, not_exists]
      exact hnot
    · rw [hsame g hg, hc.mem_waiters]
  · by_cases hg : root = h
    · subst hg
      simpa using hroot rfl
    · rw [hsame _ hg]
      exact hc.root_active
  · by_cases hg : root = h
    · subst hg
      simpa using htb
    · rw [hsame _ hg]
      exact hc.root_not_blocked
  · by_cases hgh : g = h
    · subst hgh
      simpa using hentry hg
    · rw [hsame g hgh]
      exact hc.entries g hg

variable [DecidableEq σ]

/-- The sticky bit of a semaphore nobody waits on changes. -/
theorem Core.setFlag (hc : Core tcbs sched free sem ready idle waiters) (x : SemId σ) (b : Bool)
    (hb : b = true → waiters x = []) :
    Core tcbs sched free (Function.update sem x { sem x with set := b }) ready idle waiters := by
  have hlinks : ∀ y, (Function.update sem x { sem x with set := b } y).head = (sem y).head ∧
      (Function.update sem x { sem x with set := b } y).tail = (sem y).tail := by
    intro y
    by_cases hy : y = x
    · subst hy
      simp
    · simp [hy]
  refine { hc with linked := fun y => ?_, tail := fun y => ?_, set_empty := fun y => ?_ }
  · rw [(hlinks y).1]
    exact hc.linked y
  · rw [(hlinks y).2]
    exact hc.tail y
  · by_cases hy : y = x
    · subst hy
      simpa using hb
    · rw [Function.update_of_ne hy]
      exact hc.set_empty y

/-- The running worker `r` joins the end of the chain of `x`. -/
theorem Core.block (hc : Core tcbs sched free sem ready idle waiters) {r : Fin maxCothreads}
    (hr : (tcbs r).state = .running) (hroot : r ≠ root) (x : SemId σ) {tcbs' : Fin maxCothreads → Tcb}
    {links : Semaphore} (hself : tcbs' r = { tcbs r with state := .blocked, nextBlocked := nullHandle })
    (hsame : ∀ g, g ≠ r → (tcbs' g).state = (tcbs g).state ∧ (tcbs' g).entry = (tcbs g).entry)
    (hnext : ∀ g, g ≠ r → (tcbs' g).nextBlocked =
      if (waiters x).getLast? = some g then handle r else (tcbs g).nextBlocked)
    (hlinks : links = ⟨false, if waiters x = [] then handle r else (sem x).head, handle r⟩) :
    Core tcbs' sched free (Function.update sem x links) ready idle
      (Function.update waiters x (waiters x ++ [r])) := by
  have hnot : ∀ y, r ∉ waiters y := fun y hy => by
    have := (hc.mem_waiters r).mpr ⟨y, hy⟩
    rw [hr] at this
    cases this
  have hne : ∀ y g, g ∈ waiters y → g ≠ r := fun y g hg e => hnot y (e ▸ hg)
  have hstate : ∀ g, g ≠ r → (tcbs' g).state = (tcbs g).state := fun g hg => (hsame g hg).1
  have hblocked : (tcbs' r).state = .blocked := by rw [hself]
  have hmem : ∀ y h, h ∈ Function.update waiters x (waiters x ++ [r]) y ↔
    h ∈ waiters y ∨ (y = x ∧ h = r) := by
    intro y h
    by_cases hy : y = x
    · subst hy
      simp
    · simp [hy]
  refine ⟨hc.sched, hc.free, hc.ready_nodup, hc.idle_nodup, fun g => ?_, fun g => ?_, fun y => ?_,
    fun y => ?_,
    fun y => ?_, fun g => ?_, fun {y z h} hy hz => ?_, fun y => ?_, ?_, ?_, fun g hg hga => ?_⟩
  · by_cases hg : g = r
    · subst hg
      rw [hc.mem_ready, hr, hblocked]
      simp
    · rw [hstate g hg, hc.mem_ready]
  · by_cases hg : g = r
    · subst hg
      rw [hc.mem_idle, hr, hblocked]
      simp
    · rw [hstate g hg, hc.mem_idle]
  · by_cases hy : y = x
    · subst hy
      rw [Function.update_self, Function.update_self, hlinks]
      have hrn : (tcbs' r).nextBlocked = nullHandle := by rw [hself]
      rcases List.eq_nil_or_concat (waiters y) with hnil | ⟨l, last, hl⟩
      · rw [hnil, if_pos rfl]
        exact ⟨rfl, hrn⟩
      · rw [List.concat_eq_append] at hl
        have hlast : last ∈ waiters y := by rw [hl]; simp
        have hnd := hc.waiters_nodup y
        rw [hl] at hnd
        have hnin : last ∉ l := fun hin => by
          rw [List.nodup_append] at hnd
          exact hnd.2.2 last hin last (by simp) rfl
        have hchain := hc.linked y
        rw [hl] at hchain ⊢
        rw [if_neg (by simp)]
        refine hchain.append hrn ?_ l hnin fun g hg => ?_
        · rw [hnext last (hne y last hlast), hl]
          simp
        · rw [hnext g (hne y g (by rw [hl]; simp [hg])), hl]
          simp only [List.getLast?_append, List.getLast?_singleton, Option.some_or, Option.some.injEq]
          have hgl : last ≠ g := fun e => hnin (e ▸ hg)
          rw [if_neg hgl]
    · rw [Function.update_of_ne hy, Function.update_of_ne hy]
      refine (hc.linked y).congr fun g hg => ?_
      rw [hnext g (hne y g hg), if_neg]
      intro hlast
      exact hy (hc.waiters_unique hg (List.mem_of_getLast? hlast))
  · by_cases hy : y = x
    · subst hy
      simp [hlinks, lastHandle]
    · rw [Function.update_of_ne hy, Function.update_of_ne hy]
      exact hc.tail y
  · by_cases hy : y = x
    · subst hy
      rw [Function.update_self, List.nodup_append]
      exact ⟨hc.waiters_nodup y, by simp, fun a ha b hb => by
        rw [List.mem_singleton] at hb
        exact hb ▸ hne y a ha⟩
    · rw [Function.update_of_ne hy]
      exact hc.waiters_nodup y
  · simp only [hmem]
    by_cases hg : g = r
    · subst hg
      exact ⟨fun _ => ⟨x, Or.inr ⟨rfl, rfl⟩⟩, fun _ => hblocked⟩
    · rw [hstate g hg, hc.mem_waiters]
      simp [hg]
  · rw [hmem] at hy hz
    rcases hy with hy | ⟨rfl, rfl⟩ <;> rcases hz with hz | ⟨rfl, hzr⟩
    · exact hc.waiters_unique hy hz
    · exact absurd hzr (hne y h hy)
    · exact absurd hz (hnot z)
    · rfl
  · by_cases hy : y = x
    · subst hy
      simp [hlinks]
    · rw [Function.update_of_ne hy, Function.update_of_ne hy]
      exact hc.set_empty y
  · rw [hstate _ (Ne.symm hroot)]
    exact hc.root_active
  · rw [hstate _ (Ne.symm hroot)]
    exact hc.root_not_blocked
  · by_cases hgr : g = r
    · subst hgr
      rw [hself]
      exact hc.entries g hg (by rw [hr]; simp)
    · rw [(hsame g hgr).2]
      exact hc.entries g hg (by rwa [hstate g hgr] at hga)

/-- The first waiter `h` of `x` leaves the chain and runs. -/
theorem Core.wake (hc : Core tcbs sched free sem ready idle waiters) {h : Fin maxCothreads}
    {rest : List (Fin maxCothreads)} (x : SemId σ) (hx : waiters x = h :: rest) (links : Semaphore)
    (hlinks : links = ⟨false, (tcbs h).nextBlocked, if rest = [] then nullHandle else (sem x).tail⟩) :
    Core (Function.update tcbs h { tcbs h with state := .running, nextBlocked := nullHandle }) sched free
      (Function.update sem x links) ready idle (Function.update waiters x rest) := by
  have hmemx : h ∈ waiters x := by rw [hx]; simp
  have hblocked : (tcbs h).state = .blocked := (hc.mem_waiters h).mpr ⟨x, hmemx⟩
  have hroot : h ≠ root := fun e => hc.root_not_blocked (e ▸ hblocked)
  have hnd := hc.waiters_nodup x
  rw [hx, List.nodup_cons] at hnd
  have hmem : ∀ y g, g ∈ Function.update waiters x rest y ↔ g ∈ waiters y ∧ g ≠ h := by
    intro y g
    by_cases hy : y = x
    · subst hy
      rw [Function.update_self, hx]
      constructor
      · intro hg
        exact ⟨by simp [hg], fun e => hnd.1 (e ▸ hg)⟩
      · rintro ⟨hg, hne⟩
        simpa [hne] using hg
    · rw [Function.update_of_ne hy]
      exact ⟨fun hg => ⟨hg, fun e => hy (hc.waiters_unique (e ▸ hg) hmemx)⟩, fun hg => hg.1⟩
  have hsame : ∀ g, g ≠ h →
      Function.update tcbs h { tcbs h with state := .running, nextBlocked := nullHandle } g = tcbs g :=
    fun g hg => Function.update_of_ne hg _ _
  refine ⟨hc.sched, hc.free, hc.ready_nodup, hc.idle_nodup, fun g => ?_, fun g => ?_, fun y => ?_,
    fun y => ?_,
    fun y => ?_, fun g => ?_, fun {y z g} hy hz => ?_, fun y => ?_, ?_, ?_, fun g hg hga => ?_⟩
  · by_cases hg : g = h
    · subst hg
      rw [hc.mem_ready, hblocked]
      simp
    · rw [hsame g hg, hc.mem_ready]
  · by_cases hg : g = h
    · subst hg
      rw [hc.mem_idle, hblocked]
      simp
    · rw [hsame g hg, hc.mem_idle]
  · have hcongr : ∀ g ∈ Function.update waiters x rest y, (Function.update tcbs h
        { tcbs h with state := .running, nextBlocked := nullHandle } g).nextBlocked =
          (tcbs g).nextBlocked :=
      fun g hg => by rw [hsame g ((hmem y g).mp hg).2]
    by_cases hy : y = x
    · subst hy
      have hchain := hc.linked y
      rw [hx] at hchain
      refine Linked.congr hcongr ?_
      rw [Function.update_self, Function.update_self, hlinks]
      exact hchain.2
    · refine Linked.congr hcongr ?_
      rw [Function.update_of_ne hy, Function.update_of_ne hy]
      exact hc.linked y
  · by_cases hy : y = x
    · subst hy
      rw [Function.update_self, Function.update_self, hlinks]
      cases rest with
      | nil => rfl
      | cons g rest =>
        rw [if_neg (by simp), hc.tail, hx]
        simp [lastHandle]
    · rw [Function.update_of_ne hy, Function.update_of_ne hy]
      exact hc.tail y
  · by_cases hy : y = x
    · subst hy
      rw [Function.update_self]
      exact hnd.2
    · rw [Function.update_of_ne hy]
      exact hc.waiters_nodup y
  · simp only [hmem]
    by_cases hg : g = h
    · subst hg
      simp
    · rw [hsame g hg, hc.mem_waiters]
      simp [hg]
  · exact hc.waiters_unique ((hmem y g).mp hy).1 ((hmem z g).mp hz).1
  · by_cases hy : y = x
    · subst hy
      simp [hlinks]
    · rw [Function.update_of_ne hy, Function.update_of_ne hy]
      exact hc.set_empty y
  · rw [hsame _ (Ne.symm hroot)]
    exact hc.root_active
  · rw [hsame _ (Ne.symm hroot)]
    exact hc.root_not_blocked
  · by_cases hgh : g = h
    · subst hgh
      rw [Function.update_self]
      exact hc.entries g hg (by rw [hblocked]; simp)
    · rw [hsame g hgh] at hga ⊢
      exact hc.entries g hg hga

end core

/-- The invariant: `Core`, and the running handle is the only one in the running state. -/
structure Inv (w : World σ) (r : Fin maxCothreads) (ready idle : List (Fin maxCothreads))
    (waiters : SemId σ → List (Fin maxCothreads)) : Prop where
  init : w.control.initialised = true
  running : w.control.running = handle r
  running_iff : ∀ h, (w.control.tcbs h).state = .running ↔ h = r
  core : Core w.control.tcbs w.control.sched w.control.free w.sem ready idle waiters

/-- What an event says about the sticky bits and the waiters, before and after the call of `r` that
leaves `r'` running. -/
def Law (r r' : Fin maxCothreads) (set set' : SemId σ → Bool)
    (waiters waiters' : SemId σ → List (Fin maxCothreads)) [DecidableEq σ] : Event σ → Prop
  | .waitReturned x h =>
    h = handle r ∧ set x = true ∧ set' = Function.update set x false ∧ waiters' = waiters
  | .waitBlocked x h =>
    h = handle r ∧ set x = false ∧ set' = set ∧ waiters' = Function.update waiters x (waiters x ++ [r])
  | .released x h => ∃ rest, waiters x = r' :: rest ∧ h = handle r' ∧ set x = false ∧ set' = set ∧
      waiters' = Function.update waiters x rest
  | .remembered x => waiters x = [] ∧ set x = false ∧ set' = Function.update set x true ∧ waiters' = waiters
  | .absorbed x => set x = true ∧ set' = set ∧ waiters' = waiters
  | .spawned _ | .yielded | .destroyed _ => set' = set ∧ waiters' = waiters

/-- A switch never comes from the fallback, and its target is a live handle, now running, that the
call did not destroy. -/
def SwitchOk (w : World σ) (out : Outcome σ) : Prop :=
  match out.switch with
  | none => out.world.control.running = w.control.running
  | some switch => switch.fellBack = false ∧ ∃ g, switch.target = handle g ∧
      out.world.control.running = handle g ∧ (w.control.tcbs g).state ≠ .notActive ∧
      out.event ≠ .destroyed (handle g)

/-- The outcome of a call from a state with the invariant. -/
def Preserves [DecidableEq σ] (w : World σ) (r : Fin maxCothreads)
    (waiters : SemId σ → List (Fin maxCothreads)) (out : Outcome σ) : Prop :=
  ∃ r' ready' idle' waiters', Inv out.world r' ready' idle' waiters' ∧
    Law r r' (fun x => (w.sem x).set) (fun x => (out.world.sem x).set) waiters waiters' out.event ∧
      SwitchOk w out

@[simp] theorem sem_withControl (w : World σ) (c : Control) (hc : c.channels = w.control.channels) :
    World.sem { w with control := c } = w.sem := by
  funext x
  cases x with
  | user s => rfl
  | channel i => simp [World.sem, hc]

section spec

variable {ready idle : List (Fin maxCothreads)} {waiters : SemId σ → List (Fin maxCothreads)}
  {sem : SemId σ → Semaphore} {w : World σ} {r : Fin maxCothreads}

/-- `takeNext` hands the kernel thread to the front of the scheduling queue. The root is in there, so
the queue is not empty. -/
theorem takeNext_spec {c : Control} (hc : Core c.tcbs c.sched c.free sem ready idle waiters)
    (hnone : ∀ h, (c.tcbs h).state ≠ .running) :
    ∃ g rest c', takeNext c = .ok (c', ⟨handle g, false⟩) ∧ ready = g :: rest ∧
      Core c'.tcbs c'.sched c'.free sem rest idle waiters ∧ c'.running = handle g ∧
      (∀ h, (c'.tcbs h).state = .running ↔ h = g) ∧ c'.initialised = c.initialised ∧
      c'.channels = c.channels := by
  have hroot : root ∈ ready := by
    rw [hc.mem_ready]
    have h1 := hc.root_active
    have h2 := hc.root_not_blocked
    have h3 := hnone root
    cases hstate : (c.tcbs root).state <;> simp_all
  obtain ⟨g, rest, rfl⟩ : ∃ g rest, ready = g :: rest := by
    cases ready with
    | nil => simp at hroot
    | cons g rest => exact ⟨g, rest, rfl⟩
  have hg : (c.tcbs g).state = .ready := (hc.mem_ready g).mp (by simp)
  obtain ⟨sched, hpop, hsched⟩ := Queue.pop_holds (by simpa using hc.sched)
  have hscan : scanNext c.tcbs c.sched.items c.sched = .ok (handle g, false, sched) := by
    rw [← hc.sched.length, List.length_map, List.length_cons, scanNext, hpop]
    by_cases hgr : g = root
    · simp [hgr]
    · simp [hgr, hg, bind, Except.bind]
  have hnd := List.nodup_cons.mp hc.ready_nodup
  refine ⟨g, rest, { { c with sched }.setTcb g
    (fun t => { t with state := .running }) with running := handle g },
    by simp [takeNext, hscan, bind, Except.bind, pure, Except.pure], rfl, ?_, rfl, ?_, rfl, rfl⟩
  · refine hc.move (by rw [hg]; simp) (by simp) (by simp)
      (fun h1 _ => hc.entries g h1 (by rw [hg]; simp)) hsched
      hc.free hnd.2 hc.idle_nodup (fun h => ?_) (fun h => ?_)
    · by_cases hh : h = g
      · subst hh
        simpa using hnd.1
      · simp [hh]
    · by_cases hh : h = g
      · subst hh
        simp [hc.mem_idle, hg]
      · simp [hh]
  · intro h
    by_cases hh : h = g
    · subst hh
      simp [Control.setTcb]
    · simp [Control.setTcb, hh, hnone h]

theorem Inv.ofControl {c : Control} (hch : c.channels = w.control.channels) (hinit : c.initialised = true)
    (hrun : c.running = handle r) (hiff : ∀ h, (c.tcbs h).state = .running ↔ h = r)
    (hc : Core c.tcbs c.sched c.free w.sem ready idle waiters) :
    Inv { w with control := c } r ready idle waiters :=
  ⟨hinit, hrun, hiff, by simpa only [sem_withControl w c hch] using hc⟩

theorem Inv.running_not_mem_ready (hi : Inv w r ready idle waiters) : r ∉ ready := by
  rw [hi.core.mem_ready, (hi.running_iff r).mpr rfl]
  simp

theorem Inv.running_not_mem_idle (hi : Inv w r ready idle waiters) : r ∉ idle := by
  rw [hi.core.mem_idle, (hi.running_iff r).mpr rfl]
  simp

theorem Inv.withControl (hi : Inv w r ready idle waiters) {α : Type} (body : Control → Except Panic α) :
    withControl w.control body = body w.control := by
  rw [Cothread.withControl, if_pos hi.init]

/-- The running handle goes to the back of the scheduling queue: the first half of a yield, and of a
signal that wakes a waiter. -/
theorem Inv.requeue (hi : Inv w r ready idle waiters) :
    ∃ sched, w.control.sched.push w.control.running = .ok sched ∧
      Core (Function.update w.control.tcbs r { w.control.tcbs r with state := .ready }) sched
        w.control.free w.sem
        (ready ++ [r]) idle waiters := by
  have hrun : (w.control.tcbs r).state = .running := (hi.running_iff r).mpr rfl
  have hnr := hi.running_not_mem_ready
  have hlen : (ready.map handle).length < maxCothreads := by
    simpa using length_lt_of_not_mem hi.core.ready_nodup hnr
  obtain ⟨sched, hpush, hsched⟩ := Queue.push_holds hi.core.sched hlen w.control.running
  refine ⟨sched, hpush, ?_⟩
  refine hi.core.move (by rw [hrun]; simp) (by simp) (by simp)
    (fun h1 _ => hi.core.entries r h1 (by rw [hrun]; simp))
    (by simpa [hi.running] using hsched) hi.core.free ?_ hi.core.idle_nodup (fun h => ?_) (fun h => ?_)
  · rw [List.nodup_append]
    refine ⟨hi.core.ready_nodup, by simp, fun a ha b hb => ?_⟩
    rw [List.mem_singleton] at hb
    exact fun e => hnr (hb ▸ e ▸ ha)
  · by_cases hh : h = r
    · simp [hh]
    · simp [hh]
  · by_cases hh : h = r
    · simp [hh, hi.running_not_mem_idle]
    · simp [hh]

theorem spawn_spec (hi : Inv w r ready idle waiters) [DecidableEq σ] (entry privateArg : Nat) :
    ∃ out, step w (.spawn entry privateArg) = .ok out ∧ Preserves w r waiters out := by
  cases idle with
  | nil =>
    have hpop : w.control.free.pop = none := Queue.pop_nil (by simpa using hi.core.free)
    refine ⟨⟨w, .spawned nullHandle, none⟩, ?_, r, ready, [], waiters, hi, ⟨rfl, rfl⟩, rfl⟩
    simp [step, spawn, hi.withControl, hpop, bind, Except.bind, pure, Except.pure]
  | cons h idle =>
    obtain ⟨free, hpop, hfree⟩ := Queue.pop_holds (by simpa using hi.core.free)
    have hstate : (w.control.tcbs h).state = .notActive := (hi.core.mem_idle h).mp (by simp)
    have hne : h ≠ root := fun e => hi.core.root_active (e ▸ hstate)
    have hnready : h ∉ ready := by simp [hi.core.mem_ready, hstate]
    have hlen : (ready.map handle).length < maxCothreads := by
      simpa using length_lt_of_not_mem hi.core.ready_nodup hnready
    obtain ⟨sched, hpush, hsched⟩ := Queue.push_holds hi.core.sched hlen (handle h)
    have hnd := List.nodup_cons.mp hi.core.idle_nodup
    let t : Tcb := ⟨some entry, privateArg, .ready, nullHandle⟩
    have hcore : Core (Function.update w.control.tcbs h t) sched free w.sem
      (ready ++ [h]) idle waiters := by
      refine hi.core.move (by rw [hstate]; simp) (by simp [t]) (by simp [t]) (by simp [t])
        (by simpa using hsched)
        hfree ?_ hnd.2 (fun g => ?_) (fun g => ?_)
      · rw [List.nodup_append]
        refine ⟨hi.core.ready_nodup, by simp, fun a ha b hb => ?_⟩
        rw [List.mem_singleton] at hb
        exact fun e => hnready (hb ▸ e ▸ ha)
      · by_cases hg : g = h
        · simp [hg, t]
        · simp [hg]
      · by_cases hg : g = h
        · simpa [hg, t] using hnd.1
        · simp [hg]
    let c : Control := { w.control with free, sched, tcbs := Function.update w.control.tcbs h t }
    refine ⟨⟨{ w with control := c }, .spawned (handle h), none⟩, ?_, r, ready ++ [h], idle, waiters,
      .ofControl rfl hi.init hi.running (fun g => ?_) hcore, ⟨?_, rfl⟩, rfl⟩
    · simp [step, spawn, hi.withControl, hpop, hpush, bind, Except.bind, pure, Except.pure,
        Control.setTcb, c, t]
    · by_cases hg : g = h
      · have hrh : h ≠ r := fun e => by
          rw [e, (hi.running_iff r).mpr rfl] at hstate
          cases hstate
        simp [c, hg, t, hrh]
      · simp [c, hg, hi.running_iff]
    · simp only [sem_withControl w c rfl]

theorem yield_spec (hi : Inv w r ready idle waiters) [DecidableEq σ] :
    ∃ out, step w .yield = .ok out ∧ Preserves w r waiters out := by
  obtain ⟨sched, hpush, hcore⟩ := hi.requeue
  let c : Control := { w.control with sched }.setTcb r fun t => { t with state := .ready }
  obtain ⟨g, rest, c', htake, hready, hcore', hrun, hiff, hinit, hch⟩ :=
    takeNext_spec (c := c) hcore fun h => by
      by_cases hh : h = r
      · simp [c, Control.setTcb, hh]
      · simp [c, Control.setTcb, hh, hi.running_iff]
  have hlive : (w.control.tcbs g).state ≠ .notActive := by
    have hg : g ∈ ready ++ [r] := by rw [hready]; simp
    rcases List.mem_append.mp hg with hg | hg
    · rw [(hi.core.mem_ready g).mp hg]
      simp
    · rw [(hi.running_iff g).mpr (by simpa using hg)]
      simp
  refine ⟨⟨{ w with control := c' }, .yielded, some ⟨handle g, false⟩⟩, ?_, g, rest, idle, waiters,
    .ofControl hch (hinit.trans hi.init) hrun hiff hcore', ⟨?_, rfl⟩, rfl, g, rfl, hrun, hlive, by simp⟩
  · have hidx : idx w.control.running = .ok r := by rw [hi.running, idx_handle]
    simp only [step, yield, hi.withControl, hpush, hidx, bind, Except.bind, pure, Except.pure]
    rw [show takeNext _ = _ from htake]
  · simp only [sem_withControl w c' hch]

/-- Releasing a handle: the contract it breaks, or the worker back in the free queue. -/
theorem destroy_spec (hi : Inv w r ready idle waiters) [DecidableEq σ] (x : Int) :
    (∃ p, destroy w.control x = .error p ∧ (Op.destroy x : Op σ).documents p ∧
      (x = w.control.running → p = .destroyRoot)) ∨
    ∃ c switch, destroy w.control x = .ok (c, switch) ∧
      Preserves w r waiters ⟨{ w with control := c }, .destroyed x, switch⟩ := by
  rw [destroy, hi.withControl, release]
  by_cases hin : 0 ≤ x ∧ x.toNat < maxCothreads
  swap
  · refine Or.inl ⟨.invalidHandle x, by simp [idx, hin, bind, Except.bind], ⟨rfl, hin⟩, fun hx => ?_⟩
    have hr := r.isLt
    simp only [hx, hi.running, handle] at hin
    omega
  obtain ⟨h, rfl⟩ : ∃ h, x = handle h := ⟨⟨x.toNat, hin.2⟩, by simp only [handle]; omega⟩
  by_cases hroot : h = root
  · refine Or.inl ⟨.destroyRoot, ?_, trivial, fun _ => rfl⟩
    rw [idx_handle, ok_bind, if_pos ((handle_eq_root).mpr hroot)]
    rfl
  have hroot' : handle h ≠ rootHandle := fun e => hroot ((handle_eq_root).mp e)
  have hnotrun : (w.control.tcbs h).state ≠ .running → handle h = w.control.running → False := fun hs e =>
    hs ((hi.running_iff h).mpr (by simpa [hi.running] using e))
  have hfree : (w.control.tcbs h).state ≠ .notActive → (w.control.tcbs h).state ≠ .blocked →
      ∃ sched free, w.control.sched.retain (fun queued => queued ≠ handle h) = .ok sched ∧
        w.control.free.push (handle h) = .ok free ∧
        Core (Function.update w.control.tcbs h { w.control.tcbs h with state := .notActive, entry := none }) sched
          free w.sem (ready.filter (· ≠ h)) (idle ++ [h]) waiters := by
    intro hna hnb
    have hnidle : h ∉ idle := by rwa [hi.core.mem_idle]
    have hlen : (idle.map handle).length < maxCothreads := by
      simpa using length_lt_of_not_mem hi.core.idle_nodup hnidle
    obtain ⟨sched, hretain, hsched⟩ := Queue.retain_holds hi.core.sched fun queued => queued ≠ handle h
    obtain ⟨free, hpush, hfree⟩ := Queue.push_holds hi.core.free hlen (handle h)
    refine ⟨sched, free, hretain, hpush, ?_⟩
    have hfilter : (ready.map handle).filter (fun queued => decide (queued ≠ handle h)) =
        (ready.filter (· ≠ h)).map handle := by
      rw [List.filter_map]
      congr 1
      apply List.filter_congr
      intro g _
      simp
    refine hi.core.move hnb (by simp) (fun e => absurd e hroot) (by simp) (by rwa [hfilter] at hsched)
      (by simpa using hfree) (hi.core.ready_nodup.filter _) ?_ (fun g => ?_) (fun g => ?_)
    · rw [List.nodup_append]
      refine ⟨hi.core.idle_nodup, by simp, fun a ha b hb => ?_⟩
      rw [List.mem_singleton] at hb
      exact fun e => hnidle (hb ▸ e ▸ ha)
    · by_cases hg : g = h
      · simp [hg]
      · simp [hg]
    · by_cases hg : g = h
      · simp [hg]
      · simp [hg]
  cases hstate : (w.control.tcbs h).state with
  | notActive =>
    refine Or.inl ⟨.destroyInactive, ?_, trivial, fun e => (hnotrun (by rw [hstate]; simp) e).elim⟩
    simp only [idx_handle, ok_bind, if_neg hroot', hstate]
    rfl
  | blocked =>
    refine Or.inl ⟨.destroyBlocked, ?_, trivial, fun e => (hnotrun (by rw [hstate]; simp) e).elim⟩
    simp only [idx_handle, ok_bind, if_neg hroot', hstate]
    rfl
  | ready =>
    obtain ⟨sched, free, hretain, hpush, hcore⟩ := hfree (by rw [hstate]; simp) (by rw [hstate]; simp)
    have hne : handle h ≠ w.control.running := fun e => hnotrun (by rw [hstate]; simp) e
    let c : Control := { w.control with sched, free }.setTcb h fun t =>
      { t with state := .notActive, entry := none }
    refine Or.inr ⟨c, none, ?_, r, ready.filter (· ≠ h), idle ++ [h], waiters,
      .ofControl rfl hi.init hi.running (fun g => ?_) hcore, ⟨?_, rfl⟩, rfl⟩
    · simp only [idx_handle, ok_bind, if_neg hroot', hstate, hretain, hpush]
      rw [setTcb_running, if_neg hne]
      rfl
    · by_cases hg : g = h
      · have hgr : h ≠ r := fun e => hne (by rw [hi.running, e])
        simp [c, Control.setTcb, hg, hgr]
      · simp [c, Control.setTcb, hg, hi.running_iff]
    · simp only [sem_withControl w c rfl]
  | running =>
    obtain ⟨sched, free, hretain, hpush, hcore⟩ := hfree (by rw [hstate]; simp) (by rw [hstate]; simp)
    have hhr : h = r := (hi.running_iff h).mp hstate
    have heq : handle h = w.control.running := by rw [hi.running, hhr]
    let c : Control := { w.control with sched, free }.setTcb h fun t =>
      { t with state := .notActive, entry := none }
    obtain ⟨g, rest, c', htake, hready, hcore', hrun, hiff, hinit, hch⟩ :=
      takeNext_spec (c := c) hcore fun g => by
        by_cases hg : g = h
        · simp [c, Control.setTcb, hg]
        · have hgr : g ≠ r := fun e => hg (e.trans hhr.symm)
          simp [c, Control.setTcb, hg, hi.running_iff, hgr]
    have hg : g ∈ ready.filter (· ≠ h) := by rw [hready]; simp
    simp only [List.mem_filter, decide_eq_true_eq] at hg
    have hlive : (w.control.tcbs g).state ≠ .notActive := by
      rw [(hi.core.mem_ready g).mp hg.1]
      simp
    refine Or.inr ⟨c', some ⟨handle g, false⟩, ?_, g, rest, idle ++ [h], waiters,
      .ofControl hch (hinit.trans hi.init) hrun hiff hcore', ⟨?_, rfl⟩, rfl, g, rfl, hrun, hlive, ?_⟩
    · simp only [idx_handle, ok_bind, if_neg hroot', hstate, hretain, hpush, if_neg (not_not.mpr heq)]
      rw [setTcb_running, if_pos heq, show takeNext _ = _ from htake]
      rfl
    · simp only [sem_withControl w c' hch]
    · simpa using fun e => hg.2 e.symm

variable [DecidableEq σ]

theorem sem_setSem (w : World σ) (x : SemId σ) (links : Semaphore) :
    (w.setSem x links).sem = Function.update w.sem x links := by
  funext y
  cases x <;> cases y <;> simp [World.setSem, World.sem, Function.update_apply]

/-- Writing the links back touches neither the table nor the queues. -/
theorem setSem_control (w : World σ) (x : SemId σ) (links : Semaphore) :
    ∃ channels, (w.setSem x links).control = { w.control with channels } := by
  cases x with
  | user s => exact ⟨_, rfl⟩
  | channel c => exact ⟨_, rfl⟩

theorem waitOn_spec (hi : Inv w r ready idle waiters) (x : SemId σ) :
    waitOn w x = .error .rootCannotWait ∨ ∃ out, waitOn w x = .ok out ∧ Preserves w r waiters out := by
  have hrun : (w.control.tcbs r).state = .running := (hi.running_iff r).mpr rfl
  by_cases hset : (w.sem x).set = true
  · refine Or.inr ⟨⟨w.setSem x { w.sem x with set := false }, .waitReturned x (handle r), none⟩, ?_,
      r, ready, idle,
      waiters, ?_, ⟨rfl, hset, ?_, rfl⟩, ?_⟩
    · rw [waitOn, blockRunning, if_pos hset, hi.running]
      rfl
    · obtain ⟨channels, hcontrol⟩ := setSem_control w x { w.sem x with set := false }
      refine ⟨by rw [hcontrol]; exact hi.init, by rw [hcontrol]; exact hi.running,
        by rw [hcontrol]; exact hi.running_iff, ?_⟩
      rw [sem_setSem, hcontrol]
      exact hi.core.setFlag x false (by simp)
    · funext y
      rw [sem_setSem]
      by_cases hy : y = x
      · simp [hy]
      · simp [hy]
    · obtain ⟨channels, hcontrol⟩ := setSem_control w x { w.sem x with set := false }
      simp [SwitchOk, hcontrol]
  rw [Bool.not_eq_true] at hset
  by_cases hroot : r = root
  · refine Or.inl ?_
    rw [waitOn, blockRunning, if_neg (by simp [hset]), hi.withControl,
      if_pos (by rw [hi.running, handle_eq_root]; exact hroot)]
    rfl
  have hrunroot : w.control.running ≠ rootHandle := by simpa [hi.running] using hroot
  -- the table after the two writes of `blockRunning`, whichever branch it takes
  obtain ⟨tcbs', links, hblock, hself, hsame, hnext, hlinks⟩ : ∃ tcbs' links,
      blockRunning w.control (w.sem x) = .ok (true, { w.control with tcbs := tcbs' }, links) ∧
      tcbs' r = { w.control.tcbs r with state := .blocked, nextBlocked := nullHandle } ∧
      (∀ g, g ≠ r → (tcbs' g).state = (w.control.tcbs g).state ∧
        (tcbs' g).entry = (w.control.tcbs g).entry) ∧
      (∀ g, g ≠ r → (tcbs' g).nextBlocked =
        if (waiters x).getLast? = some g then handle r else (w.control.tcbs g).nextBlocked) ∧
      links = ⟨false, if waiters x = [] then handle r else (w.sem x).head, handle r⟩ := by
    have hidx : idx w.control.running = .ok r := by rw [hi.running, idx_handle]
    rw [blockRunning, if_neg (by simp [hset]), hi.withControl]
    simp only [if_neg hrunroot, hidx, ok_bind]
    by_cases hnil : waiters x = []
    · rw [if_pos ((hi.core.linked x).head_eq.mpr hnil)]
      refine ⟨_, _, rfl, by simp, fun g hg => by simp [hg], fun g hg => by simp [hg, hnil], ?_⟩
      simp [hnil, hset, hi.running, Control.setTcb]
    · rw [if_neg (mt (hi.core.linked x).head_eq.mp hnil)]
      obtain ⟨l, last, hl⟩ := (List.eq_nil_or_concat (waiters x)).resolve_left hnil
      rw [List.concat_eq_append] at hl
      have hlast : last ∈ waiters x := by rw [hl]; simp
      have hlr : r ≠ last := fun e => by
        have := (hi.core.mem_waiters last).mpr ⟨x, hlast⟩
        rw [← e, hrun] at this
        cases this
      have htail : idx (w.sem x).tail = .ok last := by
        rw [hi.core.tail, lastHandle, hl]
        simp
      simp only [htail, ok_bind]
      refine ⟨_, _, rfl, by simp [Control.setTcb, hlr], fun g hg => ?_, fun g hg => ?_, ?_⟩
      · by_cases hgl : g = last
        · simp [Control.setTcb, hgl, hlr.symm]
        · simp [Control.setTcb, hg, hgl]
      · by_cases hgl : g = last
        · simp [Control.setTcb, hgl, hl, hi.running]
        · have hlg : last ≠ g := fun e => hgl e.symm
          simp [Control.setTcb, hg, hgl, hl, hlg]
      · simp [hnil, hset, hi.running, Control.setTcb]
  have hcore := hi.core.block hrun hroot x hself hsame hnext hlinks
  let w' : World σ := { w with control := { w.control with tcbs := tcbs' } }
  have hsem' : w'.sem = w.sem := sem_withControl w _ rfl
  obtain ⟨channels, hcontrol⟩ := setSem_control w' x links
  obtain ⟨g, rest, c', htake, hready, hcore', hrun', hiff, hinit, hch⟩ :=
    takeNext_spec (c := (w'.setSem x links).control) (by rw [hcontrol]; exact hcore) fun h => by
      rw [hcontrol]
      by_cases hh : h = r
      · simp [w', hh, hself]
      · simp [w', (hsame h hh).1, hi.running_iff, hh]
  have hsem : World.sem { w'.setSem x links with control := c' } = Function.update w.sem x links := by
    rw [sem_withControl _ _ hch, sem_setSem, hsem']
  have hlive : (w.control.tcbs g).state ≠ .notActive := by
    rw [(hi.core.mem_ready g).mp (by rw [hready]; simp)]
    simp
  have hinit' : (w'.setSem x links).control.initialised = true := by
    rw [hcontrol]
    exact hi.init
  refine Or.inr ⟨⟨{ w'.setSem x links with control := c' }, .waitBlocked x w.control.running,
    some ⟨handle g, false⟩⟩,
    ?_, g, rest, idle, _, ⟨hinit.trans hinit', hrun', hiff, by rw [hsem]; exact hcore'⟩,
    ⟨hi.running, hset, ?_, rfl⟩, rfl, g, rfl, hrun', hlive, by simp⟩
  · have hnext : Cothread.withControl (w'.setSem x links).control takeNext =
      .ok (c', ⟨handle g, false⟩) := by
      rw [Cothread.withControl, if_pos hinit', htake]
    rw [waitOn, hblock, ok_bind]
    simp only [if_true]
    rw [show Cothread.withControl _ takeNext = _ from hnext]
    rfl
  · funext y
    simp only [hsem]
    by_cases hy : y = x
    · simp [hy, hlinks, hset]
    · simp [hy]

theorem signalOn_spec (hi : Inv w r ready idle waiters) (x : SemId σ) :
    ∃ out, signalOn w x = .ok out ∧ Preserves w r waiters out := by
  have hkeep : ∀ b, (b = true → waiters x = []) →
      Inv (w.setSem x { w.sem x with set := b }) r ready idle waiters := by
    intro b hb
    obtain ⟨channels, hcontrol⟩ := setSem_control w x { w.sem x with set := b }
    refine ⟨by rw [hcontrol]; exact hi.init, by rw [hcontrol]; exact hi.running,
      by rw [hcontrol]; exact hi.running_iff, ?_⟩
    rw [sem_setSem, hcontrol]
    exact hi.core.setFlag x b hb
  have hflag : ∀ b, (fun y => ((w.setSem x { w.sem x with set := b }).sem y).set) =
      Function.update (fun y => (w.sem y).set) x b := by
    intro b
    funext y
    rw [sem_setSem]
    by_cases hy : y = x
    · simp [hy]
    · simp [hy]
  have hswitch : ∀ b event, SwitchOk w ⟨w.setSem x { w.sem x with set := b }, event, none⟩ := by
    intro b event
    obtain ⟨channels, hcontrol⟩ := setSem_control w x { w.sem x with set := b }
    simp [SwitchOk, hcontrol]
  by_cases hset : (w.sem x).set = true
  · have hsame : { w.sem x with set := true } = w.sem x := by rw [← hset]
    refine ⟨⟨w.setSem x { w.sem x with set := true }, .absorbed x, none⟩, ?_, r, ready, idle, waiters,
      hkeep true fun _ => hi.core.set_empty x hset, ⟨hset, ?_, rfl⟩, hswitch true _⟩
    · simp only [signalOn, signalOne, hi.withControl, hset, if_true, ok_bind, hsame]
      rfl
    · rw [hflag, ← hset]
      exact Function.update_eq_self x fun y => (w.sem y).set
  rw [Bool.not_eq_true] at hset
  rcases hwait : waiters x with _ | ⟨h, rest⟩
  · refine ⟨⟨w.setSem x { w.sem x with set := true }, .remembered x, none⟩, ?_, r, ready, idle, waiters,
      hkeep true fun _ => hwait, ⟨hwait, hset, hflag true, rfl⟩, hswitch true _⟩
    rw [signalOn, hi.withControl, signalOne, if_neg (by simp [hset]),
      if_pos ((hi.core.linked x).head_eq.mpr hwait)]
    simp only [ok_bind, hset]
    rfl
  -- a waiter is there: the running cothread goes to the back of the queue and the waiter runs
  obtain ⟨sched, hpush, hcore⟩ := hi.requeue
  have hhead : (w.sem x).head = handle h := by
    have := hi.core.linked x
    rw [hwait] at this
    exact this.1
  have hmem : h ∈ waiters x := by rw [hwait]; simp
  have hblocked : (w.control.tcbs h).state = .blocked := (hi.core.mem_waiters h).mpr ⟨x, hmem⟩
  have hhr : h ≠ r := fun e => by
    rw [(hi.running_iff h).mpr e] at hblocked
    cases hblocked
  let next := (w.control.tcbs h).nextBlocked
  let links : Semaphore := ⟨false, next, if rest = [] then nullHandle else (w.sem x).tail⟩
  have hnext : next = nullHandle ↔ rest = [] := by
    have hl := hi.core.linked x
    rw [hwait] at hl
    exact hl.2.head_eq
  have hcore' := hcore.wake x hwait links (by simp [links, next, hhr])
  let tcbs' := Function.update (Function.update w.control.tcbs r { w.control.tcbs r with state :=
    .ready }) h
    { w.control.tcbs h with state := .running, nextBlocked := nullHandle }
  let c : Control := { w.control with sched, running := handle h, tcbs := tcbs' }
  have hsignal : signalOne w.control (w.sem x) = .ok (some (handle h), c, links) := by
    have hidx : idx w.control.running = .ok r := by rw [hi.running, idx_handle]
    rw [signalOne, if_neg (by simp [hset]), if_neg (by rw [hhead]; exact handle_ne_null h)]
    simp only [hhead, idx_handle, ok_bind, Control.setTcb, hpush, hidx]
    have htcbs : ∀ t : Fin maxCothreads → Tcb, t = tcbs' →
      ({ w.control with sched, running := handle h, tcbs := t } :
        Control) = c := fun t ht => by rw [ht]
    refine congrArg Except.ok (Prod.ext rfl (Prod.ext (htcbs _ ?_) ?_))
    · funext g
      by_cases hg : g = h
      · simp [tcbs', hg, hhr]
      · by_cases hgr : g = r
        · simp [tcbs', hgr, hhr.symm]
        · simp [tcbs', hg, hgr]
    · by_cases hrest : rest = []
      · have hnull : (w.control.tcbs h).nextBlocked = nullHandle := hnext.mpr hrest
        simp [links, next, hrest, hnull]
      · have hnull : (w.control.tcbs h).nextBlocked ≠ nullHandle := mt hnext.mp hrest
        simp [links, next, hrest, hset, hnull]
  obtain ⟨channels, hcontrol⟩ := setSem_control { w with control := c } x links
  have hsem : (World.setSem { w with control := c } x links).sem = Function.update w.sem x links := by
    rw [sem_setSem, sem_withControl w c rfl]
  refine ⟨⟨World.setSem { w with control := c } x links, .released x (handle h),
    some ⟨handle h, false⟩⟩, ?_,
    h, ready ++ [r], idle, _, ⟨?_, ?_, fun g => ?_, ?_⟩, ⟨rest, hwait, rfl, hset, ?_, rfl⟩, rfl, h,
      rfl, ?_, ?_,
    by simp⟩
  · rw [signalOn, hi.withControl, hsignal]
    rfl
  · rw [hcontrol]
    exact hi.init
  · rw [hcontrol]
  · rw [hcontrol]
    by_cases hg : g = h
    · simp [c, tcbs', hg]
    · by_cases hgr : g = r
      · simp [c, tcbs', hgr, hhr.symm]
      · simp [c, tcbs', hg, hgr, hi.running_iff]
  · rw [hsem, hcontrol]
    simpa [c, tcbs', hhr] using hcore'
  · funext y
    simp only [hsem]
    by_cases hy : y = x
    · simp [hy, links, hset]
    · simp [hy]
  · rw [hcontrol]
  · rw [hblocked]
    simp

/-- One call from a state with the invariant. -/
theorem step_spec (hi : Inv w r ready idle waiters) (op : Op σ) :
    (∃ p, step w op = .error p ∧ op.documents p) ∨ ∃ out, step w op = .ok out ∧
      Preserves w r waiters out := by
  have hwait : ∀ x, op.documents .rootCannotWait → (∃ p, waitOn w x = .error p ∧ op.documents p) ∨
      ∃ out, waitOn w x = .ok out ∧ Preserves w r waiters out := fun x hdoc => by
    rcases waitOn_spec hi x with herr | hok
    · exact Or.inl ⟨_, herr, hdoc⟩
    · exact Or.inr hok
  have hchannel : ∀ channel, (∃ c, channelIndex channel = .ok c) ∨
      channelIndex channel = .error (.channelOutside channel) ∧ microkitMaxChannels ≤ channel := by
    intro channel
    by_cases hlt : channel < microkitMaxChannels
    · exact Or.inl ⟨_, dif_pos hlt⟩
    · exact Or.inr ⟨dif_neg hlt, by omega⟩
  cases op with
  | spawn entry privateArg => exact Or.inr (spawn_spec hi entry privateArg)
  | yield => exact Or.inr (yield_spec hi)
  | semaphoreWait s => exact hwait (.user s) trivial
  | semaphoreSignal s => exact Or.inr (signalOn_spec hi (.user s))
  | waitOnChannel channel =>
    rw [step]
    rcases hchannel channel with ⟨c, hc⟩ | ⟨hc, hout⟩
    · rw [hc, ok_bind, hi.withControl]
      exact hwait (.channel c) trivial
    · exact Or.inl ⟨.channelOutside channel, by rw [hc]; rfl, rfl, hout⟩
  | recvNtfn channel =>
    rw [step]
    rcases hchannel channel with ⟨c, hc⟩ | ⟨hc, hout⟩
    · rw [hc, ok_bind, hi.withControl]
      by_cases hroot : w.control.running = rootHandle
      · rw [if_neg (not_not.mpr hroot)]
        exact Or.inr (signalOn_spec hi (.channel c))
      · exact Or.inl ⟨.recvNtfnFromWorker, by rw [if_pos hroot]; rfl, trivial⟩
    · exact Or.inl ⟨.channelOutside channel, by rw [hc]; rfl, rfl, hout⟩
  | destroy x =>
    rw [step]
    rcases destroy_spec hi x with ⟨p, herr, hdoc, -⟩ | ⟨c, switch, hok, hpres⟩
    · exact Or.inl ⟨p, by rw [herr]; rfl, hdoc⟩
    · exact Or.inr ⟨_, by rw [hok]; rfl, hpres⟩
  | entryReturn =>
    rw [step]
    rcases destroy_spec hi w.control.running with ⟨p, herr, -, hroot⟩ | ⟨c, switch, hok, hpres⟩
    · refine Or.inl ⟨p, by rw [herr]; rfl, ?_⟩
      rw [hroot rfl]
      trivial
    · exact Or.inr ⟨_, by rw [hok]; rfl, hpres⟩

end spec

/-! ### From the initialisation on -/

/-- The workers, in the order the initialisation frees them. -/
def workers : List (Fin maxCothreads) := (List.finRange maxCothreads).tail

theorem fillFree_holds (n : Nat) (hn : n < maxCothreads) :
    ∃ q, fillFree n Queue.new = .ok q ∧ q.Holds ((List.range n).map fun i => ((i + 1 : Nat) : Int)) := by
  induction n with
  | zero => exact ⟨Queue.new, rfl, Queue.new_holds⟩
  | succ n ih =>
    obtain ⟨q, hfill, hq⟩ := ih (by omega)
    obtain ⟨q', hpush, hq'⟩ := Queue.push_holds hq (by simp; omega) ((n + 1 : Nat) : Int)
    refine ⟨q', by rw [fillFree, hfill]; exact hpush, ?_⟩
    rwa [List.range_succ, List.map_append]

theorem init_core {free : Queue} (hfree : free.Holds (workers.map handle)) :
    Core (σ := σ) (Function.update (fun _ => Tcb.empty) root { Tcb.empty with state := .running })
      Queue.new free
      (fun _ => Semaphore.new) [] workers (fun _ => []) := by
  have hstate : ∀ g, (Function.update (fun _ => Tcb.empty) root { Tcb.empty with state := .running }
    g).state =
      if g = root then State.running else State.notActive := by
    intro g
    by_cases hg : g = root
    · simp [hg]
    · simp [hg, Tcb.empty]
  refine ⟨Queue.new_holds, hfree,
    by simp, by decide, fun g => ?_, fun g => ?_, fun _ => rfl, fun _ => rfl, by simp,
    fun g => ?_, by simp, by simp, ?_, ?_, fun g hg hga => ?_⟩
  · rw [hstate]
    by_cases hg : g = root <;> simp [hg]
  · rw [hstate]
    revert g
    decide
  · rw [hstate]
    by_cases hg : g = root <;> simp [hg]
  · simp
  · simp
  · rw [hstate, if_neg hg] at hga
    exact absurd rfl hga

/-- The controller the initialisation leaves. -/
theorem init_eq {c c₀ : Control} {stackSize : Nat} {bases : List Nat}
    (h : microkitCothreadInit c stackSize bases = .ok c₀) :
    ∃ free : Queue, free.Holds (workers.map handle) ∧
      c₀ = { Control.empty with stackSize, free, initialised := true }.setTcb root
        fun t => { t with state := .running } := by
  obtain ⟨free, hfill, hfree⟩ := fillFree_holds stackSlots (by decide)
  refine ⟨free, hfree, ?_⟩
  rw [microkitCothreadInit] at h
  split at h
  · cases h
  obtain ⟨_, -, h⟩ := bind_eq_ok h
  split at h
  · cases h
  rw [hfill] at h
  cases h
  rfl

/-- Right after the initialisation every semaphore is as `semaphore_init` leaves it. -/
theorem sem_init {c c₀ : Control} {stackSize : Nat} {bases : List Nat}
    (h : microkitCothreadInit c stackSize bases = .ok c₀) (x : SemId σ) :
    World.sem ⟨c₀, fun _ => Semaphore.new⟩ x = Semaphore.new := by
  obtain ⟨free, -, rfl⟩ := init_eq h
  cases x <;> rfl

/-- A controller that was just initialised, with semaphores fresh from `semaphore_init`. -/
theorem init_spec {c c₀ : Control} {stackSize : Nat} {bases : List Nat}
    (h : microkitCothreadInit c stackSize bases = .ok c₀) :
    Inv (σ := σ) ⟨c₀, fun _ => Semaphore.new⟩ root [] workers (fun _ => []) := by
  have hsem : World.sem (σ := σ) ⟨c₀, fun _ => Semaphore.new⟩ = fun _ => Semaphore.new :=
    funext (sem_init h)
  obtain ⟨free, hfree, rfl⟩ := init_eq h
  refine ⟨rfl, rfl, fun g => ?_, ?_⟩
  · by_cases hg : g = root
    · simp [Control.setTcb, hg]
    · simp [Control.setTcb, Control.empty, Tcb.empty, hg]
  · rw [hsem]
    exact init_core hfree

end Lerux.Cothread

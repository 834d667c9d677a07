import Lerux.Serial.Order

/-!
# Wake-ups of the transmit clients

A client that finds its queue full asks for a signal, notifies the virtualiser and waits on its channel.
The claim of this module is that somebody then is about to wake it: the virtualiser runs or has been
notified, or the client is `pending` and the driver will notify the virtualiser when it has drained its
queue. The clients take no step while the virtualiser's handler runs, and nobody takes one while the
driver drains.

It fails in one window. Between the `serial_enqueue` that found the queue full and the request, a handler
may empty the queue and look at the flag, which nobody has cleared yet; the client then asks for a signal,
and later handlers find its queue empty and do not wake it. `emit_woken` says that runs in which no handler
takes a byte in that window are fine, and `emit_not_woken` shows one that is not.
-/

namespace Lerux.Serial

open Lerux.Base Lerux.SerialQueue

variable {n : Nat}

/-! ### The schedules -/

/-- Clients run while the virtualiser and the driver wait, the virtualiser while the driver does. -/
def Scheduled {cap : Queue n → Nat} (s : (txSystem n cap false).Conf) : Pd n → Prop
  | .client _ => At s .virt .notified ∧ At s .driver .drained
  | .virt => At s .driver .drained
  | .driver => True

instance {cap : Queue n → Nat} (s : (txSystem n cap false).Conf) : (t : Pd n) → Decidable (Scheduled s t)
  | .client _ => inferInstanceAs (Decidable (_ ∧ _))
  | .virt => inferInstanceAs (Decidable (At s _ _))
  | .driver => inferInstanceAs (Decidable True)

/-- The call a thread is about to make, or stands in. -/
def nextCall : Thread (evSig n) (serialLib TxByte) (Queue n) → Option (Queue n × Fn TxByte)
  | .run (.act (.call q f) _) => some (q, f)
  | .call q f _ _ => some (q, f)
  | _ => none

/-- The virtualiser takes a byte of client `c`, which has found its queue full and not yet asked for a
signal, while nothing in its flag or its semaphore will make up for it. -/
def Overtakes {cap : Queue n → Nat} (s : (txSystem n cap false).Conf) (c : Fin n) : Prop :=
  nextCall (s.thread .virt) = some (.client c, .dequeue) ∧
    At s (.client c) (.requestConsumerSignal (.client c)) ∧
    s.env.producerSignalled (.client c) ≠ 0 ∧ s.env.semaphore c = false

instance {cap : Queue n → Nat} (s : (txSystem n cap false).Conf) (c : Fin n) : Decidable (Overtakes s c) :=
  inferInstanceAs (Decidable (_ ∧ _ ∧ _ ∧ _))

/-- Client `c` is blocked in `wait_on_channel`. -/
def Blocked {cap : Queue n → Nat} (s : (txSystem n cap false).Conf) (c : Fin n) : Prop :=
  At s (.client c) .waitOnChannel ∧ s.env.semaphore c = false

/-- Somebody is about to wake client `c`. -/
def Awaited {cap : Queue n → Nat} (s : (txSystem n cap false).Conf) (c : Fin n) : Prop :=
  ¬At s .virt .notified ∨ s.env.undelivered = true ∨
    s.env.pending c = true ∧ (s.ring .driver).len ≠ 0 ∧ s.env.producerSignalled .driver = 0

/-! ### Where each domain stands -/

/-- A client has found its queue full, then asked for a signal, then told the virtualiser. -/
inductive ClientAt
  | free
  | full
  | asked
  | told
  deriving DecidableEq

/-- What `move_client` knows of the driver queue: it has room for `k` bytes; a signal was asked for; it is
not empty and its next drain will notify. -/
inductive Know
  | nothing
  | room (k : Nat)
  | asked
  | tight

/-- What the virtualiser is doing to a client: about to count its bytes after clearing its `pending`,
between the count and the first byte, moving bytes, about to notify it. -/
inductive Stage (n : Nat)
  | rest
  | now (c : Fin n)
  | counted (c : Fin n) (k : Know)
  | taking (c : Fin n)
  | waking (c : Fin n)

/-- The virtualiser is moving bytes of client `c`. -/
def Stage.Moves (c : Fin n) : Stage n → Prop
  | .counted c' _ => c' = c
  | .taking c' => c' = c
  | _ => False

theorem Stage.Moves.unique {st : Stage n} {c c' : Fin n} (h : st.Moves c) (h' : st.Moves c') : c' = c := by
  cases st with
  | counted _ _ => exact h'.symm.trans h
  | taking _ => exact h'.symm.trans h
  | _ => exact h.elim

/-- The clients the virtualiser's handler will look at: the ones whose notification it took, whose
`pending` it has yet to read, and whose bytes it moved. -/
structure VirtAt (n : Nat) where
  provide : Fin n → Bool
  resume : Fin n → Bool
  wake : Fin n → Bool
  stage : Stage n

/-- The handler has nothing left to do. -/
structure VirtAt.Rest (v : VirtAt n) : Prop where
  provide : ∀ c, v.provide c = false
  resume : ∀ c, v.resume c = false
  wake : ∀ c, v.wake c = false
  stage : v.stage = .rest

/-- Where the driver stands in `drain_tx`. -/
inductive DriverAt
  | idle
  | draining (took : Bool)
  | drained
  | firing
  | cancelled
  deriving DecidableEq

/-- It has taken a byte and not looked at the flag for the last time. -/
def DriverAt.took : DriverAt → Bool
  | .draining took => took
  | .drained => true
  | .firing => true
  | _ => false

/-- The queue is known to be empty. -/
def DriverAt.emptied : DriverAt → Bool
  | .drained => true
  | .firing => true
  | .cancelled => true
  | _ => false

/-! ### The invariant -/

/-- The driver has notified the virtualiser, or will. -/
def Armed (d : DriverAt) (queue : Queue n → List TxByte) (env : Env n) : Prop :=
  (env.producerSignalled .driver = 0 ∧ (queue .driver ≠ [] ∨ d.took = true)) ∨ d = .cancelled ∨
    env.virtDriver = true

/-- The virtualiser has notified the client, or its handler will. -/
def Woken (v : VirtAt n) (env : Env n) (c : Fin n) : Prop :=
  env.semaphore c = true ∨ v.stage = .waking c ∨
    env.producerSignalled (.client c) = 0 ∧ (v.wake c = true ∨ v.stage.Moves c)

/-- The virtualiser will look at the client's queue. -/
def Seen (v : VirtAt n) (env : Env n) (c : Fin n) : Prop :=
  env.virtClient c = true ∨ env.pending c = true ∨ v.provide c = true ∨ v.stage = .now c

def Know.Ok (cap : Queue n → Nat) (d : DriverAt) (queue : Queue n → List TxByte) (env : Env n) : Know → Prop
  | .nothing => True
  | .room k => (queue .driver).length + k ≤ cap .driver
  | .asked => env.producerSignalled .driver = 0 ∨ queue .driver = []
  | .tight => Armed d queue env

/-- What holds of a client. -/
def ClientAt.Ok (v : VirtAt n) (queue : Queue n → List TxByte) (env : Env n) (c : Fin n) : ClientAt → Prop
  | .free => True
  | .full => Woken v env c ∨ queue (.client c) ≠ []
  | .asked => Woken v env c ∨ env.producerSignalled (.client c) = 0 ∧ queue (.client c) ≠ []
  | .told => Woken v env c ∨ env.producerSignalled (.client c) = 0 ∧ queue (.client c) ≠ [] ∧ Seen v env c

def Stage.Ok (cap : Queue n → Nat) (d : DriverAt) (queue : Queue n → List TxByte) (env : Env n) :
    Stage n → Prop
  | .counted c k => queue (.client c) ≠ [] ∧ k.Ok cap d queue env
  | _ => True

structure WakeInv (cap : Queue n → Nat) (C : Fin n → ClientAt) (v : VirtAt n) (d : DriverAt)
    (queue : Queue n → List TxByte) (env : Env n) : Prop where
  bound : ∀ q, (queue q).length ≤ cap q
  client : ∀ c, (C c).Ok v queue env c
  pending : ∀ c, env.pending c = true → Armed d queue env ∨ v.resume c = true
  stage : v.stage.Ok cap d queue env
  emptied : d.emptied = true → queue .driver = []

section steps

variable {cap : Queue n → Nat} {C : Fin n → ClientAt} {v v' : VirtAt n} {d d' : DriverAt}
  {queue queue' : Queue n → List TxByte} {env env' : Env n} {c : Fin n}

theorem ClientAt.Ok.of_woken (g : ClientAt) (h : Woken v env c) : g.Ok v queue env c := by
  cases g with
  | free => trivial
  | _ => exact .inl h

/-- A client that is not woken by the step keeps what it relies on. -/
theorem ClientAt.Ok.mono {g : ClientAt} (h : g.Ok v queue env c) (hw : Woken v env c → Woken v' env' c)
    (hs : env.producerSignalled (.client c) = 0 → queue (.client c) ≠ [] → Seen v env c →
      Woken v' env' c ∨ Seen v' env' c)
    (hf : env.producerSignalled (.client c) = 0 → Woken v' env' c ∨ env'.producerSignalled (.client c) = 0)
    (hq : queue (.client c) ≠ [] → Woken v' env' c ∨ queue' (.client c) ≠ []) : g.Ok v' queue' env' c := by
  by_cases hw' : Woken v' env' c
  · exact .of_woken g hw'
  have hnot : ¬Woken v env c := fun h => hw' (hw h)
  cases g with
  | free => trivial
  | full => exact hq (h.resolve_left hnot)
  | asked =>
    obtain ⟨h1, h2⟩ := h.resolve_left hnot
    exact .inr ⟨(hf h1).resolve_left hw', (hq h2).resolve_left hw'⟩
  | told =>
    obtain ⟨h1, h2, h3⟩ := h.resolve_left hnot
    exact .inr ⟨(hf h1).resolve_left hw', (hq h2).resolve_left hw', (hs h1 h2 h3).resolve_left hw'⟩

/-- What is true of a client stays true when its view does not change. -/
theorem ClientAt.Ok.frame {g : ClientAt} (h : g.Ok v queue env c) (hw : Woken v env c → Woken v' env' c)
    (hs : Seen v env c → Seen v' env' c)
    (hflag : env'.producerSignalled (.client c) = env.producerSignalled (.client c))
    (hq : queue' (.client c) = queue (.client c)) : g.Ok v' queue' env' c :=
  h.mono hw (fun _ _ h => .inr (hs h)) (fun h => .inr (hflag.trans h)) fun h => .inr (by rwa [hq])

theorem Know.Ok.mono {k : Know} (h : k.Ok cap d queue env) (hA : Armed d queue env → Armed d' queue' env')
    (hl : (queue' .driver).length ≤ (queue .driver).length)
    (hf : env.producerSignalled .driver = 0 → env'.producerSignalled .driver = 0 ∨ queue' .driver = []) :
    k.Ok cap d' queue' env' := by
  cases k with
  | nothing => trivial
  | room k => exact (Nat.add_le_add_right hl k).trans h
  | asked =>
    rcases h with h | h
    · exact hf h
    · rw [h] at hl
      exact .inr (List.length_eq_zero_iff.mp (Nat.le_zero.mp hl))
  | tight => exact hA h

theorem Stage.Ok.mono {st : Stage n} (h : st.Ok cap d queue env)
    (hq : ∀ c, queue (.client c) ≠ [] → queue' (.client c) ≠ [])
      (hA : Armed d queue env → Armed d' queue' env')
    (hl : (queue' .driver).length ≤ (queue .driver).length)
    (hf : env.producerSignalled .driver = 0 → env'.producerSignalled .driver = 0 ∨ queue' .driver = []) :
    st.Ok cap d' queue' env' := by
  cases st with
  | counted c k => exact ⟨hq c h.1, h.2.mono hA hl hf⟩
  | _ => trivial

/-- A cleared flag stays clear when another one is cleared. -/
theorem update_flag {f : Queue n → BitVec 32} (q : Queue n) {q' : Queue n} (h : f q' = 0) :
    Function.update f q 0 q' = 0 := by
  by_cases hq : q' = q
  · subst hq
    exact Function.update_self ..
  · rwa [Function.update_of_ne hq]

theorem Woken.mono_flag (h : Woken v env c)
    (hf : env.producerSignalled (.client c) = 0 → env'.producerSignalled (.client c) = 0)
    (hs : env.semaphore c = true → env'.semaphore c = true) : Woken v env' c := by
  rcases h with h | h | ⟨h1, h2⟩
  · exact .inl (hs h)
  · exact .inr (.inl h)
  · exact .inr (.inr ⟨hf h1, h2⟩)

/-! Steps of a client -/

/-- A client queues a byte. -/
theorem WakeInv.push (h : WakeInv cap C v d queue env) (hlt : (queue (.client c)).length <
    cap (.client c)) (x : TxByte) :
    WakeInv cap C v d (Function.update queue (.client c) (queue (.client c) ++ [x])) env := by
  have hq : ∀ c', queue (.client c') ≠ [] →
      Function.update queue (.client c) (queue (.client c) ++ [x]) (.client c') ≠ [] := by
    intro c' hq
    by_cases hc : c' = c
    · subst hc
      simp
    · simpa [hc] using hq
  refine ⟨fun q => ?_, fun c' => (h.client c').mono id (fun _ _ => .inr) .inr fun h =>
    .inr (hq c' h), ?_, ?_, ?_⟩
  · by_cases hq : q = .client c
    · subst hq
      simpa using hlt
    · simpa [Function.update_of_ne hq] using h.bound q
  · simpa [Armed] using h.pending
  · exact h.stage.mono hq (by simp [Armed]) (by simp) .inl
  · simpa using h.emptied

/-- A client moves on. -/
theorem WakeInv.client_to (h : WakeInv cap C v d queue env) {g : ClientAt} (hg : g.Ok v queue env c) :
    WakeInv cap (Function.update C c g) v d queue env := by
  refine ⟨h.bound, fun c' => ?_, h.pending, h.stage, h.emptied⟩
  by_cases hc : c' = c
  · subst hc
    simpa using hg
  · simpa [Function.update_of_ne hc] using h.client c'

/-- A client asks for a signal. -/
theorem WakeInv.request (h : WakeInv cap C v d queue env) (hc : C c = .full) :
    WakeInv cap (Function.update C c .asked) v d queue
      { env with producerSignalled := Function.update env.producerSignalled (.client c) 0 } := by
  have hw : ∀ c', Woken v env c' →
      Woken v { env with producerSignalled := Function.update env.producerSignalled (.client c) 0 } c' :=
    fun c' hw => hw.mono_flag (update_flag _) id
  refine WakeInv.client_to ⟨h.bound, fun c' => ?_, ?_, ?_, h.emptied⟩ ?_
  · exact (h.client c').mono (hw c') (fun _ _ => .inr) (fun hf => .inr (update_flag _ hf)) .inr
  · simpa [Armed] using h.pending
  · exact h.stage.mono (fun _ => id) (by simp [Armed]) le_rfl (fun hf => .inl (update_flag (.client c) hf))
  · have := h.client c
    rw [hc] at this
    rcases this with hfull | hq
    · exact .inl (hw c hfull)
    · exact .inr ⟨Function.update_self .., hq⟩

/-- A client notifies the virtualiser. -/
theorem WakeInv.notify_virt (h : WakeInv cap C v d queue env) :
    WakeInv cap C v d queue { env with virtClient := Function.update env.virtClient c true } := by
  refine ⟨h.bound, fun c' => (h.client c').frame id (fun hs => ?_) rfl rfl, h.pending, ?_, h.emptied⟩
  · rcases hs with hs | hs
    · left
      by_cases hc : c' = c
      · subst hc
        exact Function.update_self ..
      · simpa [Function.update_of_ne hc] using hs
    · exact .inr hs
  · exact h.stage.mono (fun _ => id) id le_rfl .inl

theorem WakeInv.tell (h : WakeInv cap C v d queue env) (hc : C c = .asked) :
    WakeInv cap (Function.update C c .told) v d queue
      { env with virtClient := Function.update env.virtClient c true } := by
  refine h.notify_virt.client_to ?_
  have := h.client c
  rw [hc] at this
  rcases this with hw | ⟨hf, hq⟩
  · exact .inl hw
  · exact .inr ⟨hf, hq, .inl (Function.update_self ..)⟩

/-- A client takes its signal. -/
theorem WakeInv.wait (h : WakeInv cap C v d queue env) :
    WakeInv cap (Function.update C c .free) v d queue
      { env with semaphore := Function.update env.semaphore c false } := by
  refine ⟨h.bound, fun c' => ?_, h.pending, h.stage.mono (fun _ => id) id le_rfl .inl, h.emptied⟩
  by_cases hc : c' = c
  · subst hc
    simp [ClientAt.Ok]
  · rw [Function.update_of_ne hc]
    exact (h.client c').frame (fun hw => hw.mono_flag id (by simp [hc])) id rfl rfl

/-! Steps of the virtualiser -/

/-- The virtualiser takes its notifications. -/
theorem WakeInv.notified (h : WakeInv cap C v d queue env) (hv : v.Rest) :
    WakeInv cap C ⟨env.virtClient, fun _ => env.virtDriver, fun _ => false, .rest⟩ d queue
      { env with virtDriver := false, virtClient := fun _ => false } := by
  refine ⟨h.bound, fun c => (h.client c).frame (fun hw => ?_) (fun hs => ?_) rfl rfl,
    fun c hp => ?_, trivial, h.emptied⟩
  · rcases hw with hw | hw | ⟨_, hw | hw⟩
    · exact .inl hw
    · rw [hv.stage] at hw
      exact nomatch hw
    · rw [hv.wake] at hw
      exact nomatch hw
    · rw [hv.stage] at hw
      exact hw.elim
  · rcases hs with hs | hs | hs | hs
    · exact .inr (.inr (.inl hs))
    · exact .inr (.inl hs)
    · rw [hv.provide] at hs
      exact nomatch hs
    · rw [hv.stage] at hs
      exact nomatch hs
  · rcases h.pending c hp with hA | hr
    · rcases hA with hA | hA | hA
      · exact .inl (.inl hA)
      · exact .inl (.inr (.inl hA))
      · exact .inr hA
    · rw [hv.resume] at hr
      exact nomatch hr

/-- The virtualiser finds a client not pending. -/
theorem WakeInv.skip (h : WakeInv cap C v d queue env) (hp : env.pending c = false) :
    WakeInv cap C { v with resume := Function.update v.resume c false } d queue env := by
  refine ⟨h.bound, fun c' => (h.client c').frame id id rfl rfl, fun c' hp' => ?_, h.stage, h.emptied⟩
  by_cases hc : c' = c
  · subst hc
    rw [hp] at hp'
    exact nomatch hp'
  · simpa [Function.update_of_ne hc] using h.pending c' hp'

/-- The virtualiser clears a client's `pending`. -/
theorem WakeInv.clear (h : WakeInv cap C v d queue env) (hv : v.stage = .rest) :
    WakeInv cap C { v with resume := Function.update v.resume c false, stage := .now c } d queue
      { env with pending := Function.update env.pending c false } := by
  refine ⟨h.bound, fun c' => (h.client c').frame (fun hw => ?_) (fun hs => ?_) rfl rfl,
    fun c' hp => ?_, trivial, h.emptied⟩
  · rcases hw with hw | hw | ⟨hf, hw | hw⟩
    · exact .inl hw
    · rw [hv] at hw
      exact nomatch hw
    · exact .inr (.inr ⟨hf, .inl hw⟩)
    · rw [hv] at hw
      exact hw.elim
  · rcases hs with hs | hs | hs | hs
    · exact .inl hs
    · by_cases hc : c' = c
      · subst hc
        exact .inr (.inr (.inr rfl))
      · exact .inr (.inl (by simpa [hc] using hs))
    · exact .inr (.inr (.inl hs))
    · rw [hv] at hs
      exact nomatch hs
  · by_cases hc : c' = c
    · subst hc
      simp at hp
    · simpa [Armed, hc] using h.pending c' (by simpa [hc] using hp)

/-- The virtualiser stands at no client but `c`. -/
def Stage.At (c : Fin n) (st : Stage n) : Prop := st = .rest ∨ st = .now c

theorem Stage.At.not_moves {st : Stage n} (h : st.At c) (c' : Fin n) : ¬st.Moves c' := by
  rcases h with rfl | rfl <;> exact id

theorem Stage.At.not_waking {st : Stage n} (h : st.At c) (c' : Fin n) : st ≠ .waking c' := by
  rcases h with rfl | rfl <;> exact nofun

/-- The virtualiser counts a client's bytes. -/
theorem WakeInv.count (h : WakeInv cap C v d queue env) (hv : v.stage.At c) {st : Stage n}
    (hst : st = .counted c .nothing ∧ queue (.client c) ≠ [] ∨ st = .rest ∧ queue (.client c) = []) :
    WakeInv cap C { v with provide := Function.update v.provide c false, stage := st } d queue env := by
  have hw : ∀ c', Woken v env c' →
      Woken { v with provide := Function.update v.provide c false, stage := st } env c' := by
    rintro c' (hw | hw | ⟨hf, hw | hw⟩)
    · exact .inl hw
    · exact (hv.not_waking c' hw).elim
    · exact .inr (.inr ⟨hf, .inl hw⟩)
    · exact (hv.not_moves c' hw).elim
  refine ⟨h.bound, fun c' => ?_, h.pending, ?_, h.emptied⟩
  · by_cases hc : c' = c
    · subst hc
      rcases hst with ⟨rfl, hq⟩ | ⟨rfl, hq⟩
      · exact (h.client c').mono (hw c') (fun hf _ _ => .inl (.inr (.inr ⟨hf, .inr rfl⟩))) .inr .inr
      · exact (h.client c').mono (hw c') (fun _ hne _ => (hne hq).elim) .inr .inr
    · refine (h.client c').frame (hw c') (fun hs => ?_) rfl rfl
      rcases hs with hs | hs | hs | hs
      · exact .inl hs
      · exact .inr (.inl hs)
      · exact .inr (.inr (.inl (by simpa [hc] using hs)))
      · rcases hv with hv | hv
        · rw [hv] at hs
          exact nomatch hs
        · rw [hv] at hs
          injection hs with hs
          exact (hc hs.symm).elim
  · rcases hst with ⟨rfl, hq⟩ | ⟨rfl, hq⟩
    · exact ⟨hq, trivial⟩
    · trivial

/-- What `move_client` learns of the driver queue. -/
theorem WakeInv.learn (h : WakeInv cap C v d queue env) {k k' : Know} (hv : v.stage = .counted c k)
    (hk : k.Ok cap d queue env → k'.Ok cap d queue env) :
    WakeInv cap C { v with stage := .counted c k' } d queue env := by
  have hst := h.stage
  rw [hv] at hst
  refine ⟨h.bound, fun c' => (h.client c').frame (fun hw => ?_) (fun hs => ?_) rfl rfl, h.pending,
    ⟨hst.1, hk hst.2⟩, h.emptied⟩
  · rcases hw with hw | hw | ⟨hf, hw | hw⟩
    · exact .inl hw
    · rw [hv] at hw
      exact nomatch hw
    · exact .inr (.inr ⟨hf, .inl hw⟩)
    · rw [hv] at hw
      exact .inr (.inr ⟨hf, .inr hw⟩)
  · rcases hs with hs | hs | hs | hs
    · exact .inl hs
    · exact .inr (.inl hs)
    · exact .inr (.inr (.inl hs))
    · rw [hv] at hs
      exact nomatch hs

/-- The virtualiser asks the driver for a signal. -/
theorem WakeInv.request_driver (h : WakeInv cap C v d queue env) {k : Know} (hv : v.stage = .counted c k) :
    WakeInv cap C { v with stage := .counted c .asked } d queue
      { env with producerSignalled := Function.update env.producerSignalled .driver 0 } := by
  have hzero : Function.update env.producerSignalled .driver 0 .driver = 0 := Function.update_self ..
  have hA : Armed d queue env →
      Armed d queue { env with producerSignalled := Function.update env.producerSignalled .driver 0 } := by
    rintro (⟨_, hA⟩ | hA)
    · exact .inl ⟨hzero, hA⟩
    · exact .inr hA
  have hflag : ∀ c',
    Function.update env.producerSignalled .driver 0 (.client c') = env.producerSignalled (.client c') :=
    fun c' => Function.update_of_ne (by simp) _ _
  have hlift : WakeInv cap C v d queue
      { env with producerSignalled := Function.update env.producerSignalled .driver 0 } := by
    refine ⟨h.bound, fun c' => ?_, fun c' hp => (h.pending c' hp).imp_left hA, ?_, h.emptied⟩
    · exact (h.client c').frame (fun hw => hw.mono_flag (fun hf => (hflag c').trans hf) id) id
        (hflag c') rfl
    · exact h.stage.mono (fun _ => id) hA le_rfl fun _ => .inl hzero
  exact hlift.learn hv fun _ => .inl hzero

/-- The virtualiser leaves a client pending. -/
theorem WakeInv.leave (h : WakeInv cap C v d queue env) (hv : v.stage = .counted c .tight) :
    WakeInv cap C { v with stage := .rest } d queue { env with pending := Function.update env.pending c true } := by
  have hst := h.stage
  rw [hv] at hst
  have hnot : ∀ c', c' ≠ c → ¬v.stage.Moves c' := by
    intro c' hc
    rw [hv]
    exact fun h => hc h.symm
  have hw : ∀ c', c' ≠ c → Woken v env c' →
      Woken { v with stage := .rest } { env with pending := Function.update env.pending c true } c' := by
    rintro c' hc (hw | hw | ⟨hf, hw | hw⟩)
    · exact .inl hw
    · rw [hv] at hw
      exact nomatch hw
    · exact .inr (.inr ⟨hf, .inl hw⟩)
    · exact (hnot c' hc hw).elim
  refine ⟨h.bound, fun c' => ?_, fun c' hp => ?_, trivial, h.emptied⟩
  · by_cases hc : c' = c
    · subst hc
      -- its bytes are all still in its queue, and it is now pending
      have hseen : Seen { v with stage := .rest }
        { env with pending := Function.update env.pending c' true } c' :=
        .inr (.inl (Function.update_self ..))
      have hcl := h.client c'
      have hkeep : Woken v env c' →
          Woken { v with stage := .rest } { env with pending := Function.update env.pending c' true } c' ∨
            env.producerSignalled (.client c') = 0 := by
        rintro (hw | hw | ⟨hf, _⟩)
        · exact .inl (.inl hw)
        · rw [hv] at hw
          exact nomatch hw
        · exact .inr hf
      cases hg : C c' with
      | free => trivial
      | full => exact .inr hst.1
      | asked =>
        rw [hg] at hcl
        rcases hcl with hcl | hcl
        · exact (hkeep hcl).imp_right fun hf => ⟨hf, hst.1⟩
        · exact .inr hcl
      | told =>
        rw [hg] at hcl
        rcases hcl with hcl | hcl
        · exact (hkeep hcl).imp_right fun hf => ⟨hf, hst.1, hseen⟩
        · exact .inr ⟨hcl.1, hcl.2.1, hseen⟩
    · refine (h.client c').frame (hw c' hc) (fun hs => ?_) rfl rfl
      rcases hs with hs | hs | hs | hs
      · exact .inl hs
      · exact .inr (.inl (by simpa [hc] using hs))
      · exact .inr (.inr (.inl hs))
      · rw [hv] at hs
        exact nomatch hs
  · by_cases hc : c' = c
    · exact .inl hst.2
    · exact h.pending c' (by simpa [hc] using hp)

/-- The virtualiser takes a byte of a client that still relies on being woken, or on nothing. -/
theorem WakeInv.take (h : WakeInv cap C v d queue env) (hv : v.stage.Moves c)
    (hfull : C c = .full → env.producerSignalled (.client c) = 0 ∨ env.semaphore c = true) :
    WakeInv cap C { v with stage := .taking c } d (Function.update queue (.client c)
      (queue (.client c)).tail) env := by
  have hother : ∀ c', v.stage ≠ .waking c' ∧ v.stage ≠ .now c' := by
    intro c'
    cases hs : v.stage with
    | waking _ =>
      rw [hs] at hv
      exact hv.elim
    | now _ =>
      rw [hs] at hv
      exact hv.elim
    | _ => exact ⟨nofun, nofun⟩
  have hw : ∀ c', Woken v env c' → Woken { v with stage := .taking c } env c' := by
    rintro c' (hw | hw | ⟨hf, hw | hw⟩)
    · exact .inl hw
    · exact ((hother c').1 hw).elim
    · exact .inr (.inr ⟨hf, .inl hw⟩)
    · exact .inr (.inr ⟨hf, .inr (hv.unique hw).symm⟩)
  refine ⟨fun q => ?_, fun c' => ?_, ?_, trivial, ?_⟩
  · by_cases hq : q = .client c
    · subst hq
      rw [Function.update_self, List.length_tail]
      exact (Nat.sub_le _ _).trans (h.bound _)
    · simpa [Function.update_of_ne hq] using h.bound q
  · by_cases hc : c' = c
    · subst hc
      -- the flag is clear, so the handler will notify when it is done
      have hflag : env.producerSignalled (.client c') = 0 → Woken { v with stage := .taking c' } env c' :=
        fun hf => .inr (.inr ⟨hf, .inr rfl⟩)
      have hcl := h.client c'
      cases hg : C c' with
      | free => trivial
      | full =>
        rcases hfull hg with hf | hs
        · exact .inl (hflag hf)
        · exact .inl (.inl hs)
      | asked =>
        rw [hg] at hcl
        rcases hcl with hcl | hcl
        · exact .inl (hw c' hcl)
        · exact .inl (hflag hcl.1)
      | told =>
        rw [hg] at hcl
        rcases hcl with hcl | hcl
        · exact .inl (hw c' hcl)
        · exact .inl (hflag hcl.1)
    · refine (h.client c').frame (hw c') (fun hs => ?_) rfl (by simp [hc])
      rcases hs with hs | hs | hs | hs
      · exact .inl hs
      · exact .inr (.inl hs)
      · exact .inr (.inr (.inl hs))
      · exact ((hother c').2 hs).elim
  · simpa [Armed] using h.pending
  · simpa using h.emptied

/-- The virtualiser puts a byte in the driver queue. -/
theorem WakeInv.put (h : WakeInv cap C v d queue env) (hv : v.stage = .taking c) (hd : d = .idle)
    (hlt : (queue .driver).length < cap .driver) (x : TxByte) :
    WakeInv cap C v d (Function.update queue .driver (queue .driver ++ [x])) env := by
  refine ⟨fun q => ?_, fun c' => (h.client c').frame id id rfl (by simp), fun c' hp => ?_, ?_, ?_⟩
  · by_cases hq : q = .driver
    · subst hq
      simpa using hlt
    · simpa [Function.update_of_ne hq] using h.bound q
  · refine (h.pending c' hp).imp_left ?_
    rintro (⟨hf, _⟩ | hA)
    · exact .inl ⟨hf, .inl (by simp)⟩
    · exact .inr hA
  · rw [hv]
    trivial
  · subst hd
    exact nofun

/-- The virtualiser has moved a client's bytes. -/
theorem WakeInv.finish (h : WakeInv cap C v d queue env) (hv : v.stage.Moves c) :
    WakeInv cap C { v with wake := Function.update v.wake c true, stage := .rest } d queue env := by
  refine ⟨h.bound, fun c' => (h.client c').frame (fun hw => ?_) (fun hs => ?_) rfl rfl, h.pending,
    trivial, h.emptied⟩
  · rcases hw with hw | hw | ⟨hf, hw | hw⟩
    · exact .inl hw
    · rw [hw] at hv
      exact hv.elim
    · refine .inr (.inr ⟨hf, .inl ?_⟩)
      by_cases hc : c' = c
      · subst hc
        exact Function.update_self ..
      · simpa [hc] using hw
    · refine .inr (.inr ⟨hf, .inl ?_⟩)
      obtain rfl := hv.unique hw
      exact Function.update_self ..
  · rcases hs with hs | hs | hs | hs
    · exact .inl hs
    · exact .inr (.inl hs)
    · exact .inr (.inr (.inl hs))
    · rw [hs] at hv
      exact hv.elim

/-- The client the virtualiser looks at has not asked for a signal. -/
theorem WakeInv.quiet (h : WakeInv cap C v d queue env) (hf : env.producerSignalled (.client c) ≠ 0) :
    WakeInv cap C { v with wake := Function.update v.wake c false } d queue env := by
  refine ⟨h.bound, fun c' => (h.client c').frame (fun hw => ?_) id rfl rfl, h.pending, h.stage, h.emptied⟩
  rcases hw with hw | hw | ⟨hf', hw | hw⟩
  · exact .inl hw
  · exact .inr (.inl hw)
  · refine .inr (.inr ⟨hf', .inl ?_⟩)
    by_cases hc : c' = c
    · subst hc
      exact (hf hf').elim
    · simpa [hc] using hw
  · exact .inr (.inr ⟨hf', .inr hw⟩)

/-- The virtualiser cancels a client's request, to notify it next. -/
theorem WakeInv.cancel (h : WakeInv cap C v d queue env) (hv : v.stage = .rest) :
    WakeInv cap C { v with wake := Function.update v.wake c false, stage := .waking c } d queue
      { env with producerSignalled := Function.update env.producerSignalled (.client c) 1 } := by
  have hflag : ∀ q, q ≠ .client c →
    Function.update env.producerSignalled (.client c) 1 q = env.producerSignalled q :=
    fun q hq => Function.update_of_ne hq _ _
  have hdriver := hflag .driver (by simp)
  refine ⟨h.bound, fun c' => ?_, ?_, trivial, h.emptied⟩
  · by_cases hc : c' = c
    · subst hc
      exact .of_woken _ (.inr (.inl rfl))
    · have hc' := hflag (.client c') (by simpa using hc)
      refine (h.client c').frame (fun hw => ?_) (fun hs => ?_) hc' rfl
      · rcases hw with hw | hw | ⟨hf, hw | hw⟩
        · exact .inl hw
        · rw [hv] at hw
          exact nomatch hw
        · exact .inr (.inr ⟨hc'.trans hf, .inl (by simpa [hc] using hw)⟩)
        · rw [hv] at hw
          exact hw.elim
      · rcases hs with hs | hs | hs | hs
        · exact .inl hs
        · exact .inr (.inl hs)
        · exact .inr (.inr (.inl hs))
        · rw [hv] at hs
          exact nomatch hs
  · simpa only [Armed, hdriver] using h.pending

/-- The virtualiser notifies a client. -/
theorem WakeInv.notify_client (h : WakeInv cap C v d queue env) (hv : v.stage = .waking c) :
    WakeInv cap C { v with stage := .rest } d queue
      { env with semaphore := Function.update env.semaphore c true } := by
  refine ⟨h.bound, fun c' => ?_, h.pending, trivial, h.emptied⟩
  by_cases hc : c' = c
  · subst hc
    exact .of_woken _ (.inl (Function.update_self ..))
  · refine (h.client c').frame (fun hw => ?_) (fun hs => ?_) rfl rfl
    · rcases hw with hw | hw | ⟨hf, hw | hw⟩
      · exact .inl (by simpa [hc] using hw)
      · rw [hv] at hw
        injection hw with hw
        exact (hc hw.symm).elim
      · exact .inr (.inr ⟨hf, .inl hw⟩)
      · rw [hv] at hw
        exact hw.elim
    · rcases hs with hs | hs | hs | hs
      · exact .inl hs
      · exact .inr (.inl hs)
      · exact .inr (.inr (.inl hs))
      · rw [hv] at hs
        exact nomatch hs

/-! Steps of the driver -/

/-- The driver moves on without touching the queue or the flag. -/
theorem WakeInv.driver_to (h : WakeInv cap C v d queue env) (hA : Armed d queue env → Armed d' queue env)
    (he : d'.emptied = true → queue .driver = []) : WakeInv cap C v d' queue env :=
  ⟨h.bound, h.client, fun c hp => (h.pending c hp).imp_left hA,
    h.stage.mono (fun _ => id) hA le_rfl .inl, he⟩

theorem Armed.to_driver (h : Armed d queue env) (hd : d ≠ .cancelled)
    (ht : d.took = true → d'.took = true) :
    Armed d' queue env := by
  rcases h with ⟨hf, h⟩ | h | h
  · exact .inl ⟨hf, h.imp_right ht⟩
  · exact (hd h).elim
  · exact .inr (.inr h)

/-- The driver takes a byte. -/
theorem WakeInv.drain {took : Bool} (h : WakeInv cap C v (.draining took) queue env) :
    WakeInv cap C v (.draining true) (Function.update queue .driver (queue .driver).tail) env := by
  have hA : Armed (.draining took) queue env →
      Armed (.draining true) (Function.update queue .driver (queue .driver).tail) env := by
    rintro (⟨hf, _⟩ | hA | hA)
    · exact .inl ⟨hf, .inr rfl⟩
    · exact nomatch hA
    · exact .inr (.inr hA)
  refine ⟨fun q => ?_, fun c => (h.client c).frame id id rfl (by simp),
    fun c hp => (h.pending c hp).imp_left hA, ?_, nofun⟩
  · by_cases hd : q = .driver
    · subst hd
      rw [Function.update_self, List.length_tail]
      exact (Nat.sub_le _ _).trans (h.bound _)
    · simpa [Function.update_of_ne hd] using h.bound q
  · exact h.stage.mono (fun c => by simp) hA (by simp) .inl

/-- The driver cancels the virtualiser's request, to notify it next. -/
theorem WakeInv.cancel_driver (h : WakeInv cap C v .firing queue env) :
    WakeInv cap C v .cancelled queue
      { env with producerSignalled := Function.update env.producerSignalled .driver 1 } := by
  have hflag : ∀ c,
    Function.update env.producerSignalled .driver 1 (.client c) = env.producerSignalled (.client c) :=
    fun c => Function.update_of_ne (by simp) _ _
  have hempty := h.emptied rfl
  refine ⟨h.bound, fun c => ?_, fun c hp => .inl (.inr (.inl rfl)), ?_, fun _ => hempty⟩
  · exact (h.client c).frame (fun hw => hw.mono_flag (fun hf => (hflag c).trans hf) id) id (hflag c) rfl
  · exact h.stage.mono (fun _ => id) (fun _ => .inr (.inl rfl)) le_rfl fun _ => .inr hempty

/-- The driver notifies the virtualiser. -/
theorem WakeInv.notify_driver (h : WakeInv cap C v d queue env) :
    WakeInv cap C v .idle queue { env with virtDriver := true } := by
  have hA : Armed .idle queue { env with virtDriver := true } := .inr (.inr rfl)
  exact ⟨h.bound, h.client, fun c hp => .inl hA,
    h.stage.mono (fun _ => id) (fun _ => hA) le_rfl .inl, nofun⟩

/-- Whether the driver has been notified does not matter. -/
theorem WakeInv.driverTx (h : WakeInv cap C v d queue env) (b : Bool) :
    WakeInv cap C v d queue { env with driverTx := b } :=
  ⟨h.bound, h.client, h.pending, h.stage.mono (fun _ => id) id le_rfl .inl, h.emptied⟩

end steps

/-! ### The domains keep it -/

def wakeOutline (cap : Queue n → Nat) :
    Outline (Pd n) (callSig (evSig n) (serialLib TxByte) (Queue n)) (txSystem n cap false).Lists where
  step := (txSystem n cap false).act fun _ => .loose
  Ghost
    | .client _ => ClientAt
    | .virt => VirtAt n
    | .driver => DriverAt
  ok
    | .client _, g, .ev .waitOnChannel => g = ClientAt.told
    | .client c, _, .ev (.requestConsumerSignal q) => q = .client c
    | .client _, g, _ => g ≠ ClientAt.full
    | .virt, g, .ev .notified => VirtAt.Rest g
    | .driver, g, .ev .drained => g = DriverAt.idle
    | _, _, _ => True
  calm
    | .client _, g => g ≠ ClientAt.full
    | _, _ => True
  may
    | .virt, G, s, o => G .driver = DriverAt.idle ∧ ∀ c, o = .call (.client c) .dequeue →
      G (.client c) = ClientAt.full →
        s.env.producerSignalled (.client c) = 0 ∨ s.env.semaphore c = true
    | _, _, _, _ => True
  inv G s := WakeInv cap (fun c => G (.client c)) (G .virt) (G .driver) s.queue s.env

section domains

variable {cap : Queue n → Nat}

variable {G : (t : Pd n) → (wakeOutline cap).Ghost t} {queue : Queue n → List TxByte} {env : Env n}
  {log : List (LogEntry n)}

theorem wake_client {c : Fin n} {g : (wakeOutline cap).Ghost (.client c)}
    (h : WakeInv cap (Function.update (fun c => G (.client c)) c g) (G .virt) (G .driver) queue env) :
    (wakeOutline cap).inv (Function.update G (.client c) g) ⟨queue, env, log⟩ := by
  have hC : (fun c' => Function.update G (.client c) g (.client c')) =
    Function.update (fun c => G (.client c)) c g := by
    funext c'
    by_cases hc : c' = c
    · subst hc
      exact (Function.update_self _ _ _).trans
        (Function.update_self (β := fun _ => ClientAt) c' g fun c => G (.client c)).symm
    · exact (Function.update_of_ne (by simpa using hc) _ _).trans
        (Function.update_of_ne (β := fun _ => ClientAt) hc g fun c => G (.client c)).symm
  change WakeInv cap (fun c' => Function.update G (.client c) g (.client c'))
    (Function.update G (.client c) g .virt)
    (Function.update G (.client c) g .driver) queue env
  rw [hC, Function.update_of_ne (by simp), Function.update_of_ne (by simp)]
  exact h

theorem wake_virt {g : (wakeOutline cap).Ghost .virt}
    (h : WakeInv cap (fun c => G (.client c)) g (G .driver) queue env) :
    (wakeOutline cap).inv (Function.update G .virt g) ⟨queue, env, log⟩ := by
  have hC : (fun c' => Function.update G .virt g (.client c')) = fun c => G (.client c) :=
    funext fun c' => Function.update_of_ne (by simp) _ _
  change WakeInv cap (fun c' => Function.update G .virt g (.client c')) (Function.update G .virt g .virt)
    (Function.update G .virt g .driver) queue env
  rw [hC, Function.update_self, Function.update_of_ne (by simp)]
  exact h

theorem wake_driver {g : (wakeOutline cap).Ghost .driver}
    (h : WakeInv cap (fun c => G (.client c)) (G .virt) g queue env) :
    (wakeOutline cap).inv (Function.update G .driver g) ⟨queue, env, log⟩ := by
  have hC : (fun c' => Function.update G .driver g (.client c')) = fun c => G (.client c) :=
    funext fun c' => Function.update_of_ne (by simp) _ _
  change WakeInv cap (fun c' => Function.update G .driver g (.client c'))
    (Function.update G .driver g .virt)
    (Function.update G .driver g .driver) queue env
  rw [hC, Function.update_self, Function.update_of_ne (by simp)]
  exact h

/-- What an event of the virtualiser has to show. -/
theorem wake_ev_virt {o : Ev n} {Q : o.Res → VirtAt n → Prop} {g : VirtAt n}
    (hok : (wakeOutline cap).ok .virt g (.ev o))
    (h : ∀ C queue env, WakeInv cap C g .idle queue env → ∀ ch r env',
      exec false .virt env o ch = some (r, env') →
      ∃ g', WakeInv cap C g' .idle queue env' ∧ Q r g') : (wakeOutline cap).Safe .virt (ev o) Q g := by
  refine ⟨hok, ?_⟩
  rintro G s rfl ⟨hd, _⟩ hi r s' ⟨ch, env, he, rfl⟩
  have hi : WakeInv cap (fun c => G (.client c)) (G .virt) (G .driver) s.queue s.env := hi
  rw [hd] at hi
  obtain ⟨g', hg', hQ⟩ := h _ _ _ hi ch r env he
  refine ⟨g', wake_virt ?_, hQ⟩
  rwa [hd]

/-- What a call of the virtualiser has to show. -/
theorem wake_call_virt {q : Queue n} {f : Fn TxByte} {Q : f.Res → VirtAt n → Prop} {g : VirtAt n}
    (h : ∀ C queue env, WakeInv cap C g .idle queue env →
      (∀ c, q = .client c → f = .dequeue → C c = .full →
        env.producerSignalled (.client c) = 0 ∨ env.semaphore c = true) →
      ∀ l r m, l.length = (queue q).length → (serialLib TxByte).spec (cap q) f l = (r, m) →
        ∃ g', WakeInv cap C g' .idle (Function.update queue q (Move.apply (queue q) m)) env ∧ Q r g') :
    (wakeOutline cap).Safe .virt (call q f) Q g := by
  refine ⟨trivial, ?_⟩
  rintro G s rfl ⟨hd, hm⟩ hi r s' ⟨l, m, hl, hspec, rfl⟩
  have hi : WakeInv cap (fun c => G (.client c)) (G .virt) (G .driver) s.queue s.env := hi
  rw [hd] at hi
  obtain ⟨g', hg', hQ⟩ := h _ _ _ hi (fun c hq hf => hm c (by rw [hq, hf])) l r m hl hspec
  refine ⟨g', wake_virt ?_, hQ⟩
  rwa [hd]

/-- What an event of the driver has to show. -/
theorem wake_ev_driver {o : Ev n} {Q : o.Res → DriverAt → Prop} {g : DriverAt}
    (hok : (wakeOutline cap).ok .driver g (.ev o))
    (h : ∀ C v queue env, WakeInv cap C v g queue env → ∀ ch r env',
      exec false .driver env o ch = some (r, env') →
      ∃ g', WakeInv cap C v g' queue env' ∧ Q r g') : (wakeOutline cap).Safe .driver (ev o) Q g := by
  refine ⟨hok, ?_⟩
  rintro G s rfl _ hi r s' ⟨ch, env, he, rfl⟩
  obtain ⟨g', hg', hQ⟩ := h _ _ _ _ hi ch r env he
  exact ⟨g', wake_driver hg', hQ⟩

/-- What an event of a client has to show. -/
theorem wake_ev_client {c : Fin n} {o : Ev n} {Q : o.Res → ClientAt → Prop} {g : ClientAt}
    (hok : (wakeOutline cap).ok (.client c) g (.ev o))
    (h : ∀ C v d queue env, C c = g → WakeInv cap C v d queue env →
      ∀ ch r env', exec false (.client c) env o ch = some (r, env') →
        ∃ g', WakeInv cap (Function.update C c g') v d queue env' ∧ Q r g') :
    (wakeOutline cap).Safe (.client c) (ev o) Q g := by
  refine ⟨hok, ?_⟩
  rintro G s rfl _ hi r s' ⟨ch, env, he, rfl⟩
  obtain ⟨g', hg', hQ⟩ := h _ _ _ _ _ rfl hi ch r env he
  exact ⟨g', wake_client hg', hQ⟩

/-! The virtualiser -/

theorem safe_failed {t : Pd n} {a : Assert} {α : Type} {Q : α → (wakeOutline cap).Ghost t → Prop}
    {g : (wakeOutline cap).Ghost t} (hok : (wakeOutline cap).ok t g (.ev (.fail a))) :
    (wakeOutline cap).Safe t (fail a) Q g :=
  ⟨hok, fun _ _ _ _ _ r => r.elim⟩

/-- An event that changes nothing the invariant sees. -/
theorem safe_idle {o : Ev n} {g : VirtAt n} (hok : (wakeOutline cap).ok .virt g (.ev o))
    (he : ∀ env ch r env', exec false .virt env o ch = some (r, env') → env' = env ∨ ∃ b, env' =
      { env with driverTx := b }) :
    (wakeOutline cap).Safe .virt (ev o) (fun _ g' => g' = g) g := by
  refine wake_ev_virt hok fun C queue env h ch r env' hex => ⟨g, ?_, rfl⟩
  rcases he env ch r env' hex with rfl | ⟨b, rfl⟩
  · exact h
  · exact h.driverTx b

theorem safe_virt_note (m : Note n) (g : VirtAt n) :
    (wakeOutline cap).Safe .virt (note m) (fun _ g' => g' = g) g := by
  refine safe_idle trivial fun env ch r env' he => .inl ?_
  cases he
  rfl

theorem safe_virt_notify (g : VirtAt n) :
    (wakeOutline cap).Safe .virt (notify .driver) (fun _ g' => g' = g) g := by
  refine safe_idle trivial fun env ch r env' he => .inr ⟨true, ?_⟩
  cases he
  rfl

/-- `move_client` reads the free space of the driver queue, and learns `next` of its length. -/
theorem safe_free (hcap : cap .driver < 2 ^ 32) {c : Fin n} {k : Know} {v : VirtAt n}
    (hv : v.stage = .counted c k)
    (next : Nat → Know) (P : Nat → Prop)
    (hnext : ∀ (queue : Queue n → List TxByte) env, k.Ok cap .idle queue env →
      (queue .driver).length ≤ cap .driver →
      (next (queue .driver).length).Ok cap .idle queue env ∧ P (queue .driver).length) :
    (wakeOutline cap).Safe .virt (serialQueueFree (BitVec.ofNat 32 (cap .driver)) .driver)
      (fun free g => ∃ len ≤ cap .driver, free.toNat = cap .driver - len ∧ P len ∧
        g = { v with stage := .counted c (next len) }) v := by
  refine Outline.Safe.seq (R := fun l g => l.toNat ≤ cap .driver ∧ P l.toNat ∧
    g = { v with stage := .counted c (next l.toNat) }) ?_ ?_
  · refine wake_call_virt fun C queue env h _ l r m hl hspec => ?_
    obtain ⟨rfl, rfl⟩ := Prod.mk.inj hspec
    have hb := h.bound .driver
    have hr : (BitVec.ofNat 32 l.length).toNat = (queue .driver).length := by
      rw [BitVec.toNat_ofNat, hl]
      omega
    have hst := h.stage
    rw [hv] at hst
    obtain ⟨hk, hP⟩ := hnext queue env hst.2 hb
    refine ⟨_, ?_, by rw [hr]; exact hb, by rw [hr]; exact hP, rfl⟩
    rw [Move.apply, Function.update_eq_self, hr]
    exact h.learn hv fun _ => hk
  · rintro l g ⟨hl, hP, rfl⟩
    have hc : (BitVec.ofNat 32 (cap .driver)).toNat = cap .driver := by
      rw [BitVec.toNat_ofNat]
      omega
    refine Outline.Safe.ite (fun hlt => ?_) fun _ => ?_
    · rw [BitVec.lt_def, hc] at hlt
      omega
    · refine ⟨l.toNat, hl, ?_, hP, rfl⟩
      rw [BitVec.toNat_sub_of_le (by rw [BitVec.le_def, hc]; exact hl), hc]

/-- A byte moves. -/
theorem safe_takeByte {c : Fin n} {v : VirtAt n} (hv : v.stage.Moves c) :
    (wakeOutline cap).Safe .virt (moveByte c) (fun _ g => g = { v with stage := .taking c }) v := by
  refine Outline.Safe.seq (R := fun _ g => g = { v with stage := .taking c }) ?_ ?_
  · refine wake_call_virt fun C queue env h hfull l r m hl hspec => ⟨_, ?_, rfl⟩
    have := h.take hv (hfull c rfl rfl)
    cases l with
    | nil =>
      obtain ⟨rfl, rfl⟩ := Prod.mk.inj hspec
      have hnil : queue (.client c) = [] := List.length_eq_zero_iff.mp hl.symm
      rwa [Move.apply, hnil, ← List.tail_nil, ← hnil]
    | cons a l =>
      obtain ⟨rfl, rfl⟩ := Prod.mk.inj hspec
      exact this
  · rintro got g rfl
    cases got with
    | none => exact safe_failed trivial
    | some x =>
      refine Outline.Safe.seq (R := fun _ g => g = { v with stage := .taking c }) ?_ ?_
      · refine wake_call_virt fun C queue env h _ l r m hl hspec => ⟨_, ?_, rfl⟩
        have hspec : push (cap .driver) x l = (r, m) := hspec
        unfold push at hspec
        split at hspec
        · obtain ⟨rfl, rfl⟩ := Prod.mk.inj hspec
          rwa [Move.apply, Function.update_eq_self]
        · obtain ⟨rfl, rfl⟩ := Prod.mk.inj hspec
          have := h.bound .driver
          exact h.put rfl rfl (by omega) x
      · rintro put g rfl
        exact Outline.Safe.ite (fun _ => rfl) fun _ => safe_failed trivial

/-- All the counted bytes move, or the client is left pending and the driver will notify. -/
theorem safe_wakeLength (hcap : cap .driver < 2 ^ 32) {c : Fin n} {v : VirtAt n}
    (hv : v.stage = .counted c .nothing)
    {length : BitVec 32} (hl : length.toNat ≤ cap .driver) :
    (wakeOutline cap).Safe .virt (moveLength (BitVec.ofNat 32 (cap .driver)) c length)
      (fun moved g => ∃ st, g = { v with stage := st } ∧ if moved then st.Moves c else st = .rest) v := by
  refine (safe_free hcap hv (fun len => .room (cap .driver - len)) (fun _ => True) ?_).seq ?_
  · intro queue env _ hb
    exact ⟨Nat.le_of_eq (Nat.add_sub_cancel' hb), trivial⟩
  rintro free g ⟨len, -, hfree, -, rfl⟩
  rw [← hfree]
  -- either there was room, or a signal has been asked for
  refine Outline.Safe.seq (R := fun _ g => ∃ k, g = { v with stage := .counted c k } ∧
    (k = .asked ∨ k = .room free.toNat ∧ length.toNat ≤ free.toNat)) ?_ ?_
  · refine Outline.Safe.when (fun _ => ?_) fun hle => ?_
    · refine wake_ev_virt trivial fun C queue env h ch r env' he => ⟨_, ?_, .asked, rfl, .inl rfl⟩
      obtain ⟨-, rfl⟩ := Prod.mk.inj (Option.some.inj he)
      exact h.request_driver rfl
    · rw [BitVec.not_lt, BitVec.le_def] at hle
      exact ⟨_, rfl, .inr ⟨rfl, hle⟩⟩
  rintro _ g ⟨k, rfl, hk⟩
  refine Outline.Safe.seq (R := fun free g => ∃ k, g = { v with stage := .counted c k } ∧
    (free < length → k = .tight)) ?_ ?_
  · rcases hk with rfl | ⟨rfl, hle⟩
    · -- a queue that is not empty still has its flag cleared
      refine (safe_free hcap rfl (fun len => if len = 0 then .nothing
        else .tight) (fun _ => True) ?_).mono ?_
      · intro queue env hask _
        refine ⟨?_, trivial⟩
        split
        · trivial
        · rename_i hne
          have hne : queue .driver ≠ [] := fun h => hne (by rw [h]; rfl)
          exact .inl ⟨hask.resolve_right hne, .inl hne⟩
      · rintro free' g ⟨len, hlen, hfree', -, rfl⟩
        refine ⟨_, rfl, fun hlt => if_neg ?_⟩
        rw [BitVec.lt_def, hfree'] at hlt
        omega
    · -- the room that was read is still there
      refine (safe_free hcap rfl (fun _ => .nothing) (fun len => len + free.toNat ≤ cap .driver) ?_).mono ?_
      · exact fun queue env hroom _ => ⟨trivial, hroom⟩
      · rintro free' g ⟨len, hlen, hfree', hroom, rfl⟩
        refine ⟨_, rfl, fun hlt => ?_⟩
        rw [BitVec.lt_def, hfree'] at hlt
        omega
  rintro free' g ⟨k, rfl, htight⟩
  refine Outline.Safe.ite (fun hlt => ?_) fun _ => ?_
  · obtain rfl := htight hlt
    refine Outline.Safe.seq (R := fun _ g => g = { v with stage := .rest }) ?_ ?_
    · refine wake_ev_virt trivial fun C queue env h ch r env' he => ⟨_, ?_, rfl⟩
      obtain ⟨-, rfl⟩ := Prod.mk.inj (Option.some.inj he)
      exact h.leave rfl
    · rintro _ g rfl
      exact ⟨.rest, rfl, rfl⟩
  · refine Outline.Safe.seq (R := fun _ g => ∃ st, g = { v with stage := st } ∧ st.Moves c) ?_ ?_
    · refine Outline.Safe.each (O := wakeOutline cap) (t := .virt)
        (fun _ g => ∃ st, g = { v with stage := st } ∧ st.Moves c) ?_ (fun _ h => h) ⟨_, rfl, rfl⟩
      rintro _ _ g ⟨st, rfl, hst⟩
      refine (safe_takeByte hst).mono ?_
      rintro _ g rfl
      exact ⟨_, rfl, rfl⟩
    · rintro _ g ⟨st, rfl, hst⟩
      exact ⟨st, rfl, hst⟩

/-- The clients the handler may still look at. -/
structure VirtAt.Within (v : VirtAt n) (P R W : Fin n → Prop) : Prop where
  provide : ∀ c, v.provide c = true → P c
  resume : ∀ c, v.resume c = true → R c
  wake : ∀ c, v.wake c = true → W c

theorem VirtAt.Within.mono {v : VirtAt n} {P R W P' R' W' : Fin n → Prop} (h : v.Within P R W)
    (hP : ∀ c, P c → P' c)
    (hR : ∀ c, R c → R' c) (hW : ∀ c, W c → W' c) : v.Within P' R' W' :=
  ⟨fun c hc => hP c (h.provide c hc), fun c hc => hR c (h.resume c hc), fun c hc => hW c (h.wake c hc)⟩

theorem of_update_false {f : Fin n → Bool} {c c' : Fin n} (h : Function.update f c false c' = true) :
    f c' = true ∧ c' ≠ c := by
  by_cases hc : c' = c
  · subst hc
    simp at h
  · exact ⟨by simpa [hc] using h, hc⟩

theorem of_update_true {f : Fin n → Bool} {c c' : Fin n} (h : Function.update f c true c' = true) :
    f c' = true ∨ c' = c := by
  by_cases hc : c' = c
  · exact .inr hc
  · exact .inl (by simpa [hc] using h)

/-- `move_client` looks at a client, and remembers it when it moved its bytes. -/
theorem safe_wakeMove (hcap : cap .driver < 2 ^ 32) (hle : ∀ c, cap (.client c) ≤ cap .driver)
    {c : Fin n} {v : VirtAt n}
    {P R W : Fin n → Prop} (hv : v.stage.At c) (hw : v.Within P R W) :
    (wakeOutline cap).Safe .virt (moveClient (BitVec.ofNat 32 (cap .driver)) c)
      (fun moved g => g.stage = .rest ∧ g.Within (fun c' => P c' ∧ c' ≠ c) R fun c' => W c' ∨
        moved = true ∧ c' = c) v := by
  refine Outline.Safe.seq (R := fun length g => length.toNat ≤ cap .driver ∧ ∃ st,
    g = { v with provide := Function.update v.provide c false, stage := st } ∧
      if length = 0 then st = .rest else st = .counted c .nothing) ?_ ?_
  · refine wake_call_virt fun C queue env h _ l r m hl hspec => ?_
    obtain ⟨rfl, rfl⟩ := Prod.mk.inj hspec
    have hb := h.bound (.client c)
    have hc := hle c
    have hr : (BitVec.ofNat 32 l.length).toNat = (queue (.client c)).length := by
      rw [BitVec.toNat_ofNat, hl]
      omega
    refine ⟨_, ?_,
      by rw [hr]; omega, if BitVec.ofNat 32 l.length = 0 then .rest else .counted c .nothing, rfl, ?_⟩
    · rw [Move.apply, Function.update_eq_self]
      refine h.count hv ?_
      split
      · rename_i hz
        rw [hz] at hr
        exact .inr ⟨rfl, List.length_eq_zero_iff.mp hr.symm⟩
      · rename_i hz
        refine .inl ⟨rfl, fun hnil => hz (BitVec.eq_of_toNat_eq ?_)⟩
        rw [hr, hnil]
        rfl
    · split <;> rfl
  rintro length g ⟨hlen, st, rfl, hst⟩
  refine (safe_virt_note _ _).seq ?_
  rintro _ g rfl
  refine Outline.Safe.seq (R := fun moved g => ∃ st,
    g = { v with provide := Function.update v.provide c false, stage := st } ∧
      if moved then st.Moves c else st = .rest) ?_ ?_
  · refine Outline.Safe.ite (fun hz => ⟨st, rfl, by simpa [hz] using hst⟩) fun hz => ?_
    rw [if_neg hz] at hst
    subst hst
    exact safe_wakeLength (c := c)
      (v := { v with provide := Function.update v.provide c false, stage := .counted c .nothing })
        hcap rfl hlen
  rintro moved g ⟨st, rfl, hst⟩
  refine Outline.Safe.seq (R := fun _ (g : VirtAt n) => g.stage = .rest ∧
    g.Within (fun c' => P c' ∧ c' ≠ c) R fun c' => W c' ∨ moved = true ∧ c' = c) ?_ fun _ g hg => hg
  refine wake_ev_virt trivial fun C queue env h ch r env' he => ?_
  obtain ⟨-, rfl⟩ := Prod.mk.inj (Option.some.inj he)
  have hprov : ∀ c', Function.update v.provide c false c' = true → P c' ∧ c' ≠ c :=
    fun c' hc' => ⟨hw.provide c' (of_update_false hc').1, (of_update_false hc').2⟩
  cases moved with
  | false =>
    obtain rfl : st = .rest := hst
    exact ⟨_, h, rfl, hprov, hw.resume, fun c' hc' => .inl (hw.wake c' hc')⟩
  | true =>
    refine ⟨_, h.finish hst, rfl, hprov, hw.resume, fun c' hc' => ?_⟩
    exact (of_update_true hc').imp (hw.wake c') fun h => ⟨rfl, h⟩

/-- `wake_client` notifies a client that asked for it. -/
theorem safe_wake {c : Fin n} {v : VirtAt n} {P R W : Fin n → Prop} (hv : v.stage = .rest)
    (hw : v.Within P R W) :
    (wakeOutline cap).Safe .virt (wakeClient c)
      (fun _ g => g.stage = .rest ∧ g.Within P R fun c' => W c' ∧ c' ≠ c) v := by
  have hwake : ∀ c', Function.update v.wake c false c' = true → W c' ∧ c' ≠ c :=
    fun c' hc' => ⟨hw.wake c' (of_update_false hc').1, (of_update_false hc').2⟩
  refine Outline.Safe.seq (R := fun required (g : VirtAt n) => if required = true then g = v
    else g.stage = .rest ∧ g.Within P R fun c' => W c' ∧ c' ≠ c) ?_ ?_
  · refine wake_ev_virt trivial fun C queue env h ch r env' he => ?_
    obtain ⟨rfl, rfl⟩ := Prod.mk.inj (Option.some.inj he)
    by_cases hf : env.producerSignalled (.client c) = 0
    · exact ⟨v, h, by rw [if_pos (by simpa using hf)]⟩
    · refine ⟨_, h.quiet hf, ?_⟩
      rw [if_neg (by simpa using hf)]
      exact ⟨hv, hw.provide, hw.resume, hwake⟩
  rintro required g hg
  refine Outline.Safe.when (fun h => ?_) fun h => by rwa [if_neg h] at hg
  rw [if_pos h] at hg
  subst hg
  refine Outline.Safe.seq
    (R := fun _ g' => g' = { g with wake := Function.update g.wake c false, stage := .waking c }) ?_ ?_
  · refine wake_ev_virt trivial fun C queue env h ch r env' he => ⟨_, ?_, rfl⟩
    obtain ⟨-, rfl⟩ := Prod.mk.inj (Option.some.inj he)
    exact h.cancel hv
  · rintro _ g' rfl
    refine wake_ev_virt trivial fun C queue env h ch r env' he => ?_
    obtain ⟨-, rfl⟩ := Prod.mk.inj (Option.some.inj he)
    exact ⟨_, h.notify_client rfl, rfl, hw.provide, hw.resume, hwake⟩

theorem safe_wakeProvide (hcap : cap .driver < 2 ^ 32) (hle : ∀ c, cap (.client c) ≤ cap .driver)
    {c : Fin n}
    {v : VirtAt n} {P : Fin n → Prop} (hv : v.stage = .rest)
      (hw : v.Within P (fun _ => False) fun _ => False) :
    (wakeOutline cap).Safe .virt (provide (BitVec.ofNat 32 (cap .driver)) c)
      (fun _ g => g.stage = .rest ∧ g.Within (fun c' => P c' ∧ c' ≠ c) (fun _ => False) fun _ =>
        False) v := by
  refine (safe_wakeMove hcap hle (.inl hv) hw).seq ?_
  rintro moved g ⟨hst, hg⟩
  refine Outline.Safe.when (fun _ => ?_) fun hm => ⟨hst, hg.mono (fun _ => id) (fun _ => id) ?_⟩
  · refine (safe_virt_notify g).seq ?_
    rintro _ g rfl
    refine (safe_wake hst hg).mono ?_
    rintro _ g' ⟨hst, hg⟩
    refine ⟨hst, hg.mono (fun _ => id) (fun _ => id) ?_⟩
    rintro c' ⟨h | h, hc⟩
    · exact h
    · exact hc h.2
  · rintro c' (h | h)
    · exact h
    · exact hm h.1

/-- `resume_pending` looks at every pending client and wakes the ones whose bytes it moved. -/
theorem safe_wakeResume (hcap : cap .driver < 2 ^ 32) (hle : ∀ c, cap (.client c) ≤ cap .driver)
    {v : VirtAt n} {P : Fin n → Prop} (hv : v.stage = .rest)
      (hw : v.Within P (fun _ => True) fun _ => False) :
    (wakeOutline cap).Safe .virt (resumePending (BitVec.ofNat 32 (cap .driver)))
      (fun _ g => g.stage = .rest ∧ g.Within P (fun _ => False) fun _ => False) v := by
  refine Outline.Safe.seq (R := fun acc (g : VirtAt n) => g.stage = .rest ∧
    g.Within P (fun _ => False) fun c => acc.1 c = true) ?_ ?_
  · refine Outline.Safe.fold (O := wakeOutline cap) (t := .virt)
      (fun xs acc (g : VirtAt n) => g.stage = .rest ∧
      g.Within P (fun c => c ∈ xs) fun c => acc.1 c = true) ?_ ?_ ?_
    · rintro c xs acc g ⟨hst, hg⟩
      refine Outline.Safe.seq (R := fun pending (g' : VirtAt n) => g'.stage = .rest ∧
        if pending = true then g' = g else g'.Within P (fun c => c ∈ xs) fun c => acc.1 c = true) ?_ ?_
      · refine wake_ev_virt trivial fun C queue env h ch r env' he => ?_
        obtain ⟨rfl, rfl⟩ := Prod.mk.inj (Option.some.inj he)
        cases hp : env.pending c with
        | true => exact ⟨g, h, hst, rfl⟩
        | false =>
          refine ⟨_, h.skip hp, hst, hg.provide, fun c' hc' => ?_, hg.wake⟩
          obtain ⟨hr, hne⟩ := of_update_false hc'
          exact (List.mem_cons.mp (hg.resume c' hr)).resolve_left hne
      rintro pending g' ⟨hst', hg'⟩
      refine Outline.Safe.ite (fun h => ?_) fun h => ?_
      · rw [if_pos h] at hg'
        subst hg'
        refine Outline.Safe.seq (R := fun _ (g : VirtAt n) => g.stage = .now c ∧
          g.Within P (fun c => c ∈ xs) fun c => acc.1 c = true) ?_ ?_
        · refine wake_ev_virt trivial fun C queue env h ch r env' he => ?_
          obtain ⟨-, rfl⟩ := Prod.mk.inj (Option.some.inj he)
          refine ⟨_, h.clear hst, rfl, hg.provide, fun c' hc' => ?_, hg.wake⟩
          obtain ⟨hr, hne⟩ := of_update_false hc'
          exact (List.mem_cons.mp (hg.resume c' hr)).resolve_left hne
        rintro _ g ⟨hst, hg⟩
        refine (safe_wakeMove hcap hle (.inr hst) hg).seq ?_
        rintro moved g ⟨hst, hg⟩
        refine ⟨hst, hg.mono (fun _ h => h.1) (fun _ => id) ?_⟩
        rintro c' (h | ⟨rfl, rfl⟩)
        · cases moved with
          | false => exact h
          | true =>
            by_cases hc : c' = c
            · subst hc
              simp
            · simpa [hc] using h
        · simp
      · rw [if_neg h] at hg'
        exact ⟨hst', hg'⟩
    · rintro acc g ⟨hst, hg⟩
      exact ⟨hst, hg.mono (fun _ => id) (fun _ h => nomatch h) fun _ => id⟩
    · exact ⟨hv, hw.mono (fun _ => id) (fun c _ => List.mem_finRange c) fun _ => False.elim⟩
  rintro acc g ⟨hst, hg⟩
  refine Outline.Safe.seq (R := fun _ g' => g' = g) ?_ ?_
  · exact Outline.Safe.when (fun _ => safe_virt_notify g) fun _ => rfl
  rintro _ g rfl
  refine Outline.Safe.each (O := wakeOutline cap) (t := .virt) (fun xs (g : VirtAt n) => g.stage = .rest ∧
    g.Within P (fun _ => False) fun c => c ∈ xs ∧ acc.1 c = true) ?_ ?_ ?_
  · rintro c xs g ⟨hst, hg⟩
    refine Outline.Safe.when (fun _ => (safe_wake hst hg).mono ?_) fun hn => ⟨hst,
      hg.mono (fun _ => id) (fun _ => id) ?_⟩
    · rintro _ g ⟨hst, hg⟩
      refine ⟨hst, hg.mono (fun _ => id) (fun _ => id) ?_⟩
      rintro c' ⟨⟨hc', h⟩, hne⟩
      exact ⟨(List.mem_cons.mp hc').resolve_left hne, h⟩
    · rintro c' ⟨hc', h⟩
      refine ⟨(List.mem_cons.mp hc').resolve_left ?_, h⟩
      rintro rfl
      exact hn h
  · rintro g ⟨hst, hg⟩
    exact ⟨hst, hg.mono (fun _ => id) (fun _ => id) fun _ h => nomatch h.1⟩
  · exact ⟨hst, hg.mono (fun _ => id) (fun _ => id) fun c h => ⟨List.mem_finRange c, h⟩⟩

theorem VirtAt.Within.rest {v : VirtAt n} (hv : v.stage = .rest)
    (h : v.Within (fun _ => False) (fun _ => False) fun _ => False) : v.Rest :=
  ⟨fun c => Bool.eq_false_iff.mpr (h.provide c), fun c => Bool.eq_false_iff.mpr (h.resume c),
    fun c => Bool.eq_false_iff.mpr (h.wake c), hv⟩

theorem safe_wakeVirt (hcap : cap .driver < 2 ^ 32) (hle : ∀ c, cap (.client c) ≤ cap .driver)
    {v : VirtAt n}
    (hv : v.Rest) :
    (wakeOutline cap).Safe .virt (virtLoop (BitVec.ofNat 32 (cap .driver))) (fun _ _ => True) v := by
  refine Outline.Safe.forever (O := wakeOutline cap)
    (t := .virt) VirtAt.Rest hv (fun _ _ => trivial) fun g hg => ?_
  refine Outline.Safe.seq (R := fun channels (g : VirtAt n) => g.stage = .rest ∧
    g.Within (fun c => channels.client c = true) (fun _ => channels.driver = true) fun _ => False) ?_ ?_
  · refine wake_ev_virt hg fun C queue env h ch r env' he => ?_
    simp only [exec, Bool.false_eq_true, if_false] at he
    split at he
    · obtain ⟨rfl, rfl⟩ := Prod.mk.inj (Option.some.inj he)
      exact ⟨_, h.notified hg, rfl, fun _ => id, fun _ => id, nofun⟩
    · exact nomatch he
  rintro channels g ⟨hst, hg⟩
  refine Outline.Safe.seq (R := fun _ (g : VirtAt n) => g.stage = .rest ∧
    g.Within (fun c => channels.client c = true) (fun _ => False) fun _ => False) ?_ ?_
  · refine Outline.Safe.when (fun _ => ?_) fun hn => ⟨hst, hg.mono (fun _ => id) (fun _ => hn) fun _ => id⟩
    exact safe_wakeResume hcap hle hst (hg.mono (fun _ => id) (fun _ _ => trivial) fun _ => id)
  rintro _ g ⟨hst, hg⟩
  refine Outline.Safe.each (O := wakeOutline cap) (t := .virt) (fun xs (g : VirtAt n) => g.stage = .rest ∧
    g.Within (fun c => c ∈ xs ∧ channels.client c = true) (fun _ => False) fun _ => False) ?_ ?_ ?_
  · rintro c xs g ⟨hst, hg⟩
    refine Outline.Safe.when (fun _ => (safe_wakeProvide hcap hle hst hg).mono ?_) fun hn =>
      ⟨hst, hg.mono ?_ (fun _ => id) fun _ => id⟩
    · rintro _ g ⟨hst, hg⟩
      refine ⟨hst, hg.mono ?_ (fun _ => id) fun _ => id⟩
      rintro c' ⟨⟨hc', h⟩, hne⟩
      exact ⟨(List.mem_cons.mp hc').resolve_left hne, h⟩
    · rintro c' ⟨hc', h⟩
      refine ⟨(List.mem_cons.mp hc').resolve_left ?_, h⟩
      rintro rfl
      exact hn h
  · rintro g ⟨hst, hg⟩
    exact VirtAt.Within.rest hst (hg.mono (fun _ h => nomatch h.1) (fun _ => id) fun _ => id)
  · exact ⟨hst, hg.mono (fun c h => ⟨List.mem_finRange c, h⟩) (fun _ => id) fun _ => id⟩

/-! The driver and the clients -/

/-- Where the driver stands after a dequeue. -/
def DriverAt.afterTake (took : Bool) (got : Option TxByte) : DriverAt :=
  if got.isSome then .draining true else if took then .drained else .idle

theorem safe_wakeDriver : (wakeOutline cap).Safe .driver driverLoop (fun _ _ => True) DriverAt.idle := by
  refine Outline.Safe.forever (O := wakeOutline cap) (t := .driver) (fun g => g = DriverAt.idle) rfl
    (fun _ _ => trivial) ?_
  rintro g rfl
  refine Outline.Safe.seq (R := fun _ g => g = DriverAt.draining false) ?_ ?_
  · refine wake_ev_driver rfl fun C v queue env h ch r env' he => ⟨_, ?_, rfl⟩
    obtain ⟨-, rfl⟩ := Prod.mk.inj (Option.some.inj he)
    have hA : Armed .idle queue env → Armed (.draining false) queue env :=
      fun hA => hA.to_driver (by intro h; cases h) (by intro h; cases h)
    exact (h.driver_to hA (by intro h; cases h)).driverTx false
  rintro _ g rfl
  refine Outline.Safe.seq (R := fun transferred g =>
    g = if transferred = true then DriverAt.drained else DriverAt.idle) ?_ ?_
  · refine Outline.Safe.iterate (O := wakeOutline cap) (t := .driver)
      (fun took g => g = DriverAt.draining took) rfl
      (fun _ _ _ => trivial) ?_
    rintro took g rfl
    refine Outline.Safe.seq (R := fun got g => g = DriverAt.afterTake took got) ?_ ?_
    · refine ⟨trivial, ?_⟩
      rintro G s hg _ hi r s' ⟨l, m, hl, hspec, rfl⟩
      have hi : WakeInv cap (fun c => G (.client c)) (G .virt) (G .driver) s.queue s.env := hi
      rw [hg] at hi
      cases l with
      | nil =>
        obtain ⟨rfl, rfl⟩ := Prod.mk.inj hspec
        have hnil : s.queue .driver = [] := List.length_eq_zero_iff.mp hl.symm
        cases took with
        | true =>
          refine ⟨.drained, wake_driver ?_, rfl⟩
          rw [Move.apply, Function.update_eq_self]
          exact hi.driver_to (fun hA => hA.to_driver (by intro h; cases h) fun _ => rfl) fun _ => hnil
        | false =>
          refine ⟨.idle, wake_driver ?_, rfl⟩
          rw [Move.apply, Function.update_eq_self]
          refine hi.driver_to ?_ (by intro h; cases h)
          rintro (⟨_, hA | hA⟩ | hA | hA)
          · exact (hA hnil).elim
          · cases hA
          · cases hA
          · exact .inr (.inr hA)
      | cons a l =>
        obtain ⟨rfl, rfl⟩ := Prod.mk.inj hspec
        exact ⟨_, wake_driver hi.drain, rfl⟩
    rintro got g rfl
    cases got with
    | none => exact rfl
    | some x =>
      refine Outline.Safe.seq (R := fun _ g => g = DriverAt.draining true) ?_ ?_
      · refine wake_ev_driver trivial fun C v queue env h ch r env' he => ⟨_, ?_, rfl⟩
        cases ch with
        | accepted ok =>
          obtain ⟨-, rfl⟩ := Prod.mk.inj (Option.some.inj he)
          exact h
        | _ => cases he
      · rintro accepted g rfl
        exact Outline.Safe.ite (fun _ => rfl) fun _ => safe_failed trivial
  rintro transferred g rfl
  refine Outline.Safe.when (fun h => ?_) fun h => if_neg h
  rw [if_pos h]
  refine Outline.Safe.seq (R := fun required g => g = if required = true then DriverAt.firing
    else DriverAt.idle) ?_ ?_
  · refine wake_ev_driver trivial fun C v queue env h ch r env' he => ?_
    obtain ⟨rfl, rfl⟩ := Prod.mk.inj (Option.some.inj he)
    refine ⟨_, ?_, rfl⟩
    have hempty := h.emptied rfl
    by_cases hf : env.producerSignalled .driver = 0
    · rw [if_pos (by simpa using hf)]
      exact h.driver_to (fun hA => hA.to_driver (by intro h; cases h) fun _ => rfl) fun _ => hempty
    · rw [if_neg (by simpa using hf)]
      refine h.driver_to ?_ (by intro h; cases h)
      rintro (⟨hA, _⟩ | hA | hA)
      · exact (hf hA).elim
      · cases hA
      · exact .inr (.inr hA)
  rintro required g rfl
  refine Outline.Safe.when (fun h => ?_) fun h => if_neg h
  rw [if_pos h]
  refine Outline.Safe.seq (R := fun _ g => g = DriverAt.cancelled) ?_ ?_
  · refine wake_ev_driver trivial fun C v queue env h ch r env' he => ⟨_, ?_, rfl⟩
    obtain ⟨-, rfl⟩ := Prod.mk.inj (Option.some.inj he)
    exact h.cancel_driver
  · rintro _ g rfl
    refine wake_ev_driver trivial fun C v queue env h ch r env' he => ⟨_, ?_, rfl⟩
    obtain ⟨-, rfl⟩ := Prod.mk.inj (Option.some.inj he)
    exact h.notify_driver

theorem safe_emit_notify (c : Fin n) {g : ClientAt} (hg : g ≠ .full) (g' : ClientAt)
    (h : g' = g ∨ g = .asked ∧ g' = .told) :
    (wakeOutline cap).Safe (.client c) (notify .virt) (fun _ g => g = g') g := by
  refine wake_ev_client hg fun C v d queue env hC hi ch r env' he => ⟨_, ?_, rfl⟩
  obtain ⟨-, rfl⟩ := Prod.mk.inj (Option.some.inj he)
  rcases h with rfl | ⟨rfl, rfl⟩
  · subst hC
    rw [Function.update_eq_self]
    exact hi.notify_virt
  · exact hi.tell hC

theorem safe_wakeClients (hpos : ∀ q, 0 < cap q) (c : Fin n) :
    (wakeOutline cap).Safe (.client c) (emitLoop c) (fun _ _ => True) ClientAt.free := by
  refine Outline.Safe.forever (O := wakeOutline cap) (t := .client c) (fun g => g = ClientAt.free) rfl ?_ ?_
  · rintro g rfl
    intro h
    cases h
  rintro g rfl
  refine Outline.Safe.seq (R := fun _ g => g = ClientAt.free) ?_ ?_
  · refine wake_ev_client (by intro h; cases h) fun C v d queue env hC hi ch r env' he => ⟨_, ?_, rfl⟩
    cases ch with
    | bytes bs =>
      obtain ⟨-, rfl⟩ := Prod.mk.inj (Option.some.inj he)
      exact hi.client_to trivial
    | _ => cases he
  rintro bytes g rfl
  refine Outline.Safe.seq (R := fun _ g => g = ClientAt.free) ?_ ?_
  · refine Outline.Safe.each (O := wakeOutline cap) (t := .client c)
      (fun _ g => g = ClientAt.free) ?_ (fun _ h => h)
      (Eq.refl ClientAt.free)
    rintro byte _ g rfl
    refine Outline.Safe.iterate (O := wakeOutline cap) (t := .client c)
      (fun _ g => g = ClientAt.free) rfl ?_ ?_
    · rintro _ g rfl
      intro h
      cases h
    rintro _ g rfl
    refine Outline.Safe.seq (R := fun status g => g = if status = (0 : Int) then ClientAt.free
      else .full) ?_ ?_
    · refine ⟨(by intro h; cases h), ?_⟩
      rintro G s hg _ hi r s' ⟨l, m, hl, hspec, rfl⟩
      have hi : WakeInv cap (fun c => G (.client c)) (G .virt) (G .driver) s.queue s.env := hi
      have hspec : push (cap (.client c)) ⟨c.val, byte⟩ l = (r, m) := hspec
      unfold push at hspec
      split at hspec
      · rename_i hfull
        obtain ⟨rfl, rfl⟩ := Prod.mk.inj hspec
        refine ⟨.full, wake_client ?_, rfl⟩
        rw [Move.apply, Function.update_eq_self]
        refine hi.client_to (.inr fun hnil => ?_)
        have := hpos (.client c)
        rw [hnil, List.length_nil] at hl
        omega
      · rename_i hfull
        obtain ⟨rfl, rfl⟩ := Prod.mk.inj hspec
        have := hi.bound (.client c)
        exact ⟨.free, wake_client ((hi.push (by omega) _).client_to trivial), rfl⟩
    rintro status g rfl
    refine Outline.Safe.ite (fun h => if_pos h) fun h => ?_
    rw [if_neg h]
    refine Outline.Safe.seq (R := fun _ g => g = ClientAt.asked) ?_ ?_
    · refine wake_ev_client rfl fun C v d queue env hC hi ch r env' he => ⟨_, ?_, rfl⟩
      obtain ⟨-, rfl⟩ := Prod.mk.inj (Option.some.inj he)
      exact hi.request hC
    rintro _ g rfl
    refine (safe_emit_notify c (g := .asked) (by intro h; cases h) .told (.inr ⟨rfl, rfl⟩)).seq ?_
    rintro _ g rfl
    refine Outline.Safe.seq (R := fun _ g => g = ClientAt.free) ?_ fun _ g (hg : g = ClientAt.free) => hg
    refine wake_ev_client rfl fun C v d queue env hC hi ch r env' he => ⟨_, ?_, rfl⟩
    simp only [exec] at he
    split at he
    · obtain ⟨-, rfl⟩ := Prod.mk.inj (Option.some.inj he)
      exact hi.wait
    · cases he
  · rintro _ g rfl
    exact safe_emit_notify c (g := .free) (by intro h; cases h) .free (.inl rfl)

end domains

/-! ### Every run -/

theorem wake_init (cap : Queue n → Nat) : WakeInv cap (fun _ => .free)
    ⟨fun _ => false, fun _ => false, fun _ => false, .rest⟩
    .idle (fun _ => []) (Env.zeroed n) where
  bound _ := Nat.zero_le _
  client _ := trivial
  pending _ h := nomatch h
  stage := trivial
  emptied _ := rfl

theorem wake_holds {cap : Queue n → Nat} (hpos : ∀ q, 0 < cap q) (hcap : cap .driver < 2 ^ 32)
    (hle : ∀ c, cap (.client c) ≤ cap .driver) :
    (wakeOutline cap).Holds ⟨programs cap emitLoop, emptyLists cap false⟩ := by
  refine ⟨fun t => match t with
    | .client _ => ClientAt.free
    | .virt => (⟨fun _ => false, fun _ => false, fun _ => false, .rest⟩ : VirtAt n)
    | .driver => DriverAt.idle, wake_init cap, ?_⟩
  intro t
  cases t with
  | client c => exact safe_wakeClients hpos c
  | virt => exact safe_wakeVirt hcap hle ⟨fun _ => rfl, fun _ => rfl, fun _ => rfl, rfl⟩
  | driver => exact safe_wakeDriver

/-- A client about to ask for a signal is about to do so over the lists. -/
theorem at_request {cap : Queue n → Nat} {a : State (Pd n)
    (callSig (evSig n) (serialLib TxByte) (Queue n)) (txSystem n cap false).Lists}
    {s : (txSystem n cap false).Conf} (hr : System.Rel (txSystem n cap false) (fun _ => .loose) a s)
    {c : Fin n} (hu : System.ThreadUses (Calls (.client c)) (s.thread (.client c))) {o : Ev n}
    {k : o.Res → TxProg n Empty} (hp : a.prog (.client c) = .act (.ev o) k) : At s (.client c) o := by
  have ht := hr.thread (.client c)
  cases hth : s.thread (.client c) with
  | run p =>
    rw [hth] at ht
    obtain rfl : a.prog (.client c) = p := ht
    change System.nextEvent (s.thread (.client c)) = some o
    rw [hth, hp]
    rfl
  | call q f m k' =>
    rw [hth] at ht hu
    obtain ⟨⟨_, x, rfl⟩, _⟩ := hu
    obtain ⟨st, A, _, _, _, he, hleft⟩ : ∃ st A, _ ∧ _ ∧ _ ∧ _ ∧ _ := ht
    rcases he with he | rfl
    · exact nomatch he
    · rw [hp] at hleft
      exact nomatch hleft

theorem nextCall_of_shown {th : Thread (evSig n) (serialLib TxByte) (Queue n)} {q : Queue n} {f : Fn TxByte}
    {k : f.Res → TxProg n Empty} (h : th.shown = .act (.call q f) k) : nextCall th = some (q, f) := by
  cases th with
  | run p =>
    obtain rfl : p = .act (.call q f) k := h
    rfl
  | call q' f' m k' =>
    simp only [Thread.shown] at h
    injection h with _ h
    injection h with hq hf
    rw [nextCall, hq, hf]

theorem fits_loose {cap : Queue n → Nat} {spurious : Bool} (hcap : ∀ q, Ring.Counts 32 (cap q)) :
    System.Fits (txSystem n cap spurious) fun _ => .loose where
  cap := hcap
  lin q f _ := serialLib_linearises (hcap q) nofun f
  body _ f b := serialLib_body f b

/-- The scheduling rule, over the lists: the virtualiser runs while the driver waits, and does not overtake
a client. -/
def Careful {cap : Queue n → Nat}
    (a : State (Pd n) (callSig (evSig n) (serialLib TxByte) (Queue n)) (txSystem n cap false).Lists)
      (t : Pd n) : Prop :=
  t = .virt → (∃ k, a.prog .driver = .act (.ev .drained) k) ∧
    ∀ c k k', a.prog .virt = .act (.call (.client c) .dequeue) k →
      a.prog (.client c) = .act (.ev (.requestConsumerSignal (.client c))) k' →
      a.mem.env.producerSignalled (.client c) = 0 ∨ a.mem.env.semaphore c = true

theorem careful_of_scheduled {cap : Queue n → Nat}
    {a : State (Pd n) (callSig (evSig n) (serialLib TxByte) (Queue n)) (txSystem n cap false).Lists}
    {s : (txSystem n cap false).Conf} (hr : System.Rel (txSystem n cap false) (fun _ => .loose) a s)
    (hu : ∀ t, System.ThreadUses (Calls t) (s.thread t)) {t : Pd n} (hp : a.prog t = (s.thread t).shown)
    (hm : Scheduled s t ∧ (t = .virt → ∀ c, ¬Overtakes s c)) : Careful a t := by
  rintro rfl
  obtain ⟨k, hk⟩ := System.At.thread hm.1
  have hd := hr.thread .driver
  rw [hk] at hd
  refine ⟨⟨k, hd⟩, fun c k k' hv hc => ?_⟩
  by_contra hnot
  refine hm.2 rfl c ⟨nextCall_of_shown (hp ▸ hv), at_request hr (hu _) hc, ?_, ?_⟩
  · rw [← hr.env]
    exact fun h => hnot (.inl h)
  · rw [← hr.env]
    exact Bool.eq_false_iff.mpr fun h => hnot (.inr h)

/-- A client whose ghost is `full` stands at its request. -/
theorem request_of_full {cap : Queue n → Nat} {G : (t : Pd n) → (wakeOutline cap).Ghost t}
    {prog : Pd n → TxProg n Empty} (hc : (wakeOutline cap).Covers G prog) {c : Fin n}
    (hg : G (.client c) = ClientAt.full) : ∃ k,
      prog (.client c) = .act (.ev (.requestConsumerSignal (.client c))) k := by
  cases hp : prog (.client c) with
  | ret x => exact x.elim
  | loop body b k => exact (hc.calm hp hg).elim
  | act o k =>
    have hok := hc.ok hp
    cases o with
    | call q f => exact (hok hg).elim
    | ev o =>
      cases o with
      | requestConsumerSignal q =>
        obtain rfl : q = .client c := hok
        exact ⟨k, rfl⟩
      | waitOnChannel =>
        rw [hg] at hok
        exact nomatch hok
      | _ => exact (hok hg).elim

theorem may_of_careful {cap : Queue n → Nat}
    {a : State (Pd n) (callSig (evSig n) (serialLib TxByte) (Queue n)) (txSystem n cap false).Lists}
    {t : Pd n} {G : (t : Pd n) → (wakeOutline cap).Ghost t}
      {o : CallOp (evSig n) (serialLib TxByte) (Queue n)}
    {k : (callSig (evSig n) (serialLib TxByte) (Queue n)).Res o → TxProg n Empty} (hm : Careful a t)
    (hp : a.prog t = .act o k) (hc : (wakeOutline cap).Covers G a.prog) :
      (wakeOutline cap).may t G a.mem o := by
  cases t with
  | client c => trivial
  | driver => trivial
  | virt =>
    obtain ⟨⟨kd, hd⟩, hover⟩ := hm rfl
    refine ⟨hc.ok hd, ?_⟩
    rintro c rfl hg
    obtain ⟨k', hk'⟩ := request_of_full hc hg
    exact hover c k k' hp hk'

/-- In every run in which no handler takes a byte of a client between its failed `serial_enqueue` and its
request, whenever a client is blocked in `emit` somebody is about to wake it. -/
theorem emit_woken {cap : Queue n → Nat} (hcap : ∀ q, 0 < cap q ∧ cap q < 2 ^ 32)
    (hle : ∀ c, cap (.client c) ≤ cap .driver)
    {s : (txSystem n cap false).Conf}
    (h : System.Reaches (txSystem n cap false)
      (fun s t => Scheduled s t ∧ (t = .virt → ∀ c, ¬Overtakes s c))
      (boot cap false emitLoop) s)
    (hd : At s .driver .drained) (c : Fin n) (hb : Blocked s c) : Awaited s c := by
  obtain ⟨a, hreach, hrel⟩ := System.simulates (fits_loose fun q => ⟨(hcap q).1, (hcap q).2⟩) _
    (rel_boot cap false emitLoop .loose) (fun s hs => exclusive all_emitLoop hs)
    (fun a s t hs hr hp hm => careful_of_scheduled hr (uses all_emitLoop hs) hp hm) h
  obtain ⟨G, hinv, hcov⟩ := Outline.holds_of_reach (wake_holds (fun q => (hcap q).1) (hcap .driver).2 hle)
    (fun a t G o k hm hp hc => may_of_careful hm hp hc) hreach
  have hinv : WakeInv cap (fun c => G (.client c)) (G .virt) (G .driver) a.mem.queue a.mem.env := hinv
  rw [hrel.env] at hinv
  have hat : ∀ t o, At s t o → (wakeOutline cap).ok t (G t) (.ev o) := by
    intro t o h
    obtain ⟨k, hk⟩ := h.thread
    have hp := hrel.thread t
    rw [hk] at hp
    exact hcov.ok hp
  have htold : G (.client c) = ClientAt.told := hat _ _ hb.1
  have hidle : G .driver = DriverAt.idle := hat _ _ hd
  unfold Awaited
  by_cases hv : At s .virt .notified
  swap
  · exact .inl hv
  have hrest : VirtAt.Rest (G .virt) := hat _ _ hv
  by_cases hund : s.env.undelivered = true
  · exact .inr (.inl hund)
  -- nobody runs, so the client was seen and left pending
  have hvirt : s.env.virtDriver = false ∧ s.env.virtClient c = false := by
    simp only [Env.undelivered, Bool.or_eq_true, List.any_eq_true, List.mem_finRange, true_and,
      not_or, not_exists,
      Bool.not_eq_true] at hund
    exact ⟨hund.1, hund.2 c⟩
  have hcl : (ClientAt.told).Ok (G .virt) a.mem.queue s.env c := htold ▸ hinv.client c
  have hnot : ¬Woken (G .virt) s.env c := by
    rintro (hw | hw | ⟨_, hw | hw⟩)
    · rw [hb.2] at hw
      exact nomatch hw
    · rw [hrest.stage] at hw
      exact nomatch hw
    · rw [hrest.wake] at hw
      exact nomatch hw
    · rw [hrest.stage] at hw
      exact hw
  obtain ⟨_, _, hseen⟩ := hcl.resolve_left hnot
  have hpend : s.env.pending c = true := by
    rcases hseen with h | h | h | h
    · rw [hvirt.2] at h
      exact nomatch h
    · exact h
    · rw [hrest.provide] at h
      exact nomatch h
    · rw [hrest.stage] at h
      exact nomatch h
  rcases hinv.pending c hpend with hA | hr
  · rw [hidle] at hA
    rcases hA with ⟨hf, hq | hq⟩ | hA | hA
    · refine .inr (.inr ⟨hpend, ?_, hf⟩)
      rw [(hrel.ring .driver).2]
      exact fun hlen => hq (List.length_eq_zero_iff.mp hlen)
    · exact nomatch hq
    · exact nomatch hA
    · rw [hvirt.1] at hA
      exact nomatch hA
  · rw [hrest.resume] at hr
    exact nomatch hr

/-! ### A client that nobody wakes -/

/-- One client, and one place in each queue. -/
def onePlace : Queue 1 → Nat := fun _ => 1

/-- The only client. -/
def lone : Pd 1 := .client ⟨0, Nat.one_pos⟩

/-- The client queues a byte, finds its queue full, asks for a signal and waits. -/
def askAndWait : List (Pd 1 × Choice 1) :=
  List.flatten [
    [(.driver, .none), (.virt, .none), (lone, .none), (lone, .bytes [65, 66])], .replicate 12 (lone, .none)]

/-- The virtualiser moves the byte and wakes the client, which queues its second byte and, with the driver
queue full, leaves it there. It then finds its queue full; before it asks for a signal the driver drains
and the virtualiser empties the client's queue. -/
def overtaken : List (Pd 1 × Choice 1) :=
  List.flatten [
    askAndWait, .replicate 27 (.virt, .none), .replicate 9 (lone, .none), .replicate 15 (.virt, .none),
    [(lone, .bytes [67])], .replicate 4 (lone, .none), .replicate 16 (.driver, .accepted true),
      .replicate 27 (.virt, .none),
    .replicate 2 (lone, .none), .replicate 7 (.virt, .none)]

theorem overtaken_runs :
    ((boot onePlace false emitLoop).runs (fun s t => decide (Scheduled s t)) overtaken).map (fun s =>
      (decide (At s .driver .drained), decide (At s (.client 0) .waitOnChannel), s.env.semaphore 0,
        decide (At s .virt .notified), s.env.undelivered, s.env.pending 0)) =
      some (true, true, false, true, false, false) := by
  decide +kernel

/-- There the client waits with nothing on its way to it. -/
theorem emit_not_woken : (∀ c, onePlace (.client c) ≤ onePlace .driver) ∧
    ∃ s : (txSystem 1 onePlace false).Conf,
    System.Reaches (txSystem 1 onePlace false) Scheduled (boot onePlace false emitLoop) s ∧
      At s .driver .drained ∧ Blocked s 0 ∧ ¬Awaited s 0 := by
  obtain ⟨s, hs, hv⟩ := Option.map_eq_some_iff.mp overtaken_runs
  simp only [Prod.mk.injEq, decide_eq_true_eq] at hv
  obtain ⟨hd, hw, hsem, hn, hund, hpend⟩ := hv
  refine ⟨fun _ => le_rfl, s, System.Reaches.init.runs (fun s t h => by simpa using h) hs, hd,
    ⟨hw, hsem⟩, ?_⟩
  rintro (h | h | ⟨h, -⟩)
  · exact h hn
  · rw [hund] at h
    exact nomatch h
  · rw [hpend] at h
    exact nomatch h

/-- The virtualiser moves the first byte and leaves the second, the driver's queue being full. The
client queues a third, finds its queue full and waits. -/
def leftPending : List (Pd 1 × Choice 1) :=
  List.flatten [
    askAndWait, .replicate 27 (.virt, .none), .replicate 9 (lone, .none), .replicate 15 (.virt, .none),
    [(lone, .bytes [67])], .replicate 6 (lone, .none), .replicate 15 (.virt, .none)]

theorem leftPending_runs :
    ((boot onePlace false emitLoop).runs
      (fun s t => decide (Scheduled s t ∧ (t = .virt → ∀ c, ¬Overtakes s c))) leftPending).map (fun s =>
      (decide (At s .driver .drained), decide (At s (.client 0) .waitOnChannel), s.env.semaphore 0,
        decide (At s .virt .notified), s.env.undelivered, s.env.pending 0)) =
      some (true, true, false, true, false, true) := by
  decide +kernel

/-- There nothing but the pending flag and the driver's queue promise to wake the client. -/
theorem emit_woken_first : ∃ s : (txSystem 1 onePlace false).Conf,
    System.Reaches (txSystem 1 onePlace false)
      (fun s t => Scheduled s t ∧ (t = .virt → ∀ c, ¬Overtakes s c))
      (boot onePlace false emitLoop) s ∧ Blocked s 0 ∧ At s .virt .notified ∧
        s.env.undelivered = false ∧ Awaited s 0 := by
  obtain ⟨s, hs, hv⟩ := Option.map_eq_some_iff.mp leftPending_runs
  simp only [Prod.mk.injEq, decide_eq_true_eq] at hv
  obtain ⟨hd, hw, hsem, hn, hund, -⟩ := hv
  have hreach := System.Reaches.init.runs (fun s t h => of_decide_eq_true h) hs
  have hwoken := emit_woken (fun _ => ⟨Nat.one_pos, by norm_num [onePlace]⟩)
    (fun _ => le_rfl) hreach hd 0 ⟨hw, hsem⟩
  exact ⟨s, hreach, ⟨hw, hsem⟩, hn, hund, hwoken⟩

end Lerux.Serial

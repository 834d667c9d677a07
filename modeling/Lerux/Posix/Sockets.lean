import Lerux.Base.Outcome
import Lerux.Posix.Files
import Mathlib.Logic.Relation

/-!
# One socket over a pipe

`Sockets` keeps the order of the calls, and the caller owns the stack behind `Tcp`. The pipe may
answer anything: it may take some of the bytes, none, or fail, and its time may end at any poll.
`send` passes the failure on even when bytes went before it.
-/

namespace Lerux.Posix

@[match_pattern] def Errno.eagain : Errno := ⟨11⟩
def Errno.eopnotsupp : Errno := ⟨95⟩
def Errno.enotconn : Errno := ⟨107⟩
def Errno.etimedout : Errno := ⟨110⟩

namespace Socket

open Lerux.Base

structure Tcp (σ : Type) where
  start : σ → σ
  poll : σ → Bool × σ
  connect : (Fin 4 → UInt8) → UInt16 → σ → Except Errno Unit × σ
  ready : σ → Bool
  failed : σ → Bool
  send : List UInt8 → σ → Except Errno Nat × σ
  /-- The buffer comes back as the pipe leaves it. -/
  recv : List UInt8 → σ → (Except Errno Nat × List UInt8) × σ
  listen : UInt16 → σ → Except Errno Unit × σ
  shutdown : σ → Except Errno Bool × σ
  finish : σ → σ

inductive Phase
  | empty | idle | listening | connecting | open | closed
deriving DecidableEq

/-- `touched` is the phase at every call of the pipe so far, and `taken` what the pipe has taken. -/
structure Sockets (σ : Type) where
  tcp : σ
  phase : Phase
  fd : UInt8
  touched : List Phase
  taken : List UInt8

/-- The error is missing while the pipe keeps a loop waiting longer than the model looks. -/
abbrev Call (σ : Type) : Type → Type := EStateM (Option Errno) (Sockets σ)

variable {σ : Type} (tcp : Tcp σ)

/-- A call of the pipe. -/
def ask {α : Type} (f : σ → α × σ) : Call σ α := do
  let s ← get
  set { s with tcp := (f s.tcp).2, touched := s.touched ++ [s.phase] }
  pure (f s.tcp).1

def tell (f : σ → σ) : Call σ Unit := ask fun p => ((), f p)

/-- Bytes for the pipe, which takes the first of them. -/
def offer (data : List UInt8) : Call σ (Except Errno Nat) := do
  let answer ← ask (tcp.send data)
  modify fun s => { s with taken := s.taken ++ data.take (answer.toOption.getD 0) }
  pure answer

def setPhase (phase : Phase) : Call σ Unit := modify fun s => { s with phase }

def fail {α : Type} (err : Errno) : Call σ α := throw (some err)

/-! ### The calls -/

def live (fd : UInt8) : Call σ Unit := do
  if fd ≠ (← get).fd then fail .ebadf

def «open» (fd : UInt8) : Call σ Unit := do
  live fd
  if (← get).phase ≠ .open then fail .enotconn

def sendLoop : Nat → List UInt8 → Nat → Call σ Nat
  | 0, _, _ => throw none
  | fuel + 1, data, sent => do
    if data = [] then pure sent
    else
      match ← offer tcp data with
      | .ok 0 | .error .eagain =>
        if !(← ask tcp.poll) then fail .etimedout else sendLoop fuel data sent
      | .ok n => sendLoop fuel (data.drop (min n data.length)) (sent + min n data.length)
      | .error err => fail err

def send (fuel : Nat) (fd : UInt8) (data : List UInt8) : Call σ Nat := do
  «open» fd
  if data = [] then pure 0
  else
    tell tcp.start
    sendLoop tcp fuel data 0

def shutdownLoop : Nat → Call σ Unit
  | 0 => throw none
  | fuel + 1 => do
    match ← ask tcp.shutdown with
    | .ok true => setPhase .closed
    | .ok false =>
      if !(← ask tcp.poll) then
        setPhase .closed
        fail .etimedout
      else shutdownLoop fuel
    | .error err =>
      setPhase .closed
      fail err

def shutdown (fuel : Nat) (fd : UInt8) : Call σ Unit := do
  «open» fd
  tell tcp.start
  shutdownLoop tcp fuel

def recvLoop : Nat → List UInt8 → Call σ (Nat × List UInt8)
  | 0, _ => throw none
  | fuel + 1, buf => do
    let (answer, buf) ← ask (tcp.recv buf)
    match answer with
    | .ok 0 =>
      setPhase .closed
      pure (0, buf)
    | .ok n => pure (n, buf)
    | .error .eagain =>
      if !(← ask tcp.poll) then fail .etimedout else recvLoop fuel buf
    | .error err => fail err

/-- The count and the buffer. -/
def recv (fuel : Nat) (fd : UInt8) (buf : List UInt8) : Call σ (Nat × List UInt8) := do
  «open» fd
  if buf = [] then pure (0, buf)
  else
    tell tcp.start
    recvLoop tcp fuel buf

/-! ### What is asked of the pipe, and when -/

section touches

variable {s s' : Sockets σ} {α β : Type}

/-- What the pipe is asked between two states, it is asked in the open phase. In another phase
nothing changes. -/
def OnlyOpen (s s' : Sockets σ) : Prop :=
  (∃ k, s'.touched = s.touched ++ List.replicate k .open) ∧ (s.phase ≠ .open → s' = s)

def AsksOnlyOpen (x : Call σ α) (s : Sockets σ) : Prop := Ends x s (fun _ => OnlyOpen s) fun _ => OnlyOpen s

theorem OnlyOpen.refl (s : Sockets σ) : OnlyOpen s s := ⟨⟨0, (List.append_nil _).symm⟩, fun _ => rfl⟩

theorem OnlyOpen.asked (h : OnlyOpen s' s) (hopen : s.phase = .open) (hopen' : s'.phase = .open)
    (pipe : σ) :
    OnlyOpen s' { s with tcp := pipe, touched := s.touched ++ [s.phase] } := by
  obtain ⟨⟨k, hk⟩, _⟩ := h
  refine ⟨⟨k + 1, ?_⟩, fun hne => absurd hopen' hne⟩
  rw [hk, hopen, List.append_assoc, List.replicate_succ']

theorem ends_open {fd : UInt8} {x : Call σ α} {Q : α → Sockets σ → Prop}
    {R : Option Errno → Sockets σ → Prop}
    (hx : fd = s.fd → s.phase = .open → Ends x s Q R)
      (herr : ∀ err, ¬(fd = s.fd ∧ s.phase = .open) → R (some err) s) :
    Ends («open» fd >>= fun _ => x) s Q R := by
  refine Ends.bind (Ends.bind ?_)
  refine Ends.bind (Ends.get (Ends.ite (fun hfd => ?_) fun hfd => ?_))
  · exact Ends.throw (herr _ fun h => hfd h.1)
  · refine Ends.pure (Ends.bind (Ends.get (Ends.ite (fun hphase => ?_) fun hphase => ?_)))
    · exact Ends.throw (herr _ fun h => hphase h.2)
    · exact Ends.pure (hx (Decidable.not_not.mp hfd) (Decidable.not_not.mp hphase))

/-- A call of the pipe and what follows it. -/
theorem ends_ask {f : σ → α × σ} {g : α → Call σ β} {t : Sockets σ} (h : OnlyOpen s t)
    (hopen : s.phase = .open) (ht : t.phase = .open)
    (hnext : ∀ a u, u.phase = .open → OnlyOpen s u →
      Ends (g a) u (fun _ => OnlyOpen s) fun _ => OnlyOpen s) :
    Ends (ask f >>= g) t (fun _ => OnlyOpen s) fun _ => OnlyOpen s :=
  Ends.bind (hnext (f t.tcp).1 _ ht (h.asked ht hopen _))

theorem ends_offer {data : List UInt8} {g : Except Errno Nat → Call σ β} {t : Sockets σ}
    (h : OnlyOpen s t) (hopen : s.phase = .open)
    (ht : t.phase = .open)
    (hnext : ∀ a u, u.phase = .open → OnlyOpen s u →
      Ends (g a) u (fun _ => OnlyOpen s) fun _ => OnlyOpen s) :
    Ends (offer tcp data >>= g) t (fun _ => OnlyOpen s) fun _ => OnlyOpen s :=
  Ends.bind (hnext (tcp.send data t.tcp).1 _ ht ⟨(h.asked ht hopen t.tcp).1, fun hne => absurd hopen hne⟩)

theorem ends_closed {t : Sockets σ} {x : Call σ α} (h : OnlyOpen s t) (hopen : s.phase = .open)
    (hx : ∀ u, OnlyOpen s u → Ends x u (fun _ => OnlyOpen s) fun _ => OnlyOpen s) :
    Ends (setPhase .closed >>= fun _ => x) t (fun _ => OnlyOpen s) fun _ => OnlyOpen s :=
  Ends.bind (hx _ ⟨h.1, fun hne => absurd hopen hne⟩)

theorem sendLoop_asks (hopen : s.phase = .open) (fuel : Nat) :
    ∀ (data : List UInt8) (sent : Nat) (t : Sockets σ), t.phase = .open →
    OnlyOpen s t → Ends (sendLoop tcp fuel data sent) t (fun _ => OnlyOpen s) fun _ => OnlyOpen s := by
  induction fuel with
  | zero => exact fun _ _ _ _ h => h
  | succ fuel ih =>
    intro data sent t ht h
    refine Ends.ite (fun _ => h) fun _ => ends_offer tcp h hopen ht fun answer u hu h => ?_
    split
    · exact ends_ask h hopen hu fun go v hv h => Ends.ite (fun _ => h) fun _ => ih _ _ v hv h
    · exact ends_ask h hopen hu fun go v hv h => Ends.ite (fun _ => h) fun _ => ih _ _ v hv h
    · exact ih _ _ _ hu h
    · exact h

theorem send_asks (fuel : Nat) (fd : UInt8) (data : List UInt8) :
    AsksOnlyOpen (send tcp fuel fd data) s := by
  refine ends_open (fun _ hopen => ?_) fun _ _ => OnlyOpen.refl s
  refine Ends.ite (fun _ => OnlyOpen.refl s) fun _ => ?_
  exact ends_ask (OnlyOpen.refl s) hopen hopen fun _ t ht h => sendLoop_asks tcp hopen fuel data 0 t ht h

theorem shutdownLoop_asks (hopen : s.phase = .open) (fuel : Nat) : ∀ t : Sockets σ,
    t.phase = .open → OnlyOpen s t →
    Ends (shutdownLoop tcp fuel) t (fun _ => OnlyOpen s) fun _ => OnlyOpen s := by
  induction fuel with
  | zero => exact fun _ _ h => h
  | succ fuel ih =>
    intro t ht h
    refine ends_ask h hopen ht fun answer u hu h => ?_
    split
    · exact ⟨h.1, fun hne => absurd hopen hne⟩
    · refine ends_ask h hopen hu fun go v hv h => Ends.ite (fun _ => ?_) fun _ => ih v hv h
      exact ends_closed h hopen fun _ h => h
    · exact ends_closed h hopen fun _ h => h

theorem shutdown_asks (fuel : Nat) (fd : UInt8) : AsksOnlyOpen (shutdown tcp fuel fd) s := by
  refine ends_open (fun _ hopen => ?_) fun _ _ => OnlyOpen.refl s
  exact ends_ask (OnlyOpen.refl s) hopen hopen fun _ t ht h => shutdownLoop_asks tcp hopen fuel t ht h

theorem recvLoop_asks (hopen : s.phase = .open) (fuel : Nat) : ∀ (buf : List UInt8) (t : Sockets σ),
    t.phase = .open → OnlyOpen s t →
    Ends (recvLoop tcp fuel buf) t (fun _ => OnlyOpen s) fun _ => OnlyOpen s := by
  induction fuel with
  | zero => exact fun _ _ _ h => h
  | succ fuel ih =>
    intro buf t ht h
    refine ends_ask h hopen ht fun ⟨answer, buf⟩ u hu h => ?_
    dsimp only
    split
    · exact ends_closed h hopen fun _ h => Ends.pure h
    · exact h
    · exact ends_ask h hopen hu fun go v hv h => Ends.ite (fun _ => h) fun _ => ih _ v hv h
    · exact h

theorem recv_asks (fuel : Nat) (fd : UInt8) (buf : List UInt8) : AsksOnlyOpen (recv tcp fuel fd buf) s := by
  refine ends_open (fun _ hopen => ?_) fun _ _ => OnlyOpen.refl s
  refine Ends.ite (fun _ => OnlyOpen.refl s) fun _ => ?_
  exact ends_ask (OnlyOpen.refl s) hopen hopen fun _ t ht h => recvLoop_asks tcp hopen fuel buf t ht h

end touches

/-! ### What is sent -/

section sent

variable {data rest : List UInt8} {s : Sockets σ} {α β : Type}

/-- The pipe takes nothing now and may take something later. -/
def Full (answer : Except Errno Nat) : Prop := answer = .ok 0 ∨ answer = .error .eagain

/-- While bytes are left, the pipe takes some of them, or none and the time lasts. -/
inductive Serves (tcp : Tcp σ) : List UInt8 × σ → List UInt8 × σ → Prop
  | takes {data pipe n} : data ≠ [] → (tcp.send data pipe).1 = .ok n → 0 < n →
      Serves tcp (data, pipe) (data.drop n, (tcp.send data pipe).2)
  | waits {data pipe} : data ≠ [] → Full (tcp.send data pipe).1 →
      (tcp.poll (tcp.send data pipe).2).1 = true →
      Serves tcp (data, pipe) (data, (tcp.poll (tcp.send data pipe).2).2)

/-- The pipe fails, or takes nothing until the time is spent. -/
def Refuses (tcp : Tcp σ) (data : List UInt8) (pipe : σ) : Prop :=
  (∃ err, err ≠ .eagain ∧ (tcp.send data pipe).1 = .error err) ∨
    Full (tcp.send data pipe).1 ∧ (tcp.poll (tcp.send data pipe).2).1 = false

/-- The pipe never refuses bytes when it has taken some of the data and not yet all. -/
def AllOrNothing (tcp : Tcp σ) (data : List UInt8) (pipe : σ) : Prop :=
  ∀ rest pipe', Relation.ReflTransGen (Serves tcp) (data, pipe) (rest, pipe') → rest ≠ [] →
    Refuses tcp rest pipe' → rest = data

theorem ask_bind (f : σ → α × σ) (g : α → Call σ β) :
    (ask f >>= g) s = g (f s.tcp).1 { s with tcp := (f s.tcp).2, touched := s.touched ++ [s.phase] } := rfl

theorem offer_bind (g : Except Errno Nat → Call σ β) :
    (offer tcp data >>= g) s = g (tcp.send data s.tcp).1 { s with
      tcp := (tcp.send data s.tcp).2, touched := s.touched ++ [s.phase],
      taken := s.taken ++ data.take ((tcp.send data s.tcp).1.toOption.getD 0) } := rfl

variable {tcp}

theorem sendLoop_full (fuel sent : Nat) (hrest : rest ≠ []) (hfull : Full (tcp.send rest s.tcp).1) :
    sendLoop tcp (fuel + 1) rest sent s = (ask tcp.poll >>= fun go => if !go then fail .etimedout
      else sendLoop tcp fuel rest sent)
      { s with tcp := (tcp.send rest s.tcp).2, touched := s.touched ++ [s.phase] } := by
  rw [sendLoop, if_neg hrest, offer_bind]
  obtain h | h := hfull
  · rw [h]
    exact congrArg (fun taken => (ask tcp.poll >>= _) { s with taken, tcp := _, touched := _ })
      (List.append_nil _)
  · rw [h]
    exact congrArg (fun taken => (ask tcp.poll >>= _) { s with taken, tcp := _, touched := _ })
      (List.append_nil _)

theorem sendLoop_takes (fuel sent : Nat) (hrest : rest ≠ []) {n : Nat}
    (h : (tcp.send rest s.tcp).1 = .ok n) (hpos : 0 < n) :
    sendLoop tcp (fuel + 1) rest sent s = sendLoop tcp fuel (rest.drop n) (sent + min n rest.length)
      { s with tcp := (tcp.send rest s.tcp).2, touched := s.touched ++ [s.phase], taken := s.taken ++ rest.take n } := by
  obtain ⟨n, rfl⟩ := Nat.exists_eq_succ_of_ne_zero hpos.ne'
  have hdrop : rest.drop (n + 1) = rest.drop (min (n + 1) rest.length) := List.drop_eq_drop_min
  rw [sendLoop, if_neg hrest, offer_bind, h, hdrop]
  rfl

theorem sendLoop_fails (fuel sent : Nat) (hrest : rest ≠ []) {err : Errno}
    (h : (tcp.send rest s.tcp).1 = .error err)
    (herr : err ≠ .eagain) :
    sendLoop tcp (fuel + 1) rest sent s =
      .error (some err) { s with tcp := (tcp.send rest s.tcp).2, touched := s.touched ++ [s.phase] } := by
  rw [sendLoop, if_neg hrest, offer_bind]
  have htaken : s.taken ++ rest.take (((.error err : Except Errno Nat).toOption).getD 0) =
    s.taken := List.append_nil _
  generalize hanswer : (tcp.send rest s.tcp).1 = answer at h ⊢
  split
  · cases h
  · exact absurd (Except.error.inj h).symm herr
  · cases h
  · cases h
    rw [htaken]
    rfl

/-- One turn of the loop: it ends with a refusal, or it goes on where the pipe has brought it. -/
theorem sendLoop_turn (s : Sockets σ) (sent : Nat) (hrest : rest ≠ []) :
    (Refuses tcp rest s.tcp ∧ ∃ err t, t.taken = s.taken ∧ ∀ fuel,
      sendLoop tcp (fuel + 1) rest sent s = .error (some err) t) ∨
      ∃ n t, Serves tcp (rest, s.tcp) (rest.drop n, t.tcp) ∧ t.taken = s.taken ++ rest.take n ∧
        ∀ fuel, sendLoop tcp (fuel + 1) rest sent s = sendLoop tcp fuel (rest.drop n)
          (sent + min n rest.length) t := by
  have hpolled : Full (tcp.send rest s.tcp).1 →
      (Refuses tcp rest s.tcp ∧ ∃ err t, t.taken = s.taken ∧ ∀ fuel,
        sendLoop tcp (fuel + 1) rest sent s = .error (some err) t) ∨
      ∃ n t, Serves tcp (rest, s.tcp) (rest.drop n, t.tcp) ∧ t.taken = s.taken ++ rest.take n ∧
        ∀ fuel, sendLoop tcp (fuel + 1) rest sent s = sendLoop tcp fuel (rest.drop n)
          (sent + min n rest.length) t := by
    intro hfull
    cases hpoll : (tcp.poll (tcp.send rest s.tcp).2).1 with
    | false =>
      refine .inl ⟨.inr ⟨hfull, hpoll⟩, .etimedout, ?_⟩
      refine ⟨{ s with tcp := (tcp.poll (tcp.send rest s.tcp).2).2, touched := s.touched ++
        [s.phase] ++ [s.phase] }, rfl, fun fuel => ?_⟩
      rw [sendLoop_full fuel sent hrest hfull, ask_bind, hpoll]
      rfl
    | true =>
      refine .inr ⟨0, { s with tcp := (tcp.poll (tcp.send rest s.tcp).2).2, touched := s.touched ++
        [s.phase] ++ [s.phase] },
        .waits hrest hfull hpoll, (List.append_nil _).symm, fun fuel => ?_⟩
      rw [sendLoop_full fuel sent hrest hfull, ask_bind, hpoll, Nat.zero_min]
      rfl
  cases h : (tcp.send rest s.tcp).1 with
  | ok n =>
    obtain rfl | hpos := Nat.eq_zero_or_pos n
    · exact hpolled (.inl h)
    · exact .inr ⟨n, _, .takes hrest h hpos, rfl, fun fuel => sendLoop_takes fuel sent hrest h hpos⟩
  | error err =>
    by_cases herr : err = .eagain
    · exact hpolled (.inr (herr ▸ h))
    · exact .inl ⟨.inl ⟨err, herr, h⟩, err,
        { s with tcp := (tcp.send rest s.tcp).2, touched := s.touched ++ [s.phase] }, rfl,
        fun fuel => sendLoop_fails fuel sent hrest h herr⟩

theorem Serves.unique {x y z : List UInt8 × σ} (hy : Serves tcp x y) (hz : Serves tcp x z) : y = z := by
  cases hy with
  | takes _ hn hpos =>
    cases hz with
    | takes _ hm _ => rw [Except.ok.inj (hn.symm.trans hm)]
    | waits _ hfull _ =>
      obtain h | h := hfull
      · exact absurd (Except.ok.inj (hn.symm.trans h)) hpos.ne'
      · cases hn.symm.trans h
  | waits _ hfull _ =>
    cases hz with
    | takes _ hm hpos =>
      obtain h | h := hfull
      · exact absurd (Except.ok.inj (hm.symm.trans h)) hpos.ne'
      · cases hm.symm.trans h
    | waits _ _ _ => rfl

theorem Serves.not_refuses {y : List UInt8 × σ} {p : σ} (hy : Serves tcp (rest, p) y) :
    ¬Refuses tcp rest p := by
  rintro (⟨err, herr, h⟩ | ⟨hfull', hspent⟩)
  · cases hy with
    | takes _ hn _ => cases hn.symm.trans h
    | waits _ hfull _ =>
      obtain hf | hf := hfull
      · cases hf.symm.trans h
      · exact herr (Except.error.inj (h.symm.trans hf))
  · cases hy with
    | takes _ hn hpos =>
      obtain hf | hf := hfull'
      · exact absurd (Except.ok.inj (hn.symm.trans hf)) hpos.ne'
      · cases hn.symm.trans hf
    | waits _ _ hpoll => cases hpoll.symm.trans hspent

/-- How the loop ends: everything is taken, or the pipe refuses what is left. -/
theorem sendLoop_ends {pipe : σ} (fuel : Nat) : ∀ (rest : List UInt8) (sent : Nat) (s : Sockets σ),
    Relation.ReflTransGen (Serves tcp) (data, pipe) (rest, s.tcp) →
    Ends (sendLoop tcp fuel rest sent) s (fun n t => n = sent + rest.length ∧ t.taken = s.taken ++ rest)
      fun err t => err ≠ none → ∃ left p, left ≠ [] ∧ t.taken ++ left = s.taken ++ rest ∧
        Relation.ReflTransGen (Serves tcp) (data, pipe) (left, p) ∧ Refuses tcp left p := by
  induction fuel with
  | zero => exact fun _ _ _ _ hne => absurd rfl hne
  | succ fuel ih =>
    intro rest sent s hreach
    by_cases hrest : rest = []
    · subst hrest
      exact ⟨rfl, (List.append_nil _).symm⟩
    · obtain ⟨hrefuses, err, t, htaken, hend⟩ | ⟨n, t, hserves, htaken, hturn⟩ := sendLoop_turn s sent hrest
      · unfold Ends
        rw [hend]
        exact fun _ => ⟨rest, s.tcp, hrest, by rw [htaken], hreach, hrefuses⟩
      · unfold Ends
        rw [hturn]
        have hall : t.taken ++ rest.drop n = s.taken ++ rest := by
          rw [htaken, List.append_assoc, List.take_append_drop]
        have hlength : sent + min n rest.length + (rest.drop n).length = sent + rest.length := by
          rw [List.length_drop]
          omega
        refine (ih (rest.drop n) (sent + min n rest.length) t (hreach.tail hserves)).mono
          (fun m u h => ?_) fun err u h hne => ?_
        · exact ⟨h.1.trans hlength, h.2.trans hall⟩
        · obtain ⟨left, p, hleft, htaken', hreach', hrefuses⟩ := h hne
          exact ⟨left, p, hleft, htaken'.trans hall, hreach', hrefuses⟩

/-- Where the pipe comes to refuse bytes, the loop comes to end with an error. -/
theorem sendLoop_refused {p : σ} (hrest : rest ≠ []) (hrefuses : Refuses tcp rest p)
    {start : List UInt8 × σ}
    (h : Relation.ReflTransGen (Serves tcp) start (rest, p)) : ∀ (s : Sockets σ) (sent : Nat),
      s.tcp = (start).2 →
      ∃ fuel err t, sendLoop tcp fuel (start).1 sent s = .error (some err) t ∧
        t.taken ++ rest = s.taken ++ (start).1 := by
  induction h using Relation.ReflTransGen.head_induction_on with
  | refl =>
    rintro s sent rfl
    obtain ⟨_, err, t, htaken, hend⟩ | ⟨n, t, hserves, _⟩ := sendLoop_turn s sent hrest
    · exact ⟨1, err, t, hend 0, by rw [htaken]⟩
    · exact absurd hrefuses hserves.not_refuses
  | @head x y hstep _ ih =>
    obtain ⟨data, q⟩ := x
    rintro s sent rfl
    have hdata : data ≠ [] := by
      cases hstep with
      | takes h _ _ => exact h
      | waits h _ _ => exact h
    obtain ⟨hrefuses, _⟩ | ⟨n, t, hserves, htaken, hturn⟩ := sendLoop_turn s sent hdata
    · exact absurd hrefuses hstep.not_refuses
    · obtain rfl := hserves.unique hstep
      obtain ⟨fuel, err, u, hend, htaken'⟩ := ih t (sent + min n data.length) rfl
      refine ⟨fuel + 1, err, u, (hturn fuel).trans hend, htaken'.trans ?_⟩
      rw [htaken, List.append_assoc, List.take_append_drop]

variable (tcp)

theorem send_open (fuel : Nat) (hopen : s.phase = .open) (hdata : data ≠ []) :
    send tcp fuel s.fd data s = sendLoop tcp fuel data 0 { s with tcp := tcp.start s.tcp, touched := s.touched ++ [s.phase] } := by
  have hlive : live s.fd s = .ok () s := by
    show (if s.fd ≠ s.fd then fail .ebadf else pure () : Call σ Unit) s = _
    rw [if_neg (not_not_intro rfl)]
    rfl
  have hcheck : «open» s.fd s = .ok () s := by
    show EStateM.bind _ _ s = _
    rw [EStateM.bind, hlive]
    show (if s.phase ≠ .open then fail .enotconn else pure () : Call σ Unit) s = _
    rw [if_neg (not_not_intro hopen)]
    rfl
  have hbind : ∀ g : Unit → Call σ Nat, («open» s.fd >>= g) s = g () s := fun g => by
    show EStateM.bind _ g s = _
    rw [EStateM.bind, hcheck]
  rw [send, hbind, if_neg hdata]
  rfl

/-- What `send` promises of the bytes it is given: a count stands for the bytes that went, and an
error for none. -/
def SendsExactly (fuel : Nat) (fd : UInt8) (data : List UInt8) (s : Sockets σ) : Prop :=
  Ends (send tcp fuel fd data) s (fun n t => n ≤ data.length ∧ t.taken = s.taken ++ data.take n)
    fun err t => err ≠ none → t.taken = s.taken

/-- A count is always right. An error stands for no byte exactly if the pipe takes all of the data
or none of it. -/
theorem send_exactly (fd : UInt8) (data : List UInt8) (s : Sockets σ) :
    ((∀ fuel, SendsExactly tcp fuel fd data s) ↔
      (fd = s.fd → s.phase = .open → AllOrNothing tcp data (tcp.start s.tcp))) ∧
      (∀ fuel, Ends (send tcp fuel fd data) s (fun n t => n = data.length ∧
        t.taken = s.taken ++ data) fun _ _ => True) ∧
      ∀ fuel buf, AsksOnlyOpen (send tcp fuel fd data) s ∧ AsksOnlyOpen (recv tcp fuel fd buf) s ∧
        AsksOnlyOpen (shutdown tcp fuel fd) s := by
  have hends : ∀ fuel, Ends (send tcp fuel fd data) s (fun n t => n = data.length ∧ t.taken =
    s.taken ++ data) fun err t =>
      err ≠ none → t.taken = s.taken ∨ (fd = s.fd ∧ s.phase = .open ∧ ∃ left p, left ≠ [] ∧
        t.taken ++ left = s.taken ++ data ∧
        Relation.ReflTransGen (Serves tcp) (data, tcp.start s.tcp) (left, p) ∧ Refuses tcp left p) := by
    intro fuel
    refine ends_open (fun hfd hopen => Ends.ite (fun hdata => ?_) fun _ => ?_) fun _ _ _ => .inl rfl
    · subst hdata
      exact ⟨rfl, (List.append_nil _).symm⟩
    · refine Ends.bind ((sendLoop_ends fuel data 0 _ .refl).mono (fun n t h => ?_) fun err t h hne => ?_)
      · exact ⟨h.1.trans (Nat.zero_add _), h.2⟩
      · exact .inr ⟨hfd, hopen, h hne⟩
  refine ⟨⟨fun h hfd hopen rest p hreach hrest hrefuses => ?_, fun h fuel => ?_⟩, fun fuel => ?_,
    fun fuel buf => ?_⟩
  · obtain heq | ⟨next, hstep, _⟩ := hreach.cases_head
    · cases heq
      rfl
    · have hdata : data ≠ [] := by
        cases hstep with
        | takes h _ _ => exact h
        | waits h _ _ => exact h
      obtain ⟨fuel, err, t, hend, htaken⟩ := sendLoop_refused hrest hrefuses hreach
        { s with tcp := tcp.start s.tcp, touched := s.touched ++ [s.phase] } 0 rfl
      have hexact := h fuel
      unfold SendsExactly Ends at hexact
      rw [hfd, send_open tcp fuel hopen hdata, hend] at hexact
      rw [hexact (Option.some_ne_none err)] at htaken
      exact List.append_cancel_left htaken
  · refine (hends fuel).mono (fun n t hend => ?_) fun err t hend hne => ?_
    · obtain ⟨rfl, htaken⟩ := hend
      exact ⟨Nat.le_refl _, by rw [htaken, List.take_length]⟩
    · obtain htaken | ⟨hfd, hopen, left, p, hleft, htaken, hreach, hrefuses⟩ := hend hne
      · exact htaken
      · rw [h hfd hopen left p hreach hleft hrefuses] at htaken
        exact List.append_cancel_right htaken
  · exact (hends fuel).mono (fun n t hend => hend) fun _ _ _ => trivial
  · exact ⟨send_asks tcp fuel fd data, recv_asks tcp fuel fd buf, shutdown_asks tcp fuel fd⟩

/-- A pipe that takes one byte and no more. -/
def stingy : Tcp Bool where
  start p := p
  poll p := (false, p)
  connect _ _ p := (.ok (), p)
  ready _ := true
  failed _ := false
  send _ p := (if p then .error .eagain else .ok 1, true)
  recv buf p := ((.error .eagain, buf), p)
  listen _ p := (.error .eopnotsupp, p)
  shutdown p := (.ok true, p)
  finish p := p

theorem stingy_takes_one : ∃ s : Sockets Bool, s.phase = .open ∧
    outcome (send stingy 3 3 [0x61, 0x62]) s = .error (some .etimedout) ∧
    (final (send stingy 3 3 [0x61, 0x62]) s).taken = s.taken ++ [0x61] :=
  ⟨⟨false, .open, 3, [], []⟩, rfl, rfl, rfl⟩

end sent

end Socket

end Lerux.Posix

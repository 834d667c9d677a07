import Lerux.Serial.Transmit

/-!
# Order and conservation of the transmitted bytes

At every point of every run, what a client's `serial_enqueue` accepted is, in order, what the UART took,
the byte the driver holds, what the driver queue holds, the byte the virtualiser holds and what the
client's own queue holds. A domain holds a byte between a dequeue and the write that follows it.

The argument is an outline over lists. The virtualiser's ghost says how far `move_client` has come: what
it counted, what it moved and how much room it knows of. The other parties can only make more room in the
driver queue and put more bytes in a client's, so what it counted stays true while it moves.
-/

namespace Lerux.Serial

open Lerux.Base Lerux.SerialQueue

variable {n : Nat}

abbrev LogEntry (n : Nat) := Entry (Pd n) (Queue n) TxByte (Note n)

/-! ### What the record says -/

/-- The bytes `serial_enqueue` accepted from client `c`. -/
def accepted (c : Fin n) (log : List (LogEntry n)) : List TxByte :=
  log.filterMap fun
    | .move _ (.client c') (.push x) => if c' = c then some x else none
    | _ => none

/-- The bytes the UART took. -/
def written (log : List (LogEntry n)) : List TxByte :=
  log.filterMap fun
    | .note _ (.uart x) => some x
    | _ => none

/-- The bytes taken from the clients' queues. -/
def virtTook (log : List (LogEntry n)) : List TxByte :=
  log.filterMap fun
    | .move _ (.client _) (.pop x) => some x
    | _ => none

/-- The bytes put in the driver's queue. -/
def virtPut (log : List (LogEntry n)) : List TxByte :=
  log.filterMap fun
    | .move _ .driver (.push x) => some x
    | _ => none

/-- The bytes taken from the driver's queue. -/
def driverTook (log : List (LogEntry n)) : List TxByte :=
  log.filterMap fun
    | .move _ .driver (.pop x) => some x
    | _ => none

/-- What the virtualiser has taken and not yet put. -/
def virtHand (log : List (LogEntry n)) : List TxByte := (virtTook log).drop (virtPut log).length

/-- What the driver has taken and the UART not yet got. -/
def driverHand (log : List (LogEntry n)) : List TxByte := (driverTook log).drop (written log).length

/-- The bytes of client `c` among some. -/
def own (c : Fin n) (xs : List TxByte) : List TxByte := xs.filter fun x => x.owner = c.val

/-- What the virtualiser did. -/
def virtRecord (log : List (LogEntry n)) : List (LogEntry n) :=
  log.filter fun
    | .move t _ _ => t = .virt
    | .note t _ => t = .virt

/-- The moves that carry bytes from a client's queue to the driver's. -/
def transfer (c : Fin n) (xs : List TxByte) : List (LogEntry n) :=
  xs.flatMap fun x => [.move .virt (.client c) (.pop x), .move .virt .driver (.push x)]

/-- A record of finished calls of `move_client`, each of which moved all it counted or nothing. -/
inductive Whole : List (LogEntry n) → Prop
  | nil : Whole []
  | moved {l : List (LogEntry n)} (h : Whole l) (c : Fin n) (xs : List TxByte) :
      Whole (l ++ .note .virt (.counted c xs.length) :: (transfer c xs ++ [.note .virt (.finished c true)]))
  | kept {l : List (LogEntry n)} (h : Whole l) (c : Fin n) (length : Nat) :
      Whole (l ++ [.note .virt (.counted c length), .note .virt (.finished c false)])

/-- A call of `move_client` that has moved `xs` and holds `hand`. -/
def partOf (c : Fin n) (length : Nat) (xs hand : List TxByte) : List (LogEntry n) :=
  .note .virt (.counted c length) :: (transfer c xs ++ hand.map fun x => .move .virt (.client c) (.pop x))

/-- Finished calls of `move_client`, then perhaps one that has moved some of what it counted. -/
def WholeMoves (log : List (LogEntry n)) : Prop :=
  Whole (virtRecord log) ∨ ∃ before c length xs hand, Whole before ∧
    virtRecord log = before ++ partOf c length xs hand ∧ hand.length ≤ 1 ∧ xs.length + hand.length ≤ length

/-! ### The outline -/

/-- How far the virtualiser has come in `move_client`: what it counted, what it moved, what it holds and
how much room it knows of in the driver queue. -/
inductive VirtGhost (n : Nat)
  | idle
  | sized (c : Fin n) (length : Nat)
  | moving (c : Fin n) (length : Nat) (done hand : List TxByte) (room : Nat)

def VirtGhost.hand : VirtGhost n → List TxByte
  | .moving _ _ _ hand _ => hand
  | _ => []

def VirtGhost.Ok (cap : Queue n → Nat) (queue : Queue n → List TxByte) (log : List (LogEntry n)) :
    VirtGhost n → Prop
  | .idle => Whole (virtRecord log)
  | .sized c length => Whole (virtRecord log) ∧ length ≤ (queue (.client c)).length
  | .moving c length done hand room => (∃ before, Whole before ∧
    virtRecord log = before ++ partOf c length done hand) ∧
      hand.length ≤ 1 ∧ done.length + hand.length ≤ length ∧
      length ≤ done.length + hand.length + (queue (.client c)).length ∧
      (queue .driver).length + room ≤ cap .driver

structure OrderInv (cap : Queue n → Nat) (v : VirtGhost n) (d : List TxByte) (queue : Queue n → List TxByte)
    (log : List (LogEntry n)) : Prop where
  bound : ∀ q, (queue q).length ≤ cap q
  owner : ∀ c, ∀ x ∈ queue (.client c), x.owner = c.val
  order : ∀ c, accepted c log =
    own c (written log) ++ own c d ++ own c (queue .driver) ++ own c v.hand ++ queue (.client c)
  took : virtTook log = virtPut log ++ v.hand
  drained : driverTook log = written log ++ d
  hand : d.length ≤ 1
  moves : v.Ok cap queue log

section steps

variable {cap : Queue n → Nat} {v : VirtGhost n} {d : List TxByte} {queue : Queue n → List TxByte}
  {log : List (LogEntry n)}

@[simp] theorem own_append (c : Fin n) (xs ys : List TxByte) : own c (xs ++ ys) = own c xs ++ own c ys :=
  List.filter_append ..

@[simp] theorem own_nil (c : Fin n) : own c [] = [] := rfl

theorem own_cons (c : Fin n) (x : TxByte) (xs : List TxByte) : own c (x :: xs) = own c [x] ++ own c xs :=
  own_append c [x] xs

theorem own_self (c : Fin n) {x : TxByte} (h : x.owner = c.val) : own c [x] = [x] := by
  simp [own, h]

theorem own_other {c c' : Fin n} (hne : c' ≠ c) {x : TxByte} (h : x.owner = c.val) : own c' [x] = [] := by
  have : c.val ≠ c'.val := fun heq => hne (Fin.ext heq.symm)
  simp [own, h, this]

@[simp] theorem virtRecord_append (l l' : List (LogEntry n)) :
    virtRecord (l ++ l') = virtRecord l ++ virtRecord l' := List.filter_append ..

theorem accepted_append (c : Fin n) (l l' : List (LogEntry n)) :
    accepted c (l ++ l') = accepted c l ++ accepted c l' := List.filterMap_append

theorem written_append (l l' : List (LogEntry n)) : written (l ++ l') = written l ++ written l' :=
  List.filterMap_append

theorem virtTook_append (l l' : List (LogEntry n)) : virtTook (l ++ l') = virtTook l ++ virtTook l' :=
  List.filterMap_append

theorem virtPut_append (l l' : List (LogEntry n)) : virtPut (l ++ l') = virtPut l ++ virtPut l' :=
  List.filterMap_append

theorem driverTook_append (l l' : List (LogEntry n)) : driverTook (l ++ l') =
    driverTook l ++ driverTook l' :=
  List.filterMap_append

/-- An entry about no ring and no byte that matters to a reading leaves it alone. -/
theorem accepted_skip {c : Fin n} {e : LogEntry n} (h : accepted c [e] = []) :
    accepted c (log ++ [e]) = accepted c log := by
  rw [accepted_append, h, List.append_nil]

theorem written_skip {e : LogEntry n} (h : written [e] = []) : written (log ++ [e]) = written log := by
  rw [written_append, h, List.append_nil]

theorem virtTook_skip {e : LogEntry n} (h : virtTook [e] = []) : virtTook (log ++ [e]) = virtTook log := by
  rw [virtTook_append, h, List.append_nil]

theorem virtPut_skip {e : LogEntry n} (h : virtPut [e] = []) : virtPut (log ++ [e]) = virtPut log := by
  rw [virtPut_append, h, List.append_nil]

theorem driverTook_skip {e : LogEntry n} (h : driverTook [e] = []) : driverTook (log ++ [e]) =
    driverTook log := by
  rw [driverTook_append, h, List.append_nil]

/-- A client accepts a byte. -/
theorem OrderInv.push_client (h : OrderInv cap v d queue log) {c : Fin n} {x : TxByte}
    (hx : x.owner = c.val)
    (hroom : (queue (.client c)).length < cap (.client c)) :
    OrderInv cap v d (Function.update queue (.client c) (queue (.client c) ++ [x]))
      (log ++ [.move (.client c) (.client c) (.push x)]) where
  bound q := by
    by_cases hq : q = .client c
    · subst hq
      simpa using hroom
    · simpa [Function.update_of_ne hq] using h.bound q
  owner c' := by
    by_cases hc : c' = c
    · subst hc
      simp only [Function.update_self, List.mem_append, List.mem_singleton]
      rintro y (hy | rfl)
      · exact h.owner c' y hy
      · exact hx
    · rw [Function.update_of_ne (by simpa using hc)]
      exact h.owner c'
  order c' := by
    rw [accepted_append, written_skip rfl, h.order c']
    by_cases hc : c' = c
    · subst hc
      have hnew : accepted c' [Entry.move (.client c') (.client c') (.push x)] = [x] := by simp [accepted]
      rw [hnew, Function.update_self, Function.update_of_ne (by simp), List.append_assoc]
    · have hne : Queue.client c' ≠ Queue.client c := by simpa using hc
      have hnew : accepted c' [Entry.move (.client c) (.client c) (.push x)] = [] := by
        have hc' : ¬c = c' := fun heq => hc heq.symm
        simp [accepted, hc']
      rw [hnew, Function.update_of_ne hne, Function.update_of_ne (by simp), List.append_nil]
  took := by rw [virtTook_skip rfl, virtPut_skip rfl, h.took]
  drained := by rw [driverTook_skip rfl, written_skip rfl, h.drained]
  hand := h.hand
  moves := by
    have hrec : virtRecord (log ++ [Entry.move (.client c) (.client c) (.push x)]) = virtRecord log := by
      simp [virtRecord]
    have hlen : ∀ c', (queue (.client c')).length ≤
        (Function.update queue (.client c) (queue (.client c) ++ [x]) (.client c')).length := by
      intro c'
      by_cases hc : c' = c
      · subst hc
        simp
      · simp [hc]
    have := h.moves
    cases v with
    | idle => simpa only [VirtGhost.Ok, hrec] using this
    | sized c' length => exact ⟨by rw [hrec]; exact this.1, this.2.trans (hlen c')⟩
    | moving c' length done hand room =>
      have hc := hlen c'
      refine ⟨by rw [hrec]; exact this.1, this.2.1, this.2.2.1, ?_, by simpa using this.2.2.2.2⟩
      have := this.2.2.2.1
      omega

/-- The virtualiser takes a byte it counted. -/
theorem OrderInv.take {c : Fin n} {length room : Nat} {done q : List TxByte} {x : TxByte}
    (h : OrderInv cap (.moving c length done [] room) d queue log) (hq : queue (.client c) = x :: q)
    (hlt : done.length < length) :
    OrderInv cap (.moving c length done [x] room) d (Function.update queue (.client c) q)
      (log ++ [.move .virt (.client c) (.pop x)]) where
  bound q' := by
    by_cases hq' : q' = .client c
    · subst hq'
      have := h.bound (.client c)
      simp only [hq, List.length_cons] at this
      simp only [Function.update_self]
      omega
    · simpa [Function.update_of_ne hq'] using h.bound q'
  owner c' := by
    by_cases hc : c' = c
    · subst hc
      intro y hy
      rw [Function.update_self] at hy
      exact h.owner c' y (by rw [hq]; exact List.mem_cons_of_mem x hy)
    · rw [Function.update_of_ne (by simpa using hc)]
      exact h.owner c'
  order c' := by
    have hx : x.owner = c.val := h.owner c x (by rw [hq]; exact List.mem_cons_self)
    rw [accepted_skip rfl, written_skip rfl, h.order c', Function.update_of_ne (by simp)]
    simp only [VirtGhost.hand, own_nil, List.append_nil]
    by_cases hc : c' = c
    · subst hc
      rw [own_self c' hx, Function.update_self, hq, List.append_assoc _ [x], List.singleton_append]
    · rw [own_other hc hx, Function.update_of_ne (by simpa using hc), List.append_nil]
  took := by
    rw [virtTook_append, virtPut_skip rfl, h.took, VirtGhost.hand, List.append_nil]
    rfl
  drained := by rw [driverTook_skip rfl, written_skip rfl, h.drained]
  hand := h.hand
  moves := by
    obtain ⟨⟨before, hw, hrec⟩, -, hle, hcount, hroom⟩ := h.moves
    refine ⟨⟨before, hw, ?_⟩, by simp, by simpa using hlt, ?_, by simpa using hroom⟩
    · rw [virtRecord_append, hrec]
      simp [virtRecord, partOf]
    · simp only [hq, List.length_cons, List.length_nil] at hcount
      simp only [List.length_cons, List.length_nil, Function.update_self]
      omega

/-- The virtualiser puts the byte it holds. -/
theorem OrderInv.put {c : Fin n} {length room : Nat} {done : List TxByte} {x : TxByte}
    (h : OrderInv cap (.moving c length done [x] (room + 1)) d queue log) :
    OrderInv cap (.moving c length (done ++ [x]) [] room) d
      (Function.update queue .driver (queue .driver ++ [x]))
      (log ++ [.move .virt .driver (.push x)]) where
  bound q := by
    by_cases hq : q = .driver
    · subst hq
      have := h.moves.2.2.2.2
      simp only [Function.update_self, List.length_append, List.length_singleton]
      omega
    · simpa [Function.update_of_ne hq] using h.bound q
  owner c' := by simpa using h.owner c'
  order c' := by
    rw [accepted_skip rfl, written_skip rfl, h.order c', Function.update_self,
      Function.update_of_ne (by simp)]
    simp only [VirtGhost.hand, own_append, own_nil, List.append_nil, List.append_assoc]
  took := by
    rw [virtTook_skip rfl, virtPut_append, h.took, VirtGhost.hand, VirtGhost.hand, List.append_nil]
    rfl
  drained := by rw [driverTook_skip rfl, written_skip rfl, h.drained]
  hand := h.hand
  moves := by
    obtain ⟨⟨before, hw, hrec⟩, -, hle, hcount, hroom⟩ := h.moves
    refine ⟨⟨before, hw, ?_⟩, by simp, by simpa using hle, ?_, ?_⟩
    · rw [virtRecord_append, hrec]
      simp [virtRecord, partOf, transfer]
    · simpa using hcount
    · simp only [Function.update_self, List.length_append, List.length_singleton]
      omega

/-- The driver takes a byte. -/
theorem OrderInv.drain {q : List TxByte} {x : TxByte} (h : OrderInv cap v [] queue log)
    (hq : queue .driver = x :: q) :
    OrderInv cap v [x] (Function.update queue .driver q) (log ++ [.move .driver .driver (.pop x)]) where
  bound q' := by
    by_cases hq' : q' = .driver
    · subst hq'
      have := h.bound .driver
      simp only [hq, List.length_cons] at this
      simp only [Function.update_self]
      omega
    · simpa [Function.update_of_ne hq'] using h.bound q'
  owner c' := by simpa using h.owner c'
  order c' := by
    rw [accepted_skip rfl, written_skip rfl, h.order c', Function.update_self,
      Function.update_of_ne (by simp), hq,
      own_cons]
    simp only [own_nil, List.append_nil, List.append_assoc]
  took := by rw [virtTook_skip rfl, virtPut_skip rfl, h.took]
  drained := by
    rw [driverTook_append, written_skip rfl, h.drained, List.append_nil]
    rfl
  hand := by simp
  moves := by
    have hrec : virtRecord (log ++ [Entry.move .driver .driver (.pop x)]) = virtRecord log := by
      simp [virtRecord]
    have := h.moves
    cases v with
    | idle => simpa only [VirtGhost.Ok, hrec] using this
    | sized c length => simpa only [VirtGhost.Ok, hrec, ne_eq, reduceCtorEq, not_false_eq_true,
      Function.update_of_ne] using this
    | moving c length done hand room =>
      refine ⟨by rw [hrec]; exact this.1, this.2.1, this.2.2.1, by simpa using this.2.2.2.1, ?_⟩
      have := this.2.2.2.2
      simp only [hq, List.length_cons] at this
      simp only [Function.update_self]
      omega

/-- The UART takes the byte the driver holds. -/
theorem OrderInv.write {x : TxByte} (h : OrderInv cap v [x] queue log) :
    OrderInv cap v [] queue (log ++ [.note .driver (.uart x)]) where
  bound := h.bound
  owner := h.owner
  order c' := by
    have hnew : written [(Entry.note .driver (.uart x) : LogEntry n)] = [x] := rfl
    rw [accepted_skip rfl, written_append, hnew, h.order c']
    simp only [own_append, own_nil, List.append_nil]
  took := by rw [virtTook_skip rfl, virtPut_skip rfl, h.took]
  drained := by
    rw [driverTook_skip rfl, written_append, h.drained, List.append_nil]
    rfl
  hand := by simp
  moves := by
    have hrec : virtRecord (log ++ [Entry.note .driver (.uart x)]) = virtRecord log := by
      simp [virtRecord]
    have := h.moves
    cases v <;> simpa only [VirtGhost.Ok, hrec] using this

theorem written_note {t : Pd n} {m : Note n} (hm : ∀ x, m ≠ .uart x) :
    written [(Entry.note t m : LogEntry n)] = [] := by
  cases m with
  | uart x => exact (hm x rfl).elim
  | _ => rfl

/-- A note of the virtualiser changes nothing but its own progress. -/
theorem OrderInv.noted (h : OrderInv cap v d queue log) {v' : VirtGhost n} {m : Note n}
    (hm : ∀ x, m ≠ .uart x)
    (hh : v'.hand = v.hand) (hv : v'.Ok cap queue (log ++ [.note .virt m])) :
    OrderInv cap v' d queue (log ++ [.note .virt m]) where
  bound := h.bound
  owner := h.owner
  order c' := by
    rw [accepted_skip rfl, written_skip (written_note hm), h.order c', hh]
  took := by
    rw [virtTook_skip rfl, virtPut_skip rfl, h.took, hh]
  drained := by
    rw [driverTook_skip rfl, written_skip (written_note hm), h.drained]
  hand := h.hand
  moves := hv

/-- A new ghost that holds the same byte. -/
theorem OrderInv.know (h : OrderInv cap v d queue log) {v' : VirtGhost n} (hh : v'.hand = v.hand)
    (hv : v'.Ok cap queue log) : OrderInv cap v' d queue log :=
  { h with
    order := fun c => by rw [hh]; exact h.order c
    took := by rw [hh]; exact h.took
    moves := hv }

theorem OrderInv.driverHand_eq (h : OrderInv cap v d queue log) : driverHand log = d := by
  rw [driverHand, h.drained, List.drop_left]

theorem OrderInv.virtHand_eq (h : OrderInv cap v d queue log) : virtHand log = v.hand := by
  rw [virtHand, h.took, List.drop_left]

theorem VirtGhost.Ok.wholeMoves (h : v.Ok cap queue log) : WholeMoves log := by
  cases v with
  | idle => exact .inl h
  | sized c length => exact .inl h.1
  | moving c length done hand room =>
    obtain ⟨⟨before, hw, hrec⟩, h1, h2, -⟩ := h
    exact .inr ⟨before, c, length, done, hand, hw, hrec, h1, h2⟩

theorem VirtGhost.Ok.hand_le (h : v.Ok cap queue log) : v.hand.length ≤ 1 := by
  cases v with
  | moving c length done hand room => exact h.2.1
  | _ => exact Nat.zero_le _

theorem OrderInv.append_nil (h : OrderInv cap v d queue log) : OrderInv cap v d queue (log ++ []) := by
  rwa [List.append_nil]

end steps

/-! ### The domains keep it -/

def orderOutline (cap : Queue n → Nat) :
    Outline (Pd n) (callSig (evSig n) (serialLib TxByte) (Queue n)) (txSystem n cap true).Lists where
  step := (txSystem n cap true).act fun _ => .exact
  Ghost
    | .client _ => Unit
    | .virt => VirtGhost n
    | .driver => List TxByte
  ok
    | .virt, g, .ev .notified => g = VirtGhost.idle
    | .driver, g, .ev .drained => g = ([] : List TxByte)
    | _, _, .ev (.fail a) => a = .uartWrite
    | _, _, _ => True
  calm _ _ := True
  may _ _ _ _ := True
  inv G s := OrderInv cap (G .virt) (G .driver) s.queue s.log

section domains

variable {cap : Queue n → Nat}

variable {G : (t : Pd n) → (orderOutline cap).Ghost t} {queue : Queue n → List TxByte} {env : Env n}
  {log : List (LogEntry n)}

theorem inv_virt {g : (orderOutline cap).Ghost .virt} (h : OrderInv cap g (G .driver) queue log) :
    (orderOutline cap).inv (Function.update G .virt g) ⟨queue, env, log⟩ := by
  change OrderInv cap (Function.update G .virt g .virt) (Function.update G .virt g .driver) queue log
  rwa [Function.update_self, Function.update_of_ne (by simp)]

theorem inv_driver {g : (orderOutline cap).Ghost .driver} (h : OrderInv cap (G .virt) g queue log) :
    (orderOutline cap).inv (Function.update G .driver g) ⟨queue, env, log⟩ := by
  change OrderInv cap (Function.update G .driver g .virt) (Function.update G .driver g .driver) queue log
  rwa [Function.update_self, Function.update_of_ne (by simp)]

/-- What a call of the virtualiser has to show. -/
theorem performs_virt {q : Queue n} {f : Fn TxByte} {Q : f.Res → VirtGhost n → Prop} {g : VirtGhost n}
    (h : ∀ d queue log, OrderInv cap g d queue log →
      ∀ r m, (serialLib TxByte).spec (cap q) f (queue q) = (r, m) → ∃ g',
        OrderInv cap g' d (Function.update queue q (Move.apply (queue q) m))
          (log ++ Entry.moves .virt q m) ∧ Q r g') :
    (orderOutline cap).Performs .virt (.call q f) Q g := by
  refine ⟨trivial, ?_⟩
  rintro G s rfl _ hi r s' ⟨m, hspec, rfl⟩
  obtain ⟨g', hg', hQ⟩ := h _ _ _ hi r m hspec
  exact ⟨g', inv_virt hg', hQ⟩

/-- What a call of the driver has to show. -/
theorem performs_driver {q : Queue n} {f : Fn TxByte} {Q : f.Res → List TxByte → Prop} {g : List TxByte}
    (h : ∀ v queue log, OrderInv cap v g queue log →
      ∀ r m, (serialLib TxByte).spec (cap q) f (queue q) = (r, m) → ∃ g',
        OrderInv cap v g' (Function.update queue q (Move.apply (queue q) m))
          (log ++ Entry.moves .driver q m) ∧ Q r g') :
    (orderOutline cap).Performs .driver (.call q f) Q g := by
  refine ⟨trivial, ?_⟩
  rintro G s rfl _ hi r s' ⟨m, hspec, rfl⟩
  obtain ⟨g', hg', hQ⟩ := h _ _ _ hi r m hspec
  exact ⟨g', inv_driver hg', hQ⟩

/-- An event without a note leaves the invariant alone. -/
theorem safe_silent {t : Pd n} {o : Ev n} {g : (orderOutline cap).Ghost t}
    (hok : (orderOutline cap).ok t g (.ev o))
    (hn : ∀ r, noteOf o r = none) : (orderOutline cap).Safe t (ev o) (fun _ g' => g' = g) g := by
  refine ⟨hok, ?_⟩
  rintro G s rfl _ hi r s' ⟨ch, env, he, rfl⟩
  refine ⟨G t, ?_, rfl⟩
  have hlog : (txSystem n cap true).noted t o r = [] := System.noted_none (hn r)
  rw [Function.update_eq_self, hlog, List.append_nil]
  exact hi

/-- Events that leave no note and do not wait. -/
def Ev.quiet : Ev n → Bool
  | .notified => false
  | .drained => false
  | .uartWrite _ => false
  | .note _ => false
  | .fail _ => false
  | _ => true

theorem safe_ev {t : Pd n} (o : Ev n) (hq : o.quiet = true) {g : (orderOutline cap).Ghost t} :
    (orderOutline cap).Safe t (ev o) (fun _ g' => g' = g) g := by
  apply safe_silent
  · cases o with
    | notified => simp [Ev.quiet] at hq
    | drained => simp [Ev.quiet] at hq
    | fail a => simp [Ev.quiet] at hq
    | _ => cases t <;> trivial
  · intro r
    cases o with
    | uartWrite x => simp [Ev.quiet] at hq
    | note m => simp [Ev.quiet] at hq
    | _ => rfl

/-- A note of the virtualiser. -/
theorem safe_note {m : Note n} {g : VirtGhost n} (g' : VirtGhost n) (hm : ∀ x, m ≠ .uart x)
    (hh : g'.hand = g.hand)
    (hv : ∀ d queue log, OrderInv cap g d queue log → g'.Ok cap queue (log ++ [.note .virt m])) :
    (orderOutline cap).Safe .virt (note m) (fun _ g => g = g') g := by
  refine ⟨trivial, ?_⟩
  rintro G s rfl _ hi r s' ⟨ch, env, he, rfl⟩
  exact ⟨g', inv_virt (OrderInv.noted hi hm hh (hv _ _ _ hi)), rfl⟩

/-- The free space read is a lower bound from then on, and the subtraction does not underflow. -/
theorem safe_serialQueueFree (hcap : cap .driver < 2 ^ 32) {c : Fin n} {length room : Nat}
    {done hand : List TxByte} :
    (orderOutline cap).Safe .virt (serialQueueFree (BitVec.ofNat 32 (cap .driver)) .driver)
      (fun free g => g = VirtGhost.moving c length done hand free.toNat)
        (.moving c length done hand room) := by
  refine Outline.Safe.seq (R := fun l g => l.toNat ≤ cap .driver ∧
    g = VirtGhost.moving c length done hand (cap .driver - l.toNat)) ?_ ?_
  · refine performs_virt fun d queue log h r m hspec => ?_
    obtain ⟨rfl, rfl⟩ := Prod.mk.inj hspec
    have hb := h.bound .driver
    have hr : (BitVec.ofNat 32 (queue .driver).length).toNat = (queue .driver).length := by
      rw [BitVec.toNat_ofNat]
      omega
    refine ⟨.moving c length done hand (cap .driver - (queue .driver).length), ?_,
      by rw [hr]; exact hb, by rw [hr]⟩
    have hm := h.moves
    have : OrderInv cap (.moving c length done hand (cap .driver - (queue .driver).length)) d queue log :=
      h.know rfl ⟨hm.1, hm.2.1, hm.2.2.1, hm.2.2.2.1, by omega⟩
    simpa [Move.apply, Entry.moves] using this
  · rintro l g ⟨hl, rfl⟩
    have hc : (BitVec.ofNat 32 (cap .driver)).toNat = cap .driver := by
      rw [BitVec.toNat_ofNat]
      omega
    refine Outline.Safe.ite (fun hlt => ?_) fun _ => ?_
    · rw [BitVec.lt_def, hc] at hlt
      omega
    · change _ = _
      rw [BitVec.toNat_sub_of_le (by rw [BitVec.le_def, hc]; exact hl), hc]

/-- One byte moves: it is present, and there is room for it. -/
theorem safe_moveByte {c : Fin n} {length room : Nat} {done : List TxByte} (hlt : done.length < length) :
    (orderOutline cap).Safe .virt (moveByte c)
      (fun _ g => ∃ x, g = VirtGhost.moving c length (done ++ [x]) [] room)
        (.moving c length done [] (room + 1)) := by
  refine Outline.Safe.seq (R := fun got g => ∃ x, got = some x ∧
    g = VirtGhost.moving c length done [x] (room + 1)) ?_ ?_
  · refine performs_virt fun d queue log h r m hspec => ?_
    have hcount := h.moves.2.2.2.1
    cases hq : queue (.client c) with
    | nil =>
      simp only [hq, List.length_nil] at hcount
      omega
    | cons x q =>
      rw [hq] at hspec
      obtain ⟨rfl, rfl⟩ := Prod.mk.inj hspec
      exact ⟨_, h.take hq hlt, x, rfl, rfl⟩
  · rintro got g ⟨x, rfl, rfl⟩
    refine Outline.Safe.seq (R := fun put g => put = (0 : Int) ∧
      g = VirtGhost.moving c length (done ++ [x]) [] room) ?_ ?_
    · refine performs_virt fun d queue log h r m hspec => ?_
      have hroom := h.moves.2.2.2.2
      have hspec : push (cap .driver) x (queue .driver) = (r, m) := hspec
      rw [push, if_neg (by omega)] at hspec
      obtain ⟨rfl, rfl⟩ := Prod.mk.inj hspec
      exact ⟨_, h.put, rfl, rfl⟩
    · rintro put g ⟨rfl, rfl⟩
      exact ⟨x, rfl⟩

/-- All the counted bytes move, or none of them. -/
theorem safe_moveLength (hcap : cap .driver < 2 ^ 32) (c : Fin n) (length : BitVec 32) :
    (orderOutline cap).Safe .virt (moveLength (BitVec.ofNat 32 (cap .driver)) c length)
      (fun moved g => ∃ xs room, g = VirtGhost.moving c length.toNat xs [] room ∧
        xs.length = if moved then length.toNat else 0) (.moving c length.toNat [] [] 0) := by
  refine (safe_serialQueueFree hcap).seq fun free g hg => ?_
  refine Outline.Safe.seq (R := fun _ g => g = VirtGhost.moving c length.toNat [] [] free.toNat) ?_
    fun _ g hg => ?_
  · refine Outline.Safe.when (fun _ => ?_) fun _ => hg
    exact hg ▸ safe_ev (.requestConsumerSignal .driver) rfl
  · subst hg
    refine (safe_serialQueueFree hcap).seq fun free g hg => Outline.Safe.ite (fun _ => ?_) fun hle => ?_
    · refine Outline.Safe.seq (R := fun _ g => g = VirtGhost.moving c length.toNat []
        [] free.toNat) ?_ fun _ g hg => ?_
      · exact hg ▸ safe_ev (.setPending c true) rfl
      · exact ⟨[], _, hg, rfl⟩
    · rw [BitVec.not_lt, BitVec.le_def] at hle
      refine Outline.Safe.seq (R := fun _ g => ∃ xs room, g = VirtGhost.moving c length.toNat xs [] room ∧
        xs.length = length.toNat) ?_ fun _ g h => by simpa using h
      refine Outline.Safe.each (fun (left : List Nat) g => ∃ xs room,
        g = VirtGhost.moving c length.toNat xs [] room ∧ xs.length + left.length = length.toNat ∧
          left.length ≤ room) ?_ ?_ ⟨[], free.toNat, hg, by simp, by simpa using hle⟩
      · rintro _ left g ⟨xs, room, rfl, hlen, hroom⟩
        simp only [List.length_cons] at hlen hroom
        obtain ⟨room, rfl⟩ : ∃ k, room = k + 1 := ⟨room - 1, by omega⟩
        refine (safe_moveByte (by omega)).mono ?_
        rintro _ g ⟨x, rfl⟩
        exact ⟨xs ++ [x], room, rfl,
          by simp only [List.length_append, List.length_singleton]; omega, by omega⟩
      · rintro g ⟨xs, room, rfl, hlen, _⟩
        exact ⟨xs, room, rfl, by simpa using hlen⟩

theorem partOf_nil (c : Fin n) (length : Nat) : partOf c length [] [] =
    [.note .virt (.counted c length)] := rfl

/-- A call of `move_client` extends the record by one that moved all it counted or nothing. -/
theorem safe_moveClient (hcap : cap .driver < 2 ^ 32) (c : Fin n) :
    (orderOutline cap).Safe .virt (moveClient (BitVec.ofNat 32 (cap .driver)) c)
      (fun _ g => g = VirtGhost.idle) VirtGhost.idle := by
  refine Outline.Safe.seq (R := fun length g => g = VirtGhost.sized c length.toNat) ?_ ?_
  · refine performs_virt fun d queue log h r m hspec => ?_
    obtain ⟨rfl, rfl⟩ := Prod.mk.inj hspec
    refine ⟨.sized c (BitVec.ofNat 32 (queue (.client c)).length).toNat, ?_, rfl⟩
    have : OrderInv cap (.sized c (BitVec.ofNat 32 (queue (.client c)).length).toNat) d queue log := by
      refine h.know rfl ⟨h.moves, ?_⟩
      rw [BitVec.toNat_ofNat]
      exact Nat.mod_le _ _
    simpa [Move.apply, Entry.moves] using this
  rintro length g rfl
  have hcounted : (orderOutline cap).Safe .virt (note (.counted c length.toNat))
      (fun _ g => g = VirtGhost.moving c length.toNat [] [] 0) (.sized c length.toNat) := by
    refine safe_note _ (fun _ => by intro h; cases h) rfl fun d queue log h => ?_
    refine ⟨⟨virtRecord log, h.moves.1, ?_⟩,
      by simp, by simp, by simpa using h.moves.2, by simpa using h.bound .driver⟩
    simp [virtRecord, partOf_nil]
  refine hcounted.seq ?_
  rintro _ g rfl
  refine Outline.Safe.seq (R := fun moved g => ∃ xs room, g = VirtGhost.moving c length.toNat xs [] room ∧
    xs.length = if moved then length.toNat else 0) ?_ ?_
  · exact Outline.Safe.ite (fun _ => ⟨[], 0, rfl, rfl⟩) fun _ => safe_moveLength hcap c length
  rintro moved g ⟨xs, room, rfl, hlen⟩
  have hfinished : (orderOutline cap).Safe .virt (note (.finished c moved)) (fun _ g => g = VirtGhost.idle)
      (.moving c length.toNat xs [] room) := by
    refine safe_note _ (fun _ => by intro h; cases h) rfl fun d queue log h => ?_
    obtain ⟨⟨before, hw, hrec⟩, -⟩ := h.moves
    change Whole _
    rw [virtRecord_append, hrec]
    cases moved with
    | true =>
      have := hw.moved c xs
      rw [show xs.length = length.toNat from hlen] at this
      simpa [virtRecord, partOf] using this
    | false =>
      obtain rfl : xs = [] := List.length_eq_zero_iff.mp hlen
      simpa [virtRecord, partOf_nil] using hw.kept c length.toNat
  exact hfinished.seq fun _ g hg => hg

theorem safe_wakeClient (c : Fin n) (g : VirtGhost n) :
    (orderOutline cap).Safe .virt (wakeClient c) (fun _ g' => g' = g) g := by
  refine (safe_ev (.requireConsumerSignal (.client c)) rfl).seq ?_
  rintro required g rfl
  refine Outline.Safe.when (fun _ => ?_) fun _ => rfl
  refine (safe_ev (.cancelConsumerSignal (.client c)) rfl).seq ?_
  rintro _ g rfl
  exact safe_ev (.notify (.client c)) rfl

theorem safe_resumePending (hcap : cap .driver < 2 ^ 32) :
    (orderOutline cap).Safe .virt (resumePending (BitVec.ofNat 32 (cap .driver)))
      (fun _ g => g = VirtGhost.idle)
      VirtGhost.idle := by
  refine Outline.Safe.seq (R := fun _ g => g = VirtGhost.idle) ?_ ?_
  · refine Outline.Safe.fold (O := orderOutline cap) (t := .virt)
      (fun _ _ g => g = VirtGhost.idle) ?_ (fun _ _ hg => hg) ?_
    swap
    · rfl
    rintro c _ acc g rfl
    refine (safe_ev (.pending c) rfl).seq ?_
    rintro pending g rfl
    refine Outline.Safe.ite (fun _ => ?_) fun _ => rfl
    refine (safe_ev (.setPending c false) rfl).seq ?_
    rintro _ g rfl
    exact (safe_moveClient hcap c).seq fun _ _ hg => hg
  · rintro acc g rfl
    refine Outline.Safe.seq (R := fun _ g => g = VirtGhost.idle) ?_ ?_
    · exact Outline.Safe.when (fun _ => safe_ev (.notify .driver) rfl) fun _ => rfl
    · rintro _ g rfl
      refine Outline.Safe.each (fun _ g => g = VirtGhost.idle) ?_ (fun _ hg => hg) (Eq.refl VirtGhost.idle)
      rintro c _ g rfl
      exact Outline.Safe.when (fun _ => safe_wakeClient c _) fun _ => rfl

theorem safe_provide (hcap : cap .driver < 2 ^ 32) (c : Fin n) :
    (orderOutline cap).Safe .virt (provide (BitVec.ofNat 32 (cap .driver)) c)
      (fun _ g => g = VirtGhost.idle)
      VirtGhost.idle := by
  refine (safe_moveClient hcap c).seq ?_
  rintro moved g rfl
  refine Outline.Safe.when (fun _ => ?_) fun _ => rfl
  refine (safe_ev (.notify .driver) rfl).seq ?_
  rintro _ g rfl
  exact safe_wakeClient c _

theorem safe_virtLoop (hcap : cap .driver < 2 ^ 32) :
    (orderOutline cap).Safe .virt (virtLoop (BitVec.ofNat 32 (cap .driver)))
      (fun _ _ => True) VirtGhost.idle := by
  refine Outline.Safe.forever (fun g => g = VirtGhost.idle) rfl (fun _ _ => trivial) ?_
  rintro g rfl
  have hnotified : (orderOutline cap).Safe .virt (ev .notified)
    (fun _ g => g = VirtGhost.idle) VirtGhost.idle :=
    safe_silent rfl fun _ => rfl
  refine hnotified.seq ?_
  rintro channels g rfl
  refine Outline.Safe.seq (R := fun _ g => g = VirtGhost.idle) ?_ ?_
  · exact Outline.Safe.when (fun _ => safe_resumePending hcap) fun _ => rfl
  · rintro _ g rfl
    refine Outline.Safe.each (fun _ g => g = VirtGhost.idle) ?_ (fun _ hg => hg) (Eq.refl VirtGhost.idle)
    rintro c _ g rfl
    exact Outline.Safe.when (fun _ => safe_provide hcap c) fun _ => rfl

/-- The driver takes a byte and hands it to the UART. A byte the UART refuses stops the driver. -/
theorem safe_driverByte (x : TxByte) :
    (orderOutline cap).Safe .driver (uartWrite x) (fun ok g => ok = true → g = ([] : List TxByte)) [x] := by
  refine ⟨trivial, ?_⟩
  rintro G s hg _ hi r s' ⟨ch, env, he, rfl⟩
  have hi : OrderInv cap (G .virt) (G .driver) s.queue s.log := hi
  rw [hg] at hi
  cases r with
  | false => exact ⟨[x], inv_driver hi.append_nil, nofun⟩
  | true => exact ⟨[], inv_driver hi.write, fun _ => rfl⟩

theorem safe_driverLoop : (orderOutline cap).Safe .driver driverLoop (fun _ _ => True) [] := by
  refine Outline.Safe.forever (fun g => g = ([] : List TxByte)) rfl (fun _ _ => trivial) ?_
  rintro g rfl
  have hdrained : (orderOutline cap).Safe .driver (ev .drained) (fun _ g => g = ([] : List TxByte))
    ([] : List TxByte) :=
    safe_silent rfl fun _ => rfl
  refine hdrained.seq ?_
  rintro _ g rfl
  refine Outline.Safe.seq (R := fun _ g => g = ([] : List TxByte)) ?_ ?_
  · refine Outline.Safe.iterate (fun _ g => g = ([] : List TxByte)) rfl (fun _ _ _ => trivial) ?_
    rintro transferred g rfl
    refine Outline.Safe.seq (R := fun got g => g = (got.toList : List TxByte)) ?_ ?_
    · refine performs_driver fun v queue log h r m hspec => ?_
      cases hq : queue .driver with
      | nil =>
        rw [hq] at hspec
        obtain ⟨rfl, rfl⟩ := Prod.mk.inj hspec
        refine ⟨[], ?_, rfl⟩
        have hsame : Function.update queue .driver (Move.apply [] none) = queue := by
          rw [Move.apply, ← hq, Function.update_eq_self]
        simpa [hsame, Entry.moves] using h
      | cons x q =>
        rw [hq] at hspec
        obtain ⟨rfl, rfl⟩ := Prod.mk.inj hspec
        exact ⟨[x], h.drain hq, rfl⟩
    · rintro got g rfl
      cases got with
      | none => exact rfl
      | some x =>
        refine (safe_driverByte x).seq fun ok g hok => Outline.Safe.ite (fun h => hok h) fun _ => ?_
        exact ⟨rfl, fun _ _ _ _ _ r => r.elim⟩
  · rintro transferred g rfl
    refine Outline.Safe.when (fun _ => ?_) fun _ => rfl
    refine (safe_ev (.requireConsumerSignal .driver) rfl).seq ?_
    rintro required g rfl
    refine Outline.Safe.when (fun _ => ?_) fun _ => rfl
    refine (safe_ev (.cancelConsumerSignal .driver) rfl).seq ?_
    rintro _ g rfl
    exact safe_ev (.notify .virt) rfl

theorem inv_client {c : Fin n} {g : (orderOutline cap).Ghost (.client c)}
    (h : OrderInv cap (G .virt) (G .driver) queue log) :
    (orderOutline cap).inv (Function.update G (.client c) g) ⟨queue, env, log⟩ := by
  change OrderInv cap (Function.update G (.client c) g .virt)
    (Function.update G (.client c) g .driver) queue log
  rwa [Function.update_of_ne (by simp), Function.update_of_ne (by simp)]

theorem safe_anyClient (c : Fin n) : (orderOutline cap).Safe (.client c) (anyClient c)
    (fun _ _ => True) () := by
  refine Outline.Safe.forever (fun _ => True) trivial (fun _ _ => trivial) fun _ _ => ?_
  refine (safe_ev .deed rfl).seq fun deed _ _ => ?_
  cases deed with
  | requestConsumerSignal => exact (safe_ev (.requestConsumerSignal (.client c)) rfl).mono fun _ _ _ => trivial
  | notify => exact (safe_ev (.notify .virt) rfl).mono fun _ _ _ => trivial
  | enqueue byte =>
    refine ⟨trivial, ?_⟩
    rintro G s _ _ hi r s' ⟨m, hspec, rfl⟩
    have hi : OrderInv cap (G .virt) (G .driver) s.queue s.log := hi
    have hspec : push (cap (.client c)) ⟨c.val, byte⟩ (s.queue (.client c)) = (r, m) := hspec
    have hb := hi.bound (.client c)
    refine ⟨(), inv_client ?_, trivial⟩
    unfold push at hspec
    split at hspec
    · obtain ⟨rfl, rfl⟩ := Prod.mk.inj hspec
      rw [Move.apply, Function.update_eq_self]
      exact hi.append_nil
    · obtain ⟨rfl, rfl⟩ := Prod.mk.inj hspec
      exact hi.push_client rfl (by omega)

end domains

/-! ### Every run -/

theorem good_of_pow {m k : Nat} (hk : k < 32) (h : m = 2 ^ k) : Ring.Good 32 m := by
  subst h
  exact ⟨⟨Nat.two_pow_pos k, Nat.pow_lt_pow_right (by omega) hk⟩, pow_dvd_pow 2 (by omega)⟩

theorem fits_exact {cap : Queue n → Nat} {spurious : Bool} (hcap : ∀ q, Ring.Good 32 (cap q)) :
    System.Fits (txSystem n cap spurious) fun _ => .exact where
  cap := hcap
  lin q f _ := serialLib_linearises (hcap q).toCounts (fun _ => hcap q) f
  body _ f b := serialLib_body f b

/-- The lists at the start. -/
def emptyLists (cap : Queue n → Nat) (spurious : Bool) : (txSystem n cap spurious).Lists :=
  ⟨fun _ => [], Env.zeroed n, []⟩

theorem len_boot : (⟨0, 0, fun _ => ⟨0, 0⟩⟩ : Ring 32 TxByte).len = 0 := by
  simp [Ring.len]

theorem contents_boot {m : Nat} : (⟨0, 0, fun _ => ⟨0, 0⟩⟩ : Ring 32 TxByte).contents m = [] := by
  rw [Ring.contents_eq_nil_iff]

theorem rel_boot (cap : Queue n → Nat) (spurious : Bool) (client : Fin n → TxProg n Empty)
    (trust : System.Trust) :
    System.Rel (txSystem n cap spurious) (fun _ => trust) ⟨programs cap client, emptyLists cap spurious⟩
      (boot cap spurious client) where
  env := rfl
  log := rfl
  ring q := by
    cases trust with
    | exact => exact ⟨(len_boot).trans_le (Nat.zero_le _), contents_boot⟩
    | loose => exact ⟨(len_boot).trans_le (Nat.zero_le _), len_boot⟩
    | wild => trivial
  thread t := rfl

theorem order_init (cap : Queue n → Nat) : OrderInv cap .idle [] (fun _ => []) [] where
  bound _ := Nat.zero_le _
  owner _ _ h := nomatch h
  order _ := rfl
  took := rfl
  drained := rfl
  hand := Nat.zero_le _
  moves := .nil

theorem order_holds {cap : Queue n → Nat} (hcap : cap .driver < 2 ^ 32) :
    (orderOutline cap).Holds ⟨programs cap anyClient, emptyLists cap true⟩ := by
  refine ⟨fun t => match t with | .client _ => () | .virt => VirtGhost.idle | .driver => [],
    order_init cap, ?_⟩
  intro t
  cases t with
  | client c => exact safe_anyClient c
  | virt => exact safe_virtLoop hcap
  | driver => exact safe_driverLoop

/-- In every run, what a client's `serial_enqueue` accepted is, in order, what the UART took, what the
driver holds and has queued, what the virtualiser holds and what the client's own queue has. A domain holds
at most one byte, and none while it waits. No assertion of `move_client` fails, `serial_queue_free` does not
underflow, and every `move_client` moves all it counted or nothing. -/
theorem transmit_order {cap : Queue n → Nat} (hcap : ∀ q, ∃ k < 32, cap q = 2 ^ k)
    {s : (txSystem n cap true).Conf}
    (h : System.Reaches (txSystem n cap true) (fun _ _ => True) (boot cap true anyClient) s) :
    (∀ c, accepted c s.log = own c (written s.log) ++ own c (driverHand s.log) ++
        own c ((s.ring .driver).contents (cap .driver)) ++ own c (virtHand s.log) ++
        (s.ring (.client c)).contents (cap (.client c))) ∧
      (driverHand s.log).length ≤ 1 ∧ (virtHand s.log).length ≤ 1 ∧
      (At s .driver .drained → driverHand s.log = []) ∧ (At s .virt .notified → virtHand s.log = []) ∧
      (∀ t a, At s t (.fail a) → a = .uartWrite) ∧ WholeMoves s.log := by
  have hgood : ∀ q, Ring.Good 32 (cap q) := by
    intro q
    obtain ⟨k, hk, hq⟩ := hcap q
    exact good_of_pow hk hq
  obtain ⟨a, hreach, hrel⟩ := System.simulates (fits_exact hgood) (fun _ _ => True)
    (rel_boot cap true anyClient .exact) (fun s hs => exclusive all_anyClient hs)
      (fun _ _ _ _ _ _ _ => trivial) h
  obtain ⟨G, hinv, hcov⟩ := Outline.holds_of_reach (order_holds (hgood .driver).lt)
    (fun _ _ _ _ _ _ _ _ => trivial) hreach
  have hlog : a.mem.log = s.log := by
    rw [hrel.log]
    refine List.filter_eq_self.mpr fun e _ => ?_
    cases e <;> rfl
  have hqueue : ∀ q, (s.ring q).contents (cap q) = a.mem.queue q := fun q => (hrel.ring q).2
  have hinv : OrderInv cap (G .virt) (G .driver) a.mem.queue a.mem.log := hinv
  rw [hlog] at hinv
  have hd : driverHand s.log = G .driver := hinv.driverHand_eq
  have hv : virtHand s.log = VirtGhost.hand (G .virt) := hinv.virtHand_eq
  -- a thread about to perform an event is about to perform it over the lists
  have hat : ∀ t o, At s t o → (orderOutline cap).ok t (G t) (.ev o) := by
    intro t o h
    obtain ⟨k, hk⟩ := h.thread
    have hp := hrel.thread t
    rw [hk] at hp
    exact hcov.ok hp
  refine ⟨fun c => ?_, ?_, ?_, fun h => ?_, fun h => ?_, fun t b h => ?_, ?_⟩
  · rw [hd, hv, hqueue, hqueue]
    exact hinv.order c
  · rw [hd]
    exact hinv.hand
  · rw [hv]
    exact hinv.moves.hand_le
  · rw [hd]
    exact hat _ _ h
  · rw [hv]
    have : G .virt = VirtGhost.idle := hat _ _ h
    rw [this]
    rfl
  · have := hat t _ h
    cases t <;> exact this
  · exact hinv.moves.wholeMoves

/-! ### A byte in the virtualiser's hand -/

/-- One client, and two places in each queue. -/
def twoPlaces : Queue 1 → Nat := fun _ => 2

/-- The client queues a byte; the virtualiser is started for it and takes the byte. -/
def takeOne : List (Pd 1 × Choice 1) :=
  List.flatten [
    [(.client 0, .none), (.client 0, .deed (.enqueue 7))], .replicate 5 (.client 0, .none),
    [(.virt, .none), (.virt, .channels ⟨false, fun _ => true⟩)], .replicate 15 (.virt, .none)]

theorem takeOne_runs :
    ((boot twoPlaces true anyClient).runs (fun _ _ => true) takeOne).map (fun s =>
      (accepted 0 s.log, written s.log, (s.ring .driver).contents 2, virtHand s.log,
        (s.ring (.client 0)).contents 2)) =
      some ([⟨0, 7⟩], [], [], [⟨0, 7⟩], []) := by
  decide +kernel

theorem takeOne_reaches : ∃ s : (txSystem 1 twoPlaces true).Conf,
    System.Reaches (txSystem 1 twoPlaces true) (fun _ _ => True) (boot twoPlaces true anyClient) s ∧
      accepted (0 : Fin 1) s.log = [⟨0, 7⟩] ∧ written s.log = [] ∧ (s.ring .driver).contents 2 = [] ∧
      virtHand s.log = [⟨0, 7⟩] ∧ (s.ring (.client 0)).contents 2 = [] := by
  obtain ⟨s, hs, hv⟩ := Option.map_eq_some_iff.mp takeOne_runs
  simp only [Prod.mk.injEq] at hv
  exact ⟨s, System.Reaches.init.runs (fun _ _ _ => trivial) hs, hv⟩

/-- There the byte is in the record of accepted bytes and in no queue. -/
theorem transmit_order_in_hand : ∃ s : (txSystem 1 twoPlaces true).Conf,
    System.Reaches (txSystem 1 twoPlaces true) (fun _ _ => True) (boot twoPlaces true anyClient) s ∧
      accepted (0 : Fin 1) s.log ≠ own (0 : Fin 1) (written s.log) ++ own (0 : Fin 1)
        ((s.ring .driver).contents (twoPlaces .driver)) ++
        (s.ring (.client 0)).contents (twoPlaces (.client 0)) := by
  obtain ⟨s, hs, h1, h2, h3, -, h5⟩ := takeOne_reaches
  refine ⟨s, hs, ?_⟩
  have h3 : (s.ring .driver).contents (twoPlaces .driver) = [] := h3
  have h5 : (s.ring (.client 0)).contents (twoPlaces (.client 0)) = [] := h5
  rw [h1, h2, h3, h5]
  simp

theorem transmit_order_take : ∃ s : (txSystem 1 twoPlaces true).Conf,
    System.Reaches (txSystem 1 twoPlaces true) (fun _ _ => True) (boot twoPlaces true anyClient) s ∧
      virtHand s.log = [⟨0, 7⟩] ∧ WholeMoves s.log := by
  obtain ⟨s, hs, -, -, -, h4, -⟩ := takeOne_reaches
  have := transmit_order (fun q => ⟨1, by omega, rfl⟩) hs
  exact ⟨s, hs, h4, this.2.2.2.2.2.2⟩

end Lerux.Serial

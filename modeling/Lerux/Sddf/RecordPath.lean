import Lerux.Sddf.RecordQueues

/-!
# A client, a virtualiser and a driver over record queues

The block and the graphics path have one shape: a client queues requests, a virtualiser forwards
them to a driver, and the responses come back the same way, over four queues of records with ids.
`outline` is a proof outline for such a path: what each of the three domains knows, and one
invariant over the queues, the environment and the record of the run.
-/

namespace Lerux.RecordPath

open Lerux.Base Lerux.RecordQueues Lerux.SerialQueue

/-- The protection domains. -/
inductive Pd
  | client
  | virt
  | driver
  deriving DecidableEq

inductive Queue
  | clientReq
  | clientResp
  | driverReq
  | driverResp
  deriving DecidableEq

/-! ### Records with ids -/

class Numbered (α : Type) where
  id : α → BitVec 32

instance : Numbered BlkReq := ⟨BlkReq.id⟩
instance : Numbered BlkResp := ⟨BlkResp.id⟩
instance : Numbered GpuReq := ⟨GpuReq.id⟩
instance : Numbered GpuResp := ⟨GpuResp.id⟩

section records

variable {Req Resp : Type}

section ids

variable [Numbered Req] [Numbered Resp]

def itemId : Req ⊕ Resp → BitVec 32
  | .inl req => Numbered.id req
  | .inr resp => Numbered.id resp

def ids (xs : List (Req ⊕ Resp)) : List (BitVec 32) := xs.map itemId

@[simp] theorem ids_nil : ids ([] : List (Req ⊕ Resp)) = [] := rfl

@[simp] theorem ids_append (xs ys : List (Req ⊕ Resp)) : ids (xs ++ ys) = ids xs ++ ids ys :=
  List.map_append

@[simp] theorem ids_cons (x : Req ⊕ Resp) (xs : List (Req ⊕ Resp)) :
    ids (x :: xs) = itemId x :: ids xs := rfl

@[simp] theorem ids_length (xs : List (Req ⊕ Resp)) : (ids xs).length = xs.length := List.length_map _

end ids

/-- What a queue may hold. -/
def Queue.holds : Queue → Req ⊕ Resp → Bool
  | .clientReq, x => x.isLeft
  | .driverReq, x => x.isLeft
  | .clientResp, x => x.isRight
  | .driverResp, x => x.isRight

/-- Every queue holds records of its own kind. -/
def Kind (queue : Queue → List (Req ⊕ Resp)) : Prop := ∀ q, ∀ x ∈ queue q, q.holds x = true

variable {queue : Queue → List (Req ⊕ Resp)}

theorem Kind.update (hk : Kind queue) {q : Queue} {xs : List (Req ⊕ Resp)}
    (h : ∀ x ∈ xs, q.holds x = true) :
    Kind (Function.update queue q xs) := by
  intro q' x hx
  by_cases hq : q' = q
  · subst hq
    rw [Function.update_self] at hx
    exact h x hx
  · rw [Function.update_of_ne hq] at hx
    exact hk q' x hx

theorem Kind.push (hk : Kind queue) {q : Queue} {x : Req ⊕ Resp} (hx : q.holds x = true) :
    Kind (Function.update queue q (queue q ++ [x])) := by
  refine hk.update fun y hy => ?_
  rcases List.mem_append.mp hy with hy | hy
  · exact hk q y hy
  · rw [List.mem_singleton.mp hy]
    exact hx

theorem Kind.pop (hk : Kind queue) {q : Queue} {x : Req ⊕ Resp} {xs : List (Req ⊕ Resp)}
    (hq : queue q = x :: xs) :
    Kind (Function.update queue q xs) :=
  hk.update fun y hy => hk q y (by rw [hq]; exact List.mem_cons_of_mem x hy)

theorem Kind.head_req (hk : Kind queue) {q : Queue} (hq : q = .clientReq ∨ q = .driverReq) {x : Req ⊕ Resp}
    {xs : List (Req ⊕ Resp)} (hx : queue q = x :: xs) : ∃ r, x = .inl r := by
  have := hk q x (by rw [hx]; exact List.mem_cons_self)
  rcases hq with rfl | rfl <;> exact Sum.isLeft_iff.mp this

theorem Kind.head_resp (hk : Kind queue) {q : Queue} (hq : q = .clientResp ∨ q = .driverResp)
    {x : Req ⊕ Resp}
    {xs : List (Req ⊕ Resp)} (hx : queue q = x :: xs) : ∃ r, x = .inr r := by
  have := hk q x (by rw [hx]; exact List.mem_cons_self)
  rcases hq with rfl | rfl <;> exact Sum.isRight_iff.mp this

end records

/-! ### One producer and one consumer for every queue -/

section calls

variable {E : Sig} {Req Resp : Type}

/-- The calls each domain makes. -/
def Calls : Pd → CallOp E (recordLib Req Resp) Queue → Prop
  | _, .ev _ => True
  | .client, .call q f => (q = .clientReq ∧ ∃ r, f = .enqueueReq r) ∨ (q = .clientResp ∧ f = .dequeueResp)
  | .virt, .call q f => (q = .driverReq ∧ (f = .full ∨ ∃ r, f = .enqueueReq r)) ∨
    (q = .clientReq ∧ f = .dequeueReq) ∨
      (q = .clientResp ∧ (f = .full ∨ ∃ r, f = .enqueueResp r)) ∨ (q = .driverResp ∧ f = .dequeueResp)
  | .driver, .call q f => (q = .driverReq ∧ f = .dequeueReq) ∨ (q = .driverResp ∧ ∃ r, f = .enqueueResp r)

theorem calls_ev (t : Pd) (o : E.Op) : Calls t (.ev o : CallOp E (recordLib Req Resp) Queue) := by
  cases t <;> trivial

theorem calls_unique (q : Queue) (f f' : RecordFn Req Resp) (t t' : Pd)
    (hr : (recordLib Req Resp).role f = (recordLib Req Resp).role f') (h : Calls (E := E) t (.call q f))
    (h' : Calls (E := E) t' (.call q f')) : t = t' := by
  have hside := role_eq_consumer f
  rw [hr, role_eq_consumer f'] at hside
  cases t <;> cases t' <;> try rfl
  all_goals
    simp only [Calls] at h h'
    rcases h with ⟨rfl, h⟩ | h <;> rcases h' with ⟨hq, h'⟩ | h'
    all_goals grind

end calls

/-! ### The outline -/

/-- What the three domains know. -/
def Know (C V D : Type) : Pd → Type
  | .client => C
  | .virt => V
  | .driver => D

def known {C V D : Type} (c : C) (v : V) (d : D) : (t : Pd) → Know C V D t
  | .client => c
  | .virt => v
  | .driver => d

section outline

variable {E : Sig} {Req Resp C V D : Type} (Y : System Pd Queue E (recordLib Req Resp))

/-- The domains may call as they like. `ok` says what a domain knows at an event, and `may` when the
schedule allows it. -/
def outline (ok : (t : Pd) → Know C V D t → E.Op → Prop) (may : Y.Lists → E.Op → Prop)
    (inv : C → V → D → (Queue → List (Req ⊕ Resp)) → Y.Env →
      List (Entry Pd Queue (Req ⊕ Resp) Y.Note) → Prop) :
    Outline Pd (callSig E (recordLib Req Resp) Queue) Y.Lists where
  step := Y.act fun _ => .exact
  Ghost := Know C V D
  ok t g
    | .ev o => ok t g o
    | .call _ _ => True
  calm _ _ := True
  may _ _ s
    | .ev o => may s o
    | .call _ _ => True
  inv G s := inv (G .client) (G .virt) (G .driver) s.queue s.env s.log

variable {Y} {ok : (t : Pd) → Know C V D t → E.Op → Prop} {may : Y.Lists → E.Op → Prop}
  {inv : C → V → D → (Queue → List (Req ⊕ Resp)) → Y.Env → List (Entry Pd Queue (Req ⊕ Resp) Y.Note) → Prop}

/-- A call that moves no record. -/
theorem still {c : C} {v : V} {d : D} {queue : Queue → List (Req ⊕ Resp)} {env : Y.Env}
    {log : List (Entry Pd Queue (Req ⊕ Resp) Y.Note)} {q : Queue} {t : Pd} (h : inv c v d queue env log) :
    inv c v d (Function.update queue q (Move.apply (queue q) none)) env (log ++ Entry.moves t q none) := by
  rw [Move.apply, Function.update_eq_self, Entry.moves, List.append_nil]
  exact h

theorem performs_client_call {q : Queue} {f : RecordFn Req Resp} {Q : f.Res → C → Prop} {g : C}
    (h : ∀ v d queue env log, inv g v d queue env log → ∀ r m,
      (recordLib Req Resp).spec (Y.cap q) f (queue q) = (r, m) →
      ∃ g', inv g' v d (Function.update queue q (Move.apply (queue q) m)) env
        (log ++ Entry.moves .client q m) ∧ Q r g') :
    (outline Y ok may inv).Performs .client (.call q f) Q g := by
  refine ⟨trivial, ?_⟩
  rintro G s rfl - hi r s' ⟨m, hspec, rfl⟩
  exact h _ _ _ _ _ hi r m hspec

theorem performs_virt_call {q : Queue} {f : RecordFn Req Resp} {Q : f.Res → V → Prop} {g : V}
    (h : ∀ c d queue env log, inv c g d queue env log → ∀ r m,
      (recordLib Req Resp).spec (Y.cap q) f (queue q) = (r, m) →
      ∃ g', inv c g' d (Function.update queue q (Move.apply (queue q) m)) env
        (log ++ Entry.moves .virt q m) ∧ Q r g') :
    (outline Y ok may inv).Performs .virt (.call q f) Q g := by
  refine ⟨trivial, ?_⟩
  rintro G s rfl - hi r s' ⟨m, hspec, rfl⟩
  exact h _ _ _ _ _ hi r m hspec

theorem performs_driver_call {q : Queue} {f : RecordFn Req Resp} {Q : f.Res → D → Prop} {g : D}
    (h : ∀ c v queue env log, inv c v g queue env log → ∀ r m,
      (recordLib Req Resp).spec (Y.cap q) f (queue q) = (r, m) →
      ∃ g', inv c v g' (Function.update queue q (Move.apply (queue q) m)) env
        (log ++ Entry.moves .driver q m) ∧ Q r g') :
    (outline Y ok may inv).Performs .driver (.call q f) Q g := by
  refine ⟨trivial, ?_⟩
  rintro G s rfl - hi r s' ⟨m, hspec, rfl⟩
  exact h _ _ _ _ _ hi r m hspec

/-- An event that leaves no note adds nothing to the record. -/
theorem performs_client_ev {o : E.Op} {Q : E.Res o → C → Prop} {g : C} (hok : ok .client g o)
    (hn : ∀ r, Y.note o r = none)
    (h : ∀ v d s, may s o → inv g v d s.queue s.env s.log → ∀ ch r env',
      Y.exec .client s.env o ch = some (r, env') →
      ∃ g', inv g' v d s.queue env' s.log ∧ Q r g') :
    (outline Y ok may inv).Performs .client (.ev o) Q g := by
  refine ⟨hok, ?_⟩
  rintro G s rfl hm hi r s' ⟨ch, env', he, rfl⟩
  rw [System.noted_none (hn r), List.append_nil]
  exact h _ _ s hm hi ch r env' he

theorem performs_virt_ev {o : E.Op} {Q : E.Res o → V → Prop} {g : V} (hok : ok .virt g o)
    (hn : ∀ r, Y.note o r = none)
    (h : ∀ c d s, may s o → inv c g d s.queue s.env s.log → ∀ ch r env',
      Y.exec .virt s.env o ch = some (r, env') →
      ∃ g', inv c g' d s.queue env' s.log ∧ Q r g') :
    (outline Y ok may inv).Performs .virt (.ev o) Q g := by
  refine ⟨hok, ?_⟩
  rintro G s rfl hm hi r s' ⟨ch, env', he, rfl⟩
  rw [System.noted_none (hn r), List.append_nil]
  exact h _ _ s hm hi ch r env' he

theorem performs_driver_ev {o : E.Op} {Q : E.Res o → D → Prop} {g : D} (hok : ok .driver g o)
    (hn : ∀ r, Y.note o r = none)
    (h : ∀ c v s, may s o → inv c v g s.queue s.env s.log → ∀ ch r env',
      Y.exec .driver s.env o ch = some (r, env') →
      ∃ g', inv c v g' s.queue env' s.log ∧ Q r g') :
    (outline Y ok may inv).Performs .driver (.ev o) Q g := by
  refine ⟨hok, ?_⟩
  rintro G s rfl hm hi r s' ⟨ch, env', he, rfl⟩
  rw [System.noted_none (hn r), List.append_nil]
  exact h _ _ s hm hi ch r env' he

/-- Rings of a good capacity stand for lists. -/
theorem fits (hg : ∀ q, Ring.Good 32 (Y.cap q)) : Y.Fits fun _ => .exact where
  cap q := hg q
  lin q f _ := recordLib_linearises (hg q).toCounts (fun _ => hg q) f
  body _ f b := recordLib_body f b

end outline

end Lerux.RecordPath

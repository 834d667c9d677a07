import Lerux.Posix.Descriptors

/-!
# Replies to the commands of a run

An exchange takes one completion after each of its two wakes, and drops one that is not for its
command. So it returns its own completion unless another one still stands in front of it when the
second wake returns (`exchange_replied_iff`).
-/

namespace Lerux.Posix

open Lerux.Base
open Lerux.FatFs (Command)

variable {σ : Type} {peer : Peer σ} {c : Client σ}

/-- The completions in a ring, the front first. -/
def completions (ring : Ring 64 FsCmpl) : List FsCmpl := ring.contents fsQueueCapacity.toNat

theorem front_eq (ring : Ring 64 FsCmpl) : front ring = (completions ring).head? := by
  rw [front, fsMessageDequeue, completions]
  by_cases hlen : ring.len = 0
  · rw [if_pos ((RingWord.isEmpty_iff ring).mpr hlen),
      List.length_eq_zero_iff.mp ((Ring.contents_length _ ring).trans hlen)]
    rfl
  · have hcounts : Ring.Counts 64 fsQueueCapacity.toNat := ⟨by decide, by decide⟩
    rw [if_neg (mt (RingWord.isEmpty_iff ring).mp hlen),
      Ring.contents_storeHead hcounts ring (Nat.pos_of_ne_zero hlen),
      RingWord.index_toNat]
    rfl

/-- What is asked of an exchange: it returns a completion only for the command it sent; it gives up
only after two wakes or at a full ring; and it returns one if its own is in the ring when the second
wake returns. -/
structure Exchange.Replied (e : Exchange) : Prop where
  own : ∀ cmpl, e.result = .ok cmpl → e.Sent ∧ cmpl.id = e.id
  woken : (∃ cmpl, e.result = .ok cmpl) ∨ e.looks.length = 2 ∨ Full e.sent
  taken : ∀ ring, e.looks[1]? = some ring → (∃ cmpl ∈ completions ring, cmpl.id = e.id) → ∃ cmpl,
    e.result = .ok cmpl

/-- When the second wake returns, another completion stands in front of the exchange's own. -/
def Exchange.Behind (e : Exchange) : Prop :=
  ∃ ring other rest, e.looks[1]? = some ring ∧ completions ring = other :: rest ∧ other.id ≠ e.id ∧
    ∃ cmpl ∈ rest, cmpl.id = e.id

theorem Exchange.Matched.replied_iff {e : Exchange} (h : e.Matched) : e.Replied ↔ ¬e.Behind := by
  have hown : ∀ cmpl, e.result = .ok cmpl → e.Sent ∧ cmpl.id = e.id :=
    fun cmpl hok => ⟨(h.taken cmpl hok).1, (h.taken cmpl hok).2.1⟩
  constructor
  · rintro hreplied ⟨ring, other, rest, hring, hcontents, hother, cmpl, hmem, hid⟩
    obtain ⟨got, hok⟩ := hreplied.taken ring hring ⟨cmpl,
      by rw [hcontents]; exact List.mem_cons_of_mem _ hmem, hid⟩
    obtain ⟨-, hgot, last, hlast, hfront⟩ := h.taken got hok
    have hlen := h.looks
    have hsecond := (List.getElem?_eq_some_iff.mp hring).1
    have hsame : last = ring := by
      rw [List.getLast?_eq_getElem?, show e.looks.length - 1 = 1 by omega, hring] at hlast
      exact (Option.some.inj hlast).symm
    rw [hsame, front_eq, hcontents, List.head?_cons] at hfront
    cases hfront
    exact hother hgot
  · intro hbehind
    cases hresult : e.result with
    | ok cmpl => exact ⟨hown, .inl ⟨cmpl, hresult⟩, fun _ _ _ => ⟨cmpl, hresult⟩⟩
    | error err =>
      obtain ⟨hnone, hwhy⟩ := h.missed err hresult
      refine ⟨hown, ?_, fun ring hring ⟨cmpl, hmem, hid⟩ => ?_⟩
      · rcases hwhy with ⟨-, -, hfull⟩ | ⟨-, -, htwo⟩
        · exact .inr (.inr hfull)
        · exact .inr (.inl htwo)
      · cases hcontents : completions ring with
        | nil =>
          rw [hcontents] at hmem
          cases hmem
        | cons other rest =>
          have hfront : front ring = some other := by rw [front_eq, hcontents, List.head?_cons]
          have hother : other.id ≠ e.id :=
            fun heq => hnone ⟨ring, List.mem_of_getElem? hring, other, hfront, heq⟩
          rw [hcontents] at hmem
          rcases List.mem_cons.mp hmem with rfl | hmem
          · exact absurd hid hother
          · exact absurd ⟨ring, other, rest, hring, hcontents, hother, cmpl, hmem, hid⟩ hbehind

/-- Whatever the server does, an exchange of a run is replied to if and only if its own completion
is not behind another one when its second wake returns. -/
theorem exchange_replied_iff (h : Ran peer c) : ∀ e ∈ c.exchanges, e.Replied ↔ ¬e.Behind := by
  intro e he
  obtain ⟨k, hk⟩ := List.mem_iff_getElem?.mp he
  exact (h.safe.matched k e hk).2.replied_iff

/-- Exchanges that come closer than the ids go round have different ids. -/
theorem exchange_ids_apart (h : Ran peer c) {k l : Nat} {e f : Exchange} (hk : c.exchanges[k]? = some e)
    (hl : c.exchanges[l]? = some f) (hlt : k < l) (hclose : l < k + (2 ^ 64 - 1)) : e.id ≠ f.id := by
  intro heq
  have hfirst := (h.safe.matched k e hk).1
  have hsecond := (h.safe.matched l f hl).1
  rw [heq, hsecond] at hfirst
  unfold idAfter at hfirst
  omega

/-! ### A server that is late -/

/-- A server that takes the commands it finds, and answers each at most once, under its id, at any
later time. -/
structure AnswersOnce (peer : Peer σ) (pending : σ → List (BitVec 64)) : Prop where
  turn : ∀ p mem, (peer p mem).2.command = mem.command.storeHead mem.command.tail ∧
    ∃ answers : List FsCmpl,
      (peer p mem).2.completion = answers.foldl (fun ring cmpl => (fsEnqueue ring cmpl).2) mem.completion ∧
      (answers.map FsCmpl.id ++ pending (peer p mem).1).Perm
        (pending p ++ (mem.command.contents fsQueueCapacity.toNat).map FsCmd.id)

theorem serverFrom_answersOnce (first : Nat) : AnswersOnce (serverFrom first) Served.pending := by
  refine ⟨fun p mem => ?_⟩
  unfold serverFrom
  dsimp only
  split
  · exact ⟨rfl, [], rfl, List.Perm.refl _⟩
  · refine ⟨rfl, (p.pending ++ (mem.command.contents fsQueueCapacity.toNat).map FsCmd.id).map
      (⟨·, 0, 2⟩), ?_, ?_⟩
    · rw [List.foldl_map]
    · have hid : (FsCmpl.id ∘ fun id => ⟨id, 0, 2⟩) = id := rfl
      rw [List.map_map, List.append_nil, hid, List.map_id]

/-- Three directories made, over a server that answers all the commands in the first wake of the
third one. -/
def lateClient : Client Served :=
  final (perform (serverFrom 10) (.mkdir [0x63])) (final (perform (serverFrom 10) (.mkdir [0x62]))
    (final (perform (serverFrom 10) (.mkdir [0x61])) freshClient))

theorem lateClient_ran : Ran (serverFrom 10) lateClient := .call (.call (.call (freshClient_ran _) _) _) _

/-- The third command's completion is in the ring behind the second one's, and it is not returned. -/
theorem lateClient_not_replied : AnswersOnce (serverFrom 10) Served.pending ∧
    freshClient.peer.pending = [] ∧
    Ran (serverFrom 10) lateClient ∧ ∃ e ∈ lateClient.exchanges, ¬e.Replied := by
  refine ⟨serverFrom_answersOnce 10, rfl, lateClient_ran, ?_⟩
  obtain ⟨e, he⟩ : ∃ e, lateClient.exchanges[2]? = some e := Option.isSome_iff_exists.mp (by decide +kernel)
  have hshown : (lateClient.exchanges[2]?).map
    (fun e => (e.id, e.result, e.looks.map fun ring => (completions ring).map FsCmpl.id)) =
      some (3, .error .fileErr, [[1, 2, 3], [2, 3]]) := by decide +kernel
  rw [he, Option.map_some, Option.some_inj, Prod.mk.injEq, Prod.mk.injEq] at hshown
  obtain ⟨hid, hresult, hlooks⟩ := hshown
  refine ⟨e, List.mem_of_getElem? he, fun hreplied => ?_⟩
  obtain ⟨ring, hring, hids⟩ : ∃ ring, e.looks[1]? = some ring ∧
    (completions ring).map FsCmpl.id = [2, 3] := by
    have hsecond := congrArg (·[1]?) hlooks
    rw [List.getElem?_map] at hsecond
    exact Option.map_eq_some_iff.mp hsecond
  have hmem : (3 : BitVec 64) ∈ (completions ring).map FsCmpl.id := by
    rw [hids]
    decide
  obtain ⟨cmpl, hin, hcmpl⟩ := List.mem_map.mp hmem
  obtain ⟨got, hok⟩ := hreplied.taken ring hring ⟨cmpl, hin, hcmpl.trans hid.symm⟩
  rw [hresult] at hok
  cases hok

/-- The second command's exchange there finds no completion, and none behind another one. -/
theorem exchange_replied_iff_late : ∃ e, lateClient.exchanges[1]? = some e ∧ (e.Replied ↔ ¬e.Behind) := by
  obtain ⟨e, he⟩ : ∃ e, lateClient.exchanges[1]? = some e := Option.isSome_iff_exists.mp (by decide +kernel)
  exact ⟨e, he, exchange_replied_iff lateClient_ran e (List.mem_of_getElem? he)⟩

end Lerux.Posix

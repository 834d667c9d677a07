import Mathlib.Data.List.Infix
import Mathlib.Tactic

/-!
# Walks over records that begin with their length

A walk reads the length of a record at an index, looks at the record, and goes on behind it. It
stops where fewer than two bytes are left, at a limit, or at a length that is below two or leaves
the bytes; a visit may also leave it with a result.

`recordsFrom` is the list of the records that any walk over the bytes passes. A walk whose visits
look only into their record is the fold of the visits over that list (`walk_eq`), so it is never out
of range, and what it yields can be read off the records; and the records of a concatenation of
records are these (`recordsFrom_flatten`).
-/

namespace Lerux.Base

/-- Bytes that begin with their own number. -/
@[ext]
structure Record where
  bytes : List UInt8
  two : 2 ≤ bytes.length
  sized : (bytes.getD 0 0).toNat = bytes.length

namespace Record

variable {σ ρ : Type}

/-- A byte of the record. -/
def byte (record : Record) (k : Nat) : UInt8 := record.bytes.getD k 0

theorem getElem?_byte (record : Record) {k : Nat} (h : k < record.bytes.length) :
    record.bytes[k]? = some (record.byte k) := by
  rw [byte, List.getD_eq_getElem?_getD, List.getElem?_eq_getElem h]
  rfl

/-! ### The walk -/

/-- A visit reads bytes counted from the start of its record, and leaves the walk with a result or
goes on. -/
abbrev Visit (σ ρ : Type) := (Nat → Option UInt8) → Nat → σ → Option (ρ ⊕ σ)

def walk (bytes : List UInt8) (limit : Nat) (cut done : σ → ρ) (visit : Visit σ ρ) (index : Nat)
    (state : σ) : Option ρ :=
  if h : index + 2 ≤ bytes.length ∧ index < limit then
    if hlen : bytes[index].toNat < 2 ∨ bytes.length < index + bytes[index].toNat then some (cut state)
    else
      (visit (fun k => bytes[index + k]?) bytes[index].toNat state).bind fun next =>
        match next with
        | .inl result => some result
        | .inr state => walk bytes limit cut done visit (index + bytes[index].toNat) state
  else some (done state)
termination_by bytes.length - index

/-- The record at an index. -/
def recordAt (bytes : List UInt8) (index : Nat) (h : index + 2 ≤ bytes.length)
    (hlen : ¬ (bytes[index].toNat < 2 ∨ bytes.length < index + bytes[index].toNat)) : Record where
  bytes := (bytes.drop index).take bytes[index].toNat
  two := by
    rw [List.length_take, List.length_drop]
    omega
  sized := by
    have hpos : 0 < bytes[index].toNat := by omega
    rw [List.length_take, List.length_drop, List.getD_eq_getElem?_getD,
      List.getElem?_take_of_lt hpos, List.getElem?_drop,
      Nat.add_zero, List.getElem?_eq_getElem (by omega), Option.getD_some]
    omega

theorem recordAt_length {bytes : List UInt8} {index : Nat} (h : index + 2 ≤ bytes.length)
    (hlen : ¬ (bytes[index].toNat < 2 ∨ bytes.length < index + bytes[index].toNat)) :
    (recordAt bytes index h hlen).bytes.length = bytes[index].toNat := by
  change ((bytes.drop index).take bytes[index].toNat).length = _
  rw [List.length_take, List.length_drop]
  omega

theorem recordAt_byte {bytes : List UInt8} {index : Nat} (h : index + 2 ≤ bytes.length)
    (hlen : ¬ (bytes[index].toNat < 2 ∨ bytes.length < index + bytes[index].toNat)) {k : Nat}
      (hk : k < bytes[index].toNat) :
    bytes[index + k]? = some ((recordAt bytes index h hlen).byte k) := by
  rw [← getElem?_byte _ (by rw [recordAt_length]; exact hk)]
  change _ = ((bytes.drop index).take bytes[index].toNat)[k]?
  rw [List.getElem?_take_of_lt hk, List.getElem?_drop]

/-- The records that a walk passes from an index on, and whether it stops at a bad length. -/
def recordsFrom (bytes : List UInt8) (limit index : Nat) : List Record × Bool :=
  if h : index + 2 ≤ bytes.length ∧ index < limit then
    if hlen : bytes[index].toNat < 2 ∨ bytes.length < index + bytes[index].toNat then ([], true)
    else
      let rest := recordsFrom bytes limit (index + bytes[index].toNat)
      (recordAt bytes index h.1 hlen :: rest.1, rest.2)
  else ([], false)
termination_by bytes.length - index

/-- The visits of a walk, on the records. -/
def run (cut done : σ → ρ) (look : Record → σ → ρ ⊕ σ) : List Record × Bool → σ → ρ
  | ([], wasCut), state => if wasCut then cut state else done state
  | (record :: rest, wasCut), state =>
    match look record state with
    | .inl result => result
    | .inr state => run cut done look (rest, wasCut) state
termination_by records => records.1.length

/-- A visit that looks at its record only. -/
def Looks (visit : Visit σ ρ) (look : Record → σ → ρ ⊕ σ) : Prop :=
  ∀ (record : Record) (read : Nat → Option UInt8) (state : σ),
    (∀ k < record.bytes.length, read k = some (record.byte k)) →
      visit read record.bytes.length state = some (look record state)

/-- A walk whose visits look at their records only is never out of range. -/
theorem walk_eq {visit : Visit σ ρ} {look : Record → σ → ρ ⊕ σ} (hlooks : Looks visit look)
    (bytes : List UInt8) (limit : Nat)
    (cut done : σ → ρ) (index : Nat) (state : σ) :
    walk bytes limit cut done visit index state =
      some (run cut done look (recordsFrom bytes limit index) state) := by
  induction index using recordsFrom.induct bytes limit generalizing state with
  | case1 index h hlen =>
    rw [walk, dif_pos h, dif_pos hlen, recordsFrom, dif_pos h, dif_pos hlen, run]
    rfl
  | case2 index h hlen ih =>
    have hvisit : visit (fun k => bytes[index + k]?) bytes[index].toNat state =
        some (look (recordAt bytes index h.1 hlen) state) := by
      have := hlooks (recordAt bytes index h.1 hlen) (fun k => bytes[index + k]?) state fun k hk =>
        recordAt_byte h.1 hlen (by rwa [recordAt_length] at hk)
      rwa [recordAt_length] at this
    rw [walk, dif_pos h, dif_neg hlen, hvisit, recordsFrom, dif_pos h, dif_neg hlen, run, Option.bind_some]
    cases look (recordAt bytes index h.1 hlen) state with
    | inl result => rfl
    | inr state => exact ih state
  | case3 index h =>
    rw [walk, dif_neg h, recordsFrom, dif_neg h, run]
    rfl

/-- A record that stands at an index is the next one of the walk. -/
theorem recordsFrom_cons {bytes : List UInt8} {limit index : Nat} (record : Record) (hlimit : index < limit)
    (hat : ∀ k < record.bytes.length, bytes[index + k]? = some (record.byte k)) :
    recordsFrom bytes limit index =
      (record :: (recordsFrom bytes limit (index + record.bytes.length)).1,
        (recordsFrom bytes limit (index + record.bytes.length)).2) := by
  have htwo := record.two
  obtain ⟨hlast, _⟩ := List.getElem?_eq_some_iff.mp (hat (record.bytes.length - 1) (by omega))
  have h : index + 2 ≤ bytes.length ∧ index < limit := ⟨by omega, hlimit⟩
  have hhead : bytes[index].toNat = record.bytes.length := by
    obtain ⟨_, hfirst⟩ := List.getElem?_eq_some_iff.mp (hat 0 (by omega))
    rw [← record.sized]
    exact congrArg UInt8.toNat hfirst
  have hlen : ¬ (bytes[index].toNat < 2 ∨ bytes.length < index + bytes[index].toNat) := by
    rw [hhead]
    omega
  have hsize : (recordAt bytes index h.1 hlen).bytes.length = record.bytes.length := by
    rw [recordAt_length, hhead]
  have hrecord : recordAt bytes index h.1 hlen = record := by
    apply Record.ext
    apply List.ext_getElem?
    intro k
    by_cases hk : k < record.bytes.length
    · rw [record.getElem?_byte hk, getElem?_byte _ (by rwa [hsize]), ← hat k hk]
      exact (recordAt_byte h.1 hlen (by rwa [hhead])).symm
    · have hk' : record.bytes.length ≤ k := Nat.le_of_not_lt hk
      rw [List.getElem?_eq_none hk', List.getElem?_eq_none (hsize.le.trans hk')]
  rw [recordsFrom, dif_pos h, dif_neg hlen, hrecord, hhead]

/-- The records of a concatenation of records. -/
theorem recordsFrom_flatten (before : List UInt8) (records : List Record) {limit : Nat}
    (hlimit : (before ++ (records.map bytes).flatten).length ≤ limit) :
    recordsFrom (before ++ (records.map bytes).flatten) limit before.length = (records, false) := by
  induction records generalizing before with
  | nil =>
    have hend : ¬ (before.length + 2 ≤ (before ++ (([] : List Record).map bytes).flatten).length ∧
      before.length < limit) := by
      simp
    rw [recordsFrom, dif_neg hend]
  | cons record records ih =>
    have htwo := record.two
    have hbytes : before ++ ((record :: records).map bytes).flatten = before ++ record.bytes ++
      (records.map bytes).flatten := by
      rw [List.map_cons, List.flatten_cons, List.append_assoc]
    rw [hbytes] at hlimit ⊢
    have hinside : before.length < limit := by
      rw [List.length_append, List.length_append] at hlimit
      omega
    have hat : ∀ k < record.bytes.length,
        (before ++ record.bytes ++ (records.map bytes).flatten)[before.length + k]? =
          some (record.byte k) := by
      intro k hk
      rw [List.append_assoc, List.getElem?_append_right (Nat.le_add_right _ _), Nat.add_sub_cancel_left,
        List.getElem?_append_left hk, record.getElem?_byte hk]
    rw [recordsFrom_cons record hinside hat, ← List.length_append, ih (before ++ record.bytes) hlimit]

end Record

end Lerux.Base

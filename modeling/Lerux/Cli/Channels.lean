import Lerux.Base.Pattern
import Mathlib.Data.Char
import Mathlib.Data.List.Flatten
import Mathlib.Data.List.Lex

/-!
# Channel manifests of the command line tool

`ChannelSpec` and what is done with lists of them: the text of a `<channel>` block, the check of a
list, and the replacement of the blocks of a system description. A `String` is the list of its
characters. An error keeps the values its message is made of.
-/

namespace Lerux.Cli

open Pattern
open scoped Along

structure ChannelEnd where
  pd : List Char
  id : UInt8
  pp : Bool
  deriving DecidableEq

structure ChannelSpec where
  name : Option (List Char)
  ends : List ChannelEnd
  deriving DecidableEq

def ChannelEnd.displayLine (e : ChannelEnd) : List Char :=
  e.pd ++ ':' :: decimal e.id.toNat ++ if e.pp then " pp".toList else []

def ChannelSpec.displayLine (c : ChannelSpec) : List Char :=
  let body := List.intercalate " <-> ".toList (c.ends.map ChannelEnd.displayLine)
  match c.name with
  | some n => if n = [] then body else n ++ ": ".toList ++ body
  | none => body

def ChannelEnd.toXml (e : ChannelEnd) : List Char :=
  if e.pp then
    "        <end pd=\"".toList ++ e.pd ++ "\" id=\"".toList ++ decimal e.id.toNat ++
      "\" pp=\"true\" />\n".toList
  else "        <end pd=\"".toList ++ e.pd ++ "\" id=\"".toList ++ decimal e.id.toNat ++ "\" />\n".toList

def ChannelSpec.toXml (c : ChannelSpec) : List Char :=
  "    <channel>\n".toList ++ c.ends.flatMap ChannelEnd.toXml ++ "    </channel>\n".toList

def renderChannelsXml (channels : List ChannelSpec) : List Char :=
  List.intercalate ['\n'] (channels.map ChannelSpec.toXml)

/-- `(?s)<channel>.*?</channel>\s*` -/
def channelBlock : List Piece :=
  [.lit "<channel>".toList, .run (fun _ => true) 0 false false, .lit "</channel>".toList,
    .run isWhitespace 0 true false]

def stripChannelBlocks (systemXml : List Char) : List Char := removeAll channelBlock systemXml

def toSdfPdName (name : List Char) : List Char := name.map fun c => if c = '-' then '_' else c

/-! ### Checks -/

/-- Of equal neighbours only the first stays. -/
def dedup {α : Type*} [DecidableEq α] : List α → List α
  | [] => []
  | [a] => [a]
  | a :: b :: l => if a = b then dedup (b :: l) else a :: dedup (b :: l)

/-- The order of the keys of a `BTreeSet`. -/
def sorted {α : Type*} [DecidableEq α] (le : α → α → Bool) (l : List α) : List α := dedup (l.mergeSort le)

def pdLe (a b : List Char) : Bool := a ≤ b

def endLe (a b : List Char × UInt8) : Bool := a.1 < b.1 || (a.1 = b.1 && a.2 ≤ b.2)

structure ChannelValidation where
  duplicateEnds : List (List Char × UInt8)
  unknownPds : List (List Char)
  badArity : List (List Char)
  deriving DecidableEq

def ChannelValidation.ok (v : ChannelValidation) : Bool := v.duplicateEnds = [] ∧ v.unknownPds =
    [] ∧ v.badArity = []

def ChannelSpec.label (i : Nat) (c : ChannelSpec) : List Char :=
  c.name.getD ("#".toList ++ decimal i ++ " (".toList ++ c.displayLine ++ ")".toList)

/-- The ends of the channels that have two, under their normalised names. -/
def keys (channels : List ChannelSpec) : List (List Char × UInt8) :=
  (channels.filter (·.ends.length = 2)).flatMap fun c => c.ends.map fun e => (toSdfPdName e.pd, e.id)

def validateChannels (channels : List ChannelSpec) (allowedPds : List (List Char)) : ChannelValidation where
  badArity := (channels.zipIdx.filter (·.1.ends.length ≠ 2)).map fun c => c.1.label c.2
  unknownPds :=
    if allowedPds = [] then []
    else sorted pdLe (((keys channels).map Prod.fst).filter (· ∉ allowedPds.map toSdfPdName))
  duplicateEnds := sorted endLe ((keys channels).filter fun key => 1 < (keys channels).count key)

inductive ChannelError
  | invalid (context : List Char) (report : ChannelValidation)
  | empty
  | unknownComponent (sdfName : List Char)
  | missingSystem
  deriving DecidableEq

def ensureChannelsValid (channels : List ChannelSpec) (allowedPds : List (List Char))
    (context : List Char) :
    Except ChannelError Unit :=
  if (validateChannels channels allowedPds).ok then .ok ()
  else .error (.invalid context (validateChannels channels allowedPds))

/-- What stands before the last place of a text. -/
def rfind (needle : List Char) : List Char → Option (List Char)
  | [] => none
  | c :: t =>
    match rfind needle t with
    | some before => some (c :: before)
    | none => if needle.isPrefixOf (c :: t) then some [] else none

def replaceChannelsInSystem (systemXml : List Char) (channels : List ChannelSpec)
    (knownComponents : List (List Char)) :
    Except ChannelError (List Char) := do
  if channels = [] then throw .empty
  ensureChannelsValid channels [] "replace_channels_in_system".toList
  match (channels.flatMap ChannelSpec.ends).find? fun e =>
    toSdfPdName e.pd ∉ knownComponents.map toSdfPdName with
  | some e => throw (.unknownComponent (toSdfPdName e.pd))
  | none =>
    match rfind "</system>".toList (stripChannelBlocks systemXml) with
    | none => throw .missingSystem
    | some before => return trimEnd before ++ "\n\n".toList ++ renderChannelsXml channels ++
      "</system>\n".toList

section sorted

variable {α : Type*} [DecidableEq α] {le : α → α → Bool} {l : List α} {a : α}

theorem mem_dedup : a ∈ dedup l ↔ a ∈ l := by
  fun_induction dedup l with
  | case1 => rfl
  | case2 => rfl
  | case3 b l ih =>
    rw [ih]
    simp
  | case4 b c l h ih => rw [List.mem_cons, ih, ← List.mem_cons]

theorem mem_sorted : a ∈ sorted le l ↔ a ∈ l := by rw [sorted, mem_dedup, List.mem_mergeSort]

theorem sorted_eq_nil : sorted le l = [] ↔ l = [] := by
  rw [List.eq_nil_iff_forall_not_mem, List.eq_nil_iff_forall_not_mem]
  exact forall_congr' fun a => not_congr mem_sorted

end sorted

section valid

variable {channels channels' : List ChannelSpec} {allowedPds : List (List Char)}

/-- What a valid list of channels is. -/
theorem validateChannels_ok : (validateChannels channels allowedPds).ok = true ↔ (keys channels).Nodup ∧
    (allowedPds ≠ [] → ∀ key ∈ keys channels, key.1 ∈ allowedPds.map toSdfPdName) ∧ ∀ c ∈ channels,
      c.ends.length = 2 := by
  have hdup : (validateChannels channels allowedPds).duplicateEnds = [] ↔ (keys channels).Nodup := by
    rw [validateChannels, sorted_eq_nil, List.filter_eq_nil_iff, List.nodup_iff_count_le_one]
    constructor
    · intro h key
      by_cases hkey : key ∈ keys channels
      · simpa using h key hkey
      · rw [List.count_eq_zero_of_not_mem hkey]
        exact Nat.zero_le _
    · intro h key _
      simpa using h key
  have hunknown : (validateChannels channels allowedPds).unknownPds = [] ↔
      (allowedPds ≠ [] → ∀ key ∈ keys channels, key.1 ∈ allowedPds.map toSdfPdName) := by
    show (if allowedPds = [] then [] else _) = [] ↔ _
    split
    · next h => exact ⟨fun _ hne => absurd h hne, fun _ => rfl⟩
    · next h =>
      rw [sorted_eq_nil, List.filter_eq_nil_iff]
      simp [h]
  have harity : (validateChannels channels allowedPds).badArity = [] ↔
    ∀ c ∈ channels, c.ends.length = 2 := by
    show ((channels.zipIdx.filter _).map _) = [] ↔ _
    rw [List.map_eq_nil_iff, List.filter_eq_nil_iff]
    constructor
    · intro h c hc
      obtain ⟨i, hi, rfl⟩ := List.mem_iff_getElem.mp hc
      simpa using h (channels[i], i) (List.mem_zipIdx_iff_getElem?.mpr (List.getElem?_eq_getElem hi))
    · rintro h ⟨c, i⟩ hc
      simpa using h c (List.fst_mem_of_mem_zipIdx hc)
  rw [ChannelValidation.ok, decide_eq_true_iff, hdup, hunknown, harity]

theorem keys_sublist (h : channels.Sublist channels') : (keys channels).Sublist (keys channels') :=
  (h.filter _).flatMap _

/-- A part of a valid list is valid. -/
theorem validateChannels_sublist (h : channels.Sublist channels')
    (hok : (validateChannels channels' allowedPds).ok = true) :
    (validateChannels channels allowedPds).ok = true := by
  rw [validateChannels_ok] at hok ⊢
  obtain ⟨hnodup, hallowed, htwo⟩ := hok
  exact ⟨hnodup.sublist (keys_sublist h), fun hne key hkey => hallowed hne key
    ((keys_sublist h).subset hkey),
    fun c hc => htwo c (h.subset hc)⟩

end valid

/-! ### The text of a block -/

section blocks

variable {e : ChannelEnd} {c : ChannelSpec}

/-- The attributes of an end, between the tag name and the slash. -/
def ChannelEnd.attrs (e : ChannelEnd) : List Char :=
  "pd=".toList ++ '"' :: (e.pd ++ '"' :: (" id=".toList ++ '"' :: (decimal e.id.toNat ++ '"' ::
    if e.pp then " pp=\"true\" ".toList else [' '])))

theorem ChannelEnd.toXml_eq (e : ChannelEnd) :
    e.toXml = "        <end ".toList ++ (e.attrs ++ "/>\n".toList) := by
  unfold ChannelEnd.toXml ChannelEnd.attrs
  cases e.pp <;> simp

theorem ChannelEnd.not_mem_attrs {x : Char} (hx : x ∈ ['<', '>']) (h : x ∉ e.pd) : x ∉ e.attrs := by
  have hdigit : x.isDigit = false := by
    clear h
    revert x
    decide
  have hplain : x ∉ "pd=\" id= pp=\"true\" ".toList := by
    clear h hdigit
    revert x
    decide
  have hid := not_mem_decimal (n := e.id.toNat) hdigit
  unfold ChannelEnd.attrs
  cases e.pp <;> simp_all

def ChannelSpec.body (c : ChannelSpec) : List Char :=
  '\n' :: (c.ends.flatMap ChannelEnd.toXml ++ "    ".toList)

theorem ChannelSpec.toXml_append (c : ChannelSpec) (t : List Char) :
    c.toXml ++ t = "    ".toList ++ ("<channel>".toList ++
      (c.body ++ ("</channel>".toList ++ '\n' :: t))) := by
  unfold ChannelSpec.toXml ChannelSpec.body
  simp

theorem ChannelSpec.silent_body {x : Char} {s : List Char} {ps : List Piece} (hx : x ≠ 'e')
    (h : ∀ e ∈ c.ends, '<' ∉ e.pd)
    (t : List Char) : Silent (.lit ('<' :: x :: s) :: ps) c.body t := by
  have hends : ∀ (ends : List ChannelEnd) (t : List Char), (∀ e ∈ ends, '<' ∉ e.pd) →
      Silent (.lit ('<' :: x :: s) :: ps) (ends.flatMap ChannelEnd.toXml) t := by
    intro ends
    induction ends with
    | nil => exact fun t h => trivial
    | cons e ends ih =>
      intro t h
      have hattrs := e.not_mem_attrs (x := '<') (by decide) (h e List.mem_cons_self)
      have hend : '<' ∉ 'e' :: ("nd ".toList ++ (e.attrs ++ "/>\n".toList)) := by
        have hslash : '<' ∉ "/>\n".toList := by decide
        simp_all
      rw [List.flatMap_cons, e.toXml_eq]
      exact (silent_cons (u := "        ".toList) (by decide) hx hend).append
        (ih t fun e he => h e (List.mem_cons_of_mem _ he))
  exact ((silent_of_not_mem (u := ['\n']) (by decide)).append (hends c.ends _ h)).append
    (silent_of_not_mem (by decide))

end blocks

end Lerux.Cli

import Lerux.Cli.Channels
import Mathlib.Logic.Relation

/-!
# Composition of profiles

`compose_extends`: profile files that extend one another are composed in rounds. A round composes
the pending files whose base is there, and the loop ends with the first round that composes none.

The files from one to the root of what it extends are its `Lineage`, and a profile is composed along
it (`draft`). Rounds compose a file just when it has a lineage of good drafts, in whatever order
they take the files (`composePending_some`), and a set of files is composed just when there is no
cycle, no missing base and no bad draft (`composePending_isSome`).

The channels of a base are kept where no channel of the overlay has the same name. The source also
takes two absent names for the same, so that one unnamed channel drops all unnamed channels of the
base: `composeExtends_exact`.
-/

namespace Lerux.Cli

inductive TrustClass
  | admin
  | adminCore
  | appliance
  | minimal
  | debug
  deriving DecidableEq

structure Profile where
  template : List Char
  pds : List (List Char)
  description : Option (List Char)
  defaultBoard : Option (List Char)
  trustClass : Option TrustClass
  channel : List ChannelSpec
  deriving DecidableEq

structure ProfileBody where
  template : Option (List Char)
  pds : List (List Char)
  description : Option (List Char)
  defaultBoard : Option (List Char)
  trustClass : Option TrustClass
  channel : List ChannelSpec
  deriving DecidableEq

structure ProfileFile where
  extendsBase : Option (List Char)
  body : ProfileBody
  deriving DecidableEq

/-- A map of profiles by their names. -/
abbrev Profiles := List Char → Option Profile

def Profiles.insert (profiles : Profiles) (name : List Char) (p : Profile) : Profiles :=
  Function.update profiles name (some p)

/-- The files of a directory, each under its name. -/
structure ProfileFiles where
  entries : List (List Char × ProfileFile)
  nodup : (entries.map Prod.fst).Nodup

def ProfileFiles.keys (raw : ProfileFiles) : List (List Char) := raw.entries.map Prod.fst

def ProfileFiles.get (raw : ProfileFiles) (name : List Char) : Option ProfileFile := raw.entries.lookup name

inductive ProfileError
  | unknownBase (name base : List Char)
  | missingTemplate (name : List Char)
  | noPds (name : List Char)
  | channels (e : ChannelError)
  | missingFromRaw (name : List Char)
  | unresolved (pending : List (List Char))
  deriving DecidableEq

/-- The domains of an overlay behind those of its base, each once. -/
def addPds (pds overlay : List (List Char)) : List (List Char) :=
  overlay.foldl (fun pds pd => if pds.contains pd then pds else pds ++ [pd]) pds

def overlayPds (name : List Char) (base : Option Profile) (overlay : List (List Char)) :
    Except ProfileError (List (List Char)) :=
  let pds := addPds (base.elim [] Profile.pds) overlay
  if pds = [] then .error (.noPds name) else .ok pds

def inheritedFields (body : ProfileBody) (base : Option Profile) :
    Option (List Char) × Option (List Char) × Option TrustClass :=
  (body.description.or (base.bind Profile.description),
    body.defaultBoard.or (base.bind Profile.defaultBoard),
    body.trustClass.or (base.bind Profile.trustClass))

/-- Overlay channels win on name; base channels not overridden keep base order. The names are
compared as options. -/
def mergeChannels (base overlay : List ChannelSpec) : List ChannelSpec :=
  overlay ++ base.filter (·.name ∉ overlay.map ChannelSpec.name)

def composeProfile (name : List Char) (file : ProfileFile) (bases : Profiles) :
    Except ProfileError Profile := do
  let base ← match file.extendsBase with
    | some baseName =>
      match bases baseName with
      | some b => .ok (some b)
      | none => .error (.unknownBase name baseName)
    | none => .ok none
  let template ← match file.body.template.or (base.map Profile.template) with
    | some template => .ok template
    | none => .error (.missingTemplate name)
  let (description, defaultBoard, trustClass) := inheritedFields file.body base
  let pds ← overlayPds name base file.body.pds
  let channel := mergeChannels (base.elim [] Profile.channel) file.body.channel
  return ⟨template, pds, description, defaultBoard, trustClass, channel⟩

/-- A file waits for a base that is not there yet. -/
def waits (profiles : Profiles) (file : ProfileFile) : Bool :=
  match file.extendsBase with
  | some base => (profiles base).isNone
  | none => false

/-- A file composed on its base, and checked. -/
def composeValid (name : List Char) (file : ProfileFile) (profiles : Profiles) :
    Except ProfileError Profile := do
  let profile ← composeProfile name file profiles
  match ensureChannelsValid profile.channel profile.pds ("profile ".toList ++ name) with
  | .ok () => return profile
  | .error e => .error (.channels e)

/-- A round: the profiles after it, and the names that still wait. -/
def composeReady (raw : ProfileFiles) : Profiles → List (List Char) →
    Except ProfileError (Profiles × List (List Char))
  | profiles, [] => .ok (profiles, [])
  | profiles, name :: pending =>
    match raw.get name with
    | none => .error (.missingFromRaw name)
    | some file =>
      if waits profiles file then (composeReady raw profiles pending).map fun r => (r.1, name :: r.2)
      else
        match composeValid name file profiles with
        | .error e => .error e
        | .ok profile => composeReady raw (profiles.insert name profile) pending

theorem map_eq_ok {ε α β : Type*} {f : α → β} {x : Except ε α} {b : β} (h : x.map f = .ok b) :
    ∃ a, x = .ok a ∧ f a = b := by
  cases x with
  | error e => cases h
  | ok a => exact ⟨a, rfl, Except.ok.inj h⟩

theorem length_composeReady {raw : ProfileFiles} {profiles profiles' : Profiles}
    {pending still : List (List Char)}
    (h : composeReady raw profiles pending = .ok (profiles', still)) : still.length ≤ pending.length := by
  induction pending generalizing profiles profiles' still with
  | nil =>
    cases h
    exact le_refl _
  | cons name pending ih =>
    rw [composeReady] at h
    split at h
    · cases h
    · split at h
      · obtain ⟨r, hr, hstill⟩ := map_eq_ok h
        cases hstill
        exact Nat.succ_le_succ (ih hr)
      · split at h
        · cases h
        · exact Nat.le_succ_of_le (ih h)

/-- The rounds of `compose_extends`. -/
def composePending (raw : ProfileFiles) (profiles : Profiles) (pending : List (List Char)) :
    Except ProfileError Profiles :=
  if pending = [] then .ok profiles
  else
    match hready : composeReady raw profiles pending with
    | .error e => .error e
    | .ok (profiles', still) =>
      if hlength : still.length = pending.length then .error (.unresolved still)
      else
        have : still.length < pending.length := lt_of_le_of_ne (length_composeReady hready) hlength
        composePending raw profiles' still
termination_by pending.length

def composeExtends (raw : ProfileFiles) : Except ProfileError Profiles :=
  composePending raw (fun _ => none) raw.keys

/-! ### Lineages -/

/-- The files from one to the root of what it extends. -/
inductive Lineage (raw : ProfileFiles) : List Char → List ProfileFile → Prop
  | root {name : List Char} {file : ProfileFile} (hfile : raw.get name = some file)
      (hbase : file.extendsBase = none) :
      Lineage raw name [file]
  | step {name base : List Char} {file : ProfileFile} {files : List ProfileFile}
      (hfile : raw.get name = some file)
      (hbase : file.extendsBase = some base) (h : Lineage raw base files) : Lineage raw name (file :: files)

def Extends (raw : ProfileFiles) (name base : List Char) : Prop :=
  ∃ file, raw.get name = some file ∧ file.extendsBase = some base

/-- A body over the one it extends. -/
def overlay (merge : List ChannelSpec → List ChannelSpec → List ChannelSpec)
    (base body : ProfileBody) : ProfileBody where
  template := body.template.or base.template
  pds := addPds base.pds body.pds
  description := body.description.or base.description
  defaultBoard := body.defaultBoard.or base.defaultBoard
  trustClass := body.trustClass.or base.trustClass
  channel := merge base.channel body.channel

/-- What a lineage comes to, complete or not. -/
def draft (merge : List ChannelSpec → List ChannelSpec → List ChannelSpec) : List ProfileFile → ProfileBody
  | [] => ⟨none, [], none, none, none, []⟩
  | file :: files => overlay merge (draft merge files) file.body

structure ProfileBody.Good (b : ProfileBody) : Prop where
  template : b.template ≠ none
  pds : b.pds ≠ []
  channel : (validateChannels b.channel b.pds).ok = true

/-- There is no cycle and no missing base, and every file comes to a good draft. -/
structure Composable (merge : List ChannelSpec → List ChannelSpec → List ChannelSpec)
    (raw : ProfileFiles) : Prop where
  acyclic : ∀ name, ¬ Relation.TransGen (Extends raw) name name
  closed : ∀ name base, Extends raw name base → base ∈ raw.keys
  good : ∀ name files, Lineage raw name files → (draft merge files).Good

section lineage

variable {raw : ProfileFiles} {name base : List Char} {file : ProfileFile} {files files' : List ProfileFile}

theorem ProfileFiles.mem_keys : name ∈ raw.keys ↔ ∃ file, raw.get name = some file := by
  constructor
  · intro h
    cases hget : raw.get name with
    | some file => exact ⟨file, rfl⟩
    | none =>
      obtain ⟨entry, hentry, rfl⟩ := List.mem_map.mp h
      exact absurd (List.lookup_eq_none_iff.mp hget entry hentry) (by simp)
  · rintro ⟨file, hget⟩
    by_contra h
    have hnone : raw.get name = none := List.lookup_eq_none_iff.mpr fun entry hentry => by
      have hne : name ≠ entry.1 := fun heq => h (List.mem_map.mpr ⟨entry, hentry, heq.symm⟩)
      simpa using hne
    rw [hget] at hnone
    cases hnone

theorem Lineage.mem_keys (h : Lineage raw name files) : name ∈ raw.keys := by
  cases h with
  | root hfile => exact (ProfileFiles.mem_keys).mpr ⟨_, hfile⟩
  | step hfile => exact (ProfileFiles.mem_keys).mpr ⟨_, hfile⟩

theorem Lineage.unique (h : Lineage raw name files) (h' : Lineage raw name files') : files = files' := by
  induction h generalizing files' with
  | root hfile hbase =>
    cases h' with
    | root hfile' => rw [Option.some.inj (hfile.symm.trans hfile')]
    | step hfile' hbase' =>
      rw [Option.some.inj (hfile'.symm.trans hfile), hbase] at hbase'
      cases hbase'
  | step hfile hbase _ ih =>
    cases h' with
    | root hfile' hbase' =>
      rw [Option.some.inj (hfile'.symm.trans hfile), hbase] at hbase'
      cases hbase'
    | step hfile' hbase' h' =>
      obtain rfl := Option.some.inj (hfile.symm.trans hfile')
      obtain rfl := Option.some.inj (hbase.symm.trans hbase')
      rw [ih h']

/-- What a file extends has the rest of its lineage. -/
theorem Lineage.of_extends (h : Lineage raw name files) (hbase : Extends raw name base) :
    ∃ file files', files = file :: files' ∧ Lineage raw base files' := by
  obtain ⟨file, hfile, hname⟩ := hbase
  cases h with
  | root hfile' hnone =>
    rw [Option.some.inj (hfile'.symm.trans hfile), hname] at hnone
    cases hnone
  | step hfile' hbase' h =>
    obtain rfl := Option.some.inj (hfile.symm.trans hfile')
    obtain rfl := Option.some.inj (hname.symm.trans hbase')
    exact ⟨_, _, rfl, h⟩

theorem Lineage.of_ancestor (h : Lineage raw name files)
    (hbase : Relation.TransGen (Extends raw) name base) :
    ∃ files', Lineage raw base files' ∧ files'.length < files.length := by
  induction hbase with
  | single hstep =>
    obtain ⟨file, files', rfl, h'⟩ := h.of_extends hstep
    exact ⟨files', h', Nat.lt_succ_self _⟩
  | tail _ hstep ih =>
    obtain ⟨files₁, h₁, hlt⟩ := ih
    obtain ⟨file, files', rfl, h'⟩ := h₁.of_extends hstep
    exact ⟨files', h', by grind⟩

/-- A file with a lineage is on no cycle. -/
theorem Lineage.acyclic (h : Lineage raw name files) : ¬ Relation.TransGen (Extends raw) name name := by
  intro hcycle
  obtain ⟨files', h', hlt⟩ := h.of_ancestor hcycle
  rw [h.unique h'] at hlt
  exact lt_irrefl _ hlt

/-- Without cycles and missing bases every file has a lineage. -/
theorem exists_lineage (hacyclic : ∀ name, ¬ Relation.TransGen (Extends raw) name name)
    (hclosed : ∀ name base, Extends raw name base → base ∈ raw.keys)
      (h : name ∈ raw.keys) : ∃ files, Lineage raw name files := by
  let R (a b : {n // n ∈ raw.keys}) : Prop := Relation.TransGen (Extends raw) b.1 a.1
  have htrans : IsTrans _ R := ⟨fun a b c hab hbc => hbc.trans hab⟩
  have hirrefl : Std.Irrefl R := ⟨fun a => hacyclic a.1⟩
  have hwf : WellFounded R := Finite.wellFounded_of_trans_of_irrefl R
  have hall (n : {n // n ∈ raw.keys}) : ∃ files, Lineage raw n.1 files := by
    induction n using hwf.induction with
    | _ n ih =>
      obtain ⟨file, hfile⟩ := (ProfileFiles.mem_keys).mp n.2
      cases hbase : file.extendsBase with
      | none => exact ⟨_, .root hfile hbase⟩
      | some base =>
        have hstep : Extends raw n.1 base := ⟨file, hfile, hbase⟩
        obtain ⟨files, hfiles⟩ := ih ⟨base, hclosed _ _ hstep⟩ (.single hstep)
        exact ⟨_, .step hfile hbase hfiles⟩
  exact hall ⟨name, h⟩

end lineage

/-! ### Rounds -/

def Profile.body (p : Profile) : ProfileBody :=
  ⟨some p.template, p.pds, p.description, p.defaultBoard, p.trustClass, p.channel⟩

/-- A profile is what the lineage of its name comes to. -/
def Built (raw : ProfileFiles) (name : List Char) (p : Profile) : Prop :=
  ∃ files, Lineage raw name files ∧ draft mergeChannels files = p.body ∧ p.body.Good

/-- Every profile so far is what it comes to. -/
def AllBuilt (raw : ProfileFiles) (profiles : Profiles) : Prop := ∀ name p, profiles name = some p →
    Built raw name p

section rounds

variable {raw : ProfileFiles} {profiles profiles' : Profiles} {name : List Char}
  {file : ProfileFile} {p q : Profile}
  {pending still : List (List Char)} {e : ProfileError}

/-- The body of what a file extends, empty where it extends nothing. -/
def baseBody (profiles : Profiles) (file : ProfileFile) : ProfileBody :=
  ((file.extendsBase.bind profiles).map Profile.body).getD (draft mergeChannels [])

/-- A complete body is a profile. -/
def ProfileBody.toProfile (name : List Char) (b : ProfileBody) : Except ProfileError Profile :=
  match b.template with
  | none => .error (.missingTemplate name)
  | some template =>
    if b.pds = [] then .error (.noPds name)
    else .ok ⟨template, b.pds, b.description, b.defaultBoard, b.trustClass, b.channel⟩

theorem composeProfile_eq (h : waits profiles file = false) :
    composeProfile name file profiles = (overlay mergeChannels
      (baseBody profiles file) file.body).toProfile name := by
  have hfinish (base : Option Profile) : (do
      let template ← match file.body.template.or (base.map Profile.template) with
        | some template => Except.ok template
        | none => Except.error (ProfileError.missingTemplate name)
      let (description, defaultBoard, trustClass) := inheritedFields file.body base
      let pds ← overlayPds name base file.body.pds
      let channel := mergeChannels (base.elim [] Profile.channel) file.body.channel
      return (⟨template, pds, description, defaultBoard, trustClass, channel⟩ : Profile)) =
      (overlay mergeChannels ((base.map Profile.body).getD
        (draft mergeChannels [])) file.body).toProfile name := by
    have hpds : overlayPds name base file.body.pds =
      if addPds (base.elim [] Profile.pds) file.body.pds = [] then
        .error (.noPds name) else .ok (addPds (base.elim [] Profile.pds) file.body.pds) := rfl
    have hbody : (overlay mergeChannels ((base.map Profile.body).getD (draft mergeChannels [])) file.body) =
        ⟨file.body.template.or (base.map Profile.template), addPds (base.elim [] Profile.pds) file.body.pds,
          (inheritedFields file.body base).1, (inheritedFields file.body base).2.1,
            (inheritedFields file.body base).2.2,
          mergeChannels (base.elim [] Profile.channel) file.body.channel⟩ := by
      cases base <;> rfl
    rw [hpds, hbody, ProfileBody.toProfile]
    cases file.body.template.or (base.map Profile.template) with
    | none => rfl
    | some template =>
      show Except.bind (if _ then _ else _) _ = if _ then _ else _
      split
      · rfl
      · rfl
  cases hbase : file.extendsBase with
  | none =>
    rw [composeProfile, hbase, baseBody, hbase]
    exact hfinish none
  | some base =>
    rw [waits, hbase] at h
    cases hq : profiles base with
    | none => simp [hq] at h
    | some q =>
      rw [composeProfile, hbase, baseBody, hbase]
      simp only [hq, Option.bind_some]
      exact hfinish (some q)

theorem toProfile_ok {b : ProfileBody} (h : b.toProfile name = .ok p) : b = p.body ∧ b.pds ≠ [] := by
  rw [ProfileBody.toProfile] at h
  split at h
  · cases h
  · next template htemplate =>
    split at h
    · cases h
    · next hpds =>
      cases h
      exact ⟨by rw [Profile.body, ← htemplate], hpds⟩

theorem toProfile_error {b : ProfileBody} (h : b.toProfile name = .error e) : b.template = none ∨
    b.pds = [] := by
  rw [ProfileBody.toProfile] at h
  split at h
  · next htemplate => exact .inl htemplate
  · split at h
    · next hpds => exact .inr hpds
    · cases h

theorem composeValid_eq (h : waits profiles file = false) : composeValid name file profiles =
    match (overlay mergeChannels (baseBody profiles file) file.body).toProfile name with
    | .error e => .error e
    | .ok p =>
      if (validateChannels p.channel p.pds).ok then .ok p
      else .error (.channels (.invalid ("profile ".toList ++ name)
        (validateChannels p.channel p.pds))) := by
  rw [composeValid, composeProfile_eq h]
  cases (overlay mergeChannels (baseBody profiles file) file.body).toProfile name with
  | error e => rfl
  | ok p =>
    show (match ensureChannelsValid p.channel p.pds ("profile ".toList ++ name) with | .ok () => _ | .error e => _) = ite _ _ _
    rw [ensureChannelsValid]
    by_cases hvalid : (validateChannels p.channel p.pds).ok = true
    · rw [if_pos hvalid, if_pos hvalid]
      rfl
    · rw [if_neg hvalid, if_neg hvalid]

/-- A file whose base is there is composed just when its draft is good, and to that draft. -/
theorem composeValid_ok (h : waits profiles file = false) (hok : composeValid name file profiles = .ok p) :
    overlay mergeChannels (baseBody profiles file) file.body = p.body ∧ p.body.Good := by
  rw [composeValid_eq h] at hok
  split at hok
  · cases hok
  · next q hq =>
    obtain ⟨hbody, hpds⟩ := toProfile_ok hq
    split at hok
    · next hvalid =>
      cases hok
      exact ⟨hbody, Option.some_ne_none _, by rwa [hbody] at hpds, hvalid⟩
    · cases hok

theorem composeValid_error (h : waits profiles file = false)
    (herror : composeValid name file profiles = .error e) :
    ¬ (overlay mergeChannels (baseBody profiles file) file.body).Good := by
  intro hgood
  rw [composeValid_eq h] at herror
  split at herror
  · next e' he =>
    obtain hnone | hnil := toProfile_error he
    · exact hgood.template hnone
    · exact hgood.pds hnil
  · next q hq =>
    rw [(toProfile_ok hq).1] at hgood
    have hvalid : (validateChannels q.channel q.pds).ok = true := hgood.channel
    rw [if_pos hvalid] at herror
    cases herror

theorem Built.unique (hp : Built raw name p) (hq : Built raw name q) : p = q := by
  obtain ⟨files, hfiles, hbody, -⟩ := hp
  obtain ⟨files', hfiles', hbody', -⟩ := hq
  rw [hfiles.unique hfiles', hbody'] at hbody
  cases p
  cases q
  simp only [Profile.body, ProfileBody.mk.injEq, Option.some.injEq] at hbody
  obtain ⟨rfl, rfl, rfl, rfl, rfl, rfl⟩ := hbody
  rfl

theorem exists_draft (hall : AllBuilt raw profiles) (hfile : raw.get name = some file)
    (h : waits profiles file = false) :
    ∃ files, Lineage raw name files ∧
      draft mergeChannels files = overlay mergeChannels (baseBody profiles file) file.body := by
  cases hbase : file.extendsBase with
  | none =>
    refine ⟨[file], .root hfile hbase, ?_⟩
    rw [baseBody, hbase]
    rfl
  | some base =>
    rw [waits, hbase] at h
    cases hq : profiles base with
    | none => simp [hq] at h
    | some q =>
      obtain ⟨files, hfiles, hbody, -⟩ := hall base q hq
      refine ⟨file :: files, .step hfile hbase hfiles, ?_⟩
      rw [draft, hbody, baseBody, hbase, Option.bind_some, hq]
      rfl

theorem AllBuilt.insert (hall : AllBuilt raw profiles) (hp : Built raw name p) :
    AllBuilt raw (profiles.insert name p) := by
  intro n q hq
  by_cases hn : n = name
  · subst hn
    rw [Profiles.insert, Function.update_self] at hq
    rwa [← Option.some.inj hq]
  · rw [Profiles.insert, Function.update_of_ne hn] at hq
    exact hall n q hq

/-- What a round does: it keeps the profiles it finds, and composes each pending file or leaves it
pending. -/
theorem composeReady_ok (hall : AllBuilt raw profiles) (h : composeReady raw profiles pending =
    .ok (profiles', still)) :
    AllBuilt raw profiles' ∧ (∀ n, profiles n ≠ none → profiles' n ≠ none) ∧
      (∀ n ∈ pending, n ∈ still ∨ profiles' n ≠ none) ∧
      still ⊆ pending := by
  induction pending generalizing profiles profiles' still with
  | nil =>
    cases h
    exact ⟨hall, fun _ hn => hn, fun n hn => absurd hn List.not_mem_nil, List.Subset.refl _⟩
  | cons name pending ih =>
    rw [composeReady] at h
    split at h
    · cases h
    · next file hfile =>
      split at h
      · obtain ⟨r, hr, hstill⟩ := map_eq_ok h
        cases hstill
        obtain ⟨hall', hkeep, hdone, hsub⟩ := ih hall hr
        refine ⟨hall', hkeep, fun n hn => ?_, List.cons_subset_cons _ hsub⟩
        obtain rfl | hn := List.mem_cons.mp hn
        · exact .inl List.mem_cons_self
        · exact (hdone n hn).imp_left (List.mem_cons_of_mem _)
      · next hwaits =>
        split at h
        · cases h
        · next p hp =>
          have hwaits' : waits profiles file = false := by simpa using hwaits
          have hbuilt : Built raw name p := by
            obtain ⟨hbody, hgood⟩ := composeValid_ok hwaits' hp
            obtain ⟨files, hfiles, hdraft⟩ := exists_draft hall hfile hwaits'
            exact ⟨files, hfiles, hdraft.trans hbody, hgood⟩
          obtain ⟨hall', hkeep, hdone, hsub⟩ := ih (hall.insert hbuilt) h
          have hmono (n : List Char) (hn : profiles n ≠ none) : (profiles.insert name p) n ≠ none := by
            by_cases hname : n = name
            · rw [hname, Profiles.insert, Function.update_self]
              exact Option.some_ne_none _
            · rwa [Profiles.insert, Function.update_of_ne hname]
          refine ⟨hall', fun n hn => hkeep n (hmono n hn), fun n hn => ?_,
            List.subset_cons_of_subset _ hsub⟩
          obtain rfl | hn := List.mem_cons.mp hn
          · refine .inr (hkeep _ ?_)
            rw [Profiles.insert, Function.update_self]
            exact Option.some_ne_none _
          · exact hdone n hn

/-- A round that composes nothing leaves only files that wait. -/
theorem composeReady_stuck (h : composeReady raw profiles pending = .ok (profiles', still))
    (hlength : still.length = pending.length) :
    ∀ n ∈ pending, ∃ file, raw.get n = some file ∧ waits profiles file = true := by
  induction pending generalizing profiles profiles' still with
  | nil => exact fun n hn => absurd hn List.not_mem_nil
  | cons name pending ih =>
    rw [composeReady] at h
    split at h
    · cases h
    · next file hfile =>
      split at h
      · next hwaits =>
        obtain ⟨r, hr, hstill⟩ := map_eq_ok h
        cases hstill
        intro n hn
        obtain rfl | hn := List.mem_cons.mp hn
        · exact ⟨file, hfile, hwaits⟩
        · exact ih hr (Nat.succ.inj hlength) n hn
      · split at h
        · cases h
        · have hle := length_composeReady h
          rw [hlength, List.length_cons] at hle
          exact absurd hle (Nat.not_succ_le_self _)

/-- A round fails only with a file that comes to a bad draft. -/
theorem composeReady_error (hall : AllBuilt raw profiles) (hpending : pending ⊆ raw.keys)
    (h : composeReady raw profiles pending = .error e) :
    ∃ n files, Lineage raw n files ∧ ¬ (draft mergeChannels files).Good := by
  induction pending generalizing profiles e with
  | nil => cases h
  | cons name pending ih =>
    have hrest : pending ⊆ raw.keys := fun n hn => hpending (List.mem_cons_of_mem _ hn)
    rw [composeReady] at h
    split at h
    · next hnone =>
      obtain ⟨file, hfile⟩ := (ProfileFiles.mem_keys).mp (hpending List.mem_cons_self)
      rw [hnone] at hfile
      cases hfile
    · next file hfile =>
      split at h
      · cases hr : composeReady raw profiles pending with
        | error e' => exact ih hall hrest hr
        | ok r =>
          rw [hr] at h
          cases h
      · next hwaits =>
        have hwaits' : waits profiles file = false := by simpa using hwaits
        obtain ⟨files, hfiles, hdraft⟩ := exists_draft hall hfile hwaits'
        split at h
        · next e' he =>
          refine ⟨name, files, hfiles, ?_⟩
          rw [hdraft]
          exact composeValid_error hwaits' he
        · next p hp =>
          obtain ⟨hbody, hgood⟩ := composeValid_ok hwaits' hp
          exact ih (hall.insert ⟨files, hfiles, hdraft.trans hbody, hgood⟩) hrest h

/-- Where every pending file waits, none of them has a lineage: what it waits for is pending as well. -/
theorem not_stuck {files : List ProfileFile} (hkeys : ∀ n ∈ raw.keys, n ∈ pending ∨ profiles n ≠ none)
    (hwaits : ∀ n ∈ pending, ∃ file, raw.get n = some file ∧ waits profiles file = true)
      (h : Lineage raw name files) :
    name ∉ pending := by
  induction h with
  | root hfile hbase =>
    intro hpending
    obtain ⟨file', hfile', hwait⟩ := hwaits _ hpending
    rw [← Option.some.inj (hfile.symm.trans hfile'), waits, hbase] at hwait
    cases hwait
  | step hfile hbase hrest ih =>
    intro hpending
    obtain ⟨file', hfile', hwait⟩ := hwaits _ hpending
    rw [← Option.some.inj (hfile.symm.trans hfile'), waits, hbase] at hwait
    obtain hmem | hdone := hkeys _ hrest.mem_keys
    · exact ih hmem
    · exact hdone (Option.isNone_iff_eq_none.mp hwait)

/-- The rounds end with all profiles, or with a set that can not be composed. -/
theorem composePending_spec (hall : AllBuilt raw profiles) (hkeys : ∀ n ∈ raw.keys, n ∈ pending ∨
    profiles n ≠ none)
    (hpending : pending ⊆ raw.keys) :
    match composePending raw profiles pending with
    | .ok ps => AllBuilt raw ps ∧ ∀ n ∈ raw.keys, ps n ≠ none
    | .error _ => ¬ Composable mergeChannels raw := by
  fun_induction composePending raw profiles pending with
  | case1 profiles => exact ⟨hall, fun n hn => (hkeys n hn).resolve_left List.not_mem_nil⟩
  | case2 profiles pending hne e he =>
    intro hcomposable
    obtain ⟨n, files, hfiles, hbad⟩ := composeReady_error hall hpending he
    exact hbad (hcomposable.good n files hfiles)
  | case3 profiles pending hne profiles' still hready hlength =>
    intro hcomposable
    have hwaits := composeReady_stuck hready hlength
    obtain ⟨n, rest, rfl⟩ := List.exists_cons_of_ne_nil hne
    obtain ⟨files, hfiles⟩ := exists_lineage hcomposable.acyclic hcomposable.closed
      (hpending List.mem_cons_self)
    exact not_stuck hkeys hwaits hfiles List.mem_cons_self
  | case4 profiles pending hne profiles' still hready hlength hlt ih =>
    obtain ⟨hall', hkeep, hdone, hsub⟩ := composeReady_ok hall hready
    refine ih hall' (fun n hn => ?_) fun n hn => hpending (hsub hn)
    obtain hmem | hold := hkeys n hn
    · exact hdone n hmem
    · exact .inr (hkeep n hold)

end rounds

section order

variable {raw : ProfileFiles} {names names' : List (List Char)} {ps : Profiles}

theorem composable_of_built (hall : AllBuilt raw ps) (hkeys : ∀ n ∈ raw.keys, ps n ≠ none) :
    Composable mergeChannels raw := by
  have hbuilt (n : List Char) (hn : n ∈ raw.keys) : ∃ p, Built raw n p := by
    obtain ⟨p, hp⟩ := Option.ne_none_iff_exists'.mp (hkeys n hn)
    exact ⟨p, hall n p hp⟩
  have hmem {name base : List Char} (h : Extends raw name base) : name ∈ raw.keys :=
    (ProfileFiles.mem_keys).mpr ⟨_, h.choose_spec.1⟩
  constructor
  · intro name hcycle
    obtain ⟨base, hfirst, -⟩ := Relation.TransGen.head'_iff.mp hcycle
    obtain ⟨p, files, hfiles, -⟩ := hbuilt name (hmem hfirst)
    exact hfiles.acyclic hcycle
  · intro name base hstep
    obtain ⟨p, files, hfiles, -⟩ := hbuilt name (hmem hstep)
    obtain ⟨file, files', -, hbase⟩ := hfiles.of_extends hstep
    exact hbase.mem_keys
  · intro name files hfiles
    obtain ⟨p, files', hfiles', hbody, hgood⟩ := hbuilt name hfiles.mem_keys
    rw [hfiles.unique hfiles', hbody]
    exact hgood

/-- Whatever the order of the files, they are composed just when they can be. -/
theorem composePending_isSome (h : names.Perm raw.keys) :
    (∃ ps, composePending raw (fun _ => none) names = .ok ps) ↔ Composable mergeChannels raw := by
  have hspec := @composePending_spec raw (fun _ => none) names (fun _ _ hp => by cases hp)
    (fun n hn => .inl (h.mem_iff.mpr hn)) h.subset
  constructor
  · rintro ⟨ps, hps⟩
    rw [hps] at hspec
    exact composable_of_built hspec.1 hspec.2
  · intro hcomposable
    cases hps : composePending raw (fun _ => none) names with
    | ok ps => exact ⟨ps, rfl⟩
    | error e =>
      rw [hps] at hspec
      exact absurd hcomposable hspec

/-- Whatever the order of the files, each profile is what it comes to. -/
theorem composePending_some (h : names.Perm raw.keys)
    (hps : composePending raw (fun _ => none) names = .ok ps)
    {n : List Char} {p : Profile} : ps n = some p ↔ Built raw n p := by
  have hspec := @composePending_spec raw (fun _ => none) names (fun _ _ hp => by cases hp)
    (fun n hn => .inl (h.mem_iff.mpr hn)) h.subset
  rw [hps] at hspec
  constructor
  · exact hspec.1 n p
  · intro hbuilt
    obtain ⟨q, hq⟩ := Option.ne_none_iff_exists'.mp (hspec.2 n hbuilt.choose_spec.1.mem_keys)
    rw [hq, (hspec.1 n q hq).unique hbuilt]

theorem composePending_perm (h : names.Perm raw.keys) (h' : names'.Perm raw.keys) :
    (composePending raw (fun _ => none) names).toOption =
      (composePending raw (fun _ => none) names').toOption := by
  cases hps : composePending raw (fun _ => none) names with
  | error e =>
    cases hps' : composePending raw (fun _ => none) names' with
    | error e' => rfl
    | ok ps' =>
      obtain ⟨ps, hok⟩ := (composePending_isSome h).mpr ((composePending_isSome h').mp ⟨ps', hps'⟩)
      rw [hok] at hps
      cases hps
  | ok ps =>
    obtain ⟨ps', hps'⟩ := (composePending_isSome h').mpr ((composePending_isSome h).mp ⟨ps, hps⟩)
    rw [hps']
    refine congrArg some (funext fun n => Option.ext fun p => ?_)
    rw [composePending_some h hps, composePending_some h' hps']

end order

/-! ### The channels of a base -/

/-- The channels of an overlay, and those of its base that no channel of the overlay has the name of. -/
def mergeOnName (base overlay : List ChannelSpec) : List ChannelSpec :=
  overlay ++ base.filter fun ch => !overlay.any fun c => c.name.isSome && decide (c.name = ch.name)

def ProfileFile.HasUnnamed (file : ProfileFile) : Prop := ∃ c ∈ file.body.channel, c.name = none

/-- No file with an unnamed channel extends another, directly or through others. -/
def Apart (raw : ProfileFiles) : Prop :=
  ∀ name base file baseFile, Relation.TransGen (Extends raw) name base → raw.get name = some file →
    raw.get base = some baseFile → file.HasUnnamed → ¬ baseFile.HasUnnamed

def baseChannels (ps : Profiles) (file : ProfileFile) : List ChannelSpec :=
  (file.extendsBase.bind ps).elim [] Profile.channel

/-- What inheritance is to do, for a set of files. -/
structure Inherits (raw : ProfileFiles) : Prop where
  succeeds : (∃ ps, composeExtends raw = .ok ps) ↔ Composable mergeOnName raw
  order : ∀ names, names.Perm raw.keys → (composePending raw (fun _ => none) names).toOption =
    (composeExtends raw).toOption
  channels : ∀ ps, composeExtends raw = .ok ps → ∀ name file p, raw.get name = some file →
    ps name = some p →
    p.channel = mergeOnName (baseChannels ps file) file.body.channel

section merge

variable {raw : ProfileFiles} {base own : List ChannelSpec} {ch : ChannelSpec} {name ancestor : List Char}
  {file baseFile : ProfileFile} {files : List ProfileFile} {ps : Profiles} {p : Profile}

theorem mem_mergeOnName : ch ∈ mergeOnName base own ↔
    ch ∈ own ∨ (ch ∈ base ∧ ∀ c ∈ own, c.name ≠ none → c.name ≠ ch.name) := by
  simp [mergeOnName, Option.isSome_iff_ne_none]

theorem mem_mergeChannels : ch ∈ mergeChannels base own ↔
    ch ∈ own ∨ (ch ∈ base ∧ ∀ c ∈ own, c.name ≠ ch.name) := by
  simp [mergeChannels]

theorem mergeChannels_eq (h : (∃ c ∈ own, c.name = none) → ∀ c ∈ base, c.name ≠ none) :
    mergeChannels base own = mergeOnName base own := by
  refine congrArg (own ++ ·) (List.filter_congr fun ch hch => ?_)
  rw [Bool.eq_iff_iff]
  simp only [decide_eq_true_eq, List.mem_map, not_exists, not_and, Bool.not_eq_true',
    List.any_eq_false, Bool.and_eq_true,
    Option.isSome_iff_ne_none]
  constructor
  · exact fun hno c hc _ => hno c hc
  · intro hno c hc hname
    by_cases hnone : c.name = none
    · exact h ⟨c, hc, hnone⟩ ch hch (hname.symm.trans hnone)
    · exact hno c hc hnone hname

theorem mergeChannels_sublist {base' : List ChannelSpec} (h : base.Sublist base') :
    (mergeChannels base own).Sublist (mergeOnName base' own) := by
  refine List.Sublist.append_left (((List.monotone_filter_right base ?_)).trans (h.filter _)) own
  intro ch hch
  simp only [decide_eq_true_eq, List.mem_map, not_exists, not_and] at hch
  simp only [Bool.not_eq_true', List.any_eq_false, Bool.and_eq_true, decide_eq_true_eq, not_and]
  exact fun c hc _ => hch c hc

theorem draft_channel_sublist : (draft mergeChannels files).channel.Sublist
    (draft mergeOnName files).channel := by
  induction files with
  | nil => exact List.Sublist.refl _
  | cons file files ih => exact mergeChannels_sublist ih

theorem draft_same : (draft mergeChannels files).template = (draft mergeOnName files).template ∧
    (draft mergeChannels files).pds = (draft mergeOnName files).pds := by
  induction files with
  | nil => exact ⟨rfl, rfl⟩
  | cons file files ih =>
    show file.body.template.or (draft mergeChannels files).template =
      file.body.template.or (draft mergeOnName files).template ∧
      addPds (draft mergeChannels files).pds file.body.pds =
        addPds (draft mergeOnName files).pds file.body.pds
    rw [ih.1, ih.2]
    exact ⟨rfl, rfl⟩

/-- What can be composed with all its channels can be composed with some of them dropped. -/
theorem Composable.of_mergeOnName (h : Composable mergeOnName raw) : Composable mergeChannels raw := by
  refine ⟨h.acyclic, h.closed, fun name files hfiles => ?_⟩
  have hgood := h.good name files hfiles
  constructor
  · rw [(draft_same).1]
    exact hgood.template
  · rw [(draft_same).2]
    exact hgood.pds
  · rw [(draft_same).2]
    exact validateChannels_sublist draft_channel_sublist hgood.channel

theorem mem_draft (h : ch ∈ (draft mergeChannels files).channel) :
    ∃ file ∈ files, ch ∈ file.body.channel := by
  induction files with
  | nil => exact absurd h List.not_mem_nil
  | cons file files ih =>
    obtain hown | ⟨hbase, -⟩ := (mem_mergeChannels).mp h
    · exact ⟨file, List.mem_cons_self, hown⟩
    · obtain ⟨file', hfile', hch⟩ := ih hbase
      exact ⟨file', List.mem_cons_of_mem _ hfile', hch⟩

theorem Lineage.of_mem (h : Lineage raw name files) (hfile : file ∈ files) :
    ∃ ancestor, Relation.ReflTransGen (Extends raw) name ancestor ∧ raw.get ancestor = some file := by
  induction h with
  | root hget => exact ⟨_, .refl, by rw [List.mem_singleton.mp hfile]; exact hget⟩
  | step hget hbase _ ih =>
    obtain rfl | hmem := List.mem_cons.mp hfile
    · exact ⟨_, .refl, hget⟩
    · obtain ⟨ancestor, hpath, hget'⟩ := ih hmem
      exact ⟨ancestor, hpath.head ⟨_, hget, hbase⟩, hget'⟩

/-- Where files with unnamed channels are apart, the base of one comes to named channels only. -/
theorem Apart.named {baseName : List Char} (hapart : Apart raw) (hget : raw.get name = some file)
    (hbase : file.extendsBase = some baseName) (hfiles : Lineage raw baseName files)
      (hunnamed : file.HasUnnamed) :
    ∀ c ∈ (draft mergeChannels files).channel, c.name ≠ none := by
  intro c hc hname
  obtain ⟨file', hfile', hmem⟩ := mem_draft hc
  obtain ⟨ancestor, hpath, hget'⟩ := hfiles.of_mem hfile'
  exact hapart name ancestor file file' (.head' ⟨file, hget, hbase⟩ hpath) hget hget' hunnamed ⟨c,
    hmem, hname⟩

theorem Apart.draft_eq (hapart : Apart raw) (h : Lineage raw name files) :
    draft mergeChannels files = draft mergeOnName files := by
  induction h with
  | root hget hbase => rfl
  | @step _ _ file files hget hbase hrest ih =>
    show overlay mergeChannels (draft mergeChannels files) file.body =
      overlay mergeOnName (draft mergeOnName files) file.body
    rw [← ih, overlay, mergeChannels_eq (hapart.named hget hbase hrest)]
    rfl

theorem ProfileBody.Good.exists_profile {b : ProfileBody} (h : b.Good) : ∃ p : Profile, b = p.body := by
  obtain ⟨template, htemplate⟩ := Option.ne_none_iff_exists'.mp h.template
  exact ⟨⟨template, b.pds, b.description, b.defaultBoard, b.trustClass, b.channel⟩,
    by rw [Profile.body, ← htemplate]⟩

/-- After a success every lineage has its profile. -/
theorem exists_base (hps : composeExtends raw = .ok ps) (h : Lineage raw name files) :
    ∃ q, ps name = some q ∧ draft mergeChannels files = q.body := by
  have hgood := ((composePending_isSome (List.Perm.refl _)).mp ⟨ps, hps⟩).good name files h
  obtain ⟨q, hq⟩ := hgood.exists_profile
  exact ⟨q, (composePending_some (List.Perm.refl _) hps).mpr ⟨files, h, hq, hq ▸ hgood⟩, hq⟩

theorem built_channel (hps : composeExtends raw = .ok ps) (hget : raw.get name = some file)
    (hp : ps name = some p) :
    p.channel = mergeChannels (baseChannels ps file) file.body.channel := by
  obtain ⟨files, hfiles, hbody, -⟩ := (composePending_some (List.Perm.refl _) hps).mp hp
  have hchannel : p.channel = (draft mergeChannels files).channel := by
    rw [hbody]
    rfl
  rw [hchannel, baseChannels]
  cases hfiles with
  | root hget' hbase =>
    obtain rfl := Option.some.inj (hget.symm.trans hget')
    rw [hbase]
    rfl
  | step hget' hbase hrest =>
    obtain rfl := Option.some.inj (hget.symm.trans hget')
    obtain ⟨q, hq, hbody'⟩ := exists_base hps hrest
    rw [hbase, Option.bind_some, hq]
    show mergeChannels (draft mergeChannels _).channel _ = mergeChannels q.channel _
    rw [hbody']
    rfl

/-- Where base channels are kept by their names, an unnamed channel comes to every profile that
extends its file. -/
theorem Inherits.unnamed_kept (h : Inherits raw) (hps : composeExtends raw = .ok ps)
    (hpath : Relation.ReflTransGen (Extends raw) name ancestor) (hget : raw.get ancestor = some baseFile)
    (hch : ch ∈ baseFile.body.channel) (hname : ch.name = none) : ∃ p, ps name = some p ∧
      ch ∈ p.channel := by
  have hcomposable := (composePending_isSome (List.Perm.refl _)).mp ⟨ps, hps⟩
  have hprofile {n : List Char} {f : ProfileFile} (hf : raw.get n = some f) : ∃ p, ps n = some p := by
    obtain ⟨files, hfiles⟩ := exists_lineage hcomposable.acyclic hcomposable.closed
      ((ProfileFiles.mem_keys).mpr ⟨f, hf⟩)
    obtain ⟨p, hp, -⟩ := exists_base hps hfiles
    exact ⟨p, hp⟩
  induction hpath using Relation.ReflTransGen.head_induction_on with
  | refl =>
    obtain ⟨p, hp⟩ := hprofile hget
    refine ⟨p, hp, ?_⟩
    rw [h.channels ps hps _ _ p hget hp]
    exact (mem_mergeOnName).mpr (.inl hch)
  | head hstep _ ih =>
    obtain ⟨file, hfile, hbase⟩ := hstep
    obtain ⟨q, hq, hmem⟩ := ih
    obtain ⟨p, hp⟩ := hprofile hfile
    refine ⟨p, hp, ?_⟩
    rw [h.channels ps hps _ _ p hfile hp, baseChannels, hbase, Option.bind_some, hq]
    exact (mem_mergeOnName).mpr (.inr ⟨hmem, fun c _ hc hsame => hc (hsame.trans hname)⟩)

theorem Inherits.apart (h : Inherits raw) (hps : composeExtends raw = .ok ps) : Apart raw := by
  rintro name ancestor file baseFile hpath hfile hget ⟨c, hc, hcname⟩ ⟨ch, hch, hname⟩
  obtain ⟨base, ⟨file', hfile', hbase⟩, hrest⟩ := Relation.TransGen.head'_iff.mp hpath
  obtain rfl := Option.some.inj (hfile.symm.trans hfile')
  obtain ⟨q, hq, hmem⟩ := h.unnamed_kept hps hrest hget hch hname
  obtain ⟨p, hp, -⟩ := h.unnamed_kept hps .refl hfile hc hcname
  have hsame : mergeChannels (baseChannels ps file) file.body.channel =
    mergeOnName (baseChannels ps file) file.body.channel := by
    rw [← built_channel hps hfile hp, h.channels ps hps _ _ p hfile hp]
  have hfilters := List.append_cancel_left hsame
  have hkept : ch ∈ (baseChannels ps file).filter (·.name ∉ file.body.channel.map ChannelSpec.name) := by
    rw [hfilters, baseChannels, hbase, Option.bind_some, hq, List.mem_filter]
    refine ⟨hmem, ?_⟩
    simp only [hname, Bool.not_eq_true', List.any_eq_false, Bool.and_eq_true, decide_eq_true_eq, not_and]
    intro x _ hsome hnone
    rw [hnone] at hsome
    cases hsome
  have hdropped := (List.mem_filter.mp hkept).2
  simp only [decide_eq_true_eq] at hdropped
  exact hdropped (List.mem_map.mpr ⟨c, hc, hcname.trans hname.symm⟩)

end merge

/-- Inheritance does what it is to do just where no file with an unnamed channel extends another
one, or where the files can not be composed anyway. -/
theorem composeExtends_exact (raw : ProfileFiles) : Inherits raw ↔
    Apart raw ∨ ¬ Composable mergeChannels raw := by
  have hsome : (∃ ps, composeExtends raw = .ok ps) ↔ Composable mergeChannels raw :=
    composePending_isSome (List.Perm.refl _)
  constructor
  · intro h
    by_cases hcomposable : Composable mergeChannels raw
    · obtain ⟨ps, hps⟩ := hsome.mpr hcomposable
      exact .inl (h.apart hps)
    · exact .inr hcomposable
  · intro h
    refine ⟨?_, fun names hnames => composePending_perm hnames (List.Perm.refl _), ?_⟩
    · rw [hsome]
      refine ⟨fun hcomposable => ?_, Composable.of_mergeOnName⟩
      have hapart := h.resolve_right fun hno => hno hcomposable
      refine ⟨hcomposable.acyclic, hcomposable.closed, fun name files hfiles => ?_⟩
      rw [← hapart.draft_eq hfiles]
      exact hcomposable.good name files hfiles
    · intro ps hps name file p hget hp
      have hapart := h.resolve_right fun hno => hno (hsome.mp ⟨ps, hps⟩)
      rw [built_channel hps hget hp]
      refine mergeChannels_eq fun hunnamed => ?_
      cases hbase : file.extendsBase with
      | none =>
        rw [baseChannels, hbase]
        exact fun c hc => absurd hc List.not_mem_nil
      | some base =>
        obtain ⟨files, hfiles, -⟩ := (composePending_some (List.Perm.refl _) hps).mp hp
        obtain ⟨_, files', -, hrest⟩ := hfiles.of_extends ⟨file, hget, hbase⟩
        obtain ⟨q, hq, hbody⟩ := exists_base hps hrest
        have hnamed := hapart.named hget hbase hrest hunnamed
        rw [hbody] at hnamed
        rw [baseChannels, hbase, Option.bind_some, hq]
        exact hnamed

def unnamedEnd (pd : List Char) (id : UInt8) : ChannelEnd := ⟨pd, id, false⟩

/-- A base and a file that extends it, each with one unnamed channel. -/
def twoUnnamed : ProfileFiles where
  entries :=
    [("base".toList, ⟨none, some "t".toList, ["a".toList, "b".toList], none, none, none,
        [⟨none, [unnamedEnd "a".toList 0, unnamedEnd "b".toList 0]⟩]⟩),
      ("over".toList, ⟨some "base".toList, none, [], none, none, none,
        [⟨none, [unnamedEnd "a".toList 1, unnamedEnd "b".toList 1]⟩]⟩)]
  nodup := by decide

theorem twoUnnamed_composable : Composable mergeChannels twoUnnamed := by
  have hbase : Lineage twoUnnamed "base".toList [_] := .root rfl rfl
  have hover : Lineage twoUnnamed "over".toList [_, _] := .step rfl rfl hbase
  have hkeys {name : List Char} (h : name ∈ twoUnnamed.keys) : name = "base".toList ∨ name =
    "over".toList := by
    simpa [twoUnnamed, ProfileFiles.keys] using h
  refine ⟨?_, ?_, ?_⟩
  · intro name hcycle
    obtain ⟨_, ⟨file, hfile, _⟩, -⟩ := Relation.TransGen.head'_iff.mp hcycle
    obtain rfl | rfl := hkeys ((ProfileFiles.mem_keys).mpr ⟨file, hfile⟩)
    · exact hbase.acyclic hcycle
    · exact hover.acyclic hcycle
  · rintro name base ⟨file, hfile, hextends⟩
    obtain rfl | rfl := hkeys ((ProfileFiles.mem_keys).mpr ⟨file, hfile⟩)
    · cases hfile
      cases hextends
    · cases hfile
      cases hextends
      decide
  · intro name files hfiles
    obtain rfl | rfl := hkeys hfiles.mem_keys
    · rw [hfiles.unique hbase]
      exact ⟨by decide, by decide, (validateChannels_ok).mpr (by decide)⟩
    · rw [hfiles.unique hover]
      exact ⟨by decide, by decide, (validateChannels_ok).mpr (by decide)⟩

/-- The channel of the base is dropped. -/
theorem twoUnnamed_dropped : ¬ Inherits twoUnnamed := by
  intro h
  obtain ⟨ps, hps⟩ := (composePending_isSome (List.Perm.refl _)).mpr twoUnnamed_composable
  exact h.apart hps "over".toList "base".toList _ _ (.single ⟨_, rfl, rfl⟩) rfl rfl ⟨_,
    List.mem_cons_self, rfl⟩
    ⟨_, List.mem_cons_self, rfl⟩

end Lerux.Cli

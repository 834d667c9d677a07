import Lerux.DeviceImage.Model
import Mathlib.Data.List.Sort
import Mathlib.Tactic

/-!
# Channel ids

Ids are taken in one order and written in another. Without the check for an overflow a loop is a
fold (`irqDone`, `linkDone`), and it does not fail while every domain has at most 255 ids. The ends
that it has met hold the ids 0, 1, 2 and so on of each domain (`Counted`), in this order.
-/

namespace Lerux.DeviceImage

/-! ### Taking an id -/

def Fits (next : Next) : Prop := ∀ pd, next pd ≤ 255

def bump (next : Next) (pd : Name) : Next := Function.update next pd (next pd + 1)

/-- The ids that some ends have at a domain. -/
def idsOf (ends : List AssignedEnd) (pd : Name) : List Nat := (ends.filter (·.pd = pd)).map (·.id)

/-- The ends hold the ids that were taken, in order. -/
def Counted (next : Next) (ends : List AssignedEnd) : Prop := ∀ pd, idsOf ends pd = List.range (next pd)

section takes

variable {next : Next} {ends : List AssignedEnd}

theorem bump_apply (next : Next) (pd pd' : Name) : bump next pd pd' = next pd' + if pd' = pd then 1
    else 0 := by
  unfold bump
  by_cases h : pd' = pd
  · subst h
    rw [Function.update_self, if_pos rfl]
  · rw [Function.update_of_ne h, if_neg h, Nat.add_zero]

theorem count_one (a pd : Name) : [a].count pd = if pd = a then 1 else 0 := by
  rw [List.count_singleton]
  by_cases h : pd = a
  · simp [h]
  · simp [h, Ne.symm h]

theorem Fits.of_bump {pd : Name} (h : Fits (bump next pd)) : Fits next := by
  intro pd'
  have := h pd'
  rw [bump_apply] at this
  omega

theorem fits_bump {pd : Name} (h : Fits next) : Fits (bump next pd) ↔ next pd + 1 ≤ 255 := by
  constructor
  · intro hbump
    have := hbump pd
    rwa [bump_apply, if_pos rfl] at this
  · intro hle pd'
    have := h pd'
    rw [bump_apply]
    split
    · next heq => rwa [heq]
    · exact this

theorem takeId_fits {pd : Name} (h : Fits (bump next pd)) : takeId next pd = .ok (next pd, bump next pd) :=
  if_pos ((fits_bump h.of_bump).mp h)

theorem takeId_overflow {pd : Name} (h : Fits next) (hnot : ¬Fits (bump next pd)) :
    takeId next pd = .error (.channelOverflow pd) :=
  if_neg fun hle => hnot ((fits_bump h).mpr hle)

theorem idsOf_append (ends ends' : List AssignedEnd) (pd : Name) : idsOf (ends ++ ends') pd =
    idsOf ends pd ++ idsOf ends' pd := by
  rw [idsOf, List.filter_append, List.map_append]
  rfl

theorem Counted.take (h : Counted next ends) (pd : Name) :
    Counted (bump next pd) (ends ++ [⟨pd, next pd⟩]) := by
  intro pd'
  rw [idsOf_append, h pd', bump_apply]
  by_cases heq : pd' = pd
  · subst heq
    rw [if_pos rfl, List.range_succ]
    simp [idsOf]
  · rw [if_neg heq]
    simp [idsOf, Ne.symm heq]

/-- The ids of a domain increase. -/
theorem Counted.increasing (h : Counted next ends) : ends.Pairwise fun e f => e.pd = f.pd →
    e.id < f.id := by
  have hall : ∀ pd, ends.Pairwise fun e f => e.pd = pd → f.pd = pd → e.id < f.id := by
    intro pd
    have hrange := List.pairwise_lt_range (n := next pd)
    rw [← h pd, idsOf, List.pairwise_map, List.pairwise_filter] at hrange
    exact hrange.imp fun hlt he hf => hlt (decide_eq_true he) (decide_eq_true hf)
  rw [List.pairwise_iff_forall_sublist]
  intro e f hsub heq
  exact List.pairwise_iff_forall_sublist.mp (hall f.pd) hsub heq rfl

theorem Counted.nodup (h : Counted next ends) : ends.Nodup :=
  h.increasing.imp fun {e f} hlt heq => by
    have := hlt (congrArg _ heq)
    rw [heq] at this
    exact lt_irrefl _ this

end takes

/-! ### Loops without an overflow -/

section loops

variable {σ ι ε : Type} {step : σ → ι → Except ε σ} {done : σ → ι → σ} {fits : σ → Prop}

/-- A loop whose rounds fail just where they lead out of some states, which are not left and entered
again. -/
theorem foldlM_fits (hback : ∀ s i, fits (done s i) → fits s) (hok : ∀ s i, fits (done s i) →
    step s i = .ok (done s i))
    (herror : ∀ s i, fits s → ¬fits (done s i) → ∃ e, step s i = .error e) (l : List ι) :
    ∀ s, fits s → (fits (l.foldl done s) → l.foldlM step s = .ok (l.foldl done s)) ∧
      (¬fits (l.foldl done s) → ∃ e, l.foldlM step s = .error e) := by
  have hall : ∀ (l : List ι) s, fits (l.foldl done s) → fits s := by
    intro l
    induction l with
    | nil => exact fun s h => h
    | cons i l ih => exact fun s h => hback s i (ih _ h)
  induction l with
  | nil => exact fun s h => ⟨fun _ => rfl, fun hnot => absurd h hnot⟩
  | cons i l ih =>
    intro s hs
    rw [List.foldlM_cons, List.foldl_cons]
    by_cases hnext : fits (done s i)
    · rw [hok s i hnext]
      exact ih _ hnext
    · obtain ⟨e, he⟩ := herror s i hs hnext
      rw [he]
      exact ⟨fun hlast => absurd (hall l _ hlast) hnext, fun _ => ⟨e, rfl⟩⟩

end loops

/-! ### Interrupts -/

def irqDone (s : IrqState) (domain : Domain) : IrqState :=
  if domain.irq.isSome then
    { next := bump s.next domain.name
      irqs := s.irqs ++ [⟨domain.name, s.next domain.name⟩]
      ends := s.ends ++ [⟨domain.name, s.next domain.name⟩] }
  else s

/-- The interrupts as ends. -/
def irqEnds (irqs : List AssignedIrq) : List AssignedEnd := irqs.map fun irq => ⟨irq.pd, irq.id⟩

/-- The domains with an interrupt. -/
def irqDomains (domains : List Domain) : List Domain := domains.filter fun d => d.irq.isSome

structure IrqState.Good (domains : List Domain) (s : IrqState) : Prop where
  counted : Counted s.next s.ends
  ends : s.ends = irqEnds s.irqs
  pds : s.irqs.map (·.pd) = (irqDomains domains).map (·.name)
  next : ∀ pd, s.next pd = ((irqDomains domains).map (·.name)).count pd

theorem irqDone_good {domains : List Domain} {s : IrqState} (h : s.Good domains) (domain : Domain) :
    (irqDone s domain).Good (domains ++ [domain]) := by
  unfold irqDone
  by_cases hirq : domain.irq.isSome
  · have hdomains : irqDomains (domains ++ [domain]) = irqDomains domains ++ [domain] := by
      rw [irqDomains, List.filter_append]
      simp [irqDomains, hirq]
    rw [if_pos hirq]
    refine ⟨h.counted.take domain.name, ?_, ?_, fun pd => ?_⟩
    · rw [irqEnds, List.map_append, h.ends]
      rfl
    · rw [List.map_append, hdomains, List.map_append, h.pds]
      rfl
    · change bump s.next domain.name pd = _
      rw [bump_apply, hdomains, List.map_append, List.count_append, h.next]
      exact congrArg _ (count_one domain.name pd).symm
  · have hdomains : irqDomains (domains ++ [domain]) = irqDomains domains := by
      rw [irqDomains, List.filter_append]
      simp [irqDomains, hirq]
    rw [if_neg hirq]
    exact ⟨h.counted, h.ends, by rw [hdomains]; exact h.pds, fun pd => by rw [hdomains]; exact h.next pd⟩

theorem foldl_irqDone_good (domains : List Domain) : ∀ (before : List Domain) (s : IrqState),
    s.Good before →
    (domains.foldl irqDone s).Good (before ++ domains) := by
  induction domains with
  | nil =>
    intro before s h
    rw [List.append_nil]
    exact h
  | cons domain domains ih =>
    intro before s h
    have := ih (before ++ [domain]) _ (irqDone_good h domain)
    rwa [List.append_assoc] at this

def startIrqs : IrqState := ⟨fun _ => 0, [], []⟩

theorem startIrqs_good : startIrqs.Good [] := ⟨fun _ => rfl, rfl, rfl, fun _ => rfl⟩

theorem irqStep_fits (s : IrqState) (domain : Domain) (h : Fits (irqDone s domain).next) :
    irqStep s domain = .ok (irqDone s domain) := by
  unfold irqDone at h ⊢
  unfold irqStep
  by_cases hirq : domain.irq.isSome
  · rw [if_pos hirq] at h
    rw [if_pos hirq, if_pos hirq, takeId_fits h]
    rfl
  · rw [if_neg hirq, if_neg hirq]

theorem irqStep_overflow (s : IrqState) (domain : Domain) (h : Fits s.next)
    (hnot : ¬Fits (irqDone s domain).next) :
    ∃ e, irqStep s domain = .error e := by
  unfold irqDone at hnot
  unfold irqStep
  by_cases hirq : domain.irq.isSome
  · rw [if_pos hirq] at hnot
    rw [if_pos hirq, takeId_overflow h hnot]
    exact ⟨_, rfl⟩
  · rw [if_neg hirq] at hnot
    exact absurd h hnot

theorem irqDone_back (s : IrqState) (domain : Domain) (h : Fits (irqDone s domain).next) : Fits s.next := by
  unfold irqDone at h
  split at h
  · exact h.of_bump
  · exact h

/-! ### Links -/

section links

variable {links : List Link}

def linkDone (s : LinkState links) (index : Fin links.length) : LinkState links :=
  let link := links.get index
  { next := bump (bump s.next link.a) link.b
    ids := Function.update s.ids index (s.next link.a, bump s.next link.a link.b)
    ends := s.ends ++ [⟨link.a, s.next link.a⟩, ⟨link.b, bump s.next link.a link.b⟩] }

theorem linkStep_fits (s : LinkState links) (index : Fin links.length) (h : Fits (linkDone s index).next) :
    linkStep s index = .ok (linkDone s index) := by
  have hb : Fits (bump (bump s.next (links.get index).a) (links.get index).b) := h
  unfold linkStep
  dsimp only
  rw [takeId_fits hb.of_bump]
  change takeId (bump s.next (links.get index).a) (links.get index).b >>= _ = _
  rw [takeId_fits hb]
  rfl

theorem linkStep_overflow (s : LinkState links) (index : Fin links.length) (h : Fits s.next)
    (hnot : ¬Fits (linkDone s index).next) :
    ∃ e, linkStep s index = .error e := by
  have hnot : ¬Fits (bump (bump s.next (links.get index).a) (links.get index).b) := hnot
  unfold linkStep
  dsimp only
  by_cases ha : Fits (bump s.next (links.get index).a)
  · rw [takeId_fits ha]
    change ∃ e, (takeId (bump s.next (links.get index).a) (links.get index).b >>= _) = _
    rw [takeId_overflow ha hnot]
    exact ⟨_, rfl⟩
  · rw [takeId_overflow h ha]
    exact ⟨_, rfl⟩

/-- The ends of a link with its ids. -/
def endsOf (ids : Fin links.length → Nat × Nat) (index : Fin links.length) : List AssignedEnd :=
  [⟨(links.get index).a, (ids index).1⟩, ⟨(links.get index).b, (ids index).2⟩]

theorem linkDone_counted {s : LinkState links} (h : Counted s.next s.ends) (index : Fin links.length) :
    Counted (linkDone s index).next (linkDone s index).ends := by
  have htwo := (h.take (links.get index).a).take (links.get index).b
  rwa [List.append_assoc] at htwo

theorem foldl_linkDone_counted (l : List (Fin links.length)) : ∀ s : LinkState links,
    Counted s.next s.ends →
    Counted (l.foldl linkDone s).next (l.foldl linkDone s).ends := by
  induction l with
  | nil => exact fun s h => h
  | cons index l ih => exact fun s h => ih _ (linkDone_counted h index)

/-- Each link is met once, and keeps the ids that were taken for it. -/
theorem foldl_linkDone_ends (l : List (Fin links.length)) : l.Nodup → ∀ s : LinkState links,
    (l.foldl linkDone s).ends = s.ends ++ l.flatMap (endsOf (l.foldl linkDone s).ids) ∧
      ∀ i, i ∉ l → (l.foldl linkDone s).ids i = s.ids i := by
  induction l with
  | nil => exact fun _ s => ⟨(List.append_nil _).symm, fun _ _ => rfl⟩
  | cons index l ih =>
    intro hnodup s
    obtain ⟨hindex, hnodup⟩ := List.nodup_cons.mp hnodup
    obtain ⟨hends, hids⟩ := ih hnodup (linkDone s index)
    rw [List.foldl_cons]
    have hself : (l.foldl linkDone (linkDone s index)).ids index =
        (s.next (links.get index).a, bump s.next (links.get index).a (links.get index).b) := by
      rw [hids index hindex]
      exact Function.update_self ..
    constructor
    · rw [hends, List.flatMap_cons, ← List.append_assoc]
      congr 1
      rw [endsOf, hself]
      rfl
    · intro i hi
      rw [List.mem_cons, not_or] at hi
      rw [hids i hi.2]
      exact Function.update_of_ne hi.1 ..

/-- The names at the ends of the links. -/
def linkNames (links : List Link) : List Name := links.flatMap fun link => [link.a, link.b]

theorem foldl_linkDone_next (l : List (Fin links.length)) : ∀ (s : LinkState links) (pd : Name),
    (l.foldl linkDone s).next pd = s.next pd +
      (l.flatMap fun i => [(links.get i).a, (links.get i).b]).count pd := by
  induction l with
  | nil => exact fun s pd => rfl
  | cons index l ih =>
    intro s pd
    have hone : (linkDone s index).next pd =
      s.next pd + [(links.get index).a, (links.get index).b].count pd := by
      change bump (bump s.next (links.get index).a) (links.get index).b pd = _
      rw [bump_apply, bump_apply, ← List.singleton_append, List.count_append, count_one, count_one,
        Nat.add_assoc]
    rw [List.foldl_cons, ih, hone, List.flatMap_cons, List.count_append, Nat.add_assoc]

/-! ### The order of the links -/

/-- The order in which ids are given to two links: by `order`, and by their places. -/
def Before (i j : Fin links.length) : Prop :=
  (links.get i).order < (links.get j).order ∨ ((links.get i).order = (links.get j).order ∧ i < j)

theorem sequence_perm (links : List Link) : (sequence links).Perm (List.finRange links.length) :=
  List.mergeSort_perm _ _

theorem sequence_nodup (links : List Link) : (sequence links).Nodup :=
  (sequence_perm links).nodup_iff.mpr (List.nodup_finRange _)

/-- Two elements of a list without repeats stand in one order only. -/
theorem not_sublist_swap {α : Type} {l : List α} {a b : α} (hnodup : l.Nodup)
    (h : [a, b].Sublist l) : ¬[b, a].Sublist l := by
  intro hswap
  induction l with
  | nil => cases h
  | cons c l ih =>
    obtain ⟨hc, hl⟩ := List.nodup_cons.mp hnodup
    have hmem : ∀ {x y : α}, [x, y].Sublist l → x ∈ l ∧ y ∈ l :=
      fun hsub => ⟨hsub.subset (by simp), hsub.subset (by simp)⟩
    rcases List.cons_sublist_cons'.mp h with hin | ⟨hac, hin⟩
    · rcases List.cons_sublist_cons'.mp hswap with hin' | ⟨hbc, -⟩
      · exact ih hl hin hin'
      · exact hc (hbc ▸ (hmem hin).2)
    · rcases List.cons_sublist_cons'.mp hswap with hin' | ⟨hbc, -⟩
      · exact hc (hac ▸ (hmem hin').2)
      · exact hc (hbc ▸ List.singleton_sublist.mp hin)

theorem sequence_sorted (links : List Link) : (sequence links).Pairwise Before := by
  have htrans : ∀ i j k : Fin links.length, decide ((links.get i).order ≤ (links.get j).order) = true →
      decide ((links.get j).order ≤ (links.get k).order) = true →
        decide ((links.get i).order ≤ (links.get k).order) = true := by
    intro i j k hij hjk
    simp only [decide_eq_true_eq] at hij hjk ⊢
    omega
  have htotal : ∀ i j : Fin links.length,
      (decide ((links.get i).order ≤ (links.get j).order) || decide ((links.get j).order ≤
        (links.get i).order)) = true := by
    intro i j
    simp only [Bool.or_eq_true, decide_eq_true_eq]
    omega
  have hsorted := List.pairwise_mergeSort htrans htotal (List.finRange links.length)
  rw [List.pairwise_iff_forall_sublist]
  intro i j hsub
  have hle : (links.get i).order ≤ (links.get j).order :=
    of_decide_eq_true (List.pairwise_iff_forall_sublist.mp hsorted hsub)
  rcases Nat.lt_or_eq_of_le hle with hlt | heq
  · exact Or.inl hlt
  refine Or.inr ⟨heq, ?_⟩
  have hne : i ≠ j := by
    rintro rfl
    exact List.nodup_iff_sublist.mp (sequence_nodup links) i hsub
  by_contra hnot
  -- otherwise the two stand in the other order among all places, and a stable sort keeps it
  have hlt : j < i := lt_of_le_of_ne (not_lt.mp hnot) hne.symm
  have hplaces : [j, i].Sublist (List.finRange links.length) := by
    have hsub : [j, i].Subperm (List.finRange links.length) :=
      List.Nodup.subperm (by simpa using hne.symm) (by simp)
    exact List.sublist_of_subperm_of_sortedLE hsub (List.pairwise_pair.mpr hlt.le).sortedLE
      (List.sortedLT_finRange _).sortedLE
  have hswap := List.pair_sublist_mergeSort htrans htotal (decide_eq_true heq.symm.le) hplaces
  exact not_sublist_swap (sequence_nodup links) hsub hswap

/-- One of two elements of a list comes first. -/
theorem sublist_or_swap {α : Type} {l : List α} {a b : α} (ha : a ∈ l) (hb : b ∈ l) (hne : a ≠ b) :
    [a, b].Sublist l ∨ [b, a].Sublist l := by
  induction l with
  | nil => cases ha
  | cons c l ih =>
    rcases List.mem_cons.mp ha with rfl | hal
    · exact Or.inl (List.Sublist.cons_cons a
        (List.singleton_sublist.mpr ((List.mem_cons.mp hb).resolve_left hne.symm)))
    · rcases List.mem_cons.mp hb with rfl | hbl
      · exact Or.inr (List.Sublist.cons_cons b (List.singleton_sublist.mpr hal))
      · exact (ih hal hbl).imp (List.Sublist.cons c) (List.Sublist.cons c)

theorem sequence_sublist {i j : Fin links.length} (h : Before i j) : [i, j].Sublist (sequence links) := by
  have hmem : ∀ k, k ∈ sequence links := fun k => (sequence_perm links).mem_iff.mpr (List.mem_finRange k)
  have hne : i ≠ j := by
    rintro rfl
    unfold Before at h
    omega
  refine (sublist_or_swap (hmem i) (hmem j) hne).resolve_right fun hswap => ?_
  have hback := List.pairwise_iff_forall_sublist.mp (sequence_sorted links) hswap
  unfold Before at h hback
  omega

end links

/-! ### The ends that are seen -/

theorem validateFrom_ok {ends : List AssignedEnd} : ∀ {seen : List AssignedEnd}, ends.Nodup →
    (∀ e ∈ ends, e ∉ seen) →
    validateFrom seen ends = .ok () := by
  induction ends with
  | nil => exact fun _ _ => rfl
  | cons e ends ih =>
    intro seen hnodup hseen
    obtain ⟨he, hnodup⟩ := List.nodup_cons.mp hnodup
    rw [validateFrom, if_neg (hseen e List.mem_cons_self)]
    refine ih hnodup fun f hf hmem => ?_
    rcases List.mem_cons.mp hmem with rfl | hmem
    · exact he hf
    · exact hseen f (List.mem_cons_of_mem e hf) hmem

/-! ### The whole assignment -/

/-- How often a domain is used: by its interrupts and by the ends of the links. -/
def uses (image : Image) (pd : Name) : Nat :=
  ((irqDomains image.domains).map (·.name)).count pd + (linkNames image.links).count pd

/-- The ids as they are written: those of the interrupts, and the two of each channel. -/
def Assigned.written (assigned : Assigned) : List AssignedEnd :=
  irqEnds assigned.irqs ++ assigned.channels.flatMap fun c => [⟨c.aPd, c.aId⟩, ⟨c.bPd, c.bId⟩]

section assign

variable (image : Image)

/-- The two loops without an overflow. -/
def irqsDone : IrqState := image.domains.foldl irqDone startIrqs

def linksDone : LinkState image.links :=
  (sequence image.links).foldl linkDone ⟨(irqsDone image).next, fun _ => (0, 0), (irqsDone image).ends⟩

def assignDone : Assigned :=
  { channels := assignedChannels image (linksDone image).ids, ends := (linksDone image).ends,
    irqs := (irqsDone image).irqs }

theorem irqsDone_good : (irqsDone image).Good image.domains :=
  foldl_irqDone_good image.domains [] startIrqs startIrqs_good

theorem linkNames_eq (links : List Link) :
    linkNames links = (List.finRange links.length).flatMap fun i => [(links.get i).a, (links.get i).b] := by
  have hmap : (List.finRange links.length).map links.get = links :=
    List.ofFn_eq_map.symm.trans (List.ofFn_get links)
  rw [linkNames]
  conv_lhs => rw [← hmap]
  rw [List.flatMap_map]

theorem linksDone_next (pd : Name) : (linksDone image).next pd = uses image pd := by
  rw [linksDone, foldl_linkDone_next, uses, linkNames_eq, ← (irqsDone_good image).next]
  congr 1
  exact ((sequence_perm image.links).flatMap_right _).count_eq pd

theorem linksDone_counted : Counted (linksDone image).next (linksDone image).ends :=
  foldl_linkDone_counted _ _ (irqsDone_good image).counted

theorem linksDone_ends : (linksDone image).ends =
    (irqsDone image).ends ++ (sequence image.links).flatMap (endsOf (linksDone image).ids) :=
  (foldl_linkDone_ends _ (sequence_nodup image.links) _).1

/-- Ids are assigned if no domain has more than 255 uses, and else none are. -/
theorem assign_eq : ((∀ pd, uses image pd ≤ 255) → assign image = .ok (assignDone image)) ∧
    ((¬∀ pd, uses image pd ≤ 255) → ∃ e, assign image = .error e) := by
  have hstart : Fits startIrqs.next := fun pd => Nat.zero_le _
  have hirqs := @foldlM_fits _ _ _ irqStep irqDone
    (fun s => Fits s.next) irqDone_back irqStep_fits irqStep_overflow image.domains startIrqs hstart
  have hback : ∀ (s : LinkState image.links) (i : Fin image.links.length),
    Fits (linkDone s i).next → Fits s.next :=
    fun s i h => Fits.of_bump (Fits.of_bump h)
  have hlinks : ∀ s : LinkState image.links, Fits s.next → _ :=
    @foldlM_fits _ _ _ linkStep linkDone (fun s => Fits s.next) hback
    linkStep_fits linkStep_overflow (sequence image.links)
  have huses : Fits (linksDone image).next ↔ ∀ pd, uses image pd ≤ 255 := by
    unfold Fits
    simp only [linksDone_next]
  unfold assign assignDomainIrqs
  change (_ → (image.domains.foldlM irqStep startIrqs >>= _) = _) ∧
    (_ → ∃ e, (image.domains.foldlM irqStep startIrqs >>= _) = _)
  by_cases hfirst : Fits (irqsDone image).next
  · rw [hirqs.1 hfirst]
    have hsecond := hlinks ⟨(irqsDone image).next, fun _ => (0, 0), (irqsDone image).ends⟩ hfirst
    constructor
    · intro h
      change (assignLinkIds image (irqsDone image).next (irqsDone image).ends >>= _) = _
      rw [assignLinkIds, hsecond.1 (huses.mpr h)]
      rfl
    · intro h
      obtain ⟨e, he⟩ := hsecond.2 fun hfits => h (huses.mp hfits)
      change ∃ e, (assignLinkIds image (irqsDone image).next (irqsDone image).ends >>= _) = _
      rw [assignLinkIds, he]
      exact ⟨e, rfl⟩
  · obtain ⟨e, he⟩ := hirqs.2 hfirst
    rw [he]
    refine ⟨fun h => absurd (fun pd => ?_) hfirst, fun _ => ⟨e, rfl⟩⟩
    rw [(irqsDone_good image).next]
    exact (Nat.le_add_right _ _).trans (h pd)

/-- The ids are written where they were taken. -/
theorem written_perm : (assignDone image).written.Perm (linksDone image).ends := by
  have hchannels : ((assignDone image).channels.flatMap fun c => [(⟨c.aPd, c.aId⟩ : AssignedEnd),
    ⟨c.bPd, c.bId⟩]) =
      (List.finRange image.links.length).flatMap (endsOf (linksDone image).ids) := by
    change ((List.finRange image.links.length).map (assignedChannel (linksDone image).ids)).flatMap _ = _
    rw [List.flatMap_map]
    rfl
  rw [Assigned.written, hchannels, linksDone_ends, (irqsDone_good image).ends]
  exact List.Perm.append_left _ ((sequence_perm image.links).symm.flatMap_right _)

theorem idsOf_perm {ends ends' : List AssignedEnd} (h : ends.Perm ends') (pd : Name) :
    (idsOf ends pd).Perm (idsOf ends' pd) :=
  (h.filter _).map _

theorem written_ids (pd : Name) : (idsOf (assignDone image).written pd).Perm
    (List.range (uses image pd)) := by
  have h := idsOf_perm (written_perm image) pd
  rwa [linksDone_counted image pd, linksDone_next] at h

/-- The ids of a link that comes later are larger, where both have an end at one domain. -/
theorem ids_increase {i j : Fin image.links.length} (h : Before i j) :
    ∀ e ∈ endsOf (linksDone image).ids i, ∀ f ∈ endsOf (linksDone image).ids j, e.pd = f.pd →
      e.id < f.id := by
  have hends := (linksDone_counted image).increasing
  rw [linksDone_ends, List.pairwise_append] at hends
  have hpairs := (List.pairwise_flatMap.mp hends.2.1).2
  exact List.pairwise_iff_forall_sublist.mp hpairs (sequence_sublist h)

theorem validate_done : validate (assignDone image).ends = .ok () :=
  validateFrom_ok (linksDone_counted image).nodup fun _ _ => List.not_mem_nil

end assign

/-! ### Interrupts of domains with distinct names -/

theorem irqs_zero {domains : List Domain} {s : IrqState} (h : s.Good domains)
    (hnames : (domains.map (·.name)).Nodup) :
    s.irqs = (irqDomains domains).map fun d => ⟨d.name, 0⟩ := by
  have hdistinct : (s.irqs.map (·.pd)).Nodup := by
    rw [h.pds]
    exact hnames.sublist (List.filter_sublist.map _)
  have hzero : ∀ irq ∈ s.irqs, irq = ⟨irq.pd, 0⟩ := by
    intro irq hirq
    have hone : s.next irq.pd ≤ 1 := by
      rw [h.next, ← h.pds]
      exact List.nodup_iff_count_le_one.mp hdistinct _
    have hid : irq.id ∈ idsOf s.ends irq.pd := by
      refine List.mem_map.mpr ⟨⟨irq.pd, irq.id⟩, List.mem_filter.mpr ⟨?_, decide_eq_true rfl⟩, rfl⟩
      rw [h.ends]
      exact List.mem_map.mpr ⟨irq, hirq, rfl⟩
    rw [h.counted irq.pd, List.mem_range] at hid
    have : irq.id = 0 := by omega
    rw [← this]
  have hmap : s.irqs = (s.irqs.map (·.pd)).map fun pd => ⟨pd, 0⟩ := by
    rw [List.map_map]
    conv_lhs => rw [← List.map_id s.irqs]
    exact List.map_congr_left hzero
  rw [hmap, h.pds, List.map_map]
  rfl

/-- What the ids of an image should be: all from 0 on at each domain, 0 for its interrupt,
increasing with the order of the links, and written on the two ends of their links, in the order of
these. -/
structure Correct (image : Image) (assigned : Assigned) : Prop where
  ids : ∀ pd, (idsOf assigned.written pd).Perm (List.range (uses image pd))
  irqs : assigned.irqs = (irqDomains image.domains).map fun d => ⟨d.name, 0⟩
  ends : assigned.channels.map (fun c => (c.aPd, c.bPd, c.ppB)) =
    image.links.map fun link => (link.a, link.b, link.ppB)
  order : ∀ (i j : Fin image.links.length) (c d : AssignedChannel), Before i j →
    assigned.channels[i.val]? = some c →
    assigned.channels[j.val]? = some d → ∀ p ∈ [(c.aPd, c.aId), (c.bPd, c.bId)], ∀ q ∈
      [(d.aPd, d.aId), (d.bPd, d.bId)],
      p.1 = q.1 → p.2 < q.2
  valid : validate assigned.ends = .ok ()

theorem assign_correct {image : Image} (hnames : (image.domains.map (·.name)).Nodup)
    (huses : ∀ pd, uses image pd ≤ 255) :
    ∃ assigned, assign image = .ok assigned ∧ Correct image assigned := by
  refine ⟨assignDone image, (assign_eq image).1 huses, written_ids image,
    irqs_zero (irqsDone_good image) hnames, ?_, ?_,
    validate_done image⟩
  · have hget : (List.finRange image.links.length).map image.links.get = image.links :=
      List.ofFn_eq_map.symm.trans (List.ofFn_get image.links)
    change ((List.finRange image.links.length).map (assignedChannel (linksDone image).ids)).map _ = _
    conv_rhs => rw [← hget]
    rw [List.map_map, List.map_map]
    rfl
  · intro i j c d hbefore hc hd p hp q hq hpq
    have hchannel : ∀ k : Fin image.links.length,
      (assignDone image).channels[k.val]? = some (assignedChannel (linksDone image).ids k) := by
      intro k
      change ((List.finRange image.links.length).map (assignedChannel (linksDone image).ids))[k.val]? = _
      simp
    rw [hchannel] at hc hd
    cases hc
    cases hd
    have hincrease := ids_increase image hbefore
    have hp' : (⟨p.1, p.2⟩ : AssignedEnd) ∈ endsOf (linksDone image).ids i := by
      rcases List.mem_pair.mp hp with rfl | rfl
      · exact List.mem_cons_self
      · exact List.mem_cons_of_mem _ List.mem_cons_self
    have hq' : (⟨q.1, q.2⟩ : AssignedEnd) ∈ endsOf (linksDone image).ids j := by
      rcases List.mem_pair.mp hq with rfl | rfl
      · exact List.mem_cons_self
      · exact List.mem_cons_of_mem _ List.mem_cons_self
    exact hincrease _ hp' _ hq' hpq

/-- A driver with an interrupt, and two links to it, of which the second gets its ids first. -/
def driverImage : Image where
  groups := []
  domains :=
    [⟨['d'], 3, none, 4096, ['d'], [], some (.line 33)⟩, ⟨['r'], 2, none, 4096, ['r'], [], none⟩,
      ⟨['t'], 2, none, 4096, ['t'], [], none⟩]
  links := [⟨['r'], ['d'], false, 2⟩, ⟨['t'], ['d'], false, 1⟩]

theorem uses_le (image : Image) (pd : Name) : uses image pd ≤ (irqDomains image.domains).length +
    (linkNames image.links).length := by
  have hirqs := List.count_le_length (a := pd) (l := (irqDomains image.domains).map (·.name))
  have hlinks := List.count_le_length (a := pd) (l := linkNames image.links)
  rw [List.length_map] at hirqs
  exact Nat.add_le_add hirqs hlinks

theorem assign_correct_driver : ∃ assigned, assign driverImage = .ok assigned ∧
    Correct driverImage assigned :=
  assign_correct (by decide) fun pd => (uses_le driverImage pd).trans (by decide)

end Lerux.DeviceImage

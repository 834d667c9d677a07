import Lerux.Html.Tree

/-!
# The tree of every document is well formed

Between two tokens the numbers of the nodes are the tree order of a tree that grows at its right
edge (`Open`), and what is open there are elements with contents. A text is added to the last node
of the document or to none (`Grown.lastText`), so that the texts stay in the order of the nodes.
-/

namespace Lerux.Html

/-- Has children: no text, and no element that has none. -/
def NodeKind.HasContents : NodeKind → Prop
  | .document => True
  | .element name _ => name.isVoid = false
  | .text _ => False

/-- The tree a document should be. -/
structure Document.WellFormed (doc : Document) : Prop where
  root : ∃ children, doc.nodes[0]? = some ⟨.document, none, children⟩
  parent : ∀ (i : Nat) (n : Node), doc.nodes[i]? = some n → 0 < i → n.kind ≠ .document ∧
    ∃ p < i, n.parent = some p ∧ (doc.children p).count i = 1 ∧ ∀ q, i ∈ doc.children q → q = p
  child : ∀ p c, c ∈ doc.children p → c < doc.nodeCount ∧ 0 < c
  preorder : preorder doc.children doc.nodeCount Document.root = List.range doc.nodeCount
  void : ∀ (i : Nat) (n : Node), doc.nodes[i]? = some n → ∀ name attrs,
    n.kind = .element name attrs → name.isVoid = true → n.children = []
  texts : ∀ p, (doc.children p).IsChain fun c d => ¬(doc.isText c = true ∧ doc.isText d = true)

namespace Document

variable {doc : Document} {p i : Nat} {kind : NodeKind} {text : List Char} {n : Node}

/-- A node of a list that is changed in one place. -/
theorem getElem?_modify_eq_ite (nodes : List Node) (f : Node → Node) :
    (nodes.modify p f)[i]? = if i = p then nodes[i]?.map f else nodes[i]? := by
  rw [List.getElem?_modify]
  by_cases hip : i = p
  · subst hip
    simp
  · simp [hip, Ne.symm hip]

theorem getElem?_append (hp : p < doc.nodes.length) : (doc.append p kind).nodes[i]? =
    if i = doc.nodes.length then some ⟨kind, some p, []⟩
    else if i = p then doc.nodes[i]?.map fun n => { n with children := n.children ++ [doc.nodes.length] }
    else doc.nodes[i]? := by
  rw [append, getElem?_modify_eq_ite]
  by_cases hi : i = doc.nodes.length
  · subst hi
    rw [if_pos rfl, if_neg (by omega), List.getElem?_append_right le_rfl]
    simp
  · rw [if_neg hi]
    have hold : (doc.nodes ++ [Node.mk kind (some p) []])[i]? = doc.nodes[i]? := by
      by_cases hlt : i < doc.nodes.length
      · exact List.getElem?_append_left hlt
      · rw [List.getElem?_eq_none (by simp; omega), List.getElem?_eq_none (by omega)]
    rw [hold]

theorem length_append : (doc.append p kind).nodes.length = doc.nodes.length + 1 := by
  simp [append]

theorem children_append (hp : p < doc.nodes.length) : (doc.append p kind).children i =
    if i = doc.nodes.length then [] else if i = p then doc.children p ++ [doc.nodes.length]
    else doc.children i := by
  unfold children
  rw [getElem?_append hp]
  by_cases hi : i = doc.nodes.length
  · rw [if_pos hi, if_pos hi]
    rfl
  · rw [if_neg hi, if_neg hi]
    by_cases hip : i = p
    · subst hip
      rw [if_pos rfl, if_pos rfl, List.getElem?_eq_getElem hp]
      rfl
    · rw [if_neg hip, if_neg hip]

theorem getElem?_pushStr : (doc.pushStr p text).nodes[i]? =
    if i = p then doc.nodes[i]?.map fun n => { n with kind := .text (n.ownText ++ text) }
    else doc.nodes[i]? := by
  exact getElem?_modify_eq_ite doc.nodes _

theorem length_pushStr : (doc.pushStr p text).nodes.length = doc.nodes.length := by
  simp [pushStr]

@[simp] theorem children_pushStr : (doc.pushStr p text).children i = doc.children i := by
  unfold children
  rw [getElem?_pushStr]
  split
  · cases doc.nodes[i]? <;> rfl
  · rfl

/-- A text node stays one. -/
theorem isText_pushStr (hp : doc.isText p = true) : (doc.pushStr p text).isText i = doc.isText i := by
  unfold isText at *
  rw [getElem?_pushStr]
  split
  · next hip =>
    subst hip
    rw [hp]
    cases hn : doc.nodes[i]? with
    | none => simp [hn] at hp
    | some n => rfl
  · rfl

theorem isText_append (hp : p < doc.nodes.length) (hi : i < doc.nodes.length) :
    (doc.append p kind).isText i = doc.isText i := by
  unfold isText
  rw [getElem?_append hp, if_neg (by omega)]
  split
  · cases doc.nodes[i]? <;> rfl
  · rfl

/-! ### What holds of the nodes -/

/-- The part of a well-formed tree that its nodes show one by one. -/
structure Sound (doc : Document) : Prop where
  root : ∃ children, doc.nodes[0]? = some ⟨.document, none, children⟩
  leaf : ∀ (i : Nat) (n : Node), doc.nodes[i]? = some n → ¬n.kind.HasContents → n.children = []
  parent : ∀ (i : Nat) (n : Node), doc.nodes[i]? = some n → 0 < i → n.kind ≠ .document ∧ ∃ p,
    n.parent = some p ∧ i ∈ doc.children p
  child : ∀ p c, c ∈ doc.children p → ∃ n, doc.nodes[c]? = some n ∧ n.parent = some p
  texts : ∀ p, (doc.children p).IsChain fun c d => ¬(doc.isText c = true ∧ doc.isText d = true)

theorem Sound.child_lt (h : doc.Sound) {c : Nat} (hc : c ∈ doc.children p) : c < doc.nodes.length := by
  obtain ⟨n, hn, -⟩ := h.child p c hc
  exact (List.getElem?_eq_some_iff.mp hn).1

theorem children_of_getElem? (hn : doc.nodes[i]? = some n) : doc.children i = n.children := by
  rw [children, hn]
  rfl

theorem sound_new : new.Sound where
  root := ⟨[], rfl⟩
  leaf i n hn hno := by
    cases i with
    | zero =>
      cases hn
      rfl
    | succ i => cases hn
  parent i n hn hi := by
    cases i with
    | zero => cases hi
    | succ i => cases hn
  child p c hc := by cases p <;> cases hc
  texts p := by cases p <;> exact .nil

/-- A node is added under one that has contents. A text is added where the last child is none. -/
theorem Sound.append (h : doc.Sound) (hn : doc.nodes[p]? = some n) (hcontents : n.kind.HasContents)
    (hkind : kind ≠ .document) (hlast : (∃ s, kind = .text s) → doc.lastText p = none) :
      (doc.append p kind).Sound := by
  have hp : p < doc.nodes.length := (List.getElem?_eq_some_iff.mp hn).1
  have hne : p ≠ doc.nodes.length := Nat.ne_of_lt hp
  refine ⟨?_, ?_, ?_, ?_, ?_⟩
  · obtain ⟨cs, hroot⟩ := h.root
    rw [getElem?_append hp, if_neg (by omega), hroot]
    split
    · exact ⟨_, rfl⟩
    · exact ⟨cs, rfl⟩
  · intro i m hm hno
    rw [getElem?_append hp] at hm
    split at hm
    · cases hm
      rfl
    · split at hm
      · next hip =>
        rw [hip, hn] at hm
        cases hm
        exact absurd hcontents hno
      · exact h.leaf i m hm hno
  · intro i m hm hi
    rw [getElem?_append hp] at hm
    split at hm
    · next hnew =>
      cases hm
      refine ⟨hkind, p, rfl, ?_⟩
      rw [children_append hp, if_neg hne, if_pos rfl, hnew]
      simp
    · have hold : ∃ m', doc.nodes[i]? = some m' ∧ m'.kind = m.kind ∧ m'.parent = m.parent := by
        split at hm
        · obtain ⟨m', hm', rfl⟩ := Option.map_eq_some_iff.mp hm
          exact ⟨m', hm', rfl, rfl⟩
        · exact ⟨m, hm, rfl, rfl⟩
      obtain ⟨m', hm', hk, hpar⟩ := hold
      obtain ⟨hdoc, q, hq, hmem⟩ := h.parent i m' hm' hi
      refine ⟨hk ▸ hdoc, q, hpar ▸ hq, ?_⟩
      rw [children_append hp]
      have hqlt : q ≠ doc.nodes.length := by
        rintro rfl
        have hnone : doc.children doc.nodes.length = [] := by simp [children]
        rw [hnone] at hmem
        cases hmem
      rw [if_neg hqlt]
      split
      · next hqp => exact List.mem_append_left _ (hqp ▸ hmem)
      · exact hmem
  · intro q c hc
    have hold : ∀ c ∈ doc.children q, ∃ n, (doc.append p kind).nodes[c]? = some n ∧ n.parent = some q := by
      intro c hc
      obtain ⟨m, hm, hpar⟩ := h.child q c hc
      have hlt := h.child_lt hc
      rw [getElem?_append hp, if_neg (by omega), hm]
      split
      · exact ⟨_, rfl, hpar⟩
      · exact ⟨m, rfl, hpar⟩
    rw [children_append hp] at hc
    split at hc
    · cases hc
    · split at hc
      · next hqp =>
        subst hqp
        rcases List.mem_append.mp hc with hc | hc
        · exact hold c hc
        · rw [List.mem_singleton.mp hc, getElem?_append hp, if_pos rfl]
          exact ⟨_, rfl, rfl⟩
      · exact hold c hc
  · intro q
    have hold : (doc.children q).IsChain fun c d =>
        ¬((doc.append p kind).isText c = true ∧ (doc.append p kind).isText d = true) := by
      refine List.IsChain.imp_of_mem_imp ?_ (h.texts q)
      intro c d hc hd htexts
      rwa [isText_append hp (h.child_lt hc), isText_append hp (h.child_lt hd)]
    rw [children_append hp]
    split
    · exact .nil
    · split
      · next hqp =>
        subst hqp
        refine hold.append (.singleton _) ?_
        intro c hc d hd
        have hcmem := List.mem_of_getLast? hc
        cases hd
        rw [isText_append hp (h.child_lt hcmem)]
        rintro ⟨hctext, htext⟩
        have hnone := hlast (by
          rw [isText, getElem?_append hp, if_pos rfl] at htext
          cases kind with
          | text s => exact ⟨s, rfl⟩
          | document => cases htext
          | element name attrs => cases htext)
        rw [lastText, Option.mem_def.mp hc] at hnone
        simp [hctext] at hnone
      · exact hold

theorem Sound.pushStr (h : doc.Sound) (hp : doc.isText p = true) : (doc.pushStr p text).Sound := by
  have hkind : ∀ {i : Nat} {m : Node}, (doc.pushStr p text).nodes[i]? = some m → ∃ m',
    doc.nodes[i]? = some m' ∧
      m'.parent = m.parent ∧ m'.children = m.children ∧ (m' = m ∨ m'.isText = true ∧ m.isText = true) := by
    intro i m hm
    rw [getElem?_pushStr] at hm
    split at hm
    · next hip =>
      obtain ⟨m', hm', rfl⟩ := Option.map_eq_some_iff.mp hm
      rw [isText, ← hip, hm'] at hp
      exact ⟨m', hm', rfl, rfl, .inr ⟨hp, rfl⟩⟩
    · exact ⟨m, hm, rfl, rfl, .inl rfl⟩
  have htext : ∀ {m : Node}, m.isText = true → ∃ s, m.kind = .text s := by
    intro m hm
    rw [Node.isText] at hm
    cases hk : m.kind with
    | text s => exact ⟨s, rfl⟩
    | document => simp [hk] at hm
    | element name attrs => simp [hk] at hm
  refine ⟨?_, ?_, ?_, ?_, ?_⟩
  · obtain ⟨cs, hroot⟩ := h.root
    refine ⟨cs, ?_⟩
    rw [getElem?_pushStr, if_neg, hroot]
    rintro rfl
    rw [isText, hroot] at hp
    cases hp
  · intro i m hm hno
    obtain ⟨m', hm', -, hch, rfl | ⟨ht', ht⟩⟩ := hkind hm
    · exact h.leaf i _ hm' hno
    · obtain ⟨s, hs⟩ := htext ht'
      rw [← hch]
      exact h.leaf i m' hm' (by rw [hs]; exact id)
  · intro i m hm hi
    obtain ⟨m', hm', hpar, -, hm⟩ := hkind hm
    obtain ⟨hdoc, q, hq, hmem⟩ := h.parent i m' hm' hi
    refine ⟨?_, q, hpar ▸ hq, by rwa [children_pushStr]⟩
    rcases hm with rfl | ⟨-, ht⟩
    · exact hdoc
    · obtain ⟨s, hs⟩ := htext ht
      rw [hs]
      exact NodeKind.noConfusion
  · intro q c hc
    rw [children_pushStr] at hc
    obtain ⟨m, hm, hpar⟩ := h.child q c hc
    rw [getElem?_pushStr]
    split
    · rw [hm]
      exact ⟨_, rfl, hpar⟩
    · exact ⟨m, hm, hpar⟩
  · intro q
    rw [children_pushStr]
    simp only [isText_pushStr hp]
    exact h.texts q

/-! ### The texts in tree order -/

def ownText (doc : Document) (i : Nat) : List Char := (doc.nodes[i]?.map Node.ownText).getD []

/-- All texts, in the order of the nodes. -/
def allText (doc : Document) : List Char := doc.nodes.flatMap Node.ownText

theorem flatMap_range_ownText (nodes : List Node) :
    (List.range nodes.length).flatMap (Document.mk nodes).ownText = nodes.flatMap Node.ownText := by
  induction nodes with
  | nil => rfl
  | cons n nodes ih =>
    rw [List.length_cons, List.range_succ_eq_map, List.flatMap_cons, List.flatMap_map,
      List.flatMap_cons, ← ih]
    rfl

/-- A text node has nothing below it, so that the text below a node is that of its tree in tree order. -/
theorem Sound.collectText (h : doc.Sound) (depth : Nat) (i : Nat) :
    doc.collectText depth i = (Lerux.preorder doc.children depth i).flatMap doc.ownText := by
  induction depth generalizing i with
  | zero => rfl
  | succ depth ih =>
    rw [Document.collectText, Lerux.preorder, List.flatMap_cons, List.flatMap_assoc]
    cases hn : doc.nodes[i]? with
    | none => simp [children, ownText, hn]
    | some n =>
      have hown : doc.ownText i = n.ownText := by rw [ownText, hn]; rfl
      rw [hown, children_of_getElem? hn]
      dsimp only
      cases hk : n.kind with
      | text s =>
        rw [h.leaf i n hn (by rw [hk]; exact id)]
        simp [Node.ownText, hk]
      | document => simp [Node.ownText, hk, funext ih]
      | element name attrs => simp [Node.ownText, hk, funext ih]

theorem flatMap_modify (nodes : List Node) (i : Nat) (f : Node → Node)
    (hf : ∀ n, (f n).ownText = n.ownText) :
    (nodes.modify i f).flatMap Node.ownText = nodes.flatMap Node.ownText := by
  induction nodes generalizing i with
  | nil => cases i <;> rfl
  | cons n nodes ih =>
    cases i with
    | zero => simp [hf]
    | succ i => simp [ih]

theorem allText_append : (doc.append p kind).allText =
    doc.allText ++ (Node.mk kind (some p) []).ownText := by
  rw [allText, append]
  dsimp only
  rw [flatMap_modify, List.flatMap_append, List.flatMap_singleton]
  · rfl
  · exact fun _ => rfl

theorem allText_pushStr (hp : p + 1 = doc.nodes.length) (hown : doc.isText p = true) :
    (doc.pushStr p text).allText = doc.allText ++ text := by
  obtain ⟨nodes⟩ := doc
  induction nodes generalizing p with
  | nil => cases hp
  | cons n nodes ih =>
    cases p with
    | zero =>
      obtain rfl : nodes = [] := List.eq_nil_of_length_eq_zero (Nat.succ.inj hp).symm
      simp [allText, pushStr, Node.ownText]
    | succ p =>
      have hrest := @ih p (Nat.succ.inj hp) hown
      simp only [allText, pushStr, List.modify_succ_cons, List.flatMap_cons, List.append_assoc] at *
      rw [hrest]

end Document

/-! ### The builder -/

namespace Builder

open Document

variable {b : Builder} {text : List Char}

/-- What holds between two tokens. -/
structure Grown (b : Builder) : Prop where
  sound : b.doc.Sound
  tree : Open b.doc.children b.opened b.doc.nodes.length
  contents : ∀ o ∈ b.opened, ∃ n, b.doc.nodes[o]? = some n ∧ n.kind.HasContents

theorem grown_new : Grown new where
  sound := sound_new
  tree := .top (.nil 1) .root
  contents o ho := by
    rw [List.mem_singleton.mp ho]
    exact ⟨_, rfl, trivial⟩

theorem Grown.opened_eq (h : b.Grown) : ∃ rest, b.opened = b.parent :: rest := by
  have hroot := h.tree.root_mem
  rw [parent]
  cases ho : b.opened with
  | nil =>
    rw [ho] at hroot
    cases hroot
  | cons o rest => exact ⟨rest, rfl⟩

theorem Grown.parent_contents (h : b.Grown) : ∃ n, b.doc.nodes[b.parent]? = some n ∧
    n.kind.HasContents := by
  obtain ⟨rest, ho⟩ := h.opened_eq
  exact h.contents _ (by rw [ho]; exact List.mem_cons_self)

theorem Grown.parent_lt (h : b.Grown) : b.parent < b.doc.nodes.length := by
  obtain ⟨n, hn, -⟩ := h.parent_contents
  exact (List.getElem?_eq_some_iff.mp hn).1

/-- The last child of the innermost open node, where it is a text, is the last node of the document. -/
theorem Grown.lastText (h : b.Grown) {last : Nat} (hlast : b.doc.lastText b.parent = some last) :
    last + 1 = b.doc.nodes.length ∧ b.doc.isText last = true := by
  rw [Document.lastText, Option.filter_eq_some_iff] at hlast
  obtain ⟨hmem, htext⟩ := hlast
  refine ⟨?_, htext⟩
  obtain ⟨front, hfront⟩ := List.getLast?_eq_some_iff.mp hmem
  obtain ⟨rest, ho⟩ := h.opened_eq
  have htree := h.tree
  rw [ho] at htree
  cases htree with
  | top htiles _ =>
    rw [hfront] at htiles
    have hempty : b.doc.children last = [] := by
      rw [isText] at htext
      cases hn : b.doc.nodes[last]? with
      | none => simp [hn] at htext
      | some n =>
        rw [children_of_getElem? hn]
        apply h.sound.leaf last n hn
        rw [hn, Option.any_some, Node.isText] at htext
        cases hk : n.kind with
        | text s => exact id
        | document => simp [hk] at htext
        | element name attrs => simp [hk] at htext
    have hend := htiles.last
    rw [hempty] at hend
    exact hend.eq_of_nil

/-- A node is added under the innermost open node, and opened where it can have contents. -/
theorem Grown.append (h : b.Grown) (kind : NodeKind) (hkind : kind ≠ .document)
    (hlast : (∃ s, kind = .text s) → b.doc.lastText b.parent = none) :
    (Builder.mk (b.doc.append b.parent kind) b.opened).Grown ∧
      (kind.HasContents → (Builder.mk (b.doc.append b.parent kind)
        (b.doc.nodes.length :: b.opened)).Grown) := by
  obtain ⟨n, hn, hcontents⟩ := h.parent_contents
  obtain ⟨rest, ho⟩ := h.opened_eq
  have hp := h.parent_lt
  have hsound := h.sound.append hn hcontents hkind hlast
  have htop : (b.doc.append b.parent kind).children b.parent = b.doc.children b.parent ++
    [b.doc.nodes.length] := by
    rw [children_append hp, if_neg (Nat.ne_of_lt hp), if_pos rfl]
  have hnew : (b.doc.append b.parent kind).children b.doc.nodes.length = [] := by
    rw [children_append hp, if_pos rfl]
  have hother : ∀ i, i < b.doc.nodes.length → i ≠ b.parent →
      (b.doc.append b.parent kind).children i = b.doc.children i := by
    intro i hi hne
    rw [children_append hp, if_neg (Nat.ne_of_lt hi), if_neg hne]
  have htree := h.tree
  rw [ho] at htree
  have hold : ∀ o ∈ b.opened, ∃ n, (b.doc.append b.parent kind).nodes[o]? = some n ∧
    n.kind.HasContents := by
    intro o hmem
    obtain ⟨m, hm, hmc⟩ := h.contents o hmem
    have hlt := h.tree.lt o hmem
    rw [getElem?_append hp, if_neg (Nat.ne_of_lt hlt), hm]
    split
    · exact ⟨_, rfl, hmc⟩
    · exact ⟨m, rfl, hmc⟩
  refine ⟨⟨hsound, ?_, hold⟩, fun hnewContents => ⟨hsound, ?_, ?_⟩⟩
  · rw [length_append]
    dsimp only
    rw [ho]
    exact htree.addLeaf htop hnew hother
  · rw [length_append]
    dsimp only
    rw [ho]
    exact htree.push htop hnew hother
  · intro o hmem
    rcases List.mem_cons.mp hmem with rfl | hmem
    · rw [getElem?_append hp, if_pos rfl]
      exact ⟨_, rfl, hnewContents⟩
    · exact hold o hmem

theorem Grown.pushStr (h : b.Grown) {last : Nat} (hlast : b.doc.lastText b.parent = some last) :
    (Builder.mk (b.doc.pushStr last text) b.opened).Grown := by
  obtain ⟨-, htext⟩ := h.lastText hlast
  refine ⟨h.sound.pushStr htext, ?_, ?_⟩
  · have hch : (b.doc.pushStr last text).children = b.doc.children := funext fun i => children_pushStr
    rw [length_pushStr, hch]
    exact h.tree
  · intro o hmem
    obtain ⟨n, hn, hcontents⟩ := h.contents o hmem
    rw [getElem?_pushStr, if_neg]
    · exact ⟨n, hn, hcontents⟩
    · rintro rfl
      rw [isText, hn, Option.any_some, Node.isText] at htext
      cases hk : n.kind with
      | text s =>
        rw [hk] at hcontents
        exact hcontents
      | document => simp [hk] at htext
      | element name attrs => simp [hk] at htext

/-- Closing leaves the nodes as they are. The root is never closed, since it has no name. -/
theorem Grown.close (h : b.Grown) (name : TagName) : (b.close name).Grown ∧ (b.close name).doc = b.doc := by
  unfold Builder.close
  split
  · exact ⟨h, rfl⟩
  · next o rest hdrop =>
    refine ⟨?_, rfl⟩
    have hsplit : (b.opened.takeWhile fun id => b.doc.tag id ≠ some name) ++ o :: rest = b.opened := by
      rw [← hdrop]
      exact List.takeWhile_append_dropWhile
    have htag : b.doc.tag o = some name := by
      have := List.head?_dropWhile_not (fun id => decide (b.doc.tag id ≠ some name)) b.opened
      rw [hdrop] at this
      simpa using this
    have hroot : b.doc.tag 0 = none := by
      obtain ⟨cs, hcs⟩ := h.sound.root
      rw [tag, hcs]
      rfl
    have htree := h.tree
    rw [← hsplit] at htree
    have htop := htree.drop
    cases rest with
    | nil =>
      have hzero := htop.root_mem
      rw [List.mem_singleton] at hzero
      rw [← hzero, hroot] at htag
      cases htag
    | cons p rest =>
      rw [if_neg (List.cons_ne_nil p rest)]
      refine ⟨h.sound, htop.close, fun q hq => h.contents q ?_⟩
      rw [← hsplit]
      exact List.mem_append_right _ (List.mem_cons_of_mem _ hq)

/-- What one token does: the tree stays well formed, and the kept text is added at its end. -/
theorem Grown.step (h : b.Grown) (token : Token) :
    (b.step token).Grown ∧ (b.step token).doc.allText = b.doc.allText ++ (b.keptText token).getD [] := by
  cases token with
  | start name attrs selfClosing =>
    obtain ⟨hleaf, hopen⟩ := h.append (.element name attrs) NodeKind.noConfusion
      (by rintro ⟨s, hs⟩; cases hs)
    refine ⟨?_, ?_⟩
    · unfold Builder.step
      dsimp only
      split
      · next hcond =>
        rw [Bool.and_eq_true, Bool.not_eq_true', Bool.not_eq_true'] at hcond
        exact hopen hcond.2
      · exact hleaf
    · exact allText_append
  | end_ name =>
    obtain ⟨hgrown, hdoc⟩ := h.close name
    refine ⟨hgrown, ?_⟩
    show (b.close name).doc.allText = _
    rw [hdoc]
    exact (List.append_nil _).symm
  | text s =>
    unfold Builder.step keptText
    dsimp only
    split
    · split
      · next last hlast =>
        obtain ⟨hend, htext⟩ := h.lastText hlast
        exact ⟨h.pushStr hlast, allText_pushStr hend htext⟩
      · next hlast =>
        obtain ⟨hleaf, -⟩ := h.append (.text s) NodeKind.noConfusion (fun _ => hlast)
        exact ⟨hleaf, allText_append⟩
    · exact ⟨h, (List.append_nil _).symm⟩

theorem Grown.run (h : b.Grown) (tokens : List Token) :
    (tokens.foldl Builder.step b).Grown ∧
      (tokens.foldl Builder.step b).doc.allText = b.doc.allText ++ (b.keptTexts tokens).flatten := by
  induction tokens generalizing b with
  | nil => exact ⟨h, (List.append_nil _).symm⟩
  | cons token tokens ih =>
    obtain ⟨hstep, htext⟩ := h.step token
    obtain ⟨hrun, htexts⟩ := ih hstep
    refine ⟨hrun, ?_⟩
    rw [List.foldl_cons, htexts, htext, keptTexts, List.flatten_append, List.append_assoc]
    cases b.keptText token <;> simp

theorem Grown.wellFormed (h : b.Grown) : b.doc.WellFormed where
  root := h.sound.root
  parent i n hn hi := by
    obtain ⟨hkind, p, hp, hmem⟩ := h.sound.parent i n hn hi
    have hlt : p < b.doc.nodes.length := by
      by_contra hge
      rw [Document.children, List.getElem?_eq_none (by omega)] at hmem
      cases hmem
    obtain ⟨e, htiles⟩ := h.tree.children hlt
    refine ⟨hkind, p, (htiles.lt_of_mem hmem).1, hp, List.count_eq_one_of_mem htiles.nodup hmem, ?_⟩
    intro q hq
    obtain ⟨m, hm, hpar⟩ := h.sound.child q i hq
    rw [hn] at hm
    cases hm
    rw [hp] at hpar
    exact (Option.some.inj hpar).symm
  child p c hc := by
    obtain ⟨n, hn, hpar⟩ := h.sound.child p c hc
    refine ⟨(List.getElem?_eq_some_iff.mp hn).1, Nat.pos_of_ne_zero ?_⟩
    rintro rfl
    obtain ⟨cs, hcs⟩ := h.sound.root
    rw [hn] at hcs
    cases hcs
    cases hpar
  preorder := h.tree.preorder_root
  void i n hn name attrs hk hvoid := by
    apply h.sound.leaf i n hn
    rw [hk]
    intro hcontents
    rw [NodeKind.HasContents, hvoid] at hcontents
    cases hcontents
  texts := h.sound.texts

end Builder

/-- The tree of every text is well formed, and its text is the text tokens that are kept, in their order. -/
theorem parse_wellFormed (input : List Char) : (parse input).WellFormed ∧
    (parse input).textContent Document.root = (Builder.new.keptTexts (tokenize input)).flatten := by
  obtain ⟨hgrown, htext⟩ := Builder.grown_new.run (tokenize input)
  have hwell : (parse input).WellFormed := hgrown.wellFormed
  have hsound : (parse input).Sound := hgrown.sound
  refine ⟨hwell, ?_⟩
  rw [Document.textContent, hsound.collectText, hwell.preorder]
  exact (Document.flatMap_range_ownText (parse input).nodes).trans htext

end Lerux.Html

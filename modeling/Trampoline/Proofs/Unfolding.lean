import Trampoline.Proofs.Acyclicity

/-!
Values written out as trees.

An immediate word is a leaf. A reference is a node that says what kind of block it leads to, over the
trees of the block's traced words. In a heap without cycles every value has one tree, and two values
are equal exactly when their trees are: sharing does not matter, nor do the addresses of blocks.
-/

namespace Trampoline

variable {w : Width}

/-- What a block is, apart from its traced words. -/
inductive Node (w : Width) where
  | pair
  | constructor (uid fields : Nat)
  | closure (uid : Nat) (entry arity : Word w)
deriving DecidableEq, Repr

/-- A value written out. -/
inductive Tree (w : Width) where
  | immediate (v : Word w)
  | node (n : Node w) (children : List (Tree w))

/-- Induction over the trees under a node. -/
@[elab_as_elim]
theorem Tree.induction {motive : Tree w → Prop} (t : Tree w)
    (immediate : ∀ v, motive (.immediate v))
    (node : ∀ n ts, (∀ t ∈ ts, motive t) → motive (.node n ts)) : motive t :=
  match t with
  | .immediate v => immediate v
  | .node n ts => node n ts fun t _ => t.induction immediate node
termination_by sizeOf t

/-! ### Unfoldings of lists -/

/-- Elements that each have one image have one list of images. -/
theorem forall₂_existsUnique {α β : Type} {R : α → β → Prop} {xs : List α}
    (h : ∀ x ∈ xs, ∃! y, R x y) : ∃! ys, List.Forall₂ R xs ys := by
  induction xs with
  | nil => exact ⟨[], .nil, fun ys hys => by cases hys; rfl⟩
  | cons x xs ih =>
    obtain ⟨y, hy, hyu⟩ := h x List.mem_cons_self
    obtain ⟨ys, hys, hysu⟩ := ih fun x' hx' => h x' (List.mem_cons_of_mem _ hx')
    refine ⟨y :: ys, .cons hy hys, fun zs hzs => ?_⟩
    cases hzs with
    | cons hz hzs => rw [hyu _ hz, hysu _ hzs]

/-- Elements that correspond keep their images. -/
theorem forall₂_image {α β γ : Type} {R : α → β → Prop} {S : α → γ → Prop} {T : β → γ → Prop}
    {as : List α} {bs : List β} {cs : List γ}
    (hab : List.Forall₂ R as bs) (hac : List.Forall₂ S as cs)
    (h : ∀ c ∈ cs, ∀ a b, R a b → S a c → T b c) : List.Forall₂ T bs cs := by
  induction hac generalizing bs with
  | nil =>
    cases hab
    exact .nil
  | cons hac _ ih =>
    cases hab with
    | cons hab hrest =>
      obtain ⟨hhead, htail⟩ := List.forall_mem_cons.mp h
      exact .cons (hhead _ _ hab hac) (ih hrest htail)

/-- Two lists have a common list of images exactly when they are equally long and their elements
have common images. -/
theorem exists_forall₂_iff_zip {α β : Type} {R : α → β → Prop} {xs ys : List α} :
    (∃ ts, List.Forall₂ R xs ts ∧ List.Forall₂ R ys ts) ↔
      xs.length = ys.length ∧ ∀ q ∈ xs.zip ys, ∃ t, R q.1 t ∧ R q.2 t := by
  constructor
  · rintro ⟨ts, hxs, hys⟩
    refine ⟨hxs.length_eq.trans hys.length_eq.symm, ?_⟩
    induction hxs generalizing ys with
    | nil => simp
    | cons hx _ ih =>
      cases hys with
      | cons hy hys =>
        rintro q hq
        rcases List.mem_cons.mp hq with rfl | hq
        · exact ⟨_, hx, hy⟩
        · exact ih hys q hq
  · rintro ⟨hlen, h⟩
    induction xs generalizing ys with
    | nil =>
      cases ys with
      | nil => exact ⟨[], .nil, .nil⟩
      | cons y ys => cases hlen
    | cons x xs ih =>
      cases ys with
      | nil => cases hlen
      | cons y ys =>
        obtain ⟨t, hx, hy⟩ := h (x, y) (.head _)
        obtain ⟨ts, hxs, hys⟩ := ih (Nat.succ.inj hlen) fun q hq => h q (.tail _ hq)
        exact ⟨t :: ts, .cons hx hxs, .cons hy hys⟩

namespace Space

variable {s : Space w} {stop : Nat} {D : Set Ref} {a b r : Ref} {x y : Word w} {t u : Tree w}

def nodeAt (s : Space w) (r : Ref) : Node w :=
  if r.pair then .pair
  else match (s.headerAt r).kind with
    | .constructor => .constructor (s.headerAt r).uid (s.headerAt r).fields
    | .closure => .closure (s.headerAt r).uid (s.cell (r.offset + 1)) (s.cell (r.offset + 2))

/-- The tree of a word. -/
inductive Unfolds (s : Space w) : Word w → Tree w → Prop where
  | immediate {v : Word w} : v.ref? = none → Unfolds s v (.immediate v)
  | block {v : Word w} {r : Ref} {ts : List (Tree w)} : v.ref? = some r →
      List.Forall₂ (Unfolds s) (s.traced r) ts → Unfolds s v (.node (s.nodeAt r) ts)

/-! ### Blocks and nodes -/

theorem length_traced (s : Space w) (r : Ref) : (s.traced r).length = (s.shapeAt r).traced := by
  rw [traced, length_segment]

theorem shapeAt_of_constructor (hp : r.pair = false) (hk : (s.headerAt r).kind = .constructor) :
    s.shapeAt r = .constructor (s.headerAt r).fields := by
  rw [headerAt] at hk
  simp [shapeAt, hp, Header.shape, hk, headerAt]

theorem shapeAt_of_closure (hp : r.pair = false) (hk : (s.headerAt r).kind = .closure) :
    s.shapeAt r = .closure (s.headerAt r).fields := by
  rw [headerAt] at hk
  simp [shapeAt, hp, Header.shape, hk, headerAt]

theorem nodeAt_of_pair (hp : r.pair = true) : s.nodeAt r = .pair := by simp [nodeAt, hp]

theorem nodeAt_of_constructor (hp : r.pair = false) (hk : (s.headerAt r).kind = .constructor) :
    s.nodeAt r = .constructor (s.headerAt r).uid (s.headerAt r).fields := by simp [nodeAt, hp, hk]

theorem nodeAt_of_closure (hp : r.pair = false) (hk : (s.headerAt r).kind = .closure) :
    s.nodeAt r = .closure (s.headerAt r).uid (s.cell (r.offset + 1)) (s.cell (r.offset + 2)) := by
  simp [nodeAt, hp, hk]

theorem Alike.cell (h : s.Alike a b) {i : Nat} (hi : i < (s.shapeAt a).lead) :
    s.cell (a.offset + i) = s.cell (b.offset + i) := by
  obtain ⟨_, hshape, hleads⟩ := h
  rw [leads, leads, ← hshape] at hleads
  have hget := List.getElem_of_eq hleads (by simpa using hi)
  rwa [getElem_segment, getElem_segment] at hget

/-- Blocks with the same leading words are the same node, in one space or in two. -/
theorem nodeAt_congr {s' : Space w} (hpair : a.pair = b.pair)
    (hcell : ∀ i < (s.shapeAt a).lead, s.cell (a.offset + i) = s'.cell (b.offset + i)) :
    s.nodeAt a = s'.nodeAt b := by
  cases hp : a.pair with
  | true => rw [nodeAt_of_pair hp, nodeAt_of_pair (hpair ▸ hp)]
  | false =>
    have hpb : b.pair = false := hpair ▸ hp
    have hheader : s.headerAt a = s'.headerAt b := congrArg Header.mk (hcell 0 (lead_pos hp))
    cases hk : (s.headerAt a).kind with
    | constructor =>
      rw [nodeAt_of_constructor hp hk, nodeAt_of_constructor hpb (hheader ▸ hk), hheader]
    | closure =>
      have hlead : (s.shapeAt a).lead = 3 := by rw [shapeAt_of_closure hp hk]; rfl
      rw [nodeAt_of_closure hp hk, nodeAt_of_closure hpb (hheader ▸ hk), hheader,
        hcell 1 (by omega), hcell 2 (by omega)]

/-- Blocks that are alike are the same node over equally many words. -/
theorem Alike.node (h : s.Alike a b) :
    s.nodeAt a = s.nodeAt b ∧ (s.traced a).length = (s.traced b).length :=
  ⟨nodeAt_congr h.1 fun _ hi => h.cell hi, by rw [length_traced, length_traced, h.2.1]⟩

theorem nodeAt_eq_pair_iff : s.nodeAt r = .pair ↔ r.pair = true := by
  cases hp : r.pair with
  | true => simp [nodeAt_of_pair hp]
  | false =>
    cases hk : (s.headerAt r).kind with
    | constructor => simp [nodeAt_of_constructor hp hk]
    | closure => simp [nodeAt_of_closure hp hk]

/-- Headed blocks that are the same node over equally many words have the same header, and closures
among them the same entry and arity: a header has no bits that the node does not tell. -/
theorem Packed.cell_eq (P : s.Packed D) (ha : a ∈ D) (hb : b ∈ D) (hpa : a.pair = false)
    (hpb : b.pair = false) (hnode : s.nodeAt a = s.nodeAt b)
    (hlen : (s.traced a).length = (s.traced b).length) :
    ∀ i < (s.shapeAt a).lead, s.cell (a.offset + i) = s.cell (b.offset + i) := by
  have hPa := P a ha hpa
  have hPb := P b hb hpb
  rw [length_traced, length_traced] at hlen
  cases hka : (s.headerAt a).kind with
  | constructor =>
    rw [nodeAt_of_constructor hpa hka] at hnode
    cases hkb : (s.headerAt b).kind with
    | constructor =>
      rw [nodeAt_of_constructor hpb hkb, Node.constructor.injEq] at hnode
      have hheader : s.headerAt a = s.headerAt b := by
        rw [hPa, hPb, hka, hkb, hnode.1, hnode.2]
      intro i hi
      rw [shapeAt_of_constructor hpa hka] at hi
      obtain rfl : i = 0 := Nat.lt_one_iff.mp hi
      exact congrArg Header.word hheader
    | closure => rw [nodeAt_of_closure hpb hkb] at hnode; cases hnode
  | closure =>
    rw [nodeAt_of_closure hpa hka] at hnode
    cases hkb : (s.headerAt b).kind with
    | constructor => rw [nodeAt_of_constructor hpb hkb] at hnode; cases hnode
    | closure =>
      rw [nodeAt_of_closure hpb hkb, Node.closure.injEq] at hnode
      rw [shapeAt_of_closure hpa hka, shapeAt_of_closure hpb hkb] at hlen
      have hfields : (s.headerAt a).fields = (s.headerAt b).fields := hlen
      have hheader : s.headerAt a = s.headerAt b := by
        rw [hPa, hPb, hka, hkb, hnode.1, hfields]
      intro i hi
      rw [shapeAt_of_closure hpa hka] at hi
      match i, hi with
      | 0, _ => exact congrArg Header.word hheader
      | 1, _ => exact hnode.2.1
      | 2, _ => exact hnode.2.2

/-- Headers without spare bits are the same if they say the same. -/
theorem Packed.alike_iff (P : s.Packed D) (ha : a ∈ D) (hb : b ∈ D) :
    s.Alike a b ↔ s.nodeAt a = s.nodeAt b ∧ (s.traced a).length = (s.traced b).length := by
  refine ⟨Alike.node, fun ⟨hnode, hlen⟩ => ?_⟩
  have hp : a.pair = b.pair := by
    rw [Bool.eq_iff_iff, ← nodeAt_eq_pair_iff (s := s), ← nodeAt_eq_pair_iff (s := s), hnode]
  have hcell : ∀ i < (s.shapeAt a).lead, s.cell (a.offset + i) = s.cell (b.offset + i) := by
    cases hpa : a.pair with
    | true => simp [shapeAt, hpa, Shape.pair]
    | false => exact P.cell_eq ha hb hpa (hp ▸ hpa) hnode hlen
  have hshape : s.shapeAt a = s.shapeAt b :=
    shapeAt_congr hp fun hpa => hcell 0 (lead_pos hpa)
  exact ⟨hp, hshape, by rw [leads, leads, ← hshape]; exact segment_congr hcell⟩

/-- References that all lead to lower offsets make no cycle. -/
theorem Layout.acyclic_of_lower (L : s.Layout stop D)
    (hlower : ∀ r ∈ D, ∀ c ∈ (s.traced r).filterMap Word.ref?, c.offset < r.offset) :
    s.Acyclic D := by
  intro r hr hcycle
  have hchain : ∀ c, Relation.TransGen s.Refers r c → c.offset < r.offset := by
    intro c hc
    induction hc with
    | single h => exact hlower r hr _ (List.mem_filterMap.mpr h)
    | tail hab h ih =>
      exact (hlower _ (L.chain_mem hr hab) _ (List.mem_filterMap.mpr h)).trans ih
  exact Nat.lt_irrefl _ (hchain r hcycle)

/-! ### Trees -/

theorem unfolds_iff_of_none (hx : x.ref? = none) : s.Unfolds x t ↔ t = .immediate x := by
  constructor
  · intro h
    cases h with
    | immediate _ => rfl
    | block hr _ => rw [hx] at hr; cases hr
  · rintro rfl
    exact .immediate hx

/-- The tree of a reference is the node of its block over the trees of its traced words. -/
theorem unfolds_iff_of_some (hx : x.ref? = some r) :
    s.Unfolds x t ↔ ∃ ts, t = .node (s.nodeAt r) ts ∧ List.Forall₂ s.Unfolds (s.traced r) ts := by
  constructor
  · intro h
    cases h with
    | immediate hv => rw [hx] at hv; cases hv
    | block hr hts =>
      rw [hx] at hr
      cases hr
      exact ⟨_, rfl, hts⟩
  · rintro ⟨ts, rfl, hts⟩
    exact .block hx hts

/-- In a layout without cycles every word has one tree. -/
theorem Acyclic.unfolds (A : s.Acyclic D) (L : s.Layout stop D) (hx : x.Into D) :
    ∃! t, s.Unfolds x t := by
  -- by induction on a bound of the height, since the words of a block lead to lower blocks
  have hbound : ∀ n, ∀ v : Word w, v.Into D → (∀ r, v.ref? = some r → s.height r < n) →
      ∃! t, s.Unfolds v t := by
    intro n
    induction n with
    | zero =>
      intro v _ hn
      cases hr : v.ref? with
      | none => simp only [unfolds_iff_of_none hr, existsUnique_eq]
      | some r => exact absurd (hn r hr) (Nat.not_lt_zero _)
    | succ n ih =>
      intro v hv hn
      cases hr : v.ref? with
      | none => simp only [unfolds_iff_of_none hr, existsUnique_eq]
      | some r =>
        have hrD := hv r hr
        obtain ⟨ts, hts, huniq⟩ := forall₂_existsUnique (R := s.Unfolds) fun u (hu : u ∈ s.traced r) =>
          ih u (L.closed r hrD u hu) fun c hc => by
            have hlt := A.height_lt L hrD ⟨u, hu, hc⟩
            have hle := hn r hr
            omega
        refine ⟨.node (s.nodeAt r) ts, .block hr hts, fun t ht => ?_⟩
        obtain ⟨us, rfl, hus⟩ := (unfolds_iff_of_some hr).mp ht
        rw [huniq us hus]
  exact hbound stop x hx fun r hr => A.height_lt_stop L (hx r hr)

def SameTree (s : Space w) (x y : Word w) : Prop := ∃ t, s.Unfolds x t ∧ s.Unfolds y t

theorem SameTree.symm (h : s.SameTree x y) : s.SameTree y x := by
  obtain ⟨t, hx, hy⟩ := h
  exact ⟨t, hy, hx⟩

theorem Acyclic.sameTree_iff (A : s.Acyclic D) (L : s.Layout stop D) (hx : x.Into D) (hy : y.Into D)
    (ht : s.Unfolds x t) (hu : s.Unfolds y u) : s.SameTree x y ↔ t = u := by
  constructor
  · rintro ⟨v, hvx, hvy⟩
    rw [(A.unfolds L hx).unique ht hvx, (A.unfolds L hy).unique hu hvy]
  · rintro rfl
    exact ⟨t, ht, hu⟩

theorem Acyclic.sameTree_trans (A : s.Acyclic D) (L : s.Layout stop D) {z : Word w} (hy : y.Into D)
    (h : s.SameTree x y) (h' : s.SameTree y z) : s.SameTree x z := by
  obtain ⟨t, hx, hyt⟩ := h
  obtain ⟨u, hyu, hz⟩ := h'
  cases (A.unfolds L hy).unique hyt hyu
  exact ⟨t, hx, hz⟩

/-- An immediate word has its tree in common with itself alone. -/
theorem SameTree.eq_of_none (h : s.SameTree x y) (hx : x.ref? = none) : y = x := by
  obtain ⟨t, ht, hy⟩ := h
  cases (unfolds_iff_of_none hx).mp ht
  cases hy with
  | immediate _ => rfl

/-- Two blocks have a tree in common exactly when they are alike and their words have. -/
theorem Packed.sameTree_iff (P : s.Packed D) (hx : x.ref? = some a) (hy : y.ref? = some b)
    (ha : a ∈ D) (hb : b ∈ D) :
    s.SameTree x y ↔
      s.Alike a b ∧ ∀ q ∈ (s.traced a).zip (s.traced b), s.SameTree q.1 q.2 := by
  calc s.SameTree x y
      ↔ s.nodeAt a = s.nodeAt b ∧
          ∃ ts, List.Forall₂ s.Unfolds (s.traced a) ts ∧
            List.Forall₂ s.Unfolds (s.traced b) ts := by
        constructor
        · rintro ⟨t, htx, hty⟩
          obtain ⟨ts, rfl, hts⟩ := (unfolds_iff_of_some hx).mp htx
          obtain ⟨us, heq, hus⟩ := (unfolds_iff_of_some hy).mp hty
          rw [Tree.node.injEq] at heq
          exact ⟨heq.1, ts, hts, heq.2 ▸ hus⟩
        · rintro ⟨hnode, ts, hts, hus⟩
          exact ⟨_, .block hx hts, hnode ▸ .block hy hus⟩
    _ ↔ _ := by rw [exists_forall₂_iff_zip, P.alike_iff ha hb, and_assoc]; rfl

/-! ### Matched words -/

variable {s' : Space w} {φ : Ref → Ref → Prop} {v u : Word w}

theorem Matched.nodeAt (M : s.Matched s' φ) (h : φ a b) : s.nodeAt a = s'.nodeAt b :=
  nodeAt_congr (M.pair h) fun _ hi => M.cell_lead h hi

/-- Matched words have the same trees. -/
theorem Matched.unfolds (M : s.Matched s' φ) (h : Word.Matched φ v u) (ht : s.Unfolds v t) :
    s'.Unfolds u t := by
  induction t using Tree.induction generalizing v u with
  | immediate x =>
    cases h with
    | same hv hu => rwa [hu, unfolds_iff_of_none hv, ← unfolds_iff_of_none hv]
    | moved ha _ _ =>
      obtain ⟨_, hnode, _⟩ := (unfolds_iff_of_some ha).mp ht
      cases hnode
  | node n ts ih =>
    cases h with
    | same hv _ => cases (unfolds_iff_of_none hv).mp ht
    | moved ha hb hab =>
      obtain ⟨_, hnode, hts⟩ := (unfolds_iff_of_some ha).mp ht
      cases hnode
      rw [M.nodeAt hab]
      exact .block hb (forall₂_image (M.traced hab) hts fun t ht _ _ => ih t ht)

theorem Matched.unfolds_iff (M : s.Matched s' φ) (h : Word.Matched φ v u) :
    s'.Unfolds u t ↔ s.Unfolds v t :=
  ⟨M.symm.unfolds h.symm, M.unfolds h⟩

/-! ### Comparisons -/

/-- Different words have a tree in common exactly when their blocks open questions about words that
have. -/
theorem Packed.sameTree_iff_opens (P : s.Packed D) (hx : x.Into D) (hy : y.Into D) (hne : x ≠ y)
    {o : Option (List (Word w × Word w))} (h : s.openBlocks x y = .ok o) :
    s.SameTree x y ↔ ∃ qs, o = some qs ∧ ∀ q ∈ qs, s.SameTree q.1 q.2 := by
  cases ha : x.ref? with
  | none =>
    rw [openBlocks_none (.inl ha)] at h
    cases h
    simpa using fun hsame => hne (SameTree.eq_of_none hsame ha).symm
  | some a =>
    cases hb : y.ref? with
    | none =>
      rw [openBlocks_none (.inr hb)] at h
      cases h
      simpa using fun hsame => hne (SameTree.eq_of_none (SameTree.symm hsame) hb)
    | some b =>
      rw [P.sameTree_iff ha hb (hx a ha) (hy b hb)]
      obtain ⟨halike, rfl⟩ | ⟨hunlike, rfl⟩ := openBlocks_cases ha hb h
      · simp only [halike, true_and, Option.some.injEq, exists_eq_left']
      · simp [hunlike]

/-- Questions that blocks of a layout open are about words of the layout. -/
theorem Layout.opens_into (L : s.Layout stop D) (hx : x.Into D) (hy : y.Into D)
    {qs : List (Word w × Word w)} (h : s.openBlocks x y = .ok (some qs)) :
    ∀ q ∈ qs, q.1.Into D ∧ q.2.Into D := by
  cases ha : x.ref? with
  | none =>
    rw [openBlocks_none (.inl ha)] at h
    cases h
  | some a =>
    cases hb : y.ref? with
    | none =>
      rw [openBlocks_none (.inr hb)] at h
      cases h
    | some b =>
      obtain ⟨_, heq⟩ | ⟨_, heq⟩ := openBlocks_cases ha hb h
      · cases heq
        intro q hq
        obtain ⟨h₁, h₂⟩ := List.of_mem_zip hq
        exact ⟨L.closed a (hx a ha) _ h₁, L.closed b (hy b hb) _ h₂⟩
      · cases heq

/-- The loop of a comparison answers whether all its questions are about words with a tree in
common. -/
theorem Decides.iff_sameTree (P : s.Packed D) (A : s.Acyclic D) (L : s.Layout stop D)
    {qs : List (Word w × Word w)} {d : Bool} (h : s.Decides qs d)
    (hqs : ∀ q ∈ qs, q.1.Into D ∧ q.2.Into D) :
    d = true ↔ ∀ q ∈ qs, s.SameTree q.1 q.2 := by
  induction h with
  | done => simp
  | @same v rest d _ ih =>
    rw [ih fun q hq => hqs q (.tail _ hq), List.forall_mem_cons]
    have hv : s.SameTree v v := by
      obtain ⟨t, ht, _⟩ := A.unfolds L (hqs _ (.head _)).1
      exact ⟨t, ht, ht⟩
    exact (and_iff_right hv).symm
  | @differ v u rest hne hopen =>
    obtain ⟨hv, hu⟩ := hqs _ (.head _)
    simp [P.sameTree_iff_opens hv hu hne hopen]
  | @opened v u qs rest d hne hopen _ ih =>
    obtain ⟨hv, hu⟩ := hqs _ (.head _)
    have hinto : ∀ q ∈ qs.reverse ++ rest, q.1.Into D ∧ q.2.Into D := by
      intro q hq
      rcases List.mem_append.mp hq with hq | hq
      · exact L.opens_into hv hu hopen q (List.mem_reverse.mp hq)
      · exact hqs q (.tail _ hq)
    rw [ih hinto, List.forall_mem_append, List.forall_mem_cons,
      P.sameTree_iff_opens hv hu hne hopen]
    simp only [List.mem_reverse, Option.some.injEq, exists_eq_left']

end Space

/-! ### Equality of values -/

namespace Heap

variable {h : Heap w} {roots : List (Word w)} {blocks : Set Ref}

/-- A comparison of two values ends and tells whether they have a tree in common. -/
theorem Founded.equal_iff (F : h.Founded roots blocks) {x y : Word w}
    (hx : x.Into blocks) (hy : y.Into blocks) :
    ∃ d, h.equal x y = .ok (some d) ∧ (d = true ↔ h.space.SameTree x y) := by
  obtain ⟨d, hd, hdecides⟩ := F.equal_ends hx hy
  refine ⟨d, hd, ?_⟩
  rw [hdecides.iff_sameTree F.packed F.acyclic F.layout (by simpa using ⟨hx, hy⟩)]
  simp

theorem Founded.equal_eq_true_iff (F : h.Founded roots blocks) {x y : Word w}
    (hx : x.Into blocks) (hy : y.Into blocks) :
    h.equal x y = .ok (some true) ↔ h.space.SameTree x y := by
  obtain ⟨d, hd, hiff⟩ := F.equal_iff hx hy
  rw [hd, ← hiff]
  simp

theorem Founded.equal_eq_false (F : h.Founded roots blocks) {x y : Word w}
    (hx : x.Into blocks) (hy : y.Into blocks) (hne : ¬ h.space.SameTree x y) :
    h.equal x y = .ok (some false) := by
  obtain ⟨d, hd, hiff⟩ := F.equal_iff hx hy
  rw [← hiff, Bool.not_eq_true] at hne
  rw [hd, hne]

theorem Founded.equal_comm (F : h.Founded roots blocks) {x y : Word w}
    (hx : x.Into blocks) (hy : y.Into blocks) : h.equal x y = h.equal y x := by
  by_cases hsame : h.space.SameTree x y
  · rw [(F.equal_eq_true_iff hx hy).mpr hsame, (F.equal_eq_true_iff hy hx).mpr hsame.symm]
  · rw [F.equal_eq_false hx hy hsame, F.equal_eq_false hy hx fun hback => hsame hback.symm]

/-- In a heap without cycles each value has one tree, and a comparison of two values ends and tells
whether their trees are the same. So equality is reflexive, symmetric and transitive; it never holds
between blocks that are different nodes, even if they are equally long, and never between a block
and an immediate word. -/
theorem equal_iff_same_tree (F : h.Founded roots blocks) :
    (∀ x : Word w, x.Into blocks → ∃! t, h.space.Unfolds x t) ∧
    (∀ (x y : Word w) (t u : Tree w), x.Into blocks → y.Into blocks →
      h.space.Unfolds x t → h.space.Unfolds y u →
      ∃ d, h.equal x y = .ok (some d) ∧ (d = true ↔ t = u)) ∧
    (∀ x : Word w, x.Into blocks → h.equal x x = .ok (some true)) ∧
    (∀ x y : Word w, x.Into blocks → y.Into blocks → h.equal x y = h.equal y x) ∧
    (∀ x y z : Word w, x.Into blocks → y.Into blocks → z.Into blocks →
      h.equal x y = .ok (some true) → h.equal y z = .ok (some true) →
      h.equal x z = .ok (some true)) ∧
    (∀ (x y : Word w) (a b : Ref), x.Into blocks → y.Into blocks →
      x.ref? = some a → y.ref? = some b → h.space.nodeAt a ≠ h.space.nodeAt b →
      h.equal x y = .ok (some false)) ∧
    (∀ (x y : Word w) (a : Ref), x.Into blocks → x.ref? = some a → y.ref? = none →
      h.equal x y = .ok (some false)) := by
  refine ⟨fun x hx => F.acyclic.unfolds F.layout hx, ?_, ?_, ?_, ?_, ?_, ?_⟩
  · intro x y t u hx hy ht hu
    obtain ⟨d, hd, hiff⟩ := F.equal_iff hx hy
    exact ⟨d, hd, hiff.trans (F.acyclic.sameTree_iff F.layout hx hy ht hu)⟩
  · intro x hx
    obtain ⟨t, ht, _⟩ := F.acyclic.unfolds F.layout hx
    exact (F.equal_eq_true_iff hx hx).mpr ⟨t, ht, ht⟩
  · exact fun x y hx hy => F.equal_comm hx hy
  · intro x y z hx hy hz hxy hyz
    rw [F.equal_eq_true_iff hx hy] at hxy
    rw [F.equal_eq_true_iff hy hz] at hyz
    exact (F.equal_eq_true_iff hx hz).mpr (F.acyclic.sameTree_trans F.layout hy hxy hyz)
  · intro x y a b hx hy ha hb hne
    refine F.equal_eq_false hx hy fun hsame => hne ?_
    rw [F.packed.sameTree_iff ha hb (hx a ha) (hy b hb)] at hsame
    exact hsame.1.node.1
  · intro x y a hx ha hy
    refine F.equal_eq_false hx (Word.into_of_none hy) fun hsame => ?_
    cases hsame.symm.eq_of_none hy
    rw [hy] at ha
    cases ha

/-- Two equal pairs, a constructor block that refers to the first one twice, one that refers to
both, and a closure of the same uid and length. -/
def doubled : Heap .bits64 :=
  (((((vacant ⟨16, 16, 1.0⟩).grant 16).place [.ofNat 4, .ofNat 8]).place [.ofNat 4, .ofNat 8]).place
    [(Header.pack .constructor 7 2).word, (Ref.mk 0 true).word, (Ref.mk 0 true).word]).place
    [(Header.pack .constructor 7 2).word, (Ref.mk 0 true).word, (Ref.mk 2 true).word] |>.place
    [(Header.pack .closure 7 0).word, .ofNat 12, .ofNat 4]

def doubledBlocks : List Ref :=
  [⟨0, true⟩, ⟨2, true⟩, ⟨4, false⟩, ⟨7, false⟩, ⟨10, false⟩]

theorem founded_doubled : doubled.Founded [] {r | r ∈ doubledBlocks} := by
  have L : doubled.space.Layout doubled.hp {r | r ∈ doubledBlocks} := by decide
  have hcover : ∀ i < 13, ∃ r ∈ doubledBlocks,
      r.offset ≤ i ∧ i < r.offset + doubled.space.extent r := by decide
  have hlower : ∀ r ∈ doubledBlocks, ∀ c ∈ (doubled.space.traced r).filterMap Word.ref?,
      c.offset < r.offset := by decide
  exact ⟨⟨⟨by decide, by decide, by decide, by decide⟩, L, hcover, by simp⟩, by decide,
    L.acyclic_of_lower hlower⟩

/-- Sharing does not matter to equality, and the kind of a block does. -/
theorem equal_iff_same_tree_doubled :
    doubled.Founded [] {r | r ∈ doubledBlocks} ∧
    doubled.equal (Ref.mk 4 false).word (Ref.mk 7 false).word = .ok (some true) ∧
    doubled.equal (Ref.mk 4 false).word (Ref.mk 10 false).word = .ok (some false) := by
  refine ⟨founded_doubled, ?_⟩
  obtain ⟨_, hsame, _, _, _, hdiffer, _⟩ := equal_iff_same_tree founded_doubled
  let pair : Tree .bits64 := .node .pair [.immediate (.ofNat 4), .immediate (.ofNat 8)]
  have hfields : List.Forall₂ doubled.space.Unfolds [.ofNat 4, .ofNat 8]
      [.immediate (.ofNat 4), .immediate (.ofNat 8)] :=
    .cons (.immediate (by decide)) (.cons (.immediate (by decide)) .nil)
  have hfirst : doubled.space.Unfolds (Ref.mk 0 true).word pair :=
    .block (r := ⟨0, true⟩) (by decide) hfields
  have hsecond : doubled.space.Unfolds (Ref.mk 2 true).word pair :=
    .block (r := ⟨2, true⟩) (by decide) hfields
  have htwice : doubled.space.Unfolds (Ref.mk 4 false).word (.node (.constructor 7 2) [pair, pair]) :=
    .block (r := ⟨4, false⟩) (by decide) (.cons hfirst (.cons hfirst .nil))
  have hboth : doubled.space.Unfolds (Ref.mk 7 false).word (.node (.constructor 7 2) [pair, pair]) :=
    .block (r := ⟨7, false⟩) (by decide) (.cons hfirst (.cons hsecond .nil))
  obtain ⟨d, hd, htrue⟩ := hsame _ _ _ _ (by decide) (by decide) htwice hboth
  rw [htrue.mpr rfl] at hd
  exact ⟨hd, hdiffer _ _ ⟨4, false⟩ ⟨10, false⟩ (by decide) (by decide) (by decide) (by decide)
    (by decide)⟩

end Heap

end Trampoline

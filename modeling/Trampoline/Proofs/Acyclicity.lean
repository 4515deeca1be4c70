import Mathlib.Data.Set.Card
import Mathlib.Logic.Relation
import Trampoline.Proofs.Comparison
import Trampoline.Proofs.Upkeep

/-!
Heaps whose blocks refer to each other without cycles.

A new block refers to blocks that are there, so it closes no cycle; and a collection moves blocks one
to one, so it makes no cycle that was not there. It may well move a block above one that it refers
to: offsets say nothing about the graph. What does is the height of a block, the number of blocks that
chains of references lead to. It falls along every reference, so a comparison of two values ends.
-/

namespace Trampoline

variable {w : Width}

/-- A header made of its kind, its uid and its number of fields alone: the spare bits are zero. -/
def Header.Packed (h : Header w) : Prop := h = .pack h.kind h.uid h.fields

instance (h : Header w) : Decidable h.Packed := inferInstanceAs (Decidable (_ = _))

theorem Header.packed_of_checked {kind : Kind} {uid fields : Nat} {h : Header w}
    (hc : checked kind uid fields = .ok h) : h.Packed := by
  obtain ⟨hu, hf, rfl⟩ := checked_eq_ok hc
  rw [Packed, kind_pack hu hf, uid_pack hu hf, fields_pack hu hf]

namespace Space

variable {s t : Space w} {stop : Nat} {D : Set Ref} {a b c r : Ref}

def Refers (s : Space w) (a b : Ref) : Prop := ∃ v ∈ s.traced a, v.ref? = some b

/-- No chain of references leads from a block of the set back to it. -/
def Acyclic (s : Space w) (D : Set Ref) : Prop := ∀ r ∈ D, ¬ Relation.TransGen s.Refers r r

theorem Layout.refers_mem (L : s.Layout stop D) (ha : a ∈ D) (h : s.Refers a b) : b ∈ D := by
  obtain ⟨v, hv, hb⟩ := h
  exact L.closed a ha v hv b hb

/-- Chains of references do not lead out of a layout. -/
theorem Layout.chain_mem (L : s.Layout stop D) (ha : a ∈ D) (h : Relation.TransGen s.Refers a b) :
    b ∈ D := by
  induction h with
  | single h => exact L.refers_mem ha h
  | tail _ h ih => exact L.refers_mem ih h

/-! ### A new block -/

theorem Keeps.refers_iff (h : s.Keeps t a) : t.Refers a b ↔ s.Refers a b := by
  unfold Refers
  rw [h.traced]

/-- Chains from blocks that have not changed have not changed. -/
theorem Layout.chain_of_keeps (L : s.Layout stop D) (hkeep : ∀ r ∈ D, s.Keeps t r) (ha : a ∈ D)
    (h : Relation.TransGen t.Refers a b) : Relation.TransGen s.Refers a b := by
  induction h with
  | single h => exact .single ((hkeep a ha).refers_iff.mp h)
  | tail _ h ih => exact .tail ih ((hkeep _ (L.chain_mem ha ih)).refers_iff.mp h)

/-- A block that is written above a layout refers to older blocks only, so it closes no cycle. -/
theorem Acyclic.write (A : s.Acyclic D) (L : s.Layout stop D) {pair : Bool}
    {lead xs : List (Word w)} (B : Block pair lead xs) (hxs : ∀ v ∈ xs, v.Into D) :
    (s.write stop (lead ++ xs)).Acyclic (insert ⟨stop, pair⟩ D) := by
  have hkeep : ∀ r ∈ D, s.Keeps (s.write stop (lead ++ xs)) r :=
    fun r hr => keeps_write _ (L.within r hr)
  have hfresh : (⟨stop, pair⟩ : Ref) ∉ D := by
    intro hmem
    have hle := L.within _ hmem
    have hpos := s.extent_pos ⟨stop, pair⟩
    simp only at hle
    omega
  rintro r (rfl | hr) hcycle
  · -- the new block refers to old ones, and those do not lead to it
    obtain ⟨b, ⟨v, hv, hb⟩, hback⟩ := Relation.TransGen.head'_iff.mp hcycle
    rw [traced_write B] at hv
    have hbD : b ∈ D := hxs v hv b hb
    rcases Relation.reflTransGen_iff_eq_or_transGen.mp hback with heq | hchain
    · exact hfresh (heq ▸ hbD)
    · exact hfresh (L.chain_mem hbD (L.chain_of_keeps hkeep hbD hchain))
  · exact A r hr (L.chain_of_keeps hkeep hr hcycle)

/-! ### Moved blocks -/

variable {φ : Ref → Ref → Prop}

/-- A chain between moved blocks is one that was there before. -/
theorem Matched.chain_back (M : s.Matched t φ) (hab : φ a b)
    (h : Relation.TransGen t.Refers b c) : ∃ d, φ d c ∧ Relation.TransGen s.Refers a d := by
  have hstep : ∀ {a b c}, φ a b → t.Refers b c → ∃ d, φ d c ∧ s.Refers a d := by
    rintro a b c hab ⟨v, hv, hc⟩
    obtain ⟨u, hu, hvu⟩ := forall₂_exists_right (M.symm.traced hab) hv
    obtain ⟨d, hd, hdc⟩ := hvu.of_some hc
    exact ⟨d, hdc, u, hu, hd⟩
  induction h with
  | single h =>
    obtain ⟨d, hdc, had⟩ := hstep hab h
    exact ⟨d, hdc, .single had⟩
  | tail _ h ih =>
    obtain ⟨d, hd, had⟩ := ih
    obtain ⟨e, hec, hde⟩ := hstep hd h
    exact ⟨e, hec, .tail had hde⟩

theorem Acyclic.moved (A : s.Acyclic D) (M : s.Matched t φ) (hD : ∀ a b, φ a b → a ∈ D) :
    t.Acyclic {b | ∃ a, φ a b} := by
  rintro b ⟨a, hab⟩ hcycle
  obtain ⟨d, hdb, hchain⟩ := M.chain_back hab hcycle
  cases (M.unique hab hdb).mpr rfl
  exact A a (hD a b hab) hchain

/-! ### Headers -/

def headerAt (s : Space w) (r : Ref) : Header w := ⟨s.cell r.offset⟩

def Packed (s : Space w) (D : Set Ref) : Prop := ∀ r ∈ D, r.pair = false → (s.headerAt r).Packed

instance (s : Space w) (B : List Ref) : Decidable (s.Packed {r | r ∈ B}) :=
  inferInstanceAs (Decidable (∀ r ∈ B, r.pair = false → (s.headerAt r).Packed))

theorem Packed.moved (P : s.Packed D) (M : s.Matched t φ) (hD : ∀ a b, φ a b → a ∈ D) :
    t.Packed {b | ∃ a, φ a b} := by
  rintro b ⟨a, hab⟩ hb
  have ha : a.pair = false := (M.pair hab).trans hb
  rw [headerAt, ← M.header hab ha]
  exact P a (hD a b hab) ha

/-- A packed header stays packed, and so do those of the blocks below. -/
theorem Packed.write (P : s.Packed D) (L : s.Layout stop D) {pair : Bool}
    {lead xs : List (Word w)} (B : Block pair lead xs)
    (hlead : ∀ v ∈ lead.head?, (Header.mk v).Packed) :
    (s.write stop (lead ++ xs)).Packed (insert ⟨stop, pair⟩ D) := by
  rintro r (rfl | hr) hp
  · cases B with
    | pair => cases hp
    | @headed header rest xs _ _ =>
      have hcell := cell_write s stop (header :: rest ++ xs) (i := 0) (by simp)
      simp only [Nat.add_zero, List.cons_append, List.getElem_cons_zero] at hcell
      rw [headerAt, List.cons_append, hcell]
      exact hlead header rfl
  · have hkeeps := keeps_write (lead ++ xs) (L.within r hr) 0 (s.extent_pos r)
    rw [Nat.add_zero] at hkeeps
    rw [headerAt, hkeeps]
    exact P r hr hp

/-! ### Heights -/

theorem Layout.ncard_le (L : s.Layout stop D) : D.ncard ≤ stop := by
  have hinj : Set.InjOn Ref.offset D := fun a ha b hb h => L.eq_of_offset ha hb h
  have hsub : Ref.offset '' D ⊆ Set.Iio stop := by
    rintro _ ⟨r, hr, rfl⟩
    have hle := L.within r hr
    have hpos := s.extent_pos r
    exact Set.mem_Iio.mpr (by omega)
  calc D.ncard = (Ref.offset '' D).ncard := hinj.ncard_image.symm
    _ ≤ (Set.Iio stop).ncard := Set.ncard_le_ncard hsub (Set.finite_Iio stop)
    _ = stop := by rw [Set.ncard_eq_toFinset_card', Set.toFinset_Iio, Nat.card_Iio]

/-- The number of blocks that chains of references lead to from a block. -/
noncomputable def height (s : Space w) (r : Ref) : Nat :=
  {c | Relation.TransGen s.Refers r c}.ncard

/-- A block is higher than those it refers to. -/
theorem Acyclic.height_lt (A : s.Acyclic D) (L : s.Layout stop D) (ha : a ∈ D)
    (h : s.Refers a b) : s.height b < s.height a := by
  refine Set.ncard_lt_ncard ⟨fun c hc => .head h hc, fun hsub => ?_⟩
    (L.finite.subset fun c hc => L.chain_mem ha hc)
  exact A b (L.refers_mem ha h) (hsub (.single h))

/-- There are more words than blocks below one. -/
theorem Acyclic.height_lt_stop (A : s.Acyclic D) (L : s.Layout stop D) (ha : a ∈ D) :
    s.height a < stop := by
  refine Nat.lt_of_lt_of_le (Set.ncard_lt_ncard ⟨fun c hc => ?_, fun hsub => ?_⟩ L.finite) L.ncard_le
  · exact L.chain_mem ha hc
  · exact A a ha (hsub ha)

/-! ### Comparisons -/

/-- The loop of a comparison, with no bound on the levels it may open: it works off questions, the
first one first, until a difference is found or none are left. -/
inductive Decides (s : Space w) : List (Word w × Word w) → Bool → Prop where
  | done : Decides s [] true
  | same {v : Word w} {rest : List (Word w × Word w)} {b : Bool} :
      Decides s rest b → Decides s ((v, v) :: rest) b
  | differ {v u : Word w} {rest : List (Word w × Word w)} :
      v ≠ u → s.openBlocks v u = .ok none → Decides s ((v, u) :: rest) false
  | opened {v u : Word w} {qs rest : List (Word w × Word w)} {b : Bool} :
      v ≠ u → s.openBlocks v u = .ok (some qs) → Decides s (qs.reverse ++ rest) b →
      Decides s ((v, u) :: rest) b

def words (q : Question w) : Word w × Word w := (q.left, q.right)

/-- A comparison that gives an answer gives that of the loop. -/
theorem decides_of_compare {qs : List (Question w)} {b : Bool} (h : s.compare qs = .ok (some b)) :
    s.Decides (qs.map words) b := by
  fun_induction Space.compare s qs with
  | case1 =>
    cases h
    exact .done
  | case2 levels v rest ih => exact .same (ih h)
  | case3 => cases h
  | case4 => cases h
  | case5 v u rest hne levels hopen =>
    cases h
    exact .differ hne hopen
  | case6 v u rest hne levels qs hopen ih =>
    refine .opened hne hopen ?_
    have hrest := ih h
    simp only [List.map_append, List.map_reverse, List.map_map] at hrest
    have hwords : (words ∘ fun q : Word w × Word w => (⟨levels, q.1, q.2⟩ : Question w)) = id := by
      funext q
      rfl
    rwa [hwords, List.map_id] at hrest

theorem block_eq (L : s.Layout stop D) (hstop : stop ≤ s.capacity) (hr : r ∈ D) :
    s.block r = .ok (s.leads r ++ s.traced r) ∧ s.shape r = .ok (s.shapeAt r) := by
  have hle := L.within r hr
  have hpos := s.extent_pos r
  have hshape : s.shape r = .ok (s.shapeAt r) := shape_eq (by omega)
  refine ⟨?_, hshape⟩
  rw [← s.segment_extent r, block, hshape]
  exact slice_eq (hle.trans hstop)

/-- The blocks of two words of a layout can be compared. -/
theorem openBlocks_of_layout (L : s.Layout stop D) (hstop : stop ≤ s.capacity) {v u : Word w}
    (hv : v.Into D) (hu : u.Into D) : ∃ o, s.openBlocks v u = .ok o := by
  cases ha : v.ref? with
  | none => exact ⟨none, openBlocks_none (.inl ha)⟩
  | some a =>
    cases hb : u.ref? with
    | none => exact ⟨none, openBlocks_none (.inr hb)⟩
    | some b =>
      obtain ⟨hblock, hshape⟩ := block_eq L hstop (hv a ha)
      obtain ⟨hblock', _⟩ := block_eq L hstop (hu b hb)
      unfold openBlocks
      simp only [ha, hb, hblock, hblock', hshape]
      split
      · exact ⟨_, rfl⟩
      · split <;> exact ⟨_, rfl⟩

/-- A question about words of a layout that may open more levels than it can need. -/
structure Bearable (s : Space w) (D : Set Ref) (q : Question w) : Prop where
  left : q.left.Into D
  right : q.right.Into D
  pos : 0 < q.levels
  deep : ∀ r, q.left.ref? = some r → s.height r + 1 < q.levels

/-- The questions that a question opens may open fewer levels, and need fewer. -/
theorem Bearable.opens (A : s.Acyclic D) (L : s.Layout stop D) {levels : Nat} {v u : Word w}
    (hq : s.Bearable D ⟨levels + 1, v, u⟩) {qs : List (Word w × Word w)}
    (hopen : s.openBlocks v u = .ok (some qs)) :
    ∀ q ∈ qs, s.Bearable D ⟨levels, q.1, q.2⟩ := by
  cases ha : v.ref? with
  | none =>
    rw [openBlocks_none (.inl ha)] at hopen
    cases hopen
  | some a =>
    cases hb : u.ref? with
    | none =>
      rw [openBlocks_none (.inr hb)] at hopen
      cases hopen
    | some b =>
      obtain ⟨_, heq⟩ | ⟨_, heq⟩ := openBlocks_cases ha hb hopen
      · cases heq
        rintro ⟨x, y⟩ hmem
        obtain ⟨hx, hy⟩ := List.of_mem_zip hmem
        have haD := hq.left a ha
        have hdeep := hq.deep a ha
        simp only at hdeep
        refine ⟨L.closed a haD x hx, L.closed b (hq.right b hb) y hy, ?_, fun r hr => ?_⟩
        · change 0 < levels
          omega
        · have hlt := A.height_lt L haD ⟨x, hx, hr⟩
          change s.height r + 1 < levels
          omega
      · cases heq

/-- Questions about words of an acyclic layout are answered. -/
theorem compare_of_bearable (A : s.Acyclic D) (L : s.Layout stop D) (hstop : stop ≤ s.capacity)
    {qs : List (Question w)} (hqs : ∀ q ∈ qs, s.Bearable D q) :
    ∃ b, s.compare qs = .ok (some b) := by
  fun_induction Space.compare s qs with
  | case1 => exact ⟨true, rfl⟩
  | case2 levels v rest ih => exact ih fun q hq => hqs q (.tail _ hq)
  | case3 v u rest hne => exact absurd (hqs _ (.head _)).pos (Nat.lt_irrefl 0)
  | case4 v u rest hne levels t hopen =>
    have hq := hqs _ (.head _)
    obtain ⟨o, ho⟩ := openBlocks_of_layout L hstop hq.left hq.right
    rw [hopen] at ho
    cases ho
  | case5 => exact ⟨false, rfl⟩
  | case6 v u rest hne levels qs hopen ih =>
    refine ih fun q hq => ?_
    rcases List.mem_append.mp hq with hq | hq
    · obtain ⟨p, hp, rfl⟩ := List.mem_map.mp (List.mem_reverse.mp hq)
      exact (hqs _ (.head _)).opens A L hopen p hp
    · exact hqs q (.tail _ hq)

end Space

/-! ### Heaps -/

namespace Heap

variable {h : Heap w} {roots : List (Word w)} {blocks : Set Ref}

/-- The words below the heap pointer fall into blocks with packed headers and without cycles of
references, and the roots refer to them. -/
structure Founded (h : Heap w) (roots : List (Word w)) (blocks : Set Ref) : Prop
    extends h.Partitioned roots blocks where
  packed : h.space.Packed blocks
  acyclic : h.space.Acyclic blocks

theorem founded_vacant {s : HeapSettings} (hvalid : s.validate w = .ok ())
    (hroots : ∀ v ∈ roots, v.ref? = none) : (vacant s : Heap w).Founded roots ∅ where
  bounded := bounded_vacant hvalid
  layout := ⟨fun _ hr => hr.elim, fun _ hr => hr.elim, fun _ hr => hr.elim, fun _ hr => hr.elim⟩
  cover _ hi := absurd hi (Nat.not_lt_zero _)
  rooted v hv := Word.into_of_none (hroots v hv)
  packed _ hr := hr.elim
  acyclic _ hr := hr.elim

namespace Founded

/-- Words that lead to blocks of the heap may be taken as roots. -/
theorem reroot (F : h.Founded roots blocks) {roots' : List (Word w)}
    (hroots : ∀ v ∈ roots', v.Into blocks) : h.Founded roots' blocks :=
  { F with rooted := hroots }

/-- A collection leaves a heap without cycles, because it copies the shape of the old one. -/
theorem collectFor (F : h.Founded roots blocks) {words : Nat} {c : Checkpoint w}
    (hc : h.collectFor words roots = .ok c) :
    ∃ ρ, h.Relocates roots c.heap c.roots ρ ∧
      c.heap.Founded c.roots {b | ∃ a, h.space.Moves roots ρ a b} := by
  obtain ⟨_, herr⟩ | ⟨_, d, ρ, hd, R, B, _, _, _, _, hcover⟩ :=
    collectFor_cases F.bounded F.layout F.rooted words
  · rw [hc] at herr
    cases herr
  · rw [hc] at hd
    cases hd
    have hD : ∀ a b, h.space.Moves roots ρ a b → a ∈ blocks :=
      fun a _ hab => F.layout.reachable F.rooted hab.1
    exact ⟨ρ, R, ⟨⟨B, R.layout, hcover, R.into⟩, F.packed.moved R.matched hD,
      F.acyclic.moved R.matched hD⟩⟩

theorem grant (F : h.Founded roots blocks) {words : Nat} (hfree : words ≤ h.free) :
    (h.grant words).Founded roots blocks :=
  ⟨⟨F.bounded.grant hfree, F.layout, F.cover, F.rooted⟩, F.packed, F.acyclic⟩

/-- A reservation leaves every block where it is, or is made by a collection. -/
theorem reserve (F : h.Founded roots blocks) {words : Nat} {c : Checkpoint w}
    (hc : h.reserve words roots = .ok c) :
    (c.heap = h.grant words ∧ c.roots = roots ∧ c.heap.Founded c.roots blocks) ∨
    (c.heap.stats.collections = h.stats.collections + 1 ∧ ∃ ρ,
      h.Relocates roots c.heap c.roots ρ ∧
      c.heap.Founded c.roots {b | ∃ a, h.space.Moves roots ρ a b}) := by
  obtain ⟨hfree, rfl⟩ | ⟨_, hc⟩ := reserve_eq_ok hc
  · exact .inl ⟨rfl, rfl, F.grant hfree⟩
  · obtain ⟨d, hd, hrest⟩ := of_except_bind_eq_ok hc
    obtain ⟨ρ, R, F'⟩ := F.collectFor hd
    have hcount := (collectFor_counts hd).2
    right
    split at hrest
    · cases hrest
      exact ⟨hcount, ρ, R, F'⟩
    · next hroom =>
      cases hrest
      exact ⟨hcount, ρ, ⟨R.rooted, R.matched, R.layout⟩, F'.grant (Nat.not_lt.mp hroom)⟩

end Founded

/-- A plan for an object whose words lead to blocks of the set: an immediate value, or a block
within the reservation. -/
inductive Plans (h : Heap w) (D : Set Ref) : Plan w → Prop where
  | value {v : Word w} : v.ref? = none → Plans h D ⟨v, []⟩
  | block {pair : Bool} {lead xs : List (Word w)} : Block pair lead xs →
      (∀ v ∈ lead.head?, (Header.mk v).Packed) → (∀ v ∈ xs, v.Into D) →
      h.hp + (lead ++ xs).length ≤ h.limit →
      Plans h D ⟨(Ref.mk h.hp pair).word, lead ++ xs⟩

variable {D : Set Ref} {vs : List (Word w)} {p : Plan w}

theorem plans_construct {c : Constructor} (hvs : ∀ v ∈ vs, v.Into D)
    (hp : h.planConstruct c vs = .ok p) : h.Plans D p := by
  obtain ⟨hlen, ⟨_, v, hv, rfl⟩ | ⟨_, header, hhd, hfit, rfl⟩⟩ := planConstruct_eq_ok hp
  · exact .value (Constructor.ref?_unboxedValue hv)
  · rw [Constructor.header, ← hlen] at hhd
    refine .block (block_of_checked hhd rfl) (by simpa using Header.packed_of_checked hhd) hvs ?_
    simpa [Nat.add_comm] using hfit

theorem plans_makePair {v u : Word w} (hv : v.Into D) (hu : u.Into D)
    (hp : h.planPair v u = .ok p) : h.Plans D p := by
  obtain ⟨hfit, rfl⟩ := planPair_eq_ok hp
  refine @Plans.block w h D true [] [v, u] (.pair v u) (by simp) ?_ hfit
  simp [hv, hu]

theorem plans_makeClosure {f : Function} (hvs : ∀ v ∈ vs, v.Into D)
    (hp : h.planClosure f vs = .ok p) : h.Plans D p := by
  obtain ⟨header, _, hhd, hfit, rfl⟩ := planClosure_eq_ok hp
  refine .block (block_of_checked hhd rfl) (by simpa using Header.packed_of_checked hhd) hvs ?_
  simp only [List.length_append, List.length_cons, List.length_nil]
  omega

/-- An extended closure leads to what its source led to and to the new arguments. -/
theorem plans_extend {c : ClosureView w} (L : h.space.Layout h.hp D)
    (hcl : h.closureAt c.object = some c) (hc : c.object ∈ D) (hvs : ∀ v ∈ vs, v.Into D)
    (hp : h.planExtend c vs = .ok p) : h.Plans D p := by
  obtain ⟨header, hhd, hfit, rfl⟩ := planExtend_eq_ok hcl hp
  have hlen : (h.space.traced c.object).length = c.captured := by
    rw [Space.traced, Space.length_segment, (shapeAt_of_closure hcl).2]
  rw [← hlen, ← List.length_append] at hhd hfit
  refine .block (block_of_checked hhd rfl) (by simpa using Header.packed_of_checked hhd)
    (fun v hv => ?_) ?_
  · rcases List.mem_append.mp hv with hv | hv
    · exact L.closed _ hc v hv
    · exact hvs v hv
  · simp only [List.length_append, List.length_cons, List.length_nil] at hfit ⊢
    omega

def joined (blocks : Set Ref) (v : Word w) : Set Ref := blocks ∪ {r | v.ref? = some r}

theorem joined_of_none {v : Word w} (hv : v.ref? = none) : joined blocks v = blocks := by
  simp [joined, hv]

theorem joined_of_some {v : Word w} {r : Ref} (hv : v.ref? = some r) :
    joined blocks v = insert r blocks := by
  ext s
  simp [joined, hv, eq_comm]

/-- A planned object joins the blocks of the heap. -/
theorem Partitioned.place (P : h.Partitioned roots blocks) (hp : h.Plans blocks p) :
    (h.place p.contents).Partitioned (p.value :: roots) (joined blocks p.value) := by
  have hsub : blocks ⊆ joined blocks p.value := Set.subset_union_left
  have hrooted : ∀ v ∈ p.value :: roots, v.Into (joined blocks p.value) :=
    List.forall_mem_cons.mpr ⟨fun _ hr => .inr hr, fun v hv => (P.rooted v hv).mono hsub⟩
  cases hp with
  | value hv =>
    rw [joined_of_none hv] at hrooted ⊢
    exact ⟨P.bounded, P.layout, P.cover, hrooted⟩
  | @block pair lead xs B hlead hxs hfit =>
    rw [joined_of_some (P.bounded.ref?_hp pair)] at hrooted ⊢
    refine ⟨?_, P.layout.write B hxs, ?_, hrooted⟩
    · exact P.bounded.place (p := ⟨(Ref.mk h.hp pair).word, lead ++ xs⟩) (.inr hfit)
    · intro i hi
      change i < h.hp + (lead ++ xs).length at hi
      by_cases hold : i < h.hp
      · obtain ⟨r, hr, hlo, hhi⟩ := P.cover i hold
        have hshape := (Space.keeps_write (lead ++ xs) (P.layout.within r hr)).shapeAt
        refine ⟨r, Set.mem_insert_of_mem _ hr, hlo, ?_⟩
        change i < r.offset + (h.space.write h.hp (lead ++ xs)).extent r
        rw [Space.extent, hshape]
        exact hhi
      · refine ⟨⟨h.hp, pair⟩, Set.mem_insert _ _, Nat.not_lt.mp hold, ?_⟩
        change i < h.hp + (h.space.write h.hp (lead ++ xs)).extent ⟨h.hp, pair⟩
        rw [Space.extent_write B]
        exact hi

/-- An object that is placed is one more block of a heap without cycles. -/
theorem Founded.place (F : h.Founded roots blocks) (hp : h.Plans blocks p) :
    (h.place p.contents).Founded (p.value :: roots) (joined blocks p.value) := by
  refine ⟨F.toPartitioned.place hp, ?_, ?_⟩
  · cases hp with
    | value hv =>
      rw [joined_of_none hv]
      exact F.packed
    | @block pair lead xs B hlead hxs hfit =>
      rw [joined_of_some (F.bounded.ref?_hp pair)]
      exact F.packed.write F.layout B hlead
  · cases hp with
    | value hv =>
      rw [joined_of_none hv]
      exact F.acyclic
    | @block pair lead xs B hlead hxs hfit =>
      rw [joined_of_some (F.bounded.ref?_hp pair)]
      exact F.acyclic.write F.layout B hxs

/-- Where there are no cycles, a comparison ends with the answer of the unbounded loop. -/
theorem equal_of_acyclic (B : h.Bounded) (L : h.space.Layout h.hp D) (A : h.space.Acyclic D)
    {x y : Word w} (hx : x.Into D) (hy : y.Into D) :
    ∃ b, h.equal x y = .ok (some b) ∧ h.space.Decides [(x, y)] b := by
  have hlevels : h.hp + 2 ≤ Space.levelsFor h.hp := Nat.le_mul_self _
  have hbearable : h.space.Bearable D ⟨Space.levelsFor h.hp, x, y⟩ := by
    refine ⟨hx, hy, ?_, fun r hr => ?_⟩
    · change 0 < Space.levelsFor h.hp
      omega
    · have hlt := A.height_lt_stop L (hx r hr)
      change h.space.height r + 1 < Space.levelsFor h.hp
      omega
  have hall : ∀ q ∈ [⟨Space.levelsFor h.hp, x, y⟩], h.space.Bearable D q := by
    simpa using hbearable
  obtain ⟨b, hb⟩ := Space.compare_of_bearable A L B.hp_le hall
  exact ⟨b, hb, Space.decides_of_compare hb⟩

theorem Founded.equal_ends (F : h.Founded roots blocks) {x y : Word w} (hx : x.Into blocks)
    (hy : y.Into blocks) :
    ∃ b, h.equal x y = .ok (some b) ∧ h.space.Decides [(x, y)] b :=
  equal_of_acyclic F.bounded F.layout F.acyclic hx hy

end Heap

end Trampoline

import Trampoline.Proofs.Upkeep

/-!
What a collection leaves depends on the rooted graph alone.

The new heap is the list of the reachable blocks in the order of their discovery, each written out
with its references moved, and a block lies where the ones before it end. The order is the same for
matched graphs, so the places are, and so are the words. A heap that has just been collected is
matched with the one it came from: to collect it once more changes nothing.
-/

namespace Trampoline

variable {w : Width}

theorem map_eq_of_forall₂ {α β γ : Type} {R : α → β → Prop} {f : α → γ} {g : β → γ} {xs : List α}
    {ys : List β} (h : List.Forall₂ R xs ys) (hfg : ∀ x ∈ xs, ∀ y, R x y → f x = g y) :
    xs.map f = ys.map g := by
  induction h with
  | nil => rfl
  | cons hxy _ ih =>
    simp only [List.mem_cons, forall_eq_or_imp] at hfg
    rw [List.map_cons, List.map_cons, hfg.1 _ hxy, ih hfg.2]

theorem Space.below_eq_segment (s : Space w) (stop : Nat) : s.below stop = s.segment 0 stop := by
  rw [below, segment, List.range_eq_range']
  rfl

/-- A block as it is written after its references have been moved. -/
def Space.written (s : Space w) (ρ : Nat → Nat) (r : Ref) : List (Word w) :=
  s.leads r ++ (s.traced r).map (Word.move ρ)

namespace Evacuation.Evacuated

variable {s t : Space w} {roots : List (Word w)} {e : Evacuation w} {blocks : List Ref}

theorem segment_home (E : Evacuated s roots e blocks) (ht : t.cells = e.target) {r : Ref}
    (h : s.Reachable roots r) :
    t.segment (e.home r.offset) (s.extent r) = s.written e.home r := by
  have hsegment := t.segment_extent (r.move e.home)
  rw [E.leads_home ht h, E.traced_home ht h, Space.extent, E.shapeAt_home ht h] at hsegment
  exact hsegment

/-- The target from the end of some blocks on is the rest of the blocks, one after the other. -/
theorem segment_total (E : Evacuated s roots e blocks) (ht : t.cells = e.target)
    {front back : List Ref} (h : blocks = front ++ back) :
    t.segment (s.total front) (s.total back) = back.flatMap (s.written e.home) := by
  induction back generalizing front with
  | nil => rfl
  | cons r back ih =>
    have hr : s.Reachable roots r := (E.mem_iff r).mp (by rw [h]; simp)
    have hblock := E.segment_home ht hr
    rw [E.home front r back h] at hblock
    have hrest := @ih (front ++ [r]) (by rw [h]; simp)
    rw [Space.total_append, Space.total_cons, Space.total_nil, Nat.add_zero] at hrest
    rw [Space.total_cons, Space.segment_append, hblock, hrest, List.flatMap_cons]

end Evacuation.Evacuated

namespace Heap

/-- A collection has left the blocks that the roots reach, each of them once, one after the other
from the bottom of the heap and in the order of their discovery. They and the roots refer to where
the blocks lie now, and nothing lies above them. -/
structure Compacts (h : Heap w) (roots : List (Word w)) (c : Checkpoint w) (order : List Ref)
    (ρ : Nat → Nat) : Prop where
  discovered : h.space.Discovers roots order
  nodup : order.Nodup
  mem_iff : ∀ r, r ∈ order ↔ h.space.Reachable roots r
  offset : ∀ front r back, order = front ++ r :: back → ρ r.offset = h.space.total front
  words : c.heap.space.below c.heap.hp = order.flatMap (h.space.written ρ)
  roots : c.roots = roots.map (Word.move ρ)
  hp : c.heap.hp = h.space.total order
  live : c.heap.stats.lastLiveWords = h.space.total order
  copied : c.heap.stats.wordsCopied = h.stats.wordsCopied + h.space.total order
  clear : ∀ i, c.heap.hp ≤ i → i < c.heap.capacity → c.heap.word i = .ok (.ofNat 0)

/-- Two checkpoints have the same roots and the same words below the heap pointer. -/
structure SameLive (c d : Checkpoint w) : Prop where
  roots : d.roots = c.roots
  hp : d.heap.hp = c.heap.hp
  words : d.heap.space.below d.heap.hp = c.heap.space.below c.heap.hp

variable {h k : Heap w} {roots roots' : List (Word w)} {c d : Checkpoint w}

/-- Where room can be made for the maximum, no collection overgrows the heap. -/
theorem Bounded.not_overgrows (B : h.Bounded) (hroom : h.settings.maxWords ≤ w.maxSpaceWords)
    (words : Nat) (roots : List (Word w)) : ¬ h.Overgrows words roots := by
  rintro ⟨_, hbig⟩
  have hmax := B.capacityFor_le (h.space.liveWords roots) words
  omega

/-- A collection lays the reachable blocks down in the order of their discovery. -/
theorem compacts_of_collectFor {D : Set Ref} (B : h.Bounded) (L : h.space.Layout h.hp D)
    (hroots : ∀ v ∈ roots, v.Into D) {words : Nat} (hc : h.collectFor words roots = .ok c) :
    ∃ order ρ, h.Compacts roots c order ρ := by
  obtain ⟨e, order, E, ⟨_, herr⟩ | ⟨_, c', hc', hr, _, hspace, hhp, _⟩⟩ :=
    collectFor_eq B L hroots words
  · rw [hc] at herr
    cases herr
  · rw [hc] at hc'
    cases hc'
    have hcells : c.heap.space.cells = e.target := by rw [hspace]
    have hsize : c.heap.hp = e.target.size := by rw [hhp, E.size_eq_liveWords]
    have hstats := (collectFor_collected hc).stats
    refine ⟨order, e.home, E.order, E.nodup, E.mem_iff, E.home, ?_, hr, hsize.trans E.size, ?_, ?_,
      ?_⟩
    · rw [Space.below_eq_segment, hsize, E.size]
      exact E.segment_total hcells (List.nil_append order).symm
    · rw [hstats, ← E.size, ← hsize]
    · rw [hstats, ← E.size, ← hsize]
    · intro i hi hcap
      rw [Heap.word, Space.read_eq hcap, Space.cell, hcells, Array.getD_eq_getD_getElem?,
        Array.getElem?_eq_none (hsize ▸ hi)]
      rfl

namespace Compacts

variable {order order' : List Ref} {ρ σ : Nat → Nat} {φ : Ref → Ref → Prop}

/-- Related blocks are moved to one place. -/
theorem offset_eq (K : h.Compacts roots c order ρ) (K' : k.Compacts roots' d order' σ)
    (M : h.space.Matched k.space φ) (horder : List.Forall₂ φ order order') {a b : Ref}
    (ha : a ∈ order) (hab : φ a b) : ρ a.offset = σ b.offset := by
  obtain ⟨front, back, rfl⟩ := List.append_of_mem ha
  obtain ⟨front', rest, rfl, hfront, hrest⟩ := forall₂_append_split horder
  cases hrest with
  | cons hab' _ =>
    obtain rfl := (M.unique hab' hab).mp rfl
    rw [K.offset _ _ _ rfl, K'.offset _ _ _ rfl, M.total_eq hfront]

theorem move_eq (K : h.Compacts roots c order ρ) (K' : k.Compacts roots' d order' σ)
    (M : h.space.Matched k.space φ) (horder : List.Forall₂ φ order order') {v u : Word w}
    (hv : v.Into {r | h.space.Reachable roots r}) (hvu : Word.Matched φ v u) :
    v.move ρ = u.move σ := by
  cases hvu with
  | same hn hu => rw [hu, Word.move_of_none hn, Word.move_of_none hn]
  | moved ha hb hab =>
    have hoffset := K.offset_eq K' M horder ((K.mem_iff _).mpr (hv _ ha)) hab
    rw [Word.move_of_some ha, Word.move_of_some hb, Ref.move, Ref.move, hoffset, M.pair hab]

/-- Heaps with matched rooted graphs are compacted to the same words. -/
theorem sameLive (K : h.Compacts roots c order ρ) (K' : k.Compacts roots' d order' σ)
    (M : h.space.Matched k.space φ) (hroots : List.Forall₂ (Word.Matched φ) roots roots') :
    SameLive c d := by
  have horder := M.discovers hroots K.discovered K'.discovered
  refine ⟨?_, ?_, ?_⟩
  · rw [K.roots, K'.roots]
    symm
    apply map_eq_of_forall₂ hroots
    intro v hv u hvu
    exact K.move_eq K' M horder (fun r hr => .root hv hr) hvu
  · rw [K.hp, K'.hp, M.total_eq horder]
  · rw [K.words, K'.words, List.flatMap_def, List.flatMap_def]
    congr 1
    symm
    apply map_eq_of_forall₂ horder
    intro a ha b hab
    have hreach := (K.mem_iff a).mp ha
    rw [Space.written, Space.written, M.leads hab]
    congr 1
    apply map_eq_of_forall₂ (M.traced hab)
    intro v hv u hvu
    exact K.move_eq K' M horder (fun r hr => .child hreach hv hr) hvu

end Compacts

/-- What a collection does to a heap that is matched with one that has been collected. -/
theorem collect_sameLive {blocks : Set Ref} {order : List Ref} {ρ : Nat → Nat}
    {φ : Ref → Ref → Prop} (K : h.Compacts roots c order ρ) (P : k.Partitioned roots' blocks)
    (M : h.space.Matched k.space φ) (hroots : List.Forall₂ (Word.Matched φ) roots roots') :
    (k.Overgrows 0 roots' ∧ k.collect roots' = .error .bounds) ∨
      ∃ d, k.collect roots' = .ok d ∧ SameLive c d := by
  obtain hover | ⟨_, d, _, hd, _⟩ := collectFor_cases P.bounded P.layout P.rooted 0
  · exact .inl hover
  · obtain ⟨order', σ, K'⟩ := compacts_of_collectFor P.bounded P.layout P.rooted hd
    exact .inr ⟨d, hd, K.sameLive K' M hroots⟩

/-- A collection that does not trap leaves the reachable blocks and nothing else, without gaps and
in an order that is fixed by the rooted graph. So it leaves the same roots and words for any other
heap with the same rooted graph, and for the heap that it has left itself. -/
theorem collect_canonical (h : Heap w) (roots : List (Word w)) (blocks : Set Ref)
    (P : h.Partitioned roots blocks) :
    (h.Overgrows 0 roots ∧ h.collect roots = .error .bounds) ∨
    (¬ h.Overgrows 0 roots ∧ ∃ c order ρ, h.collect roots = .ok c ∧ h.Compacts roots c order ρ ∧
      (∀ (k : Heap w) (roots' : List (Word w)) (blocks' : Set Ref) (φ : Ref → Ref → Prop),
        k.Partitioned roots' blocks' → h.space.Matched k.space φ →
        List.Forall₂ (Word.Matched φ) roots roots' →
        (k.Overgrows 0 roots' ∧ k.collect roots' = .error .bounds) ∨
          ∃ d, k.collect roots' = .ok d ∧ SameLive c d) ∧
      ((c.heap.Overgrows 0 c.roots ∧ c.heap.collect c.roots = .error .bounds) ∨
        ∃ d, c.heap.collect c.roots = .ok d ∧ SameLive c d)) := by
  obtain hover | ⟨hover, c, φ, hc, R, B, _, _, _, _, hcover⟩ :=
    collectFor_cases P.bounded P.layout P.rooted 0
  · exact .inl hover
  · obtain ⟨order, ρ, K⟩ := compacts_of_collectFor P.bounded P.layout P.rooted hc
    have P' : c.heap.Partitioned c.roots {b | ∃ a, h.space.Moves roots φ a b} :=
      ⟨B, R.layout, hcover, R.into⟩
    exact .inr ⟨hover, c, order, ρ, hc, K,
      fun k roots' blocks' ψ Pk M hroots => collect_sameLive K Pk M hroots,
      collect_sameLive K P' R.matched R.rooted⟩

/-- The graph of `knot` with its blocks the other way round, beside a pair that nothing refers to. -/
def reknot : Heap .bits64 where
  space :=
    { cells :=
        #[.ofNat 4, .ofNat 8, (Header.pack .closure 8 1).word, (Ref.mk 0 true).word, .ofNat 1,
          (Ref.mk 6 true).word, (Ref.mk 2 false).word, .ofNat 0]
      capacity := 12 }
  hp := 8
  limit := 8
  settings := { initialWords := 8, maxWords := 32 }
  stats := {}

theorem reknot_partitioned :
    reknot.Partitioned [(Ref.mk 2 false).word] {r | r ∈ [⟨0, true⟩, ⟨2, false⟩, ⟨6, true⟩]} where
  bounded := ⟨by decide, by decide, by decide, by decide⟩
  layout := by decide
  cover := by
    change ∀ i < 8, ∃ r ∈ [(⟨0, true⟩ : Ref), ⟨2, false⟩, ⟨6, true⟩], _
    decide
  rooted := by decide

def rekeyed (a b : Ref) : Prop :=
  (a = ⟨2, false⟩ ∧ b = ⟨2, false⟩) ∨ (a = ⟨0, true⟩ ∧ b = ⟨6, true⟩)

/-- The two heaps hold one graph. -/
theorem matched_reknot : knot.space.Matched reknot.space rekeyed where
  unique := by
    rintro a b a' b' (⟨rfl, rfl⟩ | ⟨rfl, rfl⟩) (⟨rfl, rfl⟩ | ⟨rfl, rfl⟩) <;> decide
  pair := by rintro a b (⟨rfl, rfl⟩ | ⟨rfl, rfl⟩) <;> rfl
  shape := by rintro a b (⟨rfl, rfl⟩ | ⟨rfl, rfl⟩) <;> decide
  leads := by rintro a b (⟨rfl, rfl⟩ | ⟨rfl, rfl⟩) <;> decide
  traced := by
    rintro a b (⟨rfl, rfl⟩ | ⟨rfl, rfl⟩)
    · exact .cons (.moved (by decide) (by decide) (.inr ⟨rfl, rfl⟩)) .nil
    · exact .cons (.moved (by decide) (by decide) (.inl ⟨rfl, rfl⟩))
        (.cons (.same (by decide) rfl) .nil)

/-- Where the blocks lay before makes no difference to what a collection leaves, and a second one
finds nothing to do. -/
theorem collect_canonical_knot :
    knot.Partitioned [(Ref.mk 2 false).word] {r | r ∈ [⟨0, true⟩, ⟨2, false⟩]} ∧
    ∃ c order ρ d d', knot.collect [(Ref.mk 2 false).word] = .ok c ∧
      knot.Compacts [(Ref.mk 2 false).word] c order ρ ∧
      reknot.collect [(Ref.mk 2 false).word] = .ok d ∧ SameLive c d ∧
      c.heap.collect c.roots = .ok d' ∧ SameLive c d' := by
  refine ⟨knot_partitioned, ?_⟩
  obtain ⟨hover, _⟩ | ⟨_, c, order, ρ, hc, K, hsame, hagain⟩ :=
    collect_canonical knot _ _ knot_partitioned
  · exact absurd hover (knot_partitioned.bounded.not_overgrows (by decide) 0 _)
  · have hroots : List.Forall₂ (Word.Matched rekeyed) [((Ref.mk 2 false).word : Word .bits64)]
        [(Ref.mk 2 false).word] :=
      .cons (.moved (by decide) (by decide) (.inl ⟨rfl, rfl⟩)) .nil
    obtain ⟨hover, _⟩ | ⟨d, hd, hcd⟩ := hsame _ _ _ _ reknot_partitioned matched_reknot hroots
    · exact absurd hover (reknot_partitioned.bounded.not_overgrows (by decide) 0 _)
    · obtain ⟨B, hset⟩ := knot_partitioned.bounded.collectFor hc
      obtain ⟨hover, _⟩ | ⟨d', hd', hcd'⟩ := hagain
      · exact absurd hover (B.not_overgrows (by rw [hset]; decide) 0 _)
      · exact ⟨c, order, ρ, d, d', hc, K, hd, hcd, hd', hcd'⟩

end Heap

end Trampoline

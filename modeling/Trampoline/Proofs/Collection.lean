import Trampoline.Proofs.Evacuation

/-!
A collection keeps the reachable graph.

The heap that a collection leaves is made of the reachable blocks and nothing else, one after the
other. Every block has moved with its shape and its raw words; every reference to it, in a root or
in a traced word, has moved along, and no other word has changed. The only way for a collection to
trap is to grow the heap beyond what room can be made for.
-/

namespace Trampoline

/-- A reachable block, and the same block where `ρ` has moved it. -/
def Space.Moves {w : Width} (s : Space w) (roots : List (Word w)) (ρ : Nat → Nat) (a b : Ref) :
    Prop := s.Reachable roots a ∧ b = a.move ρ

namespace Evacuation.Evacuated

variable {w : Width} {s : Space w} {roots : List (Word w)} {e : Evacuation w} {blocks : List Ref}

theorem home_add_le (E : Evacuated s roots e blocks) {r : Ref} (h : s.Reachable roots r) :
    e.home r.offset + s.extent r ≤ e.target.size := by
  obtain ⟨front, back, hb⟩ := List.append_of_mem ((E.mem_iff r).mpr h)
  rw [E.home front r back hb, E.size, hb, Space.total_append, Space.total_cons]
  omega

/-- Moved blocks lie apart. -/
theorem home_apart (E : Evacuated s roots e blocks) {a b : Ref} (ha : s.Reachable roots a)
    (hb : s.Reachable roots b) (hne : a ≠ b) :
    e.home a.offset + s.extent a ≤ e.home b.offset ∨
      e.home b.offset + s.extent b ≤ e.home a.offset := by
  obtain ⟨front, back, hl⟩ := List.append_of_mem ((E.mem_iff a).mpr ha)
  have hmem := (E.mem_iff b).mpr hb
  rw [hl] at hmem
  rcases List.mem_append.mp hmem with hm | hm
  · obtain ⟨p, q, hp⟩ := List.append_of_mem hm
    have h' : blocks = p ++ b :: (q ++ a :: back) := by rw [hl, hp]; simp
    rw [E.home _ _ _ hl, E.home _ _ _ h', hp, Space.total_append, Space.total_cons]
    omega
  · rcases List.mem_cons.mp hm with hm | hm
    · exact absurd hm.symm hne
    · obtain ⟨p, q, hp⟩ := List.append_of_mem hm
      have h' : blocks = (front ++ a :: p) ++ b :: q := by rw [hl, hp]; simp
      rw [E.home _ _ _ hl, E.home _ _ _ h', Space.total_append, Space.total_cons]
      omega

theorem home_inj (E : Evacuated s roots e blocks) {a b : Ref} (ha : s.Reachable roots a)
    (hb : s.Reachable roots b) (h : e.home a.offset = e.home b.offset) : a = b := by
  by_contra hne
  have hpa := s.extent_pos a
  have hpb := s.extent_pos b
  rcases E.home_apart ha hb hne with hab | hba <;> omega

/-- As many words are left as are reachable. -/
theorem size_eq_liveWords (E : Evacuated s roots e blocks) :
    e.target.size = s.liveWords roots := by
  classical
  have hset : {r | s.Reachable roots r} = (blocks.toFinset : Set Ref) := by
    ext r
    simp [E.mem_iff r]
  rw [E.size, Space.liveWords, hset, finsum_mem_coe_finset]
  exact (List.sum_toFinset s.extent E.nodup).symm

variable {t : Space w}

theorem cell_home (E : Evacuated s roots e blocks) (ht : t.cells = e.target) {r : Ref}
    (h : s.Reachable roots r) {i : Nat} (hi : i < s.extent r) :
    t.cell (e.home r.offset + i) =
      if (s.shapeAt r).lead ≤ i then (s.cell (r.offset + i)).move e.home
      else s.cell (r.offset + i) := by
  rw [Space.cell, ht]
  exact E.word r ((E.mem_iff r).mpr h) i hi

theorem shapeAt_home (E : Evacuated s roots e blocks) (ht : t.cells = e.target) {r : Ref}
    (h : s.Reachable roots r) :
    t.shapeAt (r.move e.home) = s.shapeAt r := by
  apply Space.shapeAt_congr (Ref.move_pair _ _)
  intro hp
  have hlead := Space.lead_pos (s := s) (r := r) hp
  have hc := E.cell_home ht h (s.extent_pos r)
  rw [if_neg (by omega)] at hc
  exact hc

theorem leads_home (E : Evacuated s roots e blocks) (ht : t.cells = e.target) {r : Ref}
    (h : s.Reachable roots r) :
    t.leads (r.move e.home) = s.leads r := by
  rw [Space.leads, Space.leads, E.shapeAt_home ht h]
  apply Space.segment_congr
  intro i hi
  have hext := s.extent_eq r
  have hc := E.cell_home ht h (i := i) (by omega)
  rw [if_neg (by omega)] at hc
  exact hc

/-- The traced words of a moved block are the moved words of the block. -/
theorem traced_home (E : Evacuated s roots e blocks) (ht : t.cells = e.target) {r : Ref}
    (h : s.Reachable roots r) :
    t.traced (r.move e.home) =
      (s.traced r).map (Word.move e.home) := by
  apply List.ext_getElem
  · simp [Space.traced, E.shapeAt_home ht h]
  · intro i hi _
    have hi' : i < (s.shapeAt r).traced := by simpa [Space.traced, E.shapeAt_home ht h] using hi
    have hext := s.extent_eq r
    have hc := E.cell_home ht h (i := (s.shapeAt r).lead + i) (by omega)
    rw [if_pos (by omega), ← Nat.add_assoc, ← Nat.add_assoc] at hc
    simp only [Space.traced, Space.getElem_segment, List.getElem_map, E.shapeAt_home ht h]
    exact hc

/-- A word all of whose blocks are reachable is matched with itself, moved. -/
theorem word_matched (E : Evacuated s roots e blocks) (hsize : e.target.size ≤ w.maxOffset)
    {v : Word w} (hv : ∀ r, v.ref? = some r → s.Reachable roots r) :
    Word.Matched (s.Moves roots e.home) v (v.move e.home) := by
  cases hr : v.ref? with
  | none => exact .same hr (Word.move_of_none hr)
  | some r =>
    have hle := E.home_add_le (hv r hr)
    refine .moved hr ?_ ⟨hv r hr, rfl⟩
    rw [Word.move_of_some hr]
    exact Word.ref?_word (by rw [Ref.move_offset]; omega)

/-- The reachable blocks look the same where the evacuation has put them. -/
theorem matched (E : Evacuated s roots e blocks) (ht : t.cells = e.target)
    (hsize : e.target.size ≤ w.maxOffset) :
    s.Matched t (s.Moves roots e.home) where
  unique := by
    rintro a b a' b' ⟨ha, rfl⟩ ⟨ha', rfl⟩
    constructor
    · rintro rfl; rfl
    · intro h
      exact E.home_inj ha ha' (congrArg Ref.offset h)
  pair := by rintro a b ⟨_, rfl⟩; rfl
  shape := by rintro a b ⟨ha, rfl⟩; exact (E.shapeAt_home ht ha).symm
  leads := by rintro a b ⟨ha, rfl⟩; exact (E.leads_home ht ha).symm
  traced := by
    rintro a b ⟨ha, rfl⟩
    rw [E.traced_home ht ha, List.forall₂_map_right_iff, List.forall₂_same]
    intro v hv
    exact E.word_matched hsize fun r hr => .child ha hv hr

theorem roots_matched (E : Evacuated s roots e blocks) (hsize : e.target.size ≤ w.maxOffset) :
    List.Forall₂ (Word.Matched (s.Moves roots e.home)) roots (roots.map (Word.move e.home)) := by
  rw [List.forall₂_map_right_iff, List.forall₂_same]
  intro v hv
  exact E.word_matched hsize fun r hr => .root hv hr

/-- The moved blocks make up a layout of the target. -/
theorem layout (E : Evacuated s roots e blocks) (ht : t.cells = e.target) {stop : Nat}
    {D : Set Ref} (L : s.Layout stop D) (hroots : ∀ v ∈ roots, v.Into D)
    (hsize : e.target.size ≤ w.maxOffset) :
    t.Layout e.target.size {b | ∃ a, s.Moves roots e.home a b} := by
  have M := E.matched ht hsize
  refine ⟨?_, ?_, ?_, ?_⟩
  · rintro b ⟨a, ha, rfl⟩
    rw [← M.extent ⟨ha, rfl⟩]
    exact E.home_add_le ha
  · rintro b ⟨a, ha, rfl⟩ hp
    have hhead := L.headed a (L.reachable hroots ha) hp
    have hlead := Space.lead_pos (s := s) (r := a) hp
    have hc := E.cell_home ht ha (s.extent_pos a)
    rw [if_neg (by omega)] at hc
    rw [Ref.move_offset]
    exact hc ▸ hhead
  · rintro b ⟨a, ha, rfl⟩ b' ⟨a', ha', rfl⟩ hne
    have hne' : a ≠ a' := fun h => hne (h ▸ rfl)
    rw [Space.Apart, ← M.extent ⟨ha, rfl⟩, ← M.extent ⟨ha', rfl⟩]
    exact E.home_apart ha ha' hne'
  · rintro b ⟨a, ha, rfl⟩ v hv c hc
    rw [E.traced_home ht ha, List.mem_map] at hv
    obtain ⟨u, hu, rfl⟩ := hv
    have hm := E.word_matched hsize (v := u) fun r hr => .child ha hu hr
    cases hm with
    | same hn he => rw [he, hn] at hc; cases hc
    | moved hx hy hxy =>
      rw [hc] at hy
      cases hy
      exact ⟨_, hxy⟩

/-- Every index below the sum of the blocks of a list falls into one of them. -/
theorem exists_of_lt_total {rs : List Ref} {i : Nat} (h : i < s.total rs) :
    ∃ front r back, rs = front ++ r :: back ∧ s.total front ≤ i ∧
      i < s.total front + s.extent r := by
  induction rs generalizing i with
  | nil => simp at h
  | cons r rs ih =>
    by_cases hr : i < s.extent r
    · exact ⟨[], r, rs, rfl, by simp, by simpa using hr⟩
    · rw [Space.total_cons] at h
      obtain ⟨front, x, back, rfl, hl, hu⟩ := ih (i := i - s.extent r) (by omega)
      refine ⟨r :: front, x, back, rfl, ?_, ?_⟩ <;> rw [Space.total_cons] <;> omega

/-- The moved blocks leave no gap. -/
theorem cover (E : Evacuated s roots e blocks) (ht : t.cells = e.target)
    (hsize : e.target.size ≤ w.maxOffset) {i : Nat} (hi : i < e.target.size) :
    ∃ b, (∃ a, s.Moves roots e.home a b) ∧ b.offset ≤ i ∧ i < b.offset + t.extent b := by
  obtain ⟨front, r, back, hb, hl, hu⟩ := exists_of_lt_total (E.size ▸ hi)
  have hr : s.Reachable roots r := (E.mem_iff r).mp (by rw [hb]; simp)
  have hhome := E.home front r back hb
  refine ⟨r.move e.home, ⟨r, hr, rfl⟩, ?_, ?_⟩
  · rw [Ref.move_offset, hhome]
    exact hl
  · rw [← (E.matched ht hsize).extent ⟨hr, rfl⟩, Ref.move_offset, hhome]
    exact hu

end Evacuation.Evacuated

/-! ### Heaps -/

namespace Heap

variable {w : Width}

/-- The sizes of a heap in the order that its making and every operation keep them in. -/
structure Bounded (h : Heap w) : Prop where
  hp_le : h.hp ≤ h.capacity
  limit_le : h.limit ≤ h.capacity
  capacity_le : h.capacity ≤ h.settings.maxWords
  max_le : h.settings.maxWords ≤ w.maxOffset

/-- The words below the heap pointer fall into blocks, and every reference in a root or in a traced
word is to one of them, with the pair flag of that block. -/
structure Partitioned (h : Heap w) (roots : List (Word w)) (blocks : Set Ref) : Prop where
  bounded : h.Bounded
  layout : h.space.Layout h.hp blocks
  cover : ∀ i < h.hp, ∃ r ∈ blocks, r.offset ≤ i ∧ i < r.offset + h.space.extent r
  rooted : ∀ v ∈ roots, v.Into blocks

/-- A collection from the roots has to grow the heap to more words than room can be made for. -/
def Overgrows (h : Heap w) (requested : Nat) (roots : List (Word w)) : Prop :=
  let capacity := h.capacityFor (h.space.liveWords roots) requested
  h.capacity < capacity ∧ w.maxSpaceWords < capacity

/-- The reachable blocks of a heap are found in another one, moved by `ρ`. -/
structure Relocates (h : Heap w) (roots : List (Word w)) (h' : Heap w) (roots' : List (Word w))
    (ρ : Nat → Nat) : Prop where
  rooted : List.Forall₂ (Word.Matched (h.space.Moves roots ρ)) roots roots'
  matched : h.space.Matched h'.space (h.space.Moves roots ρ)
  layout : h'.space.Layout h'.hp {b | ∃ a, h.space.Moves roots ρ a b}

theorem capacity_le_capacityFor (h : Heap w) (live requested : Nat) :
    h.capacity ≤ h.capacityFor live requested := by
  unfold capacityFor
  split
  · exact Nat.le_max_left _ _
  · exact Nat.le_refl _

theorem Bounded.capacityFor_le {h : Heap w} (B : h.Bounded) (live requested : Nat) :
    h.capacityFor live requested ≤ h.settings.maxWords := by
  have := B.capacity_le
  unfold capacityFor
  split <;> omega

/-- Growth makes room for the request whenever the maximum allows it. -/
theorem le_capacityFor (h : Heap w) (live requested : Nat)
    (hmax : live + requested ≤ h.settings.maxWords) :
    live + requested ≤ h.capacityFor live requested := by
  unfold capacityFor
  split
  · omega
  · next hc =>
    rw [Bool.or_eq_true, not_or, decide_eq_true_eq] at hc
    omega

variable {h : Heap w} {D : Set Ref} {roots : List (Word w)}

theorem Bounded.hp_le_maxOffset (B : h.Bounded) : h.hp ≤ w.maxOffset :=
  B.hp_le.trans (B.capacity_le.trans B.max_le)

/-- The word of a new block refers to it. -/
theorem Bounded.ref?_hp (B : h.Bounded) (pair : Bool) :
    ((Ref.mk h.hp pair).word : Word w).ref? = some ⟨h.hp, pair⟩ :=
  Word.ref?_word B.hp_le_maxOffset

/-- All that a collection does, in terms of the evacuation it makes. -/
theorem collectFor_eq (B : h.Bounded) (L : h.space.Layout h.hp D)
    (hroots : ∀ v ∈ roots, v.Into D) (requested : Nat) :
    ∃ e blocks, Evacuation.Evacuated h.space roots e blocks ∧
      ((h.Overgrows requested roots ∧ h.collectFor requested roots = .error .bounds) ∨
        (¬ h.Overgrows requested roots ∧ ∃ c, h.collectFor requested roots = .ok c ∧
          c.roots = roots.map (Word.move e.home) ∧ c.shortage = none ∧
          c.heap.space = ⟨e.target, h.capacityFor (h.space.liveWords roots) requested⟩ ∧
          c.heap.hp = h.space.liveWords roots ∧ c.heap.limit = h.space.liveWords roots ∧
          c.heap.settings = h.settings)) := by
  obtain ⟨e, blocks, hrun, E⟩ := Evacuation.run_evacuates L B.hp_le_maxOffset B.hp_le hroots
  refine ⟨e, blocks, E, ?_⟩
  have hlive := E.size_eq_liveWords
  simp only [Overgrows, collectFor, hrun, bind, Except.bind, hlive, pure, Except.pure]
  by_cases hgrow : h.capacity < h.capacityFor (h.space.liveWords roots) requested
  · by_cases hroom : h.capacityFor (h.space.liveWords roots) requested ≤ w.maxSpaceWords
    · right
      refine ⟨by omega, ?_⟩
      simp [hgrow, Size.ofWords, hroom]
    · left
      refine ⟨by omega, ?_⟩
      simp [hgrow, Size.ofWords, hroom]
  · right
    refine ⟨by omega, ?_⟩
    simp [hgrow]

theorem Bounded.liveWords_le (B : h.Bounded) (L : h.space.Layout h.hp D)
    (hroots : ∀ v ∈ roots, v.Into D) : h.space.liveWords roots ≤ h.hp := by
  obtain ⟨e, blocks, -, E⟩ := Evacuation.run_evacuates L B.hp_le_maxOffset B.hp_le hroots
  rw [← E.size_eq_liveWords, E.size]
  exact L.total_le E.nodup fun r hr => L.reachable hroots ((E.mem_iff r).mp hr)

/-- Without a collection the reachable blocks stay where they are. -/
theorem relocates_grant (L : h.space.Layout h.hp D) (hroots : ∀ v ∈ roots, v.Into D)
    (words : Nat) : h.Relocates roots (h.grant words) roots id where
  rooted := by
    rw [List.forall₂_same]
    intro v hv
    cases hr : v.ref? with
    | none => exact .refl_of_none hr
    | some r => exact .moved hr hr ⟨.root hv hr, rfl⟩
  matched := Space.Matched.refl (L.live hroots)
  layout := by
    have hset : {b | ∃ a, h.space.Moves roots id a b} = {r | h.space.Reachable roots r} := by
      ext b
      exact ⟨fun ⟨_, ha, hb⟩ => hb ▸ ha, fun hb => ⟨b, hb, rfl⟩⟩
    rw [hset]
    exact L.live hroots

/-- A collection that does not have to overgrow the heap moves the reachable blocks. -/
theorem collectFor_cases (B : h.Bounded) (L : h.space.Layout h.hp D)
    (hroots : ∀ v ∈ roots, v.Into D) (requested : Nat) :
    (h.Overgrows requested roots ∧ h.collectFor requested roots = .error .bounds) ∨
    (¬ h.Overgrows requested roots ∧ ∃ c ρ, h.collectFor requested roots = .ok c ∧
      h.Relocates roots c.heap c.roots ρ ∧ c.heap.Bounded ∧ c.shortage = none ∧
      c.heap.settings = h.settings ∧ c.heap.hp = h.space.liveWords roots ∧
      c.heap.capacity = h.capacityFor (h.space.liveWords roots) requested ∧
      ∀ i < c.heap.hp, ∃ b, (∃ a, h.space.Moves roots ρ a b) ∧ b.offset ≤ i ∧
        i < b.offset + c.heap.space.extent b) := by
  obtain ⟨e, blocks, E, hover | ⟨hgrow, c, hc, hr, hs, hspace, hhp, hlimit, hset⟩⟩ :=
    collectFor_eq B L hroots requested
  · exact .inl hover
  · have hcells : c.heap.space.cells = e.target := by rw [hspace]
    have hcap : c.heap.capacity = h.capacityFor (h.space.liveWords roots) requested := by
      rw [Heap.capacity, hspace]
    have hle := B.liveWords_le L hroots
    have hcapacity := h.capacity_le_capacityFor (h.space.liveWords roots) requested
    have hmax := B.capacityFor_le (h.space.liveWords roots) requested
    have := B.hp_le
    have := B.max_le
    have hlive := E.size_eq_liveWords
    have hsize : e.target.size ≤ w.maxOffset := by omega
    refine .inr ⟨hgrow, c, e.home, hc, ⟨?_, E.matched hcells hsize, ?_⟩, ⟨?_, ?_, ?_, ?_⟩, hs, hset,
      hhp, hcap, ?_⟩
    · rw [hr]
      exact E.roots_matched hsize
    · rw [hhp, ← hlive]
      exact E.layout hcells L hroots hsize
    · omega
    · omega
    · rw [hset]; omega
    · rw [hset]; omega
    · intro i hi
      exact E.cover hcells hsize (by omega)

/-- Moved roots refer to moved blocks. -/
theorem Relocates.into {h' : Heap w} {roots' : List (Word w)} {ρ : Nat → Nat}
    (R : h.Relocates roots h' roots' ρ) :
    ∀ v ∈ roots', v.Into {b | ∃ a, h.space.Moves roots ρ a b} := by
  intro v hv r hr
  obtain ⟨u, _, huv⟩ := forall₂_exists_right
    (List.Forall₂.imp (fun _ _ hx => hx.symm) R.rooted).flip hv
  obtain ⟨a, _, ha⟩ := huv.of_some hr
  exact ⟨a, ha⟩

theorem reserve_of_free {words : Nat} (hhp : h.hp ≤ h.capacity) (hfree : words ≤ h.free) :
    h.reserve words roots = .ok ⟨h.grant words, roots, [], none⟩ := by
  rw [reserve, if_neg (Nat.not_lt.mpr hhp), if_pos hfree]

theorem reserve_of_not_free {words : Nat} (hhp : h.hp ≤ h.capacity) (hfree : ¬ words ≤ h.free) :
    h.reserve words roots = h.reclaim words roots := by
  rw [reserve, if_neg (Nat.not_lt.mpr hhp), if_neg hfree]

/-- What is reserved was free, or has been reclaimed. -/
theorem reserve_eq_ok {words : Nat} {c : Checkpoint w} (hc : h.reserve words roots = .ok c) :
    (words ≤ h.free ∧ c = ⟨h.grant words, roots, [], none⟩) ∨
      (¬ words ≤ h.free ∧ h.reclaim words roots = .ok c) := by
  unfold reserve at hc
  split at hc
  · cases hc
  · split at hc
    · next hfree =>
      cases hc
      exact .inl ⟨hfree, rfl⟩
    · next hfree => exact .inr ⟨hfree, hc⟩

/-- What a reservation does: nothing reachable is lost, and the request is refused just when it
does not fit beside the live words under the maximum. -/
theorem reserve_cases (B : h.Bounded) (L : h.space.Layout h.hp D)
    (hroots : ∀ v ∈ roots, v.Into D) (words : Nat) :
    h.reserve words roots = .error .bounds ∨
    ∃ c ρ, h.reserve words roots = .ok c ∧ h.Relocates roots c.heap c.roots ρ ∧
      c.heap.Bounded ∧ c.heap.settings = h.settings ∧
      c.shortage = (if h.settings.maxWords < h.space.liveWords roots + words then
        some ⟨words, h.space.liveWords roots, h.settings.maxWords⟩ else none) ∧
      (c.shortage = none → c.heap.limit = c.heap.hp + words) := by
  have hcap := B.capacity_le
  have hhp := B.hp_le
  have hlive := B.liveWords_le L hroots
  by_cases hfree : words ≤ h.free
  · rw [reserve_of_free hhp hfree]
    unfold free at hfree
    refine .inr ⟨_, id, rfl, relocates_grant L hroots words, ⟨hhp, ?_, hcap, B.max_le⟩, rfl, ?_,
      fun _ => rfl⟩
    · simp only [grant, capacity] at *
      omega
    · rw [if_neg (by omega)]
  · rw [reserve_of_not_free hhp hfree]
    obtain ⟨_, herr⟩ | ⟨_, c, ρ, hc, hrel, hB, hs, hset, hhp', hcap', _⟩ :=
      collectFor_cases B L hroots words
    · left
      simp [reclaim, herr, bind, Except.bind]
    · right
      have hmax := B.capacityFor_le (h.space.liveWords roots) words
      have hroom := le_capacityFor h (h.space.liveWords roots) words
      simp only [reclaim, hc, bind, Except.bind]
      by_cases hfit : c.heap.free < words
      · rw [if_pos hfit]
        unfold free at hfit
        refine ⟨_, ρ, rfl, hrel, hB, hset, ?_, fun h => by cases h⟩
        rw [if_pos (by omega), hhp', hset]
      · rw [if_neg hfit]
        unfold free at hfit
        refine ⟨_, ρ, rfl, ⟨hrel.rooted, hrel.matched, hrel.layout⟩,
          ⟨hB.hp_le, ?_, hB.capacity_le, hB.max_le⟩, hset, ?_, fun _ => rfl⟩
        · have := hB.hp_le
          simp only [grant, capacity] at *
          omega
        · rw [if_neg (by omega)]
          exact hs

/-- A collection traps just when it has to overgrow the heap. Otherwise the heap it leaves is made
of the reachable blocks, moved one to one: each keeps its shape and its leading words, and every
reference to it follows. -/
theorem collectFor_keeps_graph (h : Heap w) (requested : Nat) (roots : List (Word w))
    (blocks : Set Ref) (P : h.Partitioned roots blocks) :
    (h.Overgrows requested roots ∧ h.collectFor requested roots = .error .bounds) ∨
    (¬ h.Overgrows requested roots ∧ ∃ c φ, h.collectFor requested roots = .ok c ∧
      Set.InjOn φ (Ref.offset '' {r | h.space.Reachable roots r}) ∧
      c.heap.Partitioned c.roots {b | ∃ a, h.space.Moves roots φ a b} ∧
      List.Forall₂ (Word.Matched (h.space.Moves roots φ)) roots c.roots ∧
      h.space.Matched c.heap.space (h.space.Moves roots φ)) := by
  obtain hover | ⟨hover, c, φ, hc, R, hB, _, _, _, _, hcover⟩ :=
    collectFor_cases P.bounded P.layout P.rooted requested
  · exact .inl hover
  · refine .inr ⟨hover, c, φ, hc, ?_, ⟨hB, R.layout, hcover, R.into⟩, R.rooted, R.matched⟩
    rintro _ ⟨a, ha, rfl⟩ _ ⟨b, hb, rfl⟩ hab
    have hmoved : a.move φ = b.move φ := R.layout.eq_of_offset ⟨a, ha, rfl⟩ ⟨b, hb, rfl⟩ hab
    rw [(R.matched.unique ⟨ha, rfl⟩ ⟨hb, rfl⟩).mpr hmoved]

/-- A pair and a closure that refer to each other; the closure's entry looks like a reference to
the pair. -/
def knot : Heap .bits64 where
  space :=
    { cells :=
        #[(Ref.mk 2 false).word, .ofNat 0, (Header.pack .closure 8 1).word, (Ref.mk 0 true).word,
          .ofNat 1, (Ref.mk 0 true).word]
      capacity := 8 }
  hp := 6
  limit := 6
  settings := { initialWords := 8, maxWords := 16 }
  stats := {}

theorem knot_partitioned :
    knot.Partitioned [(Ref.mk 2 false).word] {r | r ∈ [⟨0, true⟩, ⟨2, false⟩]} where
  bounded := ⟨by decide, by decide, by decide, by decide⟩
  layout := by decide
  cover := by
    change ∀ i < 6, ∃ r ∈ [(⟨0, true⟩ : Ref), ⟨2, false⟩], _
    decide
  rooted := by decide

/-- A closure and a pair that refer to each other are both kept, and the entry that looks like a
reference is not followed. -/
theorem collectFor_keeps_knot :
    knot.Partitioned [(Ref.mk 2 false).word] {r | r ∈ [⟨0, true⟩, ⟨2, false⟩]} ∧
    ∃ c φ, knot.collectFor 4 [(Ref.mk 2 false).word] = .ok c ∧
      c.heap.Partitioned c.roots
        {b | ∃ a, knot.space.Moves [(Ref.mk 2 false).word] φ a b} ∧
      knot.space.Matched c.heap.space (knot.space.Moves [(Ref.mk 2 false).word] φ) := by
  refine ⟨knot_partitioned, ?_⟩
  obtain ⟨⟨_, hbig⟩, _⟩ | ⟨_, c, φ, hc, _, P, _, M⟩ :=
    collectFor_keeps_graph knot 4 _ _ knot_partitioned
  · have hmax := knot_partitioned.bounded.capacityFor_le
      (knot.space.liveWords [(Ref.mk 2 false).word]) 4
    have hroom : knot.settings.maxWords ≤ Width.bits64.maxSpaceWords := by decide
    omega
  · exact ⟨c, φ, hc, P, M⟩

def boundless : Heap .bits64 where
  space := .empty 8
  hp := 0
  limit := 0
  settings := { initialWords := 8, maxWords := 2 ^ 61 - 1 }
  stats := {}

/-- No room can be made for all the words that references can address. -/
theorem collectFor_boundless_traps :
    boundless.Partitioned [] {r | r ∈ []} ∧
      boundless.collectFor (2 ^ 60) [] = .error .bounds := by
  have P : boundless.Partitioned [] {r | r ∈ []} :=
    { bounded := ⟨by decide, by decide, by decide, by decide⟩
      layout := by decide
      cover := fun i hi => absurd hi (Nat.not_lt_zero i)
      rooted := by simp }
  refine ⟨P, ?_⟩
  have hlive : boundless.space.liveWords [] = 0 :=
    Nat.le_zero.mp (P.bounded.liveWords_le P.layout P.rooted)
  have hcap : boundless.capacityFor 0 (2 ^ 60) = 2 ^ 60 := by
    have hneed : decide (boundless.capacity < 0 + 2 ^ 60) = true := by decide
    rw [capacityFor, hneed, Bool.or_true, if_pos rfl]
    decide
  obtain ⟨_, herr⟩ | ⟨hover, _⟩ := collectFor_cases P.bounded P.layout P.rooted (2 ^ 60)
  · exact herr
  · refine absurd ?_ hover
    rw [Overgrows, hlive, hcap]
    decide

end Heap

end Trampoline

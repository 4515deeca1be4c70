import Trampoline.Heap.Object
import Trampoline.Proofs.Plans
import Trampoline.Proofs.Placement

/-!
Twin heaps: two heaps that look the same through a list of pairs of blocks.

The pairs are in the order in which the blocks were made, the last ones first. A block refers to
older blocks only, so chains of references are no longer than the list. New blocks are added to both
heaps at once; a checkpoint drops the pairs that are no longer reachable and moves the others,
whether the heaps collect or not.
-/

namespace Trampoline

/-- Pairs of blocks, the last ones made first. -/
abbrev Pairing := List (Ref × Ref)

namespace Pairing

def Links (W : Pairing) (a b : Ref) : Prop := (a, b) ∈ W

def lefts (W : Pairing) : Set Ref := {a | ∃ b, W.Links a b}

def rights (W : Pairing) : Set Ref := {b | ∃ a, W.Links a b}

theorem lefts_cons (a b : Ref) (W : Pairing) : lefts ((a, b) :: W) = insert a W.lefts := by
  ext x
  simp [lefts, Links, exists_or]

theorem rights_cons (a b : Ref) (W : Pairing) : rights ((a, b) :: W) = insert b W.rights := by
  ext x
  simp [rights, Links, exists_or]

theorem links_cons {a b x y : Ref} {W : Pairing} :
    Links ((a, b) :: W) x y ↔ (x = a ∧ y = b) ∨ W.Links x y := by
  simp [Links]

def diag (W : Pairing) : Pairing := W.map fun p => (p.1, p.1)

theorem links_diag {a b : Ref} {W : Pairing} : W.diag.Links a b ↔ a ∈ W.lefts ∧ b = a := by
  constructor
  · intro h
    obtain ⟨⟨x, y⟩, hxy, heq⟩ := List.mem_map.mp h
    cases heq
    exact ⟨⟨y, hxy⟩, rfl⟩
  · rintro ⟨⟨y, hy⟩, rfl⟩
    exact List.mem_map.mpr ⟨(b, y), hy, rfl⟩

theorem lefts_diag (W : Pairing) : W.diag.lefts = W.lefts := by
  ext a
  constructor
  · rintro ⟨b, hab⟩
    exact (links_diag.mp hab).1
  · intro ha
    exact ⟨a, links_diag.mpr ⟨ha, rfl⟩⟩

theorem rights_diag (W : Pairing) : W.diag.rights = W.lefts := by
  ext b
  constructor
  · rintro ⟨a, hab⟩
    obtain ⟨ha, rfl⟩ := links_diag.mp hab
    exact ha
  · intro hb
    exact ⟨b, links_diag.mpr ⟨hb, rfl⟩⟩

variable {w : Width} {W : Pairing} {vs us : List (Word w)}

theorem matched_diag {v u : Word w} (h : Word.Matched W.Links v u) :
    Word.Matched W.diag.Links v v := by
  cases h with
  | same hv _ => exact .refl_of_none hv
  | @moved a b hv _ hab => exact .moved hv hv (links_diag.mpr ⟨⟨b, hab⟩, rfl⟩)

theorem forall₂_diag (h : List.Forall₂ (Word.Matched W.Links) vs us) :
    List.Forall₂ (Word.Matched W.diag.Links) vs vs := by
  rw [List.forall₂_same]
  intro v hv
  obtain ⟨u, _, hvu⟩ := forall₂_exists_right h hv
  exact matched_diag hvu

theorem into_lefts (h : List.Forall₂ (Word.Matched W.Links) vs us) : ∀ v ∈ vs, v.Into W.lefts := by
  intro v hv r hr
  obtain ⟨u, _, hvu⟩ := forall₂_exists_right h hv
  obtain ⟨b, _, hab⟩ := hvu.of_some hr
  exact ⟨b, hab⟩

theorem into_rights (h : List.Forall₂ (Word.Matched W.Links) vs us) :
    ∀ u ∈ us, u.Into W.rights := by
  intro u hu r hr
  obtain ⟨v, _, huv⟩ := forall₂_exists_right
    (List.Forall₂.imp (fun _ _ hx => hx.symm) h).flip hu
  obtain ⟨a, _, hab⟩ := huv.of_some hr
  exact ⟨a, hab⟩

end Pairing

variable {w : Width}

/-- Every block of the left side refers to older blocks only. -/
def Space.Grounded (s : Space w) : Pairing → Prop
  | [] => True
  | (a, _) :: W => (∀ v ∈ s.traced a, v.Into (Pairing.lefts W)) ∧ s.Grounded W

/-- The entry of a closure block is a label with code of its own. -/
def Space.Enters (s : Space w) (r : Ref) : Prop :=
  ∀ header entry arity, s.leads r = [header, entry, arity] →
    (Label.ofNat entry.toNat).isReserved = false

/-- Two heaps look the same through pairs of blocks. -/
structure Heap.Twins (W : Pairing) (h k : Heap w) : Prop where
  left : h.Bounded
  right : k.Bounded
  max : h.settings.maxWords = k.settings.maxWords
  layout : h.space.Layout h.hp W.lefts
  layout' : k.space.Layout k.hp W.rights
  matched : h.space.Matched k.space W.Links
  fresh : W.Nodup
  grounded : h.space.Grounded W
  enters : ∀ a ∈ W.lefts, h.space.Enters a

namespace Heap.Twins

variable {W : Pairing} {h k : Heap w}

/-- Before anything has been made, any two heaps are twins. -/
theorem nil (hB : h.Bounded) (kB : k.Bounded) (hmax : h.settings.maxWords = k.settings.maxWords) :
    Twins [] h k where
  left := hB
  right := kB
  max := hmax
  layout := ⟨by simp [Pairing.lefts, Pairing.Links], by simp [Pairing.lefts, Pairing.Links],
    by simp [Pairing.lefts, Pairing.Links], by simp [Pairing.lefts, Pairing.Links]⟩
  layout' := ⟨by simp [Pairing.rights, Pairing.Links], by simp [Pairing.rights, Pairing.Links],
    by simp [Pairing.rights, Pairing.Links], by simp [Pairing.rights, Pairing.Links]⟩
  matched := ⟨by simp [Pairing.Links], by simp [Pairing.Links], by simp [Pairing.Links],
    by simp [Pairing.Links], by simp [Pairing.Links]⟩
  fresh := List.nodup_nil
  grounded := trivial
  enters := by simp [Pairing.lefts, Pairing.Links]

/-- The left one of two twins is its own twin. -/
theorem diag (T : Twins W h k) : Twins W.diag h h where
  left := T.left
  right := T.left
  max := rfl
  layout := by
    rw [Pairing.lefts_diag]
    exact T.layout
  layout' := by
    rw [Pairing.rights_diag]
    exact T.layout
  matched := by
    have hrefl := Space.Matched.refl T.layout
    have hlinks : W.diag.Links = fun a b => a ∈ W.lefts ∧ b = a := by
      funext a b
      exact propext Pairing.links_diag
    rw [hlinks]
    exact hrefl
  fresh := by
    refine List.Nodup.map_on ?_ T.fresh
    rintro ⟨a, b⟩ hab ⟨a', b'⟩ hab' heq
    cases heq
    rw [(T.matched.unique hab hab').mp rfl]
  grounded := by
    have hall : ∀ V : Pairing, h.space.Grounded V → h.space.Grounded V.diag := by
      intro V hV
      induction V with
      | nil => trivial
      | cons p V ih =>
        refine ⟨?_, ih hV.2⟩
        rw [← Pairing.diag, Pairing.lefts_diag]
        exact hV.1
    exact hall W T.grounded
  enters := by
    rw [Pairing.lefts_diag]
    exact T.enters

/-! ### Allocation -/

theorem keeps_left (T : Twins W h k) (vs : List (Word w)) {a : Ref} (ha : a ∈ W.lefts) :
    h.space.Keeps (h.place vs).space a :=
  Space.keeps_write vs (T.layout.within a ha)

theorem keeps_right (T : Twins W h k) (vs : List (Word w)) {b : Ref} (hb : b ∈ W.rights) :
    k.space.Keeps (k.place vs).space b :=
  Space.keeps_write vs (T.layout'.within b hb)

/-- The heap pointer is above all blocks. -/
theorem offset_lt (T : Twins W h k) {a b : Ref} (hab : W.Links a b) :
    a.offset < h.hp ∧ b.offset < k.hp := by
  have ha := T.layout.within a ⟨b, hab⟩
  have hb := T.layout'.within b ⟨a, hab⟩
  have hpa := h.space.extent_pos a
  have hpb := k.space.extent_pos b
  omega

/-- The words of a block, written at the heap pointers, make up a new pair. -/
theorem matched_place (T : Twins W h k) {pair : Bool} {lead xs ys : List (Word w)}
    (B : Block pair lead xs) (hxy : List.Forall₂ (Word.Matched W.Links) xs ys) :
    (h.place (lead ++ xs)).space.Matched (k.place (lead ++ ys)).space
      (Pairing.Links ((⟨h.hp, pair⟩, ⟨k.hp, pair⟩) :: W)) := by
  have B' : Block pair lead ys := B.congr hxy.length_eq
  have hmono : ∀ v u : Word w, Word.Matched W.Links v u →
      Word.Matched (Pairing.Links ((⟨h.hp, pair⟩, ⟨k.hp, pair⟩) :: W)) v u :=
    fun v u hvu => hvu.mono fun a b hab => Pairing.links_cons.mpr (.inr hab)
  refine ⟨?_, ?_, ?_, ?_, ?_⟩
  · intro a b a' b' hab hab'
    rcases Pairing.links_cons.mp hab with ⟨rfl, rfl⟩ | hab <;>
      rcases Pairing.links_cons.mp hab' with ⟨rfl, rfl⟩ | hab'
    · simp
    · obtain ⟨ha, hb⟩ := T.offset_lt hab'
      constructor
      · rintro rfl; exact absurd ha (Nat.lt_irrefl _)
      · rintro rfl; exact absurd hb (Nat.lt_irrefl _)
    · obtain ⟨ha, hb⟩ := T.offset_lt hab
      constructor
      · rintro rfl; exact absurd ha (Nat.lt_irrefl _)
      · rintro rfl; exact absurd hb (Nat.lt_irrefl _)
    · exact T.matched.unique hab hab'
  · intro a b hab
    rcases Pairing.links_cons.mp hab with ⟨rfl, rfl⟩ | hab
    · rfl
    · exact T.matched.pair hab
  · intro a b hab
    rcases Pairing.links_cons.mp hab with ⟨rfl, rfl⟩ | hab
    · simp only [Heap.place]
      rw [Space.shapeAt_write B, Space.shapeAt_write B', hxy.length_eq]
    · rw [(T.keeps_left _ ⟨b, hab⟩).shapeAt, (T.keeps_right _ ⟨a, hab⟩).shapeAt]
      exact T.matched.shape hab
  · intro a b hab
    rcases Pairing.links_cons.mp hab with ⟨rfl, rfl⟩ | hab
    · simp only [Heap.place]
      rw [Space.leads_write B, Space.leads_write B']
    · rw [(T.keeps_left _ ⟨b, hab⟩).leads, (T.keeps_right _ ⟨a, hab⟩).leads]
      exact T.matched.leads hab
  · intro a b hab
    rcases Pairing.links_cons.mp hab with ⟨rfl, rfl⟩ | hab
    · simp only [Heap.place]
      rw [Space.traced_write B, Space.traced_write B']
      exact hxy.imp hmono
    · rw [(T.keeps_left _ ⟨b, hab⟩).traced, (T.keeps_right _ ⟨a, hab⟩).traced]
      exact (T.matched.traced hab).imp hmono

theorem grounded_keeps {s t : Space w} {W : Pairing} (hs : s.Grounded W)
    (h : ∀ a ∈ W.lefts, s.Keeps t a) : t.Grounded W := by
  induction W with
  | nil => trivial
  | cons p W ih =>
    obtain ⟨a, b⟩ := p
    rw [Pairing.lefts_cons] at h
    refine ⟨?_, ih hs.2 fun x hx => h x (.inr hx)⟩
    rw [(h a (.inl rfl)).traced]
    exact hs.1

/-- A block of related words that is placed on both sides is one more pair of blocks. -/
theorem place (T : Twins W h k) {pair : Bool} {lead xs ys : List (Word w)}
    (B : Block pair lead xs) (hxy : List.Forall₂ (Word.Matched W.Links) xs ys)
    (henter : ∀ header entry arity, lead = [header, entry, arity] →
      (Label.ofNat entry.toNat).isReserved = false)
    (hroom : h.hp + (lead ++ xs).length ≤ h.limit)
    (kroom : k.hp + (lead ++ ys).length ≤ k.limit) :
    Twins ((⟨h.hp, pair⟩, ⟨k.hp, pair⟩) :: W) (h.place (lead ++ xs)) (k.place (lead ++ ys)) where
  left := by
    refine ⟨?_, ?_, ?_, T.left.max_le⟩ <;> simp only [Heap.place, capacity, Space.write_capacity]
    · exact hroom.trans T.left.limit_le
    · exact T.left.limit_le
    · exact T.left.capacity_le
  right := by
    refine ⟨?_, ?_, ?_, T.right.max_le⟩ <;> simp only [Heap.place, capacity, Space.write_capacity]
    · exact kroom.trans T.right.limit_le
    · exact T.right.limit_le
    · exact T.right.capacity_le
  max := T.max
  layout := by
    rw [Pairing.lefts_cons]
    exact T.layout.write B (Pairing.into_lefts hxy)
  layout' := by
    rw [Pairing.rights_cons]
    exact T.layout'.write (B.congr hxy.length_eq) (Pairing.into_rights hxy)
  matched := T.matched_place B hxy
  fresh := by
    rw [List.nodup_cons]
    exact ⟨fun hmem => absurd (T.offset_lt hmem).1 (Nat.lt_irrefl _), T.fresh⟩
  grounded := by
    refine ⟨?_, grounded_keeps T.grounded fun a ha => T.keeps_left _ ha⟩
    simp only [Heap.place]
    rw [Space.traced_write B]
    exact Pairing.into_lefts hxy
  enters := by
    rw [Pairing.lefts_cons]
    rintro a (rfl | ha) header entry arity hlead
    · simp only [Heap.place] at hlead
      rw [Space.leads_write B] at hlead
      exact henter header entry arity hlead
    · rw [(T.keeps_left _ ha).leads] at hlead
      exact T.enters a ha header entry arity hlead

/-! ### Checkpoints -/

open Classical in
noncomputable def moved (s : Space w) (roots : List (Word w)) (ρ σ : Nat → Nat) (W : Pairing) :
    Pairing :=
  (W.filter fun p => decide (s.Reachable roots p.1)).map fun p => (p.1.move ρ, p.2.move σ)

theorem links_moved {s : Space w} {roots : List (Word w)} {ρ σ : Nat → Nat} {W : Pairing}
    {x y : Ref} : (moved s roots ρ σ W).Links x y ↔
      ∃ a b, W.Links a b ∧ s.Reachable roots a ∧ x = a.move ρ ∧ y = b.move σ := by
  simp only [moved, Pairing.Links, List.mem_map, List.mem_filter, decide_eq_true_eq, Prod.exists,
    Prod.mk.injEq]
  constructor
  · rintro ⟨a, b, ⟨hab, ha⟩, rfl, rfl⟩
    exact ⟨a, b, hab, ha, rfl, rfl⟩
  · rintro ⟨a, b, hab, ha, rfl, rfl⟩
    exact ⟨a, b, ⟨hab, ha⟩, rfl, rfl⟩

section

variable {vs us vs' us' : List (Word w)} {h' k' : Heap w} {ρ σ : Nat → Nat}

theorem reachable_right (T : Twins W h k) (hroots : List.Forall₂ (Word.Matched W.Links) vs us)
    {a b : Ref} (hab : W.Links a b) (ha : h.space.Reachable vs a) : k.space.Reachable us b := by
  obtain ⟨b', hab', hb'⟩ := T.matched.reachable hroots ha
  rwa [(T.matched.unique hab hab').mp rfl]

/-- The moved pairs, seen as a way from the left side back, across, and forth again. -/
theorem links_moved_eq (T : Twins W h k) (hroots : List.Forall₂ (Word.Matched W.Links) vs us) :
    (moved h.space vs ρ σ W).Links = fun x y =>
      ∃ a, h.space.Moves vs ρ a x ∧ ∃ b, W.Links a b ∧ k.space.Moves us σ b y := by
  funext x y
  rw [links_moved]
  apply propext
  constructor
  · rintro ⟨a, b, hab, ha, rfl, rfl⟩
    exact ⟨a, ⟨ha, rfl⟩, b, hab, T.reachable_right hroots hab ha, rfl⟩
  · rintro ⟨a, ⟨ha, rfl⟩, b, hab, _, rfl⟩
    exact ⟨a, b, hab, ha, rfl, rfl⟩

theorem lefts_moved (T : Twins W h k) (hroots : List.Forall₂ (Word.Matched W.Links) vs us) :
    (moved h.space vs ρ σ W).lefts = {x | ∃ a, h.space.Moves vs ρ a x} := by
  ext x
  constructor
  · rintro ⟨y, hxy⟩
    obtain ⟨a, b, _, ha, rfl, _⟩ := links_moved.mp hxy
    exact ⟨a, ha, rfl⟩
  · rintro ⟨a, ha, rfl⟩
    obtain ⟨b, hab⟩ := T.layout.reachable (Pairing.into_lefts hroots) ha
    exact ⟨b.move σ, links_moved.mpr ⟨a, b, hab, ha, rfl, rfl⟩⟩

/-- The moved pairs are of all the blocks that were reachable on the other side. -/
theorem rights_moved (T : Twins W h k) (hroots : List.Forall₂ (Word.Matched W.Links) vs us) :
    (moved h.space vs ρ σ W).rights = {y | ∃ b, k.space.Moves us σ b y} := by
  ext y
  constructor
  · rintro ⟨x, hxy⟩
    obtain ⟨a, b, hab, ha, _, rfl⟩ := links_moved.mp hxy
    exact ⟨b, T.reachable_right hroots hab ha, rfl⟩
  · rintro ⟨b, hb, rfl⟩
    have hback : List.Forall₂ (Word.Matched fun b a => W.Links a b) us vs :=
      (List.Forall₂.imp (fun _ _ hx => hx.symm) hroots).flip
    obtain ⟨a, hab, ha⟩ := T.matched.symm.reachable hback hb
    exact ⟨a.move ρ, links_moved.mpr ⟨a, b, hab, ha, rfl, rfl⟩⟩

/-- Blocks still refer to older blocks only after they have been moved. -/
theorem grounded_moved {s t : Space w} {W : Pairing} (hs : s.Grounded W)
    (M : s.Matched t (s.Moves vs ρ)) : t.Grounded (moved s vs ρ σ W) := by
  classical
  induction W with
  | nil => trivial
  | cons p W ih =>
    obtain ⟨a, b⟩ := p
    by_cases ha : s.Reachable vs a
    · have hcons : moved s vs ρ σ ((a, b) :: W) = (a.move ρ, b.move σ) :: moved s vs ρ σ W := by
        simp [moved, ha]
      rw [hcons]
      refine ⟨?_, ih hs.2⟩
      intro v' hv' r' hr'
      obtain ⟨v, hv, hvv'⟩ := forall₂_exists_right
        (List.Forall₂.imp (fun _ _ hx => hx.symm) (M.traced ⟨ha, rfl⟩)).flip hv'
      obtain ⟨r, hr, hrr'⟩ := hvv'.of_some hr'
      obtain ⟨c, hrc⟩ := hs.1 v hv r hr
      exact ⟨c.move σ, links_moved.mpr ⟨r, c, hrc, hrr'.1, hrr'.2, rfl⟩⟩
    · have hcons : moved s vs ρ σ ((a, b) :: W) = moved s vs ρ σ W := by
        simp [moved, ha]
      rw [hcons]
      exact ih hs.2

theorem nodup_moved (T : Twins W h k) {t : Space w} (M : h.space.Matched t (h.space.Moves vs ρ)) :
    (moved h.space vs ρ σ W).Nodup := by
  classical
  refine List.Nodup.map_on ?_ (T.fresh.filter _)
  rintro ⟨a, b⟩ hab ⟨a', b'⟩ hab' heq
  rw [List.mem_filter, decide_eq_true_eq] at hab hab'
  obtain ⟨hmove, _⟩ := Prod.mk.inj heq
  have ha : a = a' := (M.unique ⟨hab.2, rfl⟩ ⟨hab'.2, rfl⟩).mpr hmove
  rw [ha, (T.matched.unique hab.1 hab'.1).mp ha]

/-- Twins stay twins when each side relocates what its roots reach. -/
theorem relocate (T : Twins W h k) (hroots : List.Forall₂ (Word.Matched W.Links) vs us)
    (R : h.Relocates vs h' vs' ρ) (R' : k.Relocates us k' us' σ) (hB : h'.Bounded)
    (kB : k'.Bounded) (hmax : h'.settings.maxWords = k'.settings.maxWords) :
    Twins (moved h.space vs ρ σ W) h' k' ∧
      List.Forall₂ (Word.Matched (moved h.space vs ρ σ W).Links) vs' us' := by
  have heq := T.links_moved_eq (ρ := ρ) (σ := σ) hroots
  have hleft := T.lefts_moved (ρ := ρ) (σ := σ) hroots
  refine ⟨⟨hB, kB, hmax, ?_, ?_, ?_, T.nodup_moved R.matched, grounded_moved T.grounded R.matched,
    ?_⟩, ?_⟩
  · rw [hleft]
    exact R.layout
  · rw [T.rights_moved hroots]
    exact R'.layout
  · rw [heq]
    exact R.matched.symm.trans (T.matched.trans R'.matched)
  · rw [hleft]
    rintro x ⟨a, ha, rfl⟩ header entry arity hlead
    rw [← R.matched.leads ⟨ha, rfl⟩] at hlead
    exact T.enters a (T.layout.reachable (Pairing.into_lefts hroots) ha) header entry arity hlead
  · rw [heq]
    have hback : List.Forall₂ (Word.Matched fun x a => h.space.Moves vs ρ a x) vs' vs :=
      (List.Forall₂.imp (fun _ _ hx => hx.symm) R.rooted).flip
    exact forall₂_trans (fun _ _ _ hx hy => hx.trans hy) hback
      (forall₂_trans (fun _ _ _ hx hy => hx.trans hy) hroots R'.rooted)

end

/-- A reservation on both sides: the roots that come back are twins again, and what is missing is
the same. -/
theorem reserve (T : Twins W h k) {vs us : List (Word w)}
    (hroots : List.Forall₂ (Word.Matched W.Links) vs us) (words : Nat) :
    (∃ t, h.reserve words vs = .error t) ∨ (∃ t, k.reserve words us = .error t) ∨
    ∃ c d ρ V, h.reserve words vs = .ok c ∧ k.reserve words us = .ok d ∧ Twins V c.heap d.heap ∧
      List.Forall₂ (Word.Matched V.Links) c.roots d.roots ∧ c.shortage = d.shortage ∧
      h.Relocates vs c.heap c.roots ρ ∧ V.lefts = {x | ∃ a, h.space.Moves vs ρ a x} := by
  obtain hc | ⟨c, ρ, hc, R, hB, hset, hshort, _⟩ :=
    reserve_cases T.left T.layout (Pairing.into_lefts hroots) words
  · exact .inl ⟨_, hc⟩
  obtain hd | ⟨d, σ, hd, R', kB, kset, kshort, _⟩ :=
    reserve_cases T.right T.layout' (Pairing.into_rights hroots) words
  · exact .inr (.inl ⟨_, hd⟩)
  have hmax : c.heap.settings.maxWords = d.heap.settings.maxWords := by
    rw [hset, kset]
    exact T.max
  obtain ⟨T', hroots'⟩ := T.relocate hroots R R' hB kB hmax
  refine .inr (.inr ⟨c, d, ρ, _, hc, hd, T', hroots', ?_, R, T.lefts_moved hroots⟩)
  rw [hshort, kshort, T.max, T.matched.liveWords_eq hroots]

end Heap.Twins

end Trampoline

import Trampoline.Proofs.Upkeep

/-!
A reservation is exact: it is granted just when the live words and the request fit under the
maximum together. Garbage, the present capacity and the growth policy decide only whether there is
a collection, and how much the heap grows in it.

The one exception is a heap whose maximum is beyond what room can be made for.
-/

namespace Trampoline.Heap

variable {w : Width}

/-- A heap that was made with the settings, and has since been reserved from, collected, and filled
within its reservations. -/
inductive History (s : HeapSettings) : Heap w → Prop where
  | made {h : Heap w} : create s = .ok h → History s h
  | reserved {h : Heap w} {c : Checkpoint w} (words : Nat) (roots : List (Word w)) :
      History s h → h.reserve words roots = .ok c → History s c.heap
  | collected {h : Heap w} {c : Checkpoint w} (roots : List (Word w)) :
      History s h → h.collect roots = .ok c → History s c.heap
  | filled {h k : Heap w} {offset : Nat} (contents : List (Word w)) :
      History s h → Alloc.store contents h = .ok offset k → History s k

variable {s : HeapSettings} {h : Heap w} {blocks : Set Ref} {roots : List (Word w)}

/-- However a heap has been used, its sizes are in order and its settings are the same. -/
theorem History.bounded (H : History s h) : h.Bounded ∧ h.settings = s := by
  induction H with
  | made hc =>
    obtain ⟨hvalid, rfl⟩ := create_eq_ok hc
    exact ⟨bounded_vacant hvalid, rfl⟩
  | reserved _ _ _ hc ih =>
    obtain ⟨B, hset⟩ := ih.1.reserve hc
    exact ⟨B, hset.trans ih.2⟩
  | collected _ _ hc ih =>
    obtain ⟨B, hset⟩ := ih.1.collectFor hc
    exact ⟨B, hset.trans ih.2⟩
  | filled contents _ hstore ih =>
    obtain ⟨hspan, rfl⟩ := Alloc.store_eq_ok hstore
    have hfits : Fits _ ⟨.ofNat 0, contents⟩ := .inr (span_eq_ok hspan).2.1
    exact ⟨ih.1.place hfits, ih.2⟩

/-- A request that does not fit into the free words is granted by the collection that it causes
just when it fits beside the live words under the maximum. -/
theorem free_lt_iff {c : Checkpoint w} (B : h.Bounded) {words : Nat} (hfree : h.free < words)
    (hlive : h.space.liveWords roots ≤ h.hp) (hhp : c.heap.hp = h.space.liveWords roots)
    (hcap : c.heap.capacity = h.capacityFor (h.space.liveWords roots) words) :
    c.heap.free < words ↔ h.settings.maxWords < h.space.liveWords roots + words := by
  have hle := B.hp_le
  have hmax := B.capacityFor_le (h.space.liveWords roots) words
  have hroom := le_capacityFor h (h.space.liveWords roots) words
  have hkeep := h.capacity_le_capacityFor (h.space.liveWords roots) words
  simp only [free] at *
  rw [hhp, hcap]
  omega

theorem reclaim_of_error {t : Trap w} {words : Nat} (hc : h.collectFor words roots = .error t) :
    h.reclaim words roots = .error t := by
  simp only [reclaim, hc, bind, Except.bind]

/-- The slow path of a reservation, in terms of the collection it makes. -/
theorem reclaim_eq {c : Checkpoint w} {words : Nat} (hc : h.collectFor words roots = .ok c) :
    h.reclaim words roots = .ok
      (if c.heap.free < words then
        { c with
          events := c.events ++ [.exhausted words c.heap.hp]
          shortage := some ⟨words, c.heap.hp, c.heap.settings.maxWords⟩ }
      else { c with heap := c.heap.grant words }) := by
  simp only [reclaim, hc, bind, Except.bind]
  split <;> rfl

/-- What a reservation that does not trap leaves. It is granted just when the request fits beside the
live words under the maximum. Words that are free are granted with no other change; else the heap
and the roots are those of a collection, with the request reserved or reported as missing. -/
structure Reserved (h : Heap w) (words : Nat) (roots : List (Word w)) (c : Checkpoint w) :
    Prop where
  partitioned : ∃ blocks, c.heap.Partitioned c.roots blocks
  exact : c.shortage = none ↔ h.space.liveWords roots + words ≤ h.settings.maxWords
  granted : c.shortage = none → words ≤ c.heap.free ∧ c.heap.limit = c.heap.hp + words
  refused : ∀ missing, c.shortage = some missing →
    missing = ⟨words, h.space.liveWords roots, h.settings.maxWords⟩ ∧
      c.heap.hp = h.space.liveWords roots ∧ c.heap.limit = c.heap.hp
  unmoved : words ≤ h.free → c = ⟨h.grant words, roots, [], none⟩
  collected : h.free < words → ∃ d ρ, h.collectFor words roots = .ok d ∧
    h.Relocates roots d.heap d.roots ρ ∧ c.roots = d.roots ∧
    c.heap = if c.shortage = none then d.heap.grant words else d.heap

/-- Words that are free are granted, and nothing else is changed. -/
theorem Partitioned.reserved_of_free (P : h.Partitioned roots blocks) {words : Nat}
    (hfree : words ≤ h.free) : h.Reserved words roots ⟨h.grant words, roots, [], none⟩ where
  partitioned := ⟨blocks, P.bounded.grant hfree, P.layout, P.cover, P.rooted⟩
  exact := by
    have hcap := P.bounded.capacity_le
    have hhp := P.bounded.hp_le
    have hlive := P.bounded.liveWords_le P.layout P.rooted
    unfold free at hfree
    exact ⟨fun _ => by omega, fun _ => rfl⟩
  granted _ := ⟨hfree, rfl⟩
  refused _ h := by cases h
  unmoved _ := rfl
  collected hslow := absurd hfree (Nat.not_le.mpr hslow)

/-- Words that are not free are granted after a collection, if they fit then. -/
theorem Partitioned.reserved_of_collected (P : h.Partitioned roots blocks) {words : Nat}
    (hslow : h.free < words) (hover : ¬ h.Overgrows words roots) :
    ∃ c, h.reclaim words roots = .ok c ∧ h.Reserved words roots c := by
  have hlive := P.bounded.liveWords_le P.layout P.rooted
  have hfree : ¬ words ≤ h.free := Nat.not_le.mpr hslow
  obtain ⟨hbad, _⟩ | ⟨_, d, ρ, hd, R, B, hs, hset, hhp, hcap, hcover⟩ :=
    collectFor_cases P.bounded P.layout P.rooted words
  · exact absurd hbad hover
  have hlimit := (collectFor_counts hd).1
  have hiff := free_lt_iff P.bounded hslow hlive hhp hcap
  refine ⟨_, reclaim_eq hd, ?_⟩
  by_cases hfit : d.heap.free < words
  · have hmax := hiff.mp hfit
    rw [if_pos hfit]
    exact
      { partitioned := ⟨_, B, R.layout, hcover, R.into⟩
        exact := ⟨fun h => (by cases h), fun h => absurd h (Nat.not_le.mpr hmax)⟩
        granted := fun h => by cases h
        refused := by
          rintro _ ⟨⟩
          exact ⟨by rw [hhp, hset], hhp, hlimit⟩
        unmoved := fun h => absurd h hfree
        collected := fun _ => ⟨d, ρ, hd, R, rfl, rfl⟩ }
  · have hle : words ≤ d.heap.free := Nat.not_lt.mp hfit
    have hmax := Nat.not_lt.mp (mt hiff.mpr hfit)
    rw [if_neg hfit]
    exact
      { partitioned := ⟨_, B.grant hle, R.layout, hcover, R.into⟩
        exact := ⟨fun _ => hmax, fun _ => hs⟩
        granted := fun _ => ⟨hle, rfl⟩
        refused := by
          intro missing h
          rw [hs] at h
          cases h
        unmoved := fun h => absurd h hfree
        collected := fun _ => ⟨d, ρ, hd, R, rfl, (if_pos hs).symm⟩ }

/-- A reservation traps just when the request is not free and the collection that it causes has to
overgrow the heap. In every other case it is exact. -/
theorem reserve_exact (H : History s h) (layout : h.space.Layout h.hp blocks)
    (cover : ∀ i < h.hp, ∃ r ∈ blocks, r.offset ≤ i ∧ i < r.offset + h.space.extent r)
    (rooted : ∀ v ∈ roots, v.Into blocks) (words : Nat) :
    (h.free < words ∧ h.Overgrows words roots ∧ h.reserve words roots = .error .bounds) ∨
    (¬ (h.free < words ∧ h.Overgrows words roots) ∧
      ∃ c, h.reserve words roots = .ok c ∧ h.Reserved words roots c) := by
  have P : h.Partitioned roots blocks := ⟨H.bounded.1, layout, cover, rooted⟩
  by_cases hfree : words ≤ h.free
  · exact .inr ⟨fun hslow => absurd hfree (Nat.not_le.mpr hslow.1), _,
      reserve_of_free P.bounded.hp_le hfree, P.reserved_of_free hfree⟩
  · have hslow : h.free < words := Nat.not_le.mp hfree
    rw [reserve_of_not_free P.bounded.hp_le hfree]
    by_cases hover : h.Overgrows words roots
    · obtain ⟨_, herr⟩ | ⟨hbad, _⟩ := collectFor_cases P.bounded layout rooted words
      · exact .inl ⟨hslow, hover, reclaim_of_error herr⟩
      · exact absurd hover hbad
    · exact .inr ⟨fun h => hover h.2, P.reserved_of_collected hslow hover⟩

def littered : Heap .bits64 :=
  (((vacant ⟨8, 8, 1.0⟩).grant 4).place [.ofNat 4, .ofNat 8]).place [.ofNat 12, .ofNat 16]

theorem history_littered : History ⟨8, 8, 1.0⟩ littered := by
  have hmade : History ⟨8, 8, 1.0⟩ (vacant ⟨8, 8, 1.0⟩ : Heap .bits64) :=
    .made (create_vacant (by decide +kernel) (by decide))
  have hgranted : History ⟨8, 8, 1.0⟩ ((vacant ⟨8, 8, 1.0⟩ : Heap .bits64).grant 4) :=
    .reserved 4 [] hmade rfl
  exact .filled _ (.filled _ hgranted (Alloc.store_of_span rfl)) (Alloc.store_of_span rfl)

/-- Four words are free. Six are granted by a collection, and seven are one too many. -/
theorem reserve_exact_littered :
    History ⟨8, 8, 1.0⟩ littered ∧ littered.free = 4 ∧
    ∃ c d, littered.reserve 6 [(Ref.mk 2 true).word] = .ok c ∧ c.shortage = none ∧
      c.heap.limit = c.heap.hp + 6 ∧
      littered.reserve 7 [(Ref.mk 2 true).word] = .ok d ∧
      d.shortage = some ⟨7, littered.space.liveWords [(Ref.mk 2 true).word], 8⟩ ∧
      d.heap.limit = d.heap.hp := by
  have layout : littered.space.Layout littered.hp {r | r ∈ [⟨0, true⟩, ⟨2, true⟩]} := by decide
  have cover : ∀ i < littered.hp, ∃ r ∈ {r | r ∈ [(⟨0, true⟩ : Ref), ⟨2, true⟩]},
      r.offset ≤ i ∧ i < r.offset + littered.space.extent r := by
    change ∀ i < 4, ∃ r ∈ [(⟨0, true⟩ : Ref), ⟨2, true⟩], _
    decide
  have rooted : ∀ v ∈ [(Ref.mk 2 true).word (w := .bits64)],
      v.Into {r | r ∈ [(⟨0, true⟩ : Ref), ⟨2, true⟩]} := by decide
  have hsix : (littered.reserve 6 [(Ref.mk 2 true).word]).toOption.map (·.shortage) =
      some none := by decide +kernel
  have hseven : (littered.reserve 7 [(Ref.mk 2 true).word]).toOption.map (·.shortage.isSome) =
      some true := by decide +kernel
  refine ⟨history_littered, rfl, ?_⟩
  obtain ⟨_, _, herr⟩ | ⟨_, c, hc, hgranted⟩ :=
    reserve_exact history_littered layout cover rooted 6
  · rw [herr] at hsix
    cases hsix
  obtain ⟨_, _, herr⟩ | ⟨_, d, hd, hrefused⟩ :=
    reserve_exact history_littered layout cover rooted 7
  · rw [herr] at hseven
    cases hseven
  rw [hc] at hsix
  rw [hd] at hseven
  have hnone : c.shortage = none := Option.some.inj hsix
  obtain ⟨missing, hmissing⟩ := Option.isSome_iff_exists.mp (Option.some.inj hseven)
  obtain ⟨rfl, _, hlimit⟩ := hrefused.refused missing hmissing
  exact ⟨c, d, hc, hnone, (hgranted.granted hnone).2, hd, hmissing, hlimit⟩

def limitless : HeapSettings := ⟨8, 2 ^ 61 - 1, 0.5⟩

/-- Half of the words that references can address are too many to make room for, although nothing
is live and the maximum is beyond them. -/
theorem reserve_limitless_traps :
    ∃ h : Heap .bits64, create limitless = .ok h ∧
      h.space.liveWords [] + 2 ^ 60 ≤ limitless.maxWords ∧
      h.reserve (2 ^ 60) [] = .error .bounds := by
  have hvalid : limitless.validate .bits64 = .ok () := by decide +kernel
  have hmade : create limitless = .ok (vacant limitless : Heap .bits64) :=
    create_vacant hvalid (by decide)
  refine ⟨vacant limitless, hmade, ?_⟩
  have B := bounded_vacant hvalid
  have layout : (vacant limitless : Heap .bits64).space.Layout 0 {r | r ∈ []} := by decide
  have rooted : ∀ v ∈ ([] : List (Word .bits64)), v.Into {r | r ∈ []} := by simp
  have hlive : (vacant limitless : Heap .bits64).space.liveWords [] = 0 :=
    Nat.le_zero.mp (B.liveWords_le layout rooted)
  refine ⟨by rw [hlive]; decide, ?_⟩
  obtain ⟨_, herr⟩ | ⟨hover, _⟩ := collectFor_cases B layout rooted (2 ^ 60)
  · exact reclaim_of_error herr
  · refine absurd ?_ hover
    have hneed : decide ((vacant limitless : Heap .bits64).capacity < 0 + 2 ^ 60) = true := by decide
    rw [Overgrows, hlive, capacityFor, hneed, Bool.or_true, if_pos rfl]
    decide

end Trampoline.Heap

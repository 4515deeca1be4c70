import Trampoline.Proofs.Allocation
import Trampoline.Proofs.Poses
import Trampoline.Proofs.SafePoint

/-!
What a run holds on to.

The blocks that a program has built and can still reach are listed, each of them once. How many
words are live is then known, however many other blocks lie about in the heap, and so is whether a
reservation is granted. A reservation moves the blocks one by one and keeps their words; a new block
joins the list.
-/

namespace Trampoline

variable {w : Width}

namespace Word

theorem ne_wrapInt {u : Word w} {r : Ref} (hu : u.ref? = some r) (z : Int) : u ≠ wrapInt z := by
  rintro rfl
  cases (ref?_wrapInt z).symm.trans hu

theorem ne_unitWord {u : Word w} {r : Ref} (hu : u.ref? = some r) : u ≠ unitWord := by
  rintro rfl
  cases ref?_unitWord.symm.trans hu

theorem move_wrapInt (ρ : Nat → Nat) (z : Int) : (wrapInt z : Word w).move ρ = wrapInt z :=
  move_of_none (ref?_wrapInt z)

theorem move_unitWord (ρ : Nat → Nat) : (unitWord : Word w).move ρ = unitWord :=
  move_of_none ref?_unitWord

end Word

namespace Space

variable {s t : Space w} {r : Ref} {lead xs : List (Word w)}

structure BlockAt (s : Space w) (r : Ref) (lead xs : List (Word w)) : Prop where
  headed : r.pair = false
  leads : s.leads r = lead
  traced : s.traced r = xs

namespace BlockAt

theorem extent (b : BlockAt s r lead xs) : s.extent r = lead.length + xs.length := by
  rw [extent_eq, ← b.leads, ← b.traced, Space.leads, Space.traced, length_segment, length_segment]

theorem cell (b : BlockAt s r lead xs) {i : Nat} {v : Word w} (hi : (lead ++ xs)[i]? = some v) :
    s.cell (r.offset + i) = v := by
  rw [← b.leads, ← b.traced, ← segment_extent] at hi
  obtain ⟨hlt, hget⟩ := List.getElem?_eq_some_iff.mp hi
  rw [← hget, getElem_segment]

theorem keeps (b : BlockAt s r lead xs) (hk : s.Keeps t r) : BlockAt t r lead xs :=
  ⟨b.headed, hk.leads.trans b.leads, hk.traced.trans b.traced⟩

/-- A block that moves keeps its leading words, and its traced words move. -/
theorem moved {roots : List (Word w)} {ρ : Nat → Nat} (b : BlockAt s r lead xs)
    (M : s.Matched t (s.Moves roots ρ)) (hr : s.Reachable roots r) :
    BlockAt t (r.move ρ) lead (xs.map (Word.move ρ)) := by
  have hmoves : s.Moves roots ρ r (r.move ρ) := ⟨hr, rfl⟩
  have htraced : (s.traced r).map (Word.move ρ) = (t.traced (r.move ρ)).map id :=
    map_eq_of_forall₂ (M.traced hmoves) fun v _ u hvu => hvu.eq_move.symm
  rw [List.map_id, b.traced] at htraced
  exact ⟨b.headed, (M.leads hmoves).symm.trans b.leads, htraced.symm⟩

end BlockAt

end Space

namespace Heap

variable {h : Heap w} {roots roots' : List (Word w)} {rs : List Ref} {words : Nat}

/-- The roots hold on to the listed blocks, and to no others. -/
structure Holdings (h : Heap w) (roots : List (Word w)) (rs : List Ref) : Prop where
  nodup : rs.Nodup
  layout : h.space.Layout h.hp {r | r ∈ rs}
  rooted : ∀ v ∈ roots, v.Into {r | r ∈ rs}
  reachable : ∀ r ∈ rs, h.space.Reachable roots r

/-- Roots without references hold on to nothing. -/
theorem holdings_nil (hroots : ∀ v ∈ roots, v.ref? = none) : h.Holdings roots [] where
  nodup := .nil
  layout := ⟨nofun, nofun, nofun, nofun⟩
  rooted v hv := Word.into_of_none (hroots v hv)
  reachable := nofun

/-- Only the roots that are references matter. -/
theorem Holdings.congr (H : h.Holdings roots rs)
    (hsame : ∀ v r, v.ref? = some r → (v ∈ roots ↔ v ∈ roots')) : h.Holdings roots' rs where
  nodup := H.nodup
  layout := H.layout
  rooted v hv r hr := H.rooted v ((hsame v r hr).mpr hv) r hr
  reachable r hr := by
    have hreach := H.reachable r hr
    induction hreach with
    | root hv hr' => exact .root ((hsame _ _ hr').mp hv) hr'
    | child ha hv hr' ih => exact .child (ih (H.layout.reachable H.rooted ha)) hv hr'

theorem Holdings.liveWords_eq (H : h.Holdings roots rs) :
    h.space.liveWords roots = h.space.total rs := by
  classical
  have hset : {r | h.space.Reachable roots r} = (rs.toFinset : Set Ref) := by
    ext r
    rw [Finset.mem_coe, List.mem_toFinset]
    exact ⟨H.layout.reachable H.rooted, H.reachable r⟩
  rw [Space.liveWords, hset, finsum_mem_coe_finset, List.sum_toFinset _ H.nodup]
  rfl

/-! ### Reservations -/

end Heap

/-- A heap of the capacity may have to grow to more words than there can be room for, before it has
served the need. -/
structure HeapSettings.MayOvergrow (w : Width) (s : HeapSettings) (capacity need : Nat) : Prop where
  max_lt : w.maxSpaceWords < s.maxWords
  need_lt : w.maxSpaceWords < 2 * max capacity need

theorem HeapSettings.MayOvergrow.mono {s : HeapSettings} {c k l : Nat} (h : s.MayOvergrow w c k)
    (hle : k ≤ l) : s.MayOvergrow w c l :=
  ⟨h.max_lt, h.need_lt.trans_le (by omega)⟩

namespace Heap

variable {h : Heap w} {roots roots' : List (Word w)} {rs : List Ref} {words : Nat}

/-- The heap still has the capacity, or there is nothing in it but so many live words. -/
def Tidy (h : Heap w) (capacity live : Nat) : Prop := h.capacity = capacity ∨ h.hp = live

/-- A reservation traps only in a heap that may overgrow. -/
theorem mayOvergrow_of_reserve (B : h.Bounded) {D : Set Ref} (L : h.space.Layout h.hp D)
    (hroots : ∀ v ∈ roots, v.Into D) {c : Nat} (T : h.Tidy c (h.space.liveWords roots))
    (hr : h.reserve words roots = .error .bounds) :
    h.settings.MayOvergrow w c (h.space.liveWords roots + words) := by
  by_cases hfree : words ≤ h.free
  · rw [reserve_of_free B.hp_le hfree] at hr
    cases hr
  · rw [reserve_of_not_free B.hp_le hfree] at hr
    obtain ⟨hover, _⟩ | ⟨_, c, _, hc, _⟩ := collectFor_cases B L hroots words
    · refine ⟨hover.2.trans_le (B.capacityFor_le _ _), ?_⟩
      have hgrown : w.maxSpaceWords < h.capacityFor (h.space.liveWords roots) words := hover.2
      have hmore : h.capacity < h.capacityFor (h.space.liveWords roots) words := hover.1
      have hdouble : h.capacityFor (h.space.liveWords roots) words ≤
          max (2 * h.capacity) (h.space.liveWords roots + words) := by
        unfold capacityFor
        split <;> omega
      unfold free at hfree
      obtain hkept | hlive := T <;> omega
    · rw [reclaim_eq hc] at hr
      split at hr <;> cases hr

/-- After a reservation the heap is as large as before and as full, or holds nothing but what is
live. -/
theorem tidy_of_reserve (B : h.Bounded) {D : Set Ref} (L : h.space.Layout h.hp D)
    (hroots : ∀ v ∈ roots, v.Into D) {c : Nat} (T : h.Tidy c (h.space.liveWords roots))
    {checkpoint : Checkpoint w} (hr : h.reserve words roots = .ok checkpoint) :
    checkpoint.heap.Tidy c (h.space.liveWords roots) := by
  obtain ⟨_, rfl⟩ | ⟨_, hr⟩ := reserve_eq_ok hr
  · exact T
  · obtain ⟨_, herr⟩ | ⟨_, c', _, hc', _, _, _, _, hhp, _⟩ := collectFor_cases B L hroots words
    · rw [reclaim_of_error herr] at hr
      cases hr
    · rw [reclaim_eq hc'] at hr
      split at hr <;> cases hr <;> exact .inr hhp

/-- The words are granted in a heap where the held blocks have moved. -/
structure Secured (h : Heap w) (roots : List (Word w)) (rs : List Ref) (words : Nat) (h' : Heap w)
    (ρ : Nat → Nat) : Prop where
  holdings : h'.Holdings (roots.map (Word.move ρ)) (rs.map (Ref.move ρ))
  bounded : h'.Bounded
  settings : h'.settings = h.settings
  limit : h'.limit = h'.hp + words
  tidy : ∀ {c}, h.Tidy c (h.space.total rs) → h'.Tidy c (h.space.total rs)
  block : ∀ {r lead xs}, r ∈ rs → h.space.BlockAt r lead xs →
    h'.space.BlockAt (r.move ρ) lead (xs.map (Word.move ρ))
  word : ∀ {v : Word w} {r}, r ∈ rs → v.ref? = some r → (v.move ρ).ref? = some (r.move ρ)

/-- The roots hold on to the same blocks where a collection has put them. -/
theorem Holdings.relocated (H : h.Holdings roots rs) {h' : Heap w} {ρ : Nat → Nat}
    (R : h.Relocates roots h' roots' ρ) : h'.Holdings roots' (rs.map (Ref.move ρ)) := by
  have hset : {b | ∃ a, h.space.Moves roots ρ a b} = {r | r ∈ rs.map (Ref.move ρ)} := by
    ext b
    rw [Set.mem_ofPred_eq, Set.mem_ofPred_eq, List.mem_map]
    constructor
    · rintro ⟨a, ha, rfl⟩
      exact ⟨a, H.layout.reachable H.rooted ha, rfl⟩
    · rintro ⟨a, ha, rfl⟩
      exact ⟨a, H.reachable a ha, rfl⟩
  refine ⟨H.nodup.map_on fun a ha b hb hab => ?_, hset ▸ R.layout, hset ▸ R.into, ?_⟩
  · exact (R.matched.unique ⟨H.reachable a ha, rfl⟩ ⟨H.reachable b hb, rfl⟩).mpr hab
  · intro b hb
    obtain ⟨a, ha, rfl⟩ := List.mem_map.mp hb
    obtain ⟨b, ⟨_, rfl⟩, hb⟩ := R.matched.reachable R.rooted (H.reachable a ha)
    exact hb

/-- The words are granted just when they fit beside the held blocks. -/
theorem Holdings.reserve (H : h.Holdings roots rs) (B : h.Bounded) {c : Nat}
    (T : h.Tidy c (h.space.total rs)) (words : Nat) :
    (h.settings.MayOvergrow w c (h.space.total rs + words) ∧
        h.reserve words roots = .error .bounds) ∨
      ∃ c ρ, h.reserve words roots = .ok c ∧ c.roots = roots.map (Word.move ρ) ∧
        ((h.settings.maxWords < h.space.total rs + words ∧
            c.shortage = some ⟨words, h.space.total rs, h.settings.maxWords⟩) ∨
          (h.space.total rs + words ≤ h.settings.maxWords ∧ c.shortage = none ∧
            h.Secured roots rs words c.heap ρ)) := by
  obtain herr | ⟨c, ρ, hc, R, B', hset, hshort, hlimit⟩ := reserve_cases B H.layout H.rooted words
  · rw [← H.liveWords_eq] at T ⊢
    exact .inl ⟨mayOvergrow_of_reserve B H.layout H.rooted T herr, herr⟩
  · refine .inr ⟨c, ρ, hc, R.roots_eq, ?_⟩
    rw [H.liveWords_eq] at hshort
    by_cases hmax : h.settings.maxWords < h.space.total rs + words
    · rw [if_pos hmax] at hshort
      exact .inl ⟨hmax, hshort⟩
    · rw [if_neg hmax] at hshort
      refine .inr ⟨Nat.not_lt.mp hmax, hshort, R.roots_eq ▸ H.relocated R, B', hset, hlimit hshort,
        fun T => ?_, fun hr b => b.moved R.matched (H.reachable _ hr), fun {v r} hr hv => ?_⟩
      · rw [← H.liveWords_eq] at T ⊢
        exact tidy_of_reserve B H.layout H.rooted T hc
      have hinto : v.Into {r | h.space.Reachable roots r} := by
        intro r' hr'
        cases hv.symm.trans hr'
        exact H.reachable r hr
      obtain ⟨b, hb, _, rfl⟩ := (R.word_matched B' hinto).of_some hv
      exact hb

/-! ### Blocks that are read -/

variable {D : Set Ref} {lead xs : List (Word w)} {r : Ref} {v x : Word w} {i : Nat}

theorem header_of_blockAt (B : h.Bounded) (L : h.space.Layout h.hp D) (hr : r ∈ D)
    {header : Header w} {rest : List (Word w)} (b : h.space.BlockAt r (header.word :: rest) xs) :
    h.header r = .ok header := by
  have hcell : h.space.cell r.offset = header.word := b.cell (i := 0) rfl
  rw [header_of_layout B L hr b.headed, hcell]

theorem load_of_blockAt (B : h.Bounded) (L : h.space.Layout h.hp D) (hr : r ∈ D)
    (b : h.space.BlockAt r lead xs) (hi : (lead ++ xs)[i]? = some x) : h.load r i = .ok x := by
  have hlt : i < h.space.extent r := by
    rw [b.extent, ← List.length_append]
    exact (List.getElem?_eq_some_iff.mp hi).1
  rw [load_of_layout B L hr hlt, b.cell hi]

/-- The fields of a block are its traced words. -/
theorem field_of_blockAt (B : h.Bounded) (L : h.space.Layout h.hp D) (hr : r ∈ D)
    (hv : v.ref? = some r) {uid : Nat} (hu : uid ≤ w.maxUid) (hf : xs.length ≤ w.maxFields)
    (b : h.space.BlockAt r [(Header.pack .constructor uid xs.length).word] xs)
    (hi : xs[i]? = some x) : h.field v i = .ok x := by
  have hlt : i < xs.length := (List.getElem?_eq_some_iff.mp hi).1
  have hheader := header_of_blockAt B L hr b
  have hfields : ¬ (Header.pack .constructor uid xs.length : Header w).fields ≤ i := by
    rw [Header.fields_pack hu hf]
    omega
  have hload : h.load r (1 + i) = .ok x :=
    load_of_blockAt B L hr b (by simpa [Nat.add_comm] using hi)
  simp [field, expectRef, hv, b.headed, hheader, hfields, hload, bind, Except.bind]

/-! ### New blocks -/

theorem Tidy.place {c live : Nat} (T : h.Tidy c live) (vs : List (Word w)) :
    (h.place vs).Tidy c (live + vs.length) :=
  T.imp (fun hkept => (Space.write_capacity _ _ _).trans hkept) fun hlive => by rw [← hlive]; rfl

theorem blockAt_place (b : Block false lead xs) :
    (h.place (lead ++ xs)).space.BlockAt ⟨h.hp, false⟩ lead xs :=
  ⟨rfl, Space.leads_write b, Space.traced_write b⟩

theorem Holdings.keeps (H : h.Holdings roots rs) (vs : List (Word w)) {r : Ref} (hr : r ∈ rs) :
    h.space.Keeps (h.place vs).space r :=
  Space.keeps_write vs (H.layout.within r hr)

/-- The blocks of a layout end where the next one is placed. -/
theorem hp_notMem (L : h.space.Layout h.hp {r | r ∈ rs}) : Ref.mk h.hp false ∉ rs := by
  intro hmem
  have hwithin := L.within _ hmem
  have hpos := h.space.extent_pos ⟨h.hp, false⟩
  dsimp only at hwithin
  omega

theorem layout_place (L : h.space.Layout h.hp {r | r ∈ rs}) (b : Block false lead xs)
    (hxs : ∀ v ∈ xs, v.Into {r | r ∈ rs}) :
    (h.place (lead ++ xs)).space.Layout (h.place (lead ++ xs)).hp
      {r | r ∈ Ref.mk h.hp false :: rs} := by
  have hset : {r | r ∈ Ref.mk h.hp false :: rs} = insert ⟨h.hp, false⟩ {r | r ∈ rs} := by
    ext r
    simp
  exact hset ▸ L.write b hxs

/-- A new block joins the blocks that are held, if the new roots hold on to all of them. -/
theorem Holdings.place (H : h.Holdings roots rs) (b : Block false lead xs)
    (hxs : ∀ v ∈ xs, v.Into {r | r ∈ rs})
    (hroots : ∀ v ∈ roots', v.Into {r | r ∈ ⟨h.hp, false⟩ :: rs})
    (hreach : ∀ r ∈ Ref.mk h.hp false :: rs,
      (h.place (lead ++ xs)).space.Reachable roots' r) :
    (h.place (lead ++ xs)).Holdings roots' (⟨h.hp, false⟩ :: rs) :=
  ⟨List.nodup_cons.mpr ⟨hp_notMem H.layout, H.nodup⟩, layout_place H.layout b hxs, hroots, hreach⟩

end Heap

def Pose.moved (q : Pose w) (ρ : Nat → Nat) (h : Heap w) : Pose w :=
  { q with
    heap := h
    beneath := q.beneath.map (Word.move ρ)
    locals := q.locals.map (Word.move ρ)
    result := q.result.move ρ }

namespace Machine

variable {m : Machine w} {q : Pose w} {words : Nat} {c : Checkpoint w}

/-! ### Checkpoints -/

/-- A checkpoint that grants the words puts the moved roots back. -/
theorem takes_prealloc {ρ : Nat → Nat} (hc : q.heap.reserve words (q.result :: q.slots) = .ok c)
    (hroots : c.roots = (q.result :: q.slots).map (Word.move ρ)) (hgranted : c.shortage = none) :
    m.Takes (prealloc words) q () (q.moved ρ c.heap) := by
  intro j
  have hpoint := checkpoint_of_ok (m := m.posed q j) hc hroots
  rw [hgranted] at hpoint
  refine ⟨j.recordHeap c.events, (bind_of_ok hpoint).trans ?_⟩
  refine congrArg (EStateM.Result.ok ()) (posed_eq rfl ?_ rfl ?_ rfl rfl rfl rfl rfl)
  · simp [slots, Stack.map, posed, Pose.slots, Pose.moved]
  · exact (List.length_map _).symm

theorem stops_prealloc_of_shortage {s : Shortage} {f : Word w → Word w}
    (hc : q.heap.reserve words (q.result :: q.slots) = .ok c)
    (hroots : c.roots = (q.result :: q.slots).map f) (hs : c.shortage = some s) :
    m.Stops (prealloc words) q (.error (.outOfMemory s)) := by
  intro j
  have hpoint := checkpoint_of_ok (m := m.posed q j) hc hroots
  rw [hs] at hpoint
  exact ⟨_, bind_of_ok hpoint⟩

theorem stops_prealloc_of_trap {t : Trap w}
    (hc : q.heap.reserve words (q.result :: q.slots) = .error t) :
    m.Stops (prealloc words) q (.trap t) := by
  intro j
  obtain ⟨n, hpoint⟩ := checkpoint_of_error (m := m.posed q j) hc
  exact ⟨n, bind_of_error hpoint⟩

/-- How a checkpoint ends, where the blocks that are held are known. -/
theorem prealloc_cases {rs : List Ref} (H : q.heap.Holdings (q.result :: q.slots) rs)
    (B : q.heap.Bounded) {c : Nat} (T : q.heap.Tidy c (q.heap.space.total rs)) (words : Nat) :
    (q.heap.settings.MayOvergrow w c (q.heap.space.total rs + words) ∧
        m.Stops (prealloc words) q (.trap .bounds)) ∨
      (q.heap.settings.maxWords < q.heap.space.total rs + words ∧ m.Stops (prealloc words) q
        (.error (.outOfMemory ⟨words, q.heap.space.total rs, q.heap.settings.maxWords⟩))) ∨
      (q.heap.space.total rs + words ≤ q.heap.settings.maxWords ∧ ∃ h ρ,
        m.Takes (prealloc words) q () (q.moved ρ h) ∧
          q.heap.Secured (q.result :: q.slots) rs words h ρ) := by
  obtain ⟨hlarge, herr⟩ | ⟨c, ρ, hc, hroots, ⟨hfull, hs⟩ | ⟨hfits, hs, S⟩⟩ := H.reserve B T words
  · exact .inl ⟨hlarge, stops_prealloc_of_trap herr⟩
  · exact .inr (.inl ⟨hfull, stops_prealloc_of_shortage hc hroots hs⟩)
  · exact .inr (.inr ⟨hfits, c.heap, ρ, takes_prealloc hc hroots hs, S⟩)

/-- An object is made in the heap of the pose. -/
theorem takes_allocate {x : Alloc w (Word w)} {plan : Heap w → Except (Trap w) (Plan w)}
    (F : x.Follows plan words) {p : Plan w} (hp : plan q.heap = .ok p) :
    m.Takes (allocate x) q p.value { q with heap := q.heap.place p.contents } :=
  .of_eq fun _ => allocate_of_ok F hp

end Machine

end Trampoline

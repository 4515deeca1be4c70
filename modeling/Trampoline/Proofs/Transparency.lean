import Trampoline.Proofs.Compaction
import Trampoline.Proofs.Dispatch
import Trampoline.Proofs.Levels

/-!
Observers cannot see a collection.

A checkpoint moves the reachable blocks one to one, so the heap before it and the heap after it are
mirrors of each other. What is printed of a value, whether two values are equal, which branch a case
takes and what is seen of a closure are the same on both sides of a mirror. Equality is compared as
the unbounded loop has it, since the bound on the levels goes by the heap pointer, which moves.
-/

namespace Trampoline

variable {w : Width}

/-! ### Mirrors -/

namespace Heap.Mirrors

variable {φ : Ref → Ref → Prop} {h k : Heap w} {v u x y : Word w}

/-- Where there are no cycles, values are equal on both sides or on none. -/
theorem equal (R : Mirrors φ h k) (A : h.space.Acyclic {a | ∃ b, φ a b})
    (hvu : Word.Matched φ v u) (hxy : Word.Matched φ x y) :
    ∃ d, h.equal v x = .ok (some d) ∧ k.equal u y = .ok (some d) := by
  obtain ⟨d, hd, _⟩ := equal_of_acyclic R.left R.layout A hvu.into.1 hxy.into.1
  exact ⟨d, hd, (R.equal_eq hvu hxy).trans hd⟩

end Heap.Mirrors

/-! ### Cases -/

theorem Tier.compile_eq_switch {β : Type} {l : List (Nat × β)} {live : Bool}
    {m : Std.TreeMap Nat β} (h : compile l live = .switch m) : m = .ofList l := by
  unfold compile at h
  split at h
  · cases h
  · cases h
  · cases h
    rfl

theorem Word.toNat_mod_of_none {v : Word w} (h : v.ref? = none) : v.toNat % 4 ≠ 1 := by
  intro htag
  simp [ref?, isRef, tag, htag] at h

/-- A case that was built from arms has none for a reference. -/
theorem Case.plain_of_build {β : Type} {arms : List (Arm β)} {a : Arms β} {c : Case β}
    (ha : arms.foldlM (Arms.add w) {} = .ok a) (hc : a.build = .ok c) : c.plain = true := by
  obtain ⟨_, rfl⟩ := Arms.foldlM_add_iff.mp ⟨ha, Arms.duplicate_of_build hc⟩
  have C := compiled_of_build hc
  unfold plain
  split
  · next m hm =>
    rw [C.immediate] at hm
    rw [Tier.compile_eq_switch hm, List.all_eq_true]
    intro key hkey
    have hmem : key ∈ (Arms.ofList w arms).immediate.map Prod.fst := by
      simpa [Std.TreeMap.mem_ofList] using hkey
    obtain ⟨p, hp, rfl⟩ := List.mem_map.mp hmem
    obtain ⟨arm, _, v, hv, rfl⟩ := Arms.mem_immediate.mp hp
    simpa using Word.toNat_mod_of_none (Arm.ref?_of_key hv)
  · rfl

/-! ### Checkpoints -/

theorem Word.Matched.eq_move {s : Space w} {roots : List (Word w)} {ρ : Nat → Nat} {v u : Word w}
    (hvu : Word.Matched (s.Moves roots ρ) v u) : u = v.move ρ := by
  cases hvu with
  | same hv hu => rw [hu, Word.move_of_none hv]
  | moved ha hb hab => rw [Word.move_of_some ha, Word.eq_word hb, hab.2]

namespace Heap

variable {h k : Heap w} {roots roots' : List (Word w)} {ρ : Nat → Nat} {D : Set Ref} {v u : Word w}

theorem Relocates.roots_eq (R : h.Relocates roots k roots' ρ) : roots' = roots.map (Word.move ρ) := by
  have hroots : roots.map (Word.move ρ) = roots'.map id :=
    map_eq_of_forall₂ R.rooted fun v _ u hvu => hvu.eq_move.symm
  rw [hroots, List.map_id]

/-- A word that leads to what is reachable is related to itself, moved. -/
theorem Relocates.word_matched (R : h.Relocates roots k roots' ρ) (B : k.Bounded)
    (hv : v.Into {r | h.space.Reachable roots r}) :
    Word.Matched (h.space.Moves roots ρ) v (v.move ρ) := by
  cases hr : v.ref? with
  | none => exact .same hr (Word.move_of_none hr)
  | some r =>
    have hmoved : h.space.Moves roots ρ r (r.move ρ) := ⟨hv r hr, rfl⟩
    have hle := R.layout.within _ ⟨r, hmoved⟩
    have hmax := B.hp_le_maxOffset
    refine .moved hr ?_ hmoved
    rw [Word.move_of_some hr]
    exact Word.ref?_word (by omega)

/-- A heap and what a checkpoint leaves of it are mirrors of each other. -/
theorem Relocates.mirrors (R : h.Relocates roots k roots' ρ) (B : h.Bounded) (B' : k.Bounded)
    (L : h.space.Layout h.hp D) (hroots : ∀ v ∈ roots, v.Into D) :
    Mirrors (h.space.Moves roots ρ) h k := by
  have hset : {a | ∃ b, h.space.Moves roots ρ a b} = {r | h.space.Reachable roots r} := by
    ext a
    exact ⟨fun ⟨_, ha⟩ => ha.1, fun ha => ⟨_, ha, rfl⟩⟩
  exact ⟨B, B', hset ▸ L.live hroots, R.layout, R.matched⟩

/-- A collection, or a reservation that may have collected, relocates the reachable blocks. -/
theorem relocates_of_checkpoint (B : h.Bounded) (L : h.space.Layout h.hp D)
    (hroots : ∀ v ∈ roots, v.Into D) {c : Checkpoint w}
    (hc : h.collect roots = .ok c ∨ ∃ words, h.reserve words roots = .ok c) :
    ∃ ρ, h.Relocates roots c.heap c.roots ρ ∧ c.heap.Bounded := by
  rcases hc with hc | ⟨words, hc⟩
  · obtain ⟨_, herr⟩ | ⟨_, d, ρ, hd, R, B', _⟩ := collectFor_cases B L hroots 0
    · rw [collect, herr] at hc
      cases hc
    · rw [collect, hd] at hc
      cases hc
      exact ⟨ρ, R, B'⟩
  · obtain herr | ⟨d, ρ, hd, R, B', _⟩ := reserve_cases B L hroots words
    · rw [hc] at herr
      cases herr
    · rw [hc] at hd
      cases hd
      exact ⟨ρ, R, B'⟩

/-- Whatever is reachable prints the same, compares the same, takes the same branches and shows the
same closures before and after a collection or a reservation, whether this collects, grows the heap,
or ends in a shortage. -/
theorem checkpoint_unobservable (h : Heap w) (roots : List (Word w)) (blocks : Set Ref)
    (P : h.Partitioned roots blocks) (A : h.space.Acyclic blocks) (c : Checkpoint w)
    (hc : h.collect roots = .ok c ∨ ∃ words, h.reserve words roots = .ok c) :
    ∃ ρ, h.Relocates roots c.heap c.roots ρ ∧ c.roots = roots.map (Word.move ρ) ∧
      ∀ a : Word w, a.Into {r | h.space.Reachable roots r} →
        (∀ names, c.heap.render names (a.move ρ) = h.render names a) ∧
        (∀ b : Word w, b.Into {r | h.space.Reachable roots r} →
          ∃ d, h.equal a b = .ok (some d) ∧
            c.heap.equal (a.move ρ) (b.move ρ) = .ok (some d)) ∧
        (∀ (β : Type) (arms : List (Arm β)) (made : Arms β) (case : Case β),
          arms.foldlM (Arms.add w) {} = .ok made → made.build = .ok case →
          case.select c.heap (a.move ρ) = case.select h a) ∧
        ((h.closure? a = .ok none ∧ c.heap.closure? (a.move ρ) = .ok none) ∨
          ∃ f, h.closure? a = .ok (some f) ∧
            c.heap.closure? (a.move ρ) = .ok (some { f with object := f.object.move ρ })) := by
  obtain ⟨ρ, R, B⟩ := relocates_of_checkpoint P.bounded P.layout P.rooted hc
  have M := R.mirrors P.bounded B P.layout P.rooted
  have A' : h.space.Acyclic {a | ∃ b, h.space.Moves roots ρ a b} := by
    rintro r ⟨_, hr, _⟩
    exact A r (P.layout.reachable P.rooted hr)
  refine ⟨ρ, R, R.roots_eq, fun a ha => ?_⟩
  have hmatch := R.word_matched B ha
  refine ⟨fun names => M.renderLevels names _ hmatch, fun b hb => ?_, ?_, ?_⟩
  · exact M.equal A' hmatch (R.word_matched B hb)
  · intro β arms made case hmade hcase
    exact M.select (Case.plain_of_build hmade hcase) hmatch
  · obtain hnone | ⟨f, _, hf, hf', _, rfl⟩ := M.closure? hmatch
    · exact .inl hnone
    · exact .inr ⟨f, hf, hf'⟩

/-- A pair of a closure that holds a list cell and of a cell with the same fields, above a pair that
nothing refers to. -/
def lookalike : Heap .bits64 where
  space :=
    { cells :=
        #[.ofNat 4, .ofNat 8, (Header.pack .constructor 9 2).word, .ofNat 4, .ofNat 8,
          (Header.pack .closure 10 1).word, .ofNat 2, .ofNat 2, (Ref.mk 2 false).word,
          (Header.pack .constructor 9 2).word, .ofNat 4, .ofNat 8,
          (Ref.mk 5 false).word, (Ref.mk 9 false).word]
      capacity := 16 }
  hp := 14
  limit := 14
  settings := { initialWords := 16, maxWords := 32 }
  stats := {}

def lookalikeBlocks : List Ref := [⟨0, true⟩, ⟨2, false⟩, ⟨5, false⟩, ⟨9, false⟩, ⟨12, true⟩]

theorem lookalike_partitioned :
    lookalike.Partitioned [(Ref.mk 12 true).word] {r | r ∈ lookalikeBlocks} where
  bounded := ⟨by decide, by decide, by decide, by decide⟩
  layout := by decide
  cover := by
    change ∀ i < 14, ∃ r ∈ lookalikeBlocks, _
    decide
  rooted := by decide

theorem lookalike_acyclic : lookalike.space.Acyclic {r | r ∈ lookalikeBlocks} := by
  refine lookalike_partitioned.layout.acyclic_of_lower ?_
  change ∀ r ∈ lookalikeBlocks, _
  decide

/-- A value is printed and compared as before after a collection, and a case finds its branch as
before. -/
theorem checkpoint_unobservable_lookalike :
    lookalike.Partitioned [(Ref.mk 12 true).word] {r | r ∈ lookalikeBlocks} ∧
    lookalike.space.Acyclic {r | r ∈ lookalikeBlocks} ∧
    ∃ c ρ, lookalike.collect [(Ref.mk 12 true).word] = .ok c ∧
      c.roots = [(Ref.mk 12 true).word.move ρ] ∧
      c.heap.render .builtin ((Ref.mk 12 true).word.move ρ) =
        lookalike.render .builtin (Ref.mk 12 true).word ∧
      (∃ d, lookalike.equal (Ref.mk 2 false).word (Ref.mk 9 false).word = .ok (some d) ∧
        c.heap.equal ((Ref.mk 2 false).word.move ρ) ((Ref.mk 9 false).word.move ρ) =
          .ok (some d)) ∧
      (∃ made case, Case.listArms.foldlM (Arms.add .bits64) {} = .ok made ∧
        made.build = .ok case ∧
        case.select c.heap ((Ref.mk 9 false).word.move ρ) =
          case.select lookalike (Ref.mk 9 false).word) ∧
      ∃ f, lookalike.closure? (Ref.mk 5 false).word = .ok (some f) ∧
        c.heap.closure? ((Ref.mk 5 false).word.move ρ) =
          .ok (some { f with object := f.object.move ρ }) := by
  have P := lookalike_partitioned
  refine ⟨P, lookalike_acyclic, ?_⟩
  obtain ⟨hover, _⟩ | ⟨_, c, _, hc, _⟩ := collectFor_cases P.bounded P.layout P.rooted 0
  · exact absurd hover (P.bounded.not_overgrows (by decide) 0 _)
  · obtain ⟨ρ, _, hroots, hsame⟩ := checkpoint_unobservable lookalike _ _ P lookalike_acyclic c (.inl hc)
    have hroot : lookalike.space.Reachable [(Ref.mk 12 true).word] ⟨12, true⟩ :=
      .root List.mem_cons_self (by decide)
    have hclosure : lookalike.space.Reachable [(Ref.mk 12 true).word] ⟨5, false⟩ :=
      .child (v := (Ref.mk 5 false).word) hroot (by decide) (by decide)
    have hcell : lookalike.space.Reachable [(Ref.mk 12 true).word] ⟨9, false⟩ :=
      .child (v := (Ref.mk 9 false).word) hroot (by decide) (by decide)
    have hheld : lookalike.space.Reachable [(Ref.mk 12 true).word] ⟨2, false⟩ :=
      .child (v := (Ref.mk 2 false).word) hclosure (by decide) (by decide)
    have hinto : ∀ r : Ref, (r.word : Word .bits64).ref? = some r →
        lookalike.space.Reachable [(Ref.mk 12 true).word] r →
        (r.word : Word .bits64).Into {r | lookalike.space.Reachable [(Ref.mk 12 true).word] r} := by
      intro r hr hreach x hx
      cases hr.symm.trans hx
      exact hreach
    have hcell' := hinto _ (by decide) hcell
    have hmade : Case.listArms.foldlM (Arms.add .bits64) {} = .ok _ := rfl
    refine ⟨c, ρ, hc, hroots, (hsame _ (hinto _ (by decide) hroot)).1 .builtin,
      (hsame _ (hinto _ (by decide) hheld)).2.1 _ hcell', ⟨_, _, hmade, rfl, ?_⟩, ?_⟩
    · exact (hsame _ hcell').2.2.1 _ _ _ _ hmade rfl
    · obtain ⟨hnone, _⟩ | hsome := (hsame _ (hinto _ (by decide) hclosure)).2.2.2
      · cases hnone
      · exact hsome

end Heap

end Trampoline

import Trampoline.Proofs.Unfolding

/-!
What the accessors read.

A collection takes those words of a block for values that are in its traced range, and no others.
The components of a pair and the fields of a constructor are in that range. The first words of a
closure are not: its entry is the number of a label, whatever its tag, and its arity is a number.
Fields are counted from the word after the header in every headed block, so the first two fields of
a closure are its entry and its arity, and its captured arguments come after them.
-/

namespace Trampoline

variable {w : Width}

/-- The ways to read a value out of a block. -/
inductive Access where
  | fst
  | snd
  | field (i : Nat)
deriving DecidableEq, Repr

namespace Access

def index : Access → Nat
  | fst => 0
  | snd => 1
  | field i => 1 + i

def read (h : Heap w) (v : Word w) : Access → Except (Trap w) (Word w)
  | fst => h.fst v
  | snd => h.snd v
  | field i => h.field v i

/-- The blocks that can be read in this way. -/
def Suits (s : Space w) (r : Ref) : Access → Prop
  | fst => r.pair = true
  | snd => r.pair = true
  | field i => r.pair = false ∧ i < (s.headerAt r).fields

end Access

/-! ### Traced words -/

namespace Space

variable {s : Space w} {r : Ref}

theorem shapeAt_of_pair (hp : r.pair = true) : s.shapeAt r = .pair := by simp [shapeAt, hp]

/-- A headed block traces as many words as it has fields, after its header and, in a closure, two
more words. -/
theorem shapeAt_of_headed (hp : r.pair = false) :
    s.shapeAt r = ⟨if (s.headerAt r).isClosure then 3 else 1, (s.headerAt r).fields⟩ := by
  cases hk : (s.headerAt r).kind with
  | constructor =>
    rw [shapeAt_of_constructor hp hk]
    simp [Header.isClosure, hk, Shape.constructor]
  | closure =>
    rw [shapeAt_of_closure hp hk]
    simp [Header.isClosure, hk, Shape.closure]

def Traces (s : Space w) (r : Ref) (i : Nat) : Prop :=
  ∃ shape, s.shape r = .ok shape ∧ shape.lead ≤ i ∧ i < shape.words

theorem Layout.traces_iff {stop : Nat} {D : Set Ref} (L : s.Layout stop D)
    (hstop : stop ≤ s.capacity) (hr : r ∈ D) {i : Nat} :
    s.Traces r i ↔ (s.shapeAt r).lead ≤ i ∧ i < s.extent r := by
  have hwithin := L.within r hr
  have hpos := s.extent_pos r
  have hshape : s.shape r = .ok (s.shapeAt r) := shape_eq (by omega)
  simp [Traces, hshape, extent]

/-- A word in the traced range leads to a block of the layout. -/
theorem Layout.into_of_lead_le {stop : Nat} {D : Set Ref} (L : s.Layout stop D) (hr : r ∈ D)
    {i : Nat} (hlead : (s.shapeAt r).lead ≤ i) (hi : i < s.extent r) :
    (s.cell (r.offset + i)).Into D := by
  rw [extent_eq] at hi
  refine L.closed r hr _ (mem_traced.mpr ⟨i - (s.shapeAt r).lead, by omega, ?_⟩)
  congr 1
  omega

end Space

/-! ### Accessors -/

namespace Access

variable {h : Heap w} {D : Set Ref} {v x : Word w} {r : Ref} {a : Access}

theorem index_lt_extent {s : Space w} (hs : a.Suits s r) : a.index < s.extent r := by
  cases a with
  | fst => simp [Space.extent, Space.shapeAt_of_pair hs, index, Shape.words, Shape.pair]
  | snd => simp [Space.extent, Space.shapeAt_of_pair hs, index, Shape.words, Shape.pair]
  | field i =>
    obtain ⟨hp, hi⟩ := hs
    simp only [Space.extent, Space.shapeAt_of_headed hp, index, Shape.words]
    split <;> omega

/-- An accessor is before the traced range only at the first two fields of a closure. -/
theorem lead_le_index_iff {s : Space w} (hs : a.Suits s r) :
    (s.shapeAt r).lead ≤ a.index ↔
      (r.pair = false → (s.headerAt r).isClosure = true → 3 ≤ a.index) := by
  cases a with
  | fst =>
    have hp : r.pair = true := hs
    simp [Space.shapeAt_of_pair hp, Shape.pair, hp]
  | snd =>
    have hp : r.pair = true := hs
    simp [Space.shapeAt_of_pair hp, Shape.pair, hp]
  | field i =>
    simp only [Space.shapeAt_of_headed hs.1, index, hs.1, true_implies]
    split <;> simp_all

theorem traces_iff (B : h.Bounded) (L : h.space.Layout h.hp D) (hr : r ∈ D)
    (hs : a.Suits h.space r) :
    h.space.Traces r a.index ↔
      (r.pair = false → (h.space.headerAt r).isClosure = true → 3 ≤ a.index) := by
  rw [L.traces_iff B.hp_le hr, and_iff_left (index_lt_extent hs), lead_le_index_iff hs]

theorem of_read_eq_ok (hx : a.read h v = .ok x) :
    ∃ r, v.ref? = some r ∧ a.Suits h.space r ∧ x = h.space.cell (r.offset + a.index) := by
  cases a with
  | fst => exact Heap.fst_eq_ok hx
  | snd => exact Heap.snd_eq_ok hx
  | field i =>
    obtain ⟨r, hr, hp, hi, rfl⟩ := Heap.field_eq_ok hx
    exact ⟨r, hr, ⟨hp, hi⟩, by rw [index, Nat.add_assoc]⟩

/-- A block that suits an accessor can be read by it. -/
theorem read_eq (B : h.Bounded) (L : h.space.Layout h.hp D) (hr : v.ref? = some r) (hrD : r ∈ D)
    (hs : a.Suits h.space r) : a.read h v = h.load r a.index := by
  cases a with
  | fst =>
    have hp : r.pair = true := hs
    simp [read, Heap.fst, Heap.expectRef, hr, hp, bind, Except.bind, index]
  | snd =>
    have hp : r.pair = true := hs
    simp [read, Heap.snd, Heap.expectRef, hr, hp, bind, Except.bind, index]
  | field i =>
    obtain ⟨hp, hi⟩ := hs
    have hin : ¬ (h.space.headerAt r).fields ≤ i := Nat.not_le.mpr hi
    have hheader : h.header r = .ok (h.space.headerAt r) := Heap.header_of_layout B L hrD hp
    simp [read, Heap.field, Heap.expectRef, hr, hp, hheader, hin, bind, Except.bind, index]

end Access

namespace Heap

variable {h : Heap w} {roots : List (Word w)} {blocks : Set Ref} {v : Word w} {c : ClosureView w}

/-- After the arity, the words of a closure are its captured arguments. -/
theorem captured_of_closureAt (B : h.Bounded) (L : h.space.Layout h.hp blocks)
    (hc : c.object ∈ blocks) (hcl : h.closureAt c.object = some c) {i : Nat} (hi : i < c.captured)
    (htwo : 2 ≤ i) :
    ∃ args, h.capturedArgs c = .ok args ∧
      args[i - 2]? = some (h.space.cell (c.object.offset + (1 + i))) := by
  refine ⟨_, capturedArgs_of_closureAt B L hc hcl, ?_⟩
  have hshape := (shapeAt_of_closure hcl).2
  have hlt : i - 2 < (h.space.traced c.object).length := by
    rw [Space.length_traced, hshape]
    change i - 2 < c.captured
    omega
  rw [List.getElem?_eq_getElem hlt]
  simp only [Space.traced, hshape, Space.getElem_segment]
  congr 2
  omega

/-- In a heap that falls into blocks, `fst` and `snd` read pairs and `field` reads headed blocks,
as far as they have fields. What is read is a word of the block. If the value is no closure it is in
the traced range, and leads to a block again if it is a reference. Fields of a closure are its entry,
its arity and then its captured arguments, and of these only the captured arguments are traced. -/
theorem accessors_stay_traced (P : h.Partitioned roots blocks) (hv : v.Into blocks) (a : Access) :
    ((∃ x, a.read h v = .ok x) ↔ ∃ r, v.ref? = some r ∧ a.Suits h.space r) ∧
    ∀ x, a.read h v = .ok x → ∃ r ∈ blocks, v.ref? = some r ∧ h.load r a.index = .ok x ∧
      (h.space.Traces r a.index → x.Into blocks) ∧
      ∃ closure, h.closure? v = .ok closure ∧
        (closure = none → h.space.Traces r a.index) ∧
        ∀ c, closure = some c → ∃ i < c.captured, a = .field i ∧
          (i = 0 → ¬ h.space.Traces r a.index ∧ c.entry = .ofNat x.toNat) ∧
          (i = 1 → ¬ h.space.Traces r a.index ∧ c.arity = x.toNat) ∧
          (2 ≤ i → h.space.Traces r a.index ∧
            ∃ args, h.capturedArgs c = .ok args ∧ args[i - 2]? = some x) := by
  have L := P.layout
  constructor
  · constructor
    · rintro ⟨x, hx⟩
      obtain ⟨r, hr, hs, _⟩ := Access.of_read_eq_ok hx
      exact ⟨r, hr, hs⟩
    · rintro ⟨r, hr, hs⟩
      have hread := Access.read_eq P.bounded L hr (hv r hr) hs
      exact ⟨_, hread.trans (load_of_layout P.bounded L (hv r hr) (Access.index_lt_extent hs))⟩
  · intro x hx
    obtain ⟨r, hr, hs, rfl⟩ := Access.of_read_eq_ok hx
    have hrD := hv r hr
    have htraces := Access.traces_iff P.bounded L hrD hs
    refine ⟨r, hrD, hr, load_of_layout P.bounded L hrD (Access.index_lt_extent hs), ?_, _,
      closure?_of_layout P.bounded L hv, ?_, ?_⟩
    · intro ht
      obtain ⟨hlead, hi⟩ := (L.traces_iff P.bounded.hp_le hrD).mp ht
      exact L.into_of_lead_le hrD hlead hi
    · intro hnone
      rw [hr, Option.bind_some] at hnone
      refine htraces.mpr fun hp hk => ?_
      have hsome : h.closureAt r ≠ none := by
        unfold closureAt
        rw [if_pos ⟨hp, hk⟩]
        exact Option.some_ne_none _
      exact absurd hnone hsome
    · intro c hc
      rw [hr, Option.bind_some] at hc
      obtain ⟨hp, hk, hview⟩ := closureAt_eq_some hc
      cases a with
      | fst => exact absurd (hp.symm.trans hs) Bool.false_ne_true
      | snd => exact absurd (hp.symm.trans hs) Bool.false_ne_true
      | field i =>
        -- the tracer starts three words into a closure, and fields are counted from the second word
        have hindex : h.space.Traces r (1 + i) ↔ 3 ≤ 1 + i := by
          simpa only [Access.index, hp, Space.headerAt, hk, true_implies] using htraces
        obtain rfl : c.object = r := (shapeAt_of_closure hc).1
        have hi : i < c.captured := by
          have hlt := hs.2
          rw [hview]
          exact hlt
        refine ⟨i, hi, rfl, ?_, ?_, ?_⟩
        · rintro rfl
          exact ⟨fun ht => absurd (hindex.mp ht) (by omega), congrArg ClosureView.entry hview⟩
        · rintro rfl
          exact ⟨fun ht => absurd (hindex.mp ht) (by omega), congrArg ClosureView.arity hview⟩
        · intro htwo
          exact ⟨hindex.mpr (by omega), captured_of_closureAt P.bounded L hrD hc hi htwo⟩

def stray : Heap .bits64 where
  space :=
    { cells :=
        #[.ofNat 4, .ofNat 8,
          (Header.pack .constructor 7 2).word, (Ref.mk 0 true).word, .ofNat 12,
          (Header.pack .closure 8 3).word, .ofNat 13, .ofNat 4, (Ref.mk 2 false).word, .ofNat 0,
          .ofNat 0]
      capacity := 16 }
  hp := 11
  limit := 11
  settings := { initialWords := 16, maxWords := 16 }
  stats := {}

def strayBlocks : List Ref := [⟨0, true⟩, ⟨2, false⟩, ⟨5, false⟩]

def strayClosure : Word .bits64 := (Ref.mk 5 false).word

theorem partitioned_stray : stray.Partitioned [] {r | r ∈ strayBlocks} where
  bounded := ⟨by decide, by decide, by decide, by decide⟩
  layout := by decide
  cover := by
    change ∀ i < 11, ∃ r ∈ strayBlocks, _
    decide
  rooted := by simp

/-- A captured argument is read as a field, and leads to a block. -/
theorem accessors_stay_traced_stray :
    stray.Partitioned [] {r | r ∈ strayBlocks} ∧
    strayClosure.Into {r | r ∈ strayBlocks} ∧
    ∃ x, stray.field strayClosure 2 = .ok x ∧ x.Into {r | r ∈ strayBlocks} := by
  have hv : strayClosure.Into {r | r ∈ strayBlocks} := by decide
  obtain ⟨hreads, htraced⟩ := accessors_stay_traced partitioned_stray hv (.field 2)
  obtain ⟨x, hx⟩ := hreads.mpr ⟨⟨5, false⟩, by decide, by decide, by decide⟩
  obtain ⟨r, _, _, _, hinto, closure, hclosure, hnone, hsome⟩ := htraced x hx
  refine ⟨partitioned_stray, hv, x, hx, hinto ?_⟩
  cases closure with
  | none => exact hnone rfl
  | some c =>
    obtain ⟨i, _, ha, _, _, hcaptured⟩ := hsome c rfl
    cases ha
    exact (hcaptured (by decide)).1

/-- The first field of a closure is its entry, and may refer to where no block is. -/
theorem field_of_closure_forges :
    stray.Partitioned [] {r | r ∈ strayBlocks} ∧
    strayClosure.Into {r | r ∈ strayBlocks} ∧
    ∃ x, stray.field strayClosure 0 = .ok x ∧
      ¬ stray.space.Traces ⟨5, false⟩ 1 ∧ ¬ x.Into {r | r ∈ strayBlocks} := by
  refine ⟨partitioned_stray, by decide, .ofNat 13, by decide, ?_, by decide⟩
  rintro ⟨shape, hshape, hlead, _⟩
  cases hshape
  exact absurd hlead (by decide)

end Heap

end Trampoline

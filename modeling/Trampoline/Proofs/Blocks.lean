import Trampoline.Heap
import Trampoline.Proofs.Words

/-!
Blocks in a space and the words they are made of.

A block is known by the reference to it. Its leading words are raw, its traced words may refer to
further blocks. Words are read here without regard to the capacity; the checked reads agree where
they do not trap.
-/

namespace Trampoline

/-- The same kind of reference at the offset that `ρ` gives. -/
def Ref.move (ρ : Nat → Nat) (r : Ref) : Ref := ⟨ρ r.offset, r.pair⟩

@[simp] theorem Ref.move_offset (ρ : Nat → Nat) (r : Ref) : (r.move ρ).offset = ρ r.offset := rfl
@[simp] theorem Ref.move_pair (ρ : Nat → Nat) (r : Ref) : (r.move ρ).pair = r.pair := rfl

/-- A word after its reference, if it is one, has been moved. -/
def Word.move {w : Width} (ρ : Nat → Nat) (v : Word w) : Word w :=
  match v.ref? with
  | none => v
  | some r => (r.move ρ).word

theorem Word.move_of_none {w : Width} {ρ : Nat → Nat} {v : Word w} (h : v.ref? = none) :
    v.move ρ = v := by simp [Word.move, h]

theorem Word.move_of_some {w : Width} {ρ : Nat → Nat} {v : Word w} {r : Ref}
    (h : v.ref? = some r) : v.move ρ = (r.move ρ).word := by simp [Word.move, h]

/-- Only the offset that a word refers to matters to where it moves. -/
theorem Word.move_congr {w : Width} {ρ σ : Nat → Nat} {v : Word w}
    (h : ∀ r, v.ref? = some r → ρ r.offset = σ r.offset) : v.move ρ = v.move σ := by
  cases hv : v.ref? with
  | none => rw [move_of_none hv, move_of_none hv]
  | some r => rw [move_of_some hv, move_of_some hv, Ref.move, Ref.move, h r hv]

namespace Shape

theorem words_pos_pair : 0 < pair.words := by decide

theorem words_header {w : Width} (h : Header w) : 0 < h.shape.words := by
  simp only [Header.shape]
  split <;> simp [Shape.words, Shape.constructor, Shape.closure]

end Shape

namespace Space

variable {w : Width}

def cell (s : Space w) (i : Nat) : Word w := s.cells.getD i (.ofNat 0)

def segment (s : Space w) (start len : Nat) : List (Word w) := (List.range' start len).map s.cell

def shapeAt (s : Space w) (r : Ref) : Shape :=
  if r.pair then .pair else (Header.mk (s.cell r.offset)).shape

def extent (s : Space w) (r : Ref) : Nat := (s.shapeAt r).words

def leads (s : Space w) (r : Ref) : List (Word w) := s.segment r.offset (s.shapeAt r).lead

/-- The words of a block that the collector looks at. -/
def traced (s : Space w) (r : Ref) : List (Word w) :=
  s.segment (r.offset + (s.shapeAt r).lead) (s.shapeAt r).traced

@[simp] theorem length_segment (s : Space w) (start len : Nat) :
    (s.segment start len).length = len := by simp [segment]

theorem getElem_segment (s : Space w) (start len : Nat) {i : Nat}
    (h : i < (s.segment start len).length) : (s.segment start len)[i] = s.cell (start + i) := by
  simp [segment]

theorem segment_append (s : Space w) (start a b : Nat) :
    s.segment start (a + b) = s.segment start a ++ s.segment (start + a) b := by
  simp only [segment, ← List.map_append]
  rw [List.range'_append_1]

theorem mem_segment {s : Space w} {start len : Nat} {v : Word w} :
    v ∈ s.segment start len ↔ ∃ i < len, v = s.cell (start + i) := by
  simp only [segment, List.mem_map, List.mem_range'_1]
  constructor
  · rintro ⟨i, ⟨hl, hu⟩, rfl⟩
    exact ⟨i - start, by omega, by rw [Nat.add_sub_cancel' hl]⟩
  · rintro ⟨i, hi, rfl⟩
    exact ⟨start + i, ⟨by omega, by omega⟩, rfl⟩

theorem mem_traced {s : Space w} {r : Ref} {v : Word w} :
    v ∈ s.traced r ↔
      ∃ i < (s.shapeAt r).traced, v = s.cell (r.offset + (s.shapeAt r).lead + i) := mem_segment

theorem drop_traced {s : Space w} {r : Ref} {i : Nat} (h : i < (s.shapeAt r).traced) :
    (s.traced r).drop i =
      s.cell (r.offset + (s.shapeAt r).lead + i) :: (s.traced r).drop (i + 1) := by
  have hi : i < (s.traced r).length := by simpa [traced] using h
  rw [List.drop_eq_getElem_cons hi]
  exact congrArg (· :: _) (getElem_segment s _ _ hi)

theorem segment_congr {s t : Space w} {i j len : Nat}
    (h : ∀ k < len, s.cell (i + k) = t.cell (j + k)) : s.segment i len = t.segment j len := by
  apply List.ext_getElem
  · simp
  · intro k hs ht
    rw [getElem_segment, getElem_segment]
    exact h k (by simpa using hs)

/-- A headed block leads with its header. -/
theorem lead_pos {s : Space w} {r : Ref} (h : r.pair = false) : 0 < (s.shapeAt r).lead := by
  simp only [shapeAt, h, Header.shape]
  cases (Header.mk (s.cell r.offset)).kind <;> simp [Shape.constructor, Shape.closure]

theorem extent_pos (s : Space w) (r : Ref) : 0 < s.extent r := by
  simp only [extent, shapeAt]
  split
  · exact Shape.words_pos_pair
  · exact Shape.words_header _

theorem extent_eq (s : Space w) (r : Ref) :
    s.extent r = (s.shapeAt r).lead + (s.shapeAt r).traced := rfl

/-- The words of a block, leading ones first. -/
theorem segment_extent (s : Space w) (r : Ref) :
    s.segment r.offset (s.extent r) = s.leads r ++ s.traced r := by
  rw [extent_eq, segment_append]
  rfl

/-- The shape of a block is fixed by its first word and the kind of reference. -/
theorem shapeAt_congr {s t : Space w} {a b : Ref} (hp : a.pair = b.pair)
    (hc : a.pair = false → s.cell a.offset = t.cell b.offset) : s.shapeAt a = t.shapeAt b := by
  simp only [shapeAt, hp]
  cases hb : b.pair with
  | true => rfl
  | false => simp [hc (hp.trans hb)]

/-! ### Reading under the checks -/

theorem read_eq {s : Space w} {i : Nat} (h : i < s.capacity) : s.read i = .ok (s.cell i) := by
  simp [read, h, cell]

theorem read_eq_ok {s : Space w} {i : Nat} {v : Word w} (h : s.read i = .ok v) :
    i < s.capacity ∧ v = s.cell i := by
  simp only [read] at h
  split at h
  · next hi => cases h; exact ⟨hi, rfl⟩
  · cases h

theorem slice_eq {s : Space w} {start len : Nat} (h : start + len ≤ s.capacity) :
    s.slice start len = .ok (s.segment start len) := by
  simp only [slice, if_pos h]
  rfl

theorem slice_eq_ok {s : Space w} {start len : Nat} {vs : List (Word w)}
    (h : s.slice start len = .ok vs) : start + len ≤ s.capacity ∧ vs = s.segment start len := by
  simp only [slice] at h
  split at h
  · next hi => cases h; exact ⟨hi, rfl⟩
  · cases h

theorem shape_eq {s : Space w} {r : Ref} (h : r.offset < s.capacity) :
    s.shape r = .ok (s.shapeAt r) := by
  simp only [shape, shapeAt]
  split
  · rfl
  · rw [read_eq h]; rfl

/-! ### Writing -/

@[simp] theorem put_capacity (s : Space w) (i : Nat) (v : Word w) :
    (s.put i v).capacity = s.capacity := by
  simp only [put]
  split <;> rfl

/-- A word is written to one place. -/
theorem cell_put (s : Space w) (i j : Nat) (v : Word w) :
    (s.put i v).cell j = if j = i then v else s.cell j := by
  simp only [put, cell]
  split
  · next hi =>
    by_cases hj : j = i
    · subst hj; simp [Array.getD, hi]
    · simp only [if_neg hj, Array.getD_eq_getD_getElem?]
      rw [Array.getElem?_setIfInBounds_ne (by omega)]
  · next hi =>
    by_cases hj : j = i
    · subst hj
      simp only [Array.getD_eq_getD_getElem?, Array.getElem?_push, Array.size_append,
        Array.size_replicate]
      rw [if_pos (by omega)]
      simp
    · simp only [if_neg hj, Array.getD_eq_getD_getElem?, Array.getElem?_push, Array.size_append,
        Array.size_replicate]
      rw [if_neg (by omega), Array.getElem?_append]
      split
      · rfl
      · next hs =>
        rw [Array.getElem?_eq_none (Nat.le_of_not_lt hs), Array.getElem?_replicate]
        split <;> rfl

@[simp] theorem write_capacity (s : Space w) (start : Nat) (vs : List (Word w)) :
    (s.write start vs).capacity = s.capacity := by
  induction vs generalizing s start with
  | nil => rfl
  | cons v vs ih => rw [write, ih, put_capacity]

/-- Writing changes the words written to, and no others. -/
theorem cell_write_of_lt (s : Space w) {start j : Nat} (vs : List (Word w)) (h : j < start) :
    (s.write start vs).cell j = s.cell j := by
  induction vs generalizing s start with
  | nil => rfl
  | cons v vs ih => rw [write, ih _ (by omega), cell_put, if_neg (by omega)]

theorem cell_write_of_ge (s : Space w) {start j : Nat} (vs : List (Word w))
    (h : start + vs.length ≤ j) : (s.write start vs).cell j = s.cell j := by
  induction vs generalizing s start with
  | nil => rfl
  | cons v vs ih =>
    rw [List.length_cons] at h
    rw [write, ih _ (by omega), cell_put, if_neg (by omega)]

/-- What is written can be read back. -/
theorem cell_write (s : Space w) (start : Nat) (vs : List (Word w)) {i : Nat}
    (h : i < vs.length) : (s.write start vs).cell (start + i) = vs[i] := by
  induction vs generalizing s start i with
  | nil => simp at h
  | cons v vs ih =>
    rw [write]
    cases i with
    | zero => rw [cell_write_of_lt _ _ (by omega), cell_put, if_pos (by omega)]; rfl
    | succ i =>
      have := ih (s.put start v) (start + 1) (i := i) (by simpa using h)
      rw [show start + (i + 1) = start + 1 + i by omega, this]
      rfl

theorem segment_write (s : Space w) (start : Nat) (vs : List (Word w)) :
    (s.write start vs).segment start vs.length = vs := by
  apply List.ext_getElem
  · simp
  · intro i hi hv
    rw [getElem_segment, cell_write _ _ _ hv]

end Space

end Trampoline

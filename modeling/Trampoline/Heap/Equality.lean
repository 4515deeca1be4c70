import Trampoline.Space

/-!
Structural equality of two words in a space.

Immediate words are equal when they are the same word. References are equal when they are the same
word, or when their blocks have the same shape, the same leading words, and pairwise equal traced
words. The comparison works off a list of open questions, the last one raised first.

A question carries the number of further levels it may open. A comparison that ends never needs
more than `levels`: a longer chain of questions would repeat one and never end. So `none` is the
answer of a comparison that would go on for ever.
-/

namespace Trampoline

/-- An open question: are the two words equal? It may open `levels` more levels. -/
structure Question (w : Width) where
  levels : Nat
  left : Word w
  right : Word w
deriving DecidableEq, Repr

namespace Space

variable {w : Width}

/-- Compare the blocks of two different words: the questions they leave open, or `none` if they
differ already. -/
def openBlocks (s : Space w) (a b : Word w) : Except (Trap w) (Option (List (Word w × Word w))) :=
  match a.ref?, b.ref? with
  | some ra, some rb =>
    if ra.pair ≠ rb.pair then .ok none
    else
      match s.block ra, s.block rb, s.shape ra with
      | .error t, _, _ => .error t
      | _, .error t, _ => .error t
      | _, _, .error t => .error t
      | .ok wa, .ok wb, .ok shape =>
        if wa.length ≠ wb.length ∨ wa.take shape.lead ≠ wb.take shape.lead then .ok none
        else .ok (some ((wa.drop shape.lead).zip (wb.drop shape.lead)))
  | _, _ => .ok none

theorem length_of_block {s : Space w} {r : Ref} {ws : List (Word w)} {shape : Shape}
    (hb : s.block r = .ok ws) (hs : s.shape r = .ok shape) : ws.length = shape.words := by
  simp only [block, hs, bind, Except.bind, slice] at hb
  split at hb
  · cases hb; simp
  · cases hb

/-- A header counts fewer traced words than there are field counts. -/
theorem traced_lt_fieldRange {s : Space w} {r : Ref} {shape : Shape}
    (hs : s.shape r = .ok shape) : shape.traced < w.fieldRange := by
  have pos : 2 < w.fieldRange := by cases w <;> decide
  unfold Space.shape at hs
  split at hs
  · cases hs; exact pos
  · simp only [bind, Except.bind] at hs
    split at hs
    · cases hs
    · cases hs
      simp only [Header.shape]
      split <;> exact Nat.mod_lt _ (by omega)

/-- The questions about two blocks are fewer than there are field counts. -/
theorem length_of_openBlocks {s : Space w} {a b : Word w} {qs : List (Word w × Word w)}
    (h : s.openBlocks a b = .ok (some qs)) : qs.length < w.fieldRange := by
  unfold openBlocks at h
  split at h
  · split at h
    · cases h
    · split at h
      · cases h
      · cases h
      · cases h
      · next ha _ hs =>
        split at h
        · cases h
        · cases h
          have len := length_of_block ha hs
          have lt := traced_lt_fieldRange hs
          simp only [Shape.words] at len
          simp only [List.length_zip, List.length_drop]
          omega
  · cases h

/-- The weight of a list of questions: more than all it can still lead to. -/
def weight (w : Width) : List (Question w) → Nat
  | [] => 0
  | q :: qs => Nat.pow w.fieldRange q.levels + weight w qs

@[simp] theorem weight_cons (q : Question w) (qs : List (Question w)) :
    weight w (q :: qs) = Nat.pow w.fieldRange q.levels + weight w qs := rfl

@[simp] theorem weight_append (qs ps : List (Question w)) :
    weight w (qs ++ ps) = weight w qs + weight w ps := by
  induction qs with
  | nil => simp [weight]
  | cons q qs ih => simp [ih, Nat.add_assoc]

theorem weight_reverse (qs : List (Question w)) : weight w qs.reverse = weight w qs := by
  induction qs with
  | nil => rfl
  | cons q qs ih => simp [ih, weight, Nat.add_comm]

theorem weight_map (levels : Nat) (qs : List (Word w × Word w)) :
    weight w (qs.map fun q => ⟨levels, q.1, q.2⟩) = qs.length * Nat.pow w.fieldRange levels := by
  induction qs with
  | nil => simp [weight]
  | cons q qs ih => simp [ih, Nat.add_mul, Nat.add_comm]

def compare (s : Space w) : List (Question w) → Except (Trap w) (Option Bool)
  | [] => .ok (some true)
  | ⟨levels, a, b⟩ :: rest =>
    if a = b then s.compare rest
    else match levels with
      | 0 => .ok none
      | levels + 1 =>
        match _hq : s.openBlocks a b with
        | .error t => .error t
        | .ok none => .ok (some false)
        | .ok (some qs) =>
          s.compare ((qs.map fun q => ⟨levels, q.1, q.2⟩).reverse ++ rest)
termination_by qs => weight w qs
decreasing_by
  · have pos : 0 < Nat.pow w.fieldRange levels := Nat.pow_pos (by cases w <;> decide)
    simp only [weight_cons]
    omega
  · have pos : 0 < Nat.pow w.fieldRange levels := Nat.pow_pos (by cases w <;> decide)
    have lt := Nat.mul_lt_mul_of_pos_right (length_of_openBlocks _hq) pos
    have succ : Nat.pow w.fieldRange (levels + 1) = w.fieldRange * Nat.pow w.fieldRange levels :=
      Nat.mul_comm _ _
    simp only [weight_append, weight_reverse, weight_map, weight_cons, succ]
    exact Nat.add_lt_add_right lt _

/-- Levels that suffice below `used` words: words in the space and the two compared ones make up
fewer different questions. -/
def levelsFor (used : Nat) : Nat := (used + 2) * (used + 2)

/-- Structural equality of two words in the first `used` words of a space. -/
def equal (s : Space w) (used : Nat) (a b : Word w) : Except (Trap w) (Option Bool) :=
  s.compare [⟨levelsFor used, a, b⟩]

end Space

end Trampoline

import Mathlib.Data.Int.ModEq
import Trampoline.Fixnum
import Trampoline.Proofs.Words

/-!
Arithmetic that wraps around.

The word of an integer stands for the one small integer that is congruent to it, and sums,
differences and products of such words are the words of the sums, differences and products. So a
computation that wraps around many times is followed in the integers, and wraps around once, at its
end. Only comparisons need operands that are small integers themselves.

The operations work on whole words. So a result loses bits twice: those that a word has no room for,
and the two that make room for the tag. What is left is what one truncation leaves of the exact
result, since a small integer has fewer bits than a word.
-/

namespace Trampoline

variable {w : Width} {x y : Int}

def Width.intBits (w : Width) : Nat := w.bits - 2

theorem Width.modulus_eq_intBits (w : Width) : (w.modulus : Int) = 4 * 2 ^ w.intBits := by
  cases w <;> rfl

/-- What a word loses of an integer, a small integer loses as well. -/
theorem Width.bmod_modEq (w : Width) (n : Int) :
    n.bmod (2 ^ w.bits) ≡ n [ZMOD 2 ^ w.intBits] := by
  have hword : n.bmod (2 ^ w.bits) ≡ n [ZMOD (2 ^ w.bits : Nat)] := Int.bmod_emod
  refine hword.of_dvd ?_
  cases w <;> decide

/-- Digits are small integers. -/
theorem Width.digit_range (w : Width) {n : Int} (hn : 0 ≤ n ∧ n ≤ 9) :
    w.minInt ≤ n ∧ n ≤ w.maxInt := by
  cases w <;> simp only [Width.minInt, Width.maxInt] <;> omega

theorem Width.maxInt_lt_sizeRange (w : Width) : w.maxInt < sizeRange := by cases w <;> decide

namespace Word

/-- The word of the small integer that is congruent to `n`. -/
def Represents (v : Word w) (n : Int) : Prop :=
  ∃ z, Word.int z = .ok v ∧ z ≡ n [ZMOD 2 ^ w.intBits]

theorem isInt_wrapInt (n : Int) : (wrapInt n : Word w).isInt = true := by
  rw [isInt, tag_wrapInt]
  rfl

theorem wrapInt_congr (h : x ≡ y [ZMOD 2 ^ w.intBits]) : (wrapInt x : Word w) = wrapInt y := by
  have hscaled : 4 * x ≡ 4 * y [ZMOD w.modulus] := by
    rw [w.modulus_eq_intBits]
    exact h.mul_left'
  rw [wrapInt, wrapInt, hscaled]

/-- What is read from the word of an integer is a small integer, and congruent to it. -/
theorem intValue_wrapInt_cases (n : Int) :
    (w.minInt ≤ (wrapInt n : Word w).intValue ∧ (wrapInt n : Word w).intValue ≤ w.maxInt) ∧
      (wrapInt n : Word w).intValue ≡ n [ZMOD 2 ^ w.intBits] := by
  have hv : (wrapInt n : Word w).toNat = (4 * n % w.modulus).toNat % w.modulus := rfl
  rw [intValue, Int.ModEq]
  cases w <;>
    rcases signed_cases (wrapInt n : Word _) with ⟨hs, he⟩ | ⟨hs, he⟩ <;>
    rw [hv] at hs he <;>
    simp only [Width.modulus, Width.minInt, Width.maxInt, Width.intBits, Width.bits] at hs he ⊢ <;>
    omega

theorem intValue_wrapInt_modEq (n : Int) :
    (wrapInt n : Word w).intValue ≡ n [ZMOD 2 ^ w.intBits] :=
  (intValue_wrapInt_cases n).2

theorem int_of_range (h : w.minInt ≤ x ∧ x ≤ w.maxInt) : Word.int x = .ok (wrapInt x : Word w) :=
  if_pos h

theorem represents_wrapInt (n : Int) : (wrapInt n : Word w).Represents n := by
  obtain ⟨hrange, hmod⟩ := intValue_wrapInt_cases (w := w) n
  refine ⟨_, ?_, hmod⟩
  rw [int_of_range hrange, wrapInt_congr hmod]

theorem size_of_small {n : Nat} (hn : (n : Int) ≤ w.maxInt) :
    Word.size n = .ok (wrapInt n : Word w) := by
  have hmin : w.minInt ≤ (n : Int) := by
    cases w <;> simp only [Width.minInt] <;> omega
  rw [Word.size, signed_ofNat hn, int_of_range ⟨hmin, hn⟩]

theorem codeAddress_of_digit {id : UInt32} (hid : id.toNat ≤ 9) :
    Word.codeAddress id = .ok (wrapInt id.toNat : Word w) :=
  size_of_small (w.digit_range (by omega)).2

/-- A small integer is shifted up by two bits, and what does not fit is lost. -/
theorem ofInt_shiftLeft_two (n : Int) : (BitVec.ofInt w.bits n <<< 2 : Word w) = wrapInt n := by
  apply BitVec.eq_of_toNat_eq
  rw [wrapInt, toNat_ofNat, BitVec.toNat_shiftLeft, BitVec.toNat_ofInt, Nat.shiftLeft_eq]
  cases w <;> simp only [Width.bits, Width.modulus] <;> omega

/-- A small integer is shifted down by two bits, with its sign. -/
theorem toInt_sshiftRight_two (v : Word w) : (v.sshiftRight 2).toInt = v.intValue := by
  rw [BitVec.toInt_sshiftRight, Int.shiftRight_eq_div_pow, ← signed_eq]
  rfl

/-- Shifted up, a word is the small integer that is congruent to it. -/
theorem shiftLeft_two (v : Word w) : v <<< 2 = wrapInt v.toInt := by
  rw [← ofInt_shiftLeft_two, BitVec.ofInt_toInt]

end Word

/-- What is added to a sum from 1 on to get the next one. -/
theorem half_mul_succ (k : Nat) : (k + 1) * (k + 2) / 2 = k * (k + 1) / 2 + (k + 1) := by
  have hsum : (k + 1) * (k + 2) = k * (k + 1) + 2 * (k + 1) := by ring
  rw [hsum, Nat.add_mul_div_left _ _ Nat.two_pos]

namespace Fixnum

open Word

variable {a b : Word w}

/-! ### Word by word -/

/-- An operation that is right up to the width of a word is right up to that of a small integer. -/
theorem wordwise_eq {f : Word w → Word w → Word w} {g : Int → Int → Int}
    (hf : ∀ u v : Word w, (f u v).toInt ≡ g u.toInt v.toInt [ZMOD 2 ^ w.intBits]) (a b : Word w) :
    wordwise f a b = wrapInt (g a.intValue b.intValue) := by
  rw [wordwise, shiftLeft_two, ← toInt_sshiftRight_two a, ← toInt_sshiftRight_two b]
  exact wrapInt_congr (hf _ _)

theorem wordwise_add (a b : Word w) : wordwise (· + ·) a b = wrapInt (a.intValue + b.intValue) := by
  refine wordwise_eq (g := (· + ·)) (fun u v => ?_) a b
  rw [BitVec.toInt_add]
  exact w.bmod_modEq _

theorem wordwise_sub (a b : Word w) : wordwise (· - ·) a b = wrapInt (a.intValue - b.intValue) := by
  refine wordwise_eq (g := (· - ·)) (fun u v => ?_) a b
  rw [BitVec.toInt_sub]
  exact w.bmod_modEq _

theorem wordwise_mul (a b : Word w) : wordwise (· * ·) a b = wrapInt (a.intValue * b.intValue) := by
  refine wordwise_eq (g := (· * ·)) (fun u v => ?_) a b
  rw [BitVec.toInt_mul]
  exact w.bmod_modEq _

theorem wordwise_sdiv (a b : Word w) :
    wordwise BitVec.sdiv a b = wrapInt (a.intValue.tdiv b.intValue) := by
  refine wordwise_eq (fun u v => ?_) a b
  rw [BitVec.toInt_sdiv]
  exact w.bmod_modEq _

theorem wordwise_srem (a b : Word w) :
    wordwise BitVec.srem a b = wrapInt (a.intValue.tmod b.intValue) := by
  refine wordwise_eq (fun u v => ?_) a b
  rw [BitVec.toInt_srem]

theorem slt_sshiftRight (a b : Word w) :
    (a.sshiftRight 2).slt (b.sshiftRight 2) = decide (a.intValue < b.intValue) := by
  rw [BitVec.slt, toInt_sshiftRight_two, toInt_sshiftRight_two]

theorem sle_sshiftRight (a b : Word w) :
    (a.sshiftRight 2).sle (b.sshiftRight 2) = decide (a.intValue ≤ b.intValue) := by
  rw [BitVec.sle, toInt_sshiftRight_two, toInt_sshiftRight_two]

theorem sshiftRight_eq_zero_iff (b : Word w) : b.sshiftRight 2 = 0 ↔ b.intValue = 0 := by
  rw [← toInt_sshiftRight_two, ← BitVec.toInt_inj, BitVec.ofNat_eq_ofNat, BitVec.toInt_zero]

/-! ### Operations -/

theorem check_of_isInt (ha : a.isInt = true) (hb : b.isInt = true) : check a b = .ok () := by
  rw [check, ha, hb]
  rfl

section

variable (h : check a b = .ok ())

include h

theorem combine_of_check (f : Word w → Word w → Word w) : combine f a b = .ok (wordwise f a b) := by
  rw [combine, h]
  rfl

theorem divide_of_check (f : Word w → Word w → Word w) :
    divide f a b = .ok (if b.intValue = 0 then none else some (wordwise f a b)) := by
  simp only [divide, h, ← sshiftRight_eq_zero_iff]
  rfl

theorem compare_of_check (f : Word w → Word w → Bool) :
    compare f a b = .ok (.ofBool (f (a.sshiftRight 2) (b.sshiftRight 2))) := by
  rw [compare, h]
  rfl

end

theorem check_wrapInt (x y : Int) : check (wrapInt x : Word w) (wrapInt y) = .ok () :=
  check_of_isInt (isInt_wrapInt x) (isInt_wrapInt y)

theorem add_wrapInt (x y : Int) : add (wrapInt x : Word w) (wrapInt y) = .ok (wrapInt (x + y)) := by
  rw [add, combine_of_check (check_wrapInt x y), wordwise_add]
  exact congrArg Except.ok
    (wrapInt_congr ((intValue_wrapInt_modEq x).add (intValue_wrapInt_modEq y)))

theorem sub_wrapInt (x y : Int) : sub (wrapInt x : Word w) (wrapInt y) = .ok (wrapInt (x - y)) := by
  rw [sub, combine_of_check (check_wrapInt x y), wordwise_sub]
  exact congrArg Except.ok
    (wrapInt_congr ((intValue_wrapInt_modEq x).sub (intValue_wrapInt_modEq y)))

theorem mul_wrapInt (x y : Int) : mul (wrapInt x : Word w) (wrapInt y) = .ok (wrapInt (x * y)) := by
  rw [mul, combine_of_check (check_wrapInt x y), wordwise_mul]
  exact congrArg Except.ok
    (wrapInt_congr ((intValue_wrapInt_modEq x).mul (intValue_wrapInt_modEq y)))

theorem lt_wrapInt (hx : w.minInt ≤ x ∧ x ≤ w.maxInt) (hy : w.minInt ≤ y ∧ y ≤ w.maxInt) :
    lt (wrapInt x : Word w) (wrapInt y) = .ok (.ofBool (x < y)) := by
  rw [lt, compare_of_check (check_wrapInt x y), slt_sshiftRight, intValue_wrapInt hx,
    intValue_wrapInt hy]

theorem le_wrapInt (hx : w.minInt ≤ x ∧ x ≤ w.maxInt) (hy : w.minInt ≤ y ∧ y ≤ w.maxInt) :
    le (wrapInt x : Word w) (wrapInt y) = .ok (.ofBool (x ≤ y)) := by
  rw [le, compare_of_check (check_wrapInt x y), sle_sshiftRight, intValue_wrapInt hx,
    intValue_wrapInt hy]

end Fixnum

end Trampoline

import Trampoline.Proofs.Tagging

/-!
Arithmetic on small integers is exact, up to the number of small integers of the width: sums,
differences and products are, and so are quotients, the remainders beside them, and comparisons.
-/

namespace Trampoline

variable {w : Width} {a b : Word w} {x y : Int}

theorem Word.trueWord_ne_falseWord : (trueWord : Word w) ≠ falseWord := by cases w <;> decide

namespace Fixnum

open Word

/-! ### Remainders -/

/-- A remainder has the sign of the dividend, and is no larger. -/
theorem tmod_between (x y : Int) : (0 ≤ x → 0 ≤ x.tmod y ∧ x.tmod y ≤ x) ∧
    (x ≤ 0 → x ≤ x.tmod y ∧ x.tmod y ≤ 0) := by
  have habs : (x.tmod y).natAbs ≤ x.natAbs := by
    rw [Int.natAbs_tmod]
    exact Nat.mod_le _ _
  constructor
  · intro hx
    have hsign := Int.tmod_nonneg y hx
    omega
  · intro hx
    have hsign := Int.tmod_nonneg y (Int.neg_nonneg_of_nonpos hx)
    rw [Int.neg_tmod] at hsign
    omega

theorem tmod_range (hx : w.minInt ≤ x ∧ x ≤ w.maxInt) (y : Int) :
    w.minInt ≤ x.tmod y ∧ x.tmod y ≤ w.maxInt := by
  obtain ⟨hpos, hneg⟩ := tmod_between x y
  have hzero := w.digit_range (n := 0) (by decide)
  omega

theorem natAbs_tmod_lt (x : Int) (hy : y ≠ 0) : (x.tmod y).natAbs < y.natAbs := by
  rw [Int.natAbs_tmod]
  exact Nat.mod_lt _ (by omega)

/-! ### Operations -/

theorem check_of_ints (ha : a.toSmallInt = .ok x) (hb : b.toSmallInt = .ok y) :
    check a b = .ok () := by
  obtain ⟨hta, _⟩ := toSmallInt_eq_ok ha
  obtain ⟨htb, _⟩ := toSmallInt_eq_ok hb
  exact check_of_isInt (by simp [isInt, hta]) (by simp [isInt, htb])

section Apply

variable (ha : a.toSmallInt = .ok x) (hb : b.toSmallInt = .ok y)

include ha hb

/-- The operations, by what they do to the integers. -/
theorem apply_of_ints :
    Operator.add.apply a b = .ok (wrapInt (x + y)) ∧
    Operator.sub.apply a b = .ok (wrapInt (x - y)) ∧
    Operator.mul.apply a b = .ok (wrapInt (x * y)) ∧
    Operator.div.apply a b =
      (if y = 0 then .error (.error .divisionByZero) else .ok (wrapInt (x.tdiv y))) ∧
    Operator.mod.apply a b =
      (if y = 0 then .error (.error .divisionByZero) else .ok (wrapInt (x.tmod y))) ∧
    Operator.lt.apply a b = .ok (ofBool (x < y)) ∧
    Operator.le.apply a b = .ok (ofBool (x ≤ y)) := by
  have hab := check_of_ints ha hb
  obtain ⟨_, rfl⟩ := toSmallInt_eq_ok ha
  obtain ⟨_, rfl⟩ := toSmallInt_eq_ok hb
  simp only [Operator.apply, add, sub, mul, div, mod, lt, le, combine_of_check hab,
    divide_of_check hab, compare_of_check hab, wordwise_add, wordwise_sub, wordwise_mul,
    wordwise_sdiv, wordwise_srem, slt_sshiftRight, sle_sshiftRight, total, true_and, and_true]
  by_cases hy : b.intValue = 0 <;> simp [hy, quotient]

theorem not_trap (op : Operator) (t : Trap w) : op.apply a b ≠ .error (.trap t) := by
  obtain ⟨hadd, hsub, hmul, hdiv, hmod, hlt, hle⟩ := apply_of_ints ha hb
  cases op with
  | add => simp [hadd]
  | sub => simp [hsub]
  | mul => simp [hmul]
  | div => by_cases hy : y = 0 <;> simp [hdiv, hy]
  | mod => by_cases hy : y = 0 <;> simp [hmod, hy]
  | lt => simp [hlt]
  | le => simp [hle]

/-- Quotient times divisor plus remainder is the dividend, also where the quotient wraps around. -/
theorem division_of_ints (hy : y ≠ 0) :
    ∃ q p r, Operator.div.apply a b = .ok q ∧ Operator.mul.apply q b = .ok p ∧
      Operator.mod.apply a b = .ok r ∧ Operator.add.apply p r = .ok a := by
  obtain ⟨-, -, -, hdiv, hmod, -, -⟩ := apply_of_ints ha hb
  rw [if_neg hy] at hdiv hmod
  obtain ⟨hta, hx⟩ := toSmallInt_eq_ok ha
  obtain ⟨htb, hy'⟩ := toSmallInt_eq_ok hb
  have hwa : wrapInt x = a := by rw [hx, wrapInt_intValue hta]
  have hwb : wrapInt y = b := by rw [hy', wrapInt_intValue htb]
  have hmul : Operator.mul.apply (wrapInt (x.tdiv y)) b = .ok (wrapInt (x.tdiv y * y)) := by
    rw [← hwb, Operator.apply, mul_wrapInt, total]
  have hadd : Operator.add.apply (wrapInt (x.tdiv y * y)) (wrapInt (x.tmod y)) = .ok a := by
    rw [Operator.apply, add_wrapInt, total, Int.tdiv_mul_add_tmod, hwa]
  exact ⟨_, _, _, hdiv, hmul, hmod, hadd⟩

end Apply

theorem ofBool_eq_trueWord {p : Prop} [Decidable p] : (ofBool p : Word w) = trueWord ↔ p := by
  by_cases hp : p <;> simp [ofBool, hp, trueWord_ne_falseWord.symm]

theorem ofBool_eq_falseWord {p : Prop} [Decidable p] : (ofBool p : Word w) = falseWord ↔ ¬ p := by
  by_cases hp : p <;> simp [ofBool, hp, trueWord_ne_falseWord]

/-! ### Exactness -/

structure Exact (a b : Word w) (x y : Int) : Prop where
  add : Operator.add.apply a b = .ok (wordwise (· + ·) a b) ∧
    (wordwise (· + ·) a b).Represents (x + y)
  sub : Operator.sub.apply a b = .ok (wordwise (· - ·) a b) ∧
    (wordwise (· - ·) a b).Represents (x - y)
  mul : Operator.mul.apply a b = .ok (wordwise (· * ·) a b) ∧
    (wordwise (· * ·) a b).Represents (x * y)
  div : y ≠ 0 → Operator.div.apply a b = .ok (wordwise BitVec.sdiv a b) ∧
    (wordwise BitVec.sdiv a b).Represents (x.tdiv y)
  /-- The remainder needs no truncation. -/
  mod : y ≠ 0 → ∃ r, Operator.mod.apply a b = .ok (wordwise BitVec.srem a b) ∧
    Word.int r = .ok (wordwise BitVec.srem a b) ∧ x = x.tdiv y * y + r ∧
    r.natAbs < y.natAbs ∧ (0 ≤ x → 0 ≤ r) ∧ (x ≤ 0 → r ≤ 0)
  by_zero : (Operator.div.apply a b = .error (.error .divisionByZero) ↔ y = 0) ∧
    (Operator.mod.apply a b = .error (.error .divisionByZero) ↔ y = 0)
  /-- The one quotient that is too large wraps around to the dividend. -/
  lowest : x = w.minInt → y = -1 → Operator.div.apply a b = .ok a
  division : y ≠ 0 → ∃ q p r, Operator.div.apply a b = .ok q ∧ Operator.mul.apply q b = .ok p ∧
    Operator.mod.apply a b = .ok r ∧ Operator.add.apply p r = .ok a
  lt : (Operator.lt.apply a b = .ok trueWord ↔ x < y) ∧
    (Operator.lt.apply a b = .ok falseWord ↔ y ≤ x)
  le : (Operator.le.apply a b = .ok trueWord ↔ x ≤ y) ∧
    (Operator.le.apply a b = .ok falseWord ↔ y < x)
  total : ∀ op t, Operator.apply op a b ≠ .error (.trap t)

/-- On small integers the operations are exact, modulo the number of small integers of the width. -/
theorem exact_of_ints (ha : a.toSmallInt = .ok x) (hb : b.toSmallInt = .ok y) : Exact a b x y := by
  obtain ⟨hadd, hsub, hmul, hdiv, hmod, hlt, hle⟩ := apply_of_ints ha hb
  obtain ⟨hta, hx⟩ := toSmallInt_eq_ok ha
  obtain ⟨htb, hy⟩ := toSmallInt_eq_ok hb
  constructor
  case add =>
    rw [wordwise_add, ← hx, ← hy]
    exact ⟨hadd, represents_wrapInt _⟩
  case sub =>
    rw [wordwise_sub, ← hx, ← hy]
    exact ⟨hsub, represents_wrapInt _⟩
  case mul =>
    rw [wordwise_mul, ← hx, ← hy]
    exact ⟨hmul, represents_wrapInt _⟩
  case div =>
    intro hne
    rw [wordwise_sdiv, ← hx, ← hy, hdiv, if_neg hne]
    exact ⟨rfl, represents_wrapInt _⟩
  case mod =>
    intro hne
    obtain ⟨hpos, hneg⟩ := tmod_between x y
    rw [wordwise_srem, ← hx, ← hy, hmod, if_neg hne]
    exact ⟨_, rfl, int_of_range (tmod_range (toSmallInt_range ha) y),
      (Int.tdiv_mul_add_tmod x y).symm, natAbs_tmod_lt x hne, fun h => (hpos h).1,
      fun h => (hneg h).2⟩
  case by_zero =>
    rw [hdiv, hmod]
    by_cases hzero : y = 0 <;> simp [hzero]
  case lowest =>
    -- the quotient is the number of small integers above the dividend
    intro hlow hone
    have hwrap : x.tdiv y ≡ x [ZMOD 2 ^ w.intBits] := by
      rw [hlow, hone]
      cases w <;> decide
    rw [hdiv, if_neg (by omega), wrapInt_congr hwrap, hx, wrapInt_intValue hta]
  case division => exact division_of_ints ha hb
  case lt =>
    rw [hlt, Except.ok.injEq, Except.ok.injEq, ofBool_eq_trueWord, ofBool_eq_falseWord, not_lt]
    exact ⟨.rfl, .rfl⟩
  case le =>
    rw [hle, Except.ok.injEq, Except.ok.injEq, ofBool_eq_trueWord, ofBool_eq_falseWord, not_le]
    exact ⟨.rfl, .rfl⟩
  case total => exact not_trap ha hb

/-- The smallest integer of 32-bit words, divided by minus one. -/
theorem exact_of_ints_lowest :
    (0x80000000 : Word .bits32).toSmallInt = .ok (-0x20000000) ∧
    (0xfffffffc : Word .bits32).toSmallInt = .ok (-1) ∧
    Exact (0x80000000 : Word .bits32) 0xfffffffc (-0x20000000) (-1) ∧
    Operator.div.apply (0x80000000 : Word .bits32) 0xfffffffc = .ok 0x80000000 :=
  ⟨by decide, by decide, exact_of_ints (by decide) (by decide),
    (exact_of_ints (by decide) (by decide)).lowest rfl rfl⟩

end Fixnum

end Trampoline

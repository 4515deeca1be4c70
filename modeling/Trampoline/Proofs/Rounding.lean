import Mathlib
import Trampoline.Proofs.Collection

/-!
Counts of words as binary64 numbers.

Whether a heap grows after a collection is decided in floating point, where a count above `2 ^ 53` is
rounded. Rounding to nearest keeps the order of counts, so more live words never make a heap less
crowded, and never need less capacity.
-/

namespace Trampoline.Binary64

open Float.Model Float.Model.UnpackedFloat

/-! ### Shifting and rounding -/

/-- A mantissa with the bits behind it, as one number. -/
def weight (em : ExtendedMantissa) : Nat :=
  4 * em.mantissa + 2 * em.roundBit.toNat + em.stickyBit.toNat

theorem weight_shiftRightOne (em : ExtendedMantissa) :
    weight em.shiftRightOne = 2 * em.mantissa + (em.roundBit || em.stickyBit).toNat := by
  rcases Nat.mod_two_eq_zero_or_one em.mantissa with h | h <;>
    simp only [weight, ExtendedMantissa.shiftRightOne, h] <;> simp <;> omega

theorem weight_shiftRightOne_mono {a b : ExtendedMantissa} (h : weight a ≤ weight b) :
    weight a.shiftRightOne ≤ weight b.shiftRightOne := by
  have hround := a.roundBit.toNat_le
  have hsticky := a.stickyBit.toNat_le
  rw [weight_shiftRightOne, weight_shiftRightOne]
  simp only [weight] at h
  rcases a with ⟨m, r, s⟩
  rcases b with ⟨n, r', s'⟩
  cases r <;> cases s <;> cases r' <;> cases s' <;> simp at h ⊢ <;> omega

theorem shiftRight_succ (em : ExtendedMantissa) (k : Nat) :
    em >>> (k + 1) = (em >>> k).shiftRightOne := rfl

theorem weight_shiftRight_mono {a b : ExtendedMantissa} (h : weight a ≤ weight b) (k : Nat) :
    weight (a >>> k) ≤ weight (b >>> k) := by
  induction k with
  | zero => exact h
  | succ k ih => exact weight_shiftRightOne_mono ih

theorem roundedMantissa_mono {a b : ExtendedMantissa} (h : weight a ≤ weight b) :
    a.roundedMantissa ≤ b.roundedMantissa := by
  rcases a with ⟨m, r, s⟩
  rcases b with ⟨n, r', s'⟩
  cases r <;> cases s <;> cases r' <;> cases s' <;>
    simp [weight, ExtendedMantissa.roundedMantissa, ExtendedMantissa.accuracy,
      Accuracy.roundToNearestEven] at h ⊢ <;> omega

theorem mantissa_shiftRight (em : ExtendedMantissa) (k : Nat) :
    (em >>> k).mantissa = em.mantissa / 2 ^ k := by
  induction k with
  | zero => simp [HShiftRight.hShiftRight, Nat.repeat]
  | succ k ih =>
    rw [shiftRight_succ, ExtendedMantissa.shiftRightOne, ih, Nat.div_div_eq_div_mul, Nat.pow_succ]

/-- `n / 2 ^ k` to the nearest integer, and to the even one of two that are equally near. -/
def quotient (n k : Nat) : Nat := (ExtendedMantissa.mk n false false >>> k).roundedMantissa

theorem quotient_mono {m n : Nat} (h : m ≤ n) (k : Nat) : quotient m k ≤ quotient n k := by
  refine roundedMantissa_mono (weight_shiftRight_mono ?_ k)
  simp only [weight]
  omega

theorem quotient_bounds (n k : Nat) : n / 2 ^ k ≤ quotient n k ∧ quotient n k ≤ n / 2 ^ k + 1 := by
  have hm := mantissa_shiftRight ⟨n, false, false⟩ k
  rw [← hm, quotient]
  rcases (ExtendedMantissa.mk n false false >>> k) with ⟨m, r, s⟩
  cases r <;> cases s <;>
    simp [ExtendedMantissa.roundedMantissa, ExtendedMantissa.accuracy, Accuracy.roundToNearestEven]
  omega

theorem quotient_mul_two_pow (n k : Nat) : quotient (n * 2 ^ k) k = n := by
  have hshift : ∀ m, ExtendedMantissa.mk (m * 2 ^ k) false false >>> k = ⟨m, false, false⟩ := by
    induction k with
    | zero => intro m; simp [HShiftRight.hShiftRight, Nat.repeat]
    | succ k ih =>
      intro m
      rw [shiftRight_succ, Nat.pow_succ, Nat.mul_comm (2 ^ k), ← Nat.mul_assoc, ih]
      simp [ExtendedMantissa.shiftRightOne]
  rw [quotient, hshift]
  rfl

theorem log2_eq {n k : Nat} (h : 2 ^ k ≤ n) (h' : n < 2 ^ (k + 1)) : n.log2 = k := by
  have hn : n ≠ 0 := by
    rintro rfl
    simp at h
  have h₁ := (Nat.le_log2 hn).mpr h
  have h₂ := (Nat.log2_lt hn).mpr h'
  omega

theorem log2_mul_two_pow {n : Nat} (hn : n ≠ 0) (k : Nat) : (n * 2 ^ k).log2 = n.log2 + k := by
  refine log2_eq ?_ ?_
  · rw [Nat.pow_add]
    exact Nat.mul_le_mul_right _ (Nat.log2_self_le hn)
  · rw [show n.log2 + k + 1 = n.log2 + 1 + k by omega, Nat.pow_add]
    exact Nat.mul_lt_mul_of_pos_right Nat.lt_log2_self (Nat.two_pow_pos k)

theorem quotient_normal {n k : Nat} (hn : n ≠ 0) (hlog : n.log2 = 52 + k) :
    2 ^ 52 ≤ quotient n k ∧ quotient n k ≤ 2 ^ 53 := by
  obtain ⟨hlow, hhigh⟩ := quotient_bounds n k
  have h₁ : 2 ^ 52 ≤ n / 2 ^ k := by
    rw [Nat.le_div_iff_mul_le (Nat.two_pow_pos k), ← Nat.pow_add, ← hlog]
    exact Nat.log2_self_le hn
  have h₂ : n / 2 ^ k < 2 ^ 53 := by
    rw [Nat.div_lt_iff_lt_mul (Nat.two_pow_pos k), ← Nat.pow_add, show 53 + k = n.log2 + 1 by omega]
    exact Nat.lt_log2_self
  omega

/-! ### Mantissas of 53 bits -/

/-- The mantissa and the exponent of a rounded quotient, which may have carried into bit 53. -/
def settle (q : Nat) (e : Int) : Nat × Int := if q < 2 ^ 53 then (q, e) else (2 ^ 52, e + 1)

theorem settle_normal {q : Nat} {e : Int} (hlow : 2 ^ 52 ≤ q) :
    2 ^ 52 ≤ (settle q e).1 ∧ (settle q e).1 < 2 ^ 53 ∧ e ≤ (settle q e).2 ∧
      (settle q e).2 ≤ e + 1 := by
  unfold settle
  split
  · simp
    omega
  · simp

def scaled (q : Nat × Int) : UnpackedFloat :=
  if h : 0 < q.1 then .finite .positive q.1 q.2 h else .zero .positive

/-- Shifting to the exponent of the format drops the low bits. -/
theorem shiftToTargetExponent_eq {n k : Nat} {e : Int} (hlog : n.log2 = 52 + k)
    (he : -1074 ≤ e + k) :
    shiftToTargetExponent Format.binary64 n e .exact =
      (ExtendedMantissa.mk n false false >>> k, e + k) := by
  have htarget : Format.binary64.targetExponent (totalExponent n e) = e + k := by
    simp only [Format.targetExponent, totalExponent, Format.mantissaBits, Format.minExponent, hlog]
    norm_num
    omega
  have hshift : (e + k - e).toNat = k := by omega
  simp only [shiftToTargetExponent, htarget, shiftToExponent, hshift,
    ExtendedMantissa.ofMantissaAndAccuracy]

/-- Rounding shifts once to have 53 bits, and once more when that carries. -/
theorem roundWithAccuracy_scaled {n q : Nat} {e e₁ e₂ : Int} {em em' : ExtendedMantissa}
    (h : shiftToTargetExponent Format.binary64 n e .exact = (em, e₁))
    (hq : em.roundedMantissa = q)
    (h' : shiftToTargetExponent Format.binary64 q e₁ .exact = (em', e₂)) :
    roundWithAccuracy Format.binary64 .positive n e .exact = scaled (em'.mantissa, e₂) := by
  simp only [roundWithAccuracy, h, hq, h', scaled]
  by_cases hm : em'.mantissa = 0
  · simp [hm]
  · simp [hm, Nat.pos_iff_ne_zero]

/-- Rounding a number to the format rounds its quotient. -/
theorem roundWithAccuracy_eq {n k : Nat} {e : Int} (hn : n ≠ 0) (hlog : n.log2 = 52 + k)
    (he : -1074 ≤ e + k) :
    roundWithAccuracy Format.binary64 .positive n e .exact =
      scaled (settle (quotient n k) (e + k)) := by
  obtain ⟨hlow, hhigh⟩ := quotient_normal hn hlog
  have hfirst := shiftToTargetExponent_eq hlog he
  by_cases hq : quotient n k < 2 ^ 53
  · have hlogq : (quotient n k).log2 = 52 + 0 := log2_eq hlow hq
    have hsecond := shiftToTargetExponent_eq (e := e + k) hlogq (by omega)
    rw [roundWithAccuracy_scaled hfirst rfl hsecond, settle, if_pos hq, mantissa_shiftRight]
    simp
  · have hlogq : (quotient n k).log2 = 52 + 1 := by
      rw [show quotient n k = 2 ^ 53 by omega, Nat.log2_two_pow]
    have hsecond := shiftToTargetExponent_eq (e := e + k) hlogq (by omega)
    have hhalf : quotient n k / 2 ^ 1 = 2 ^ 52 := by omega
    rw [roundWithAccuracy_scaled hfirst rfl hsecond, settle, if_neg hq, mantissa_shiftRight, hhalf]
    rfl

/-- A mantissa of 53 bits is not changed by rounding, whatever zeros stand behind it. -/
theorem round_exact {m k : Nat} {e : Int} (hm : 2 ^ 52 ≤ m) (hm' : m < 2 ^ 53)
    (he : -1074 ≤ e + k) :
    roundWithAccuracy Format.binary64 .positive (m * 2 ^ k) e .exact = scaled (m, e + k) := by
  have hlog := log2_mul_two_pow (show m ≠ 0 by omega) k
  rw [log2_eq hm hm'] at hlog
  rw [roundWithAccuracy_eq (by positivity) hlog he, quotient_mul_two_pow, settle, if_pos hm']

/-! ### Packed numbers -/

theorem unpackSign_positive {e : BitVec 11} {m : BitVec 52} :
    unpackSign (packComponents Format.binary64 .positive e m) = 0#1 := by
  apply BitVec.eq_of_getLsbD_eq
  intro i hi
  obtain rfl : i = 0 := by omega
  have htop : ((0#1 ++ e) ++ m).getLsbD 63 = false := by
    rw [BitVec.getLsbD_append, BitVec.getLsbD_append]
    rfl
  rw [unpackSign, BitVec.getLsbD_cast, BitVec.getLsbD_extractLsb]
  exact htop

theorem append_one (m : Nat) : (1#1 ++ BitVec.ofNat 52 m).toNat = 2 ^ 52 + m % 2 ^ 52 := by
  rw [BitVec.toNat_append, ← Nat.shiftLeft_add_eq_or_of_lt (BitVec.isLt _)]
  simp [Nat.shiftLeft_eq]

/-- A normal number is read back as it was packed. -/
theorem unpack_pack {m : Nat} {e : Int} (hm : 2 ^ 52 ≤ m) (hm' : m < 2 ^ 53) (he : -1074 ≤ e)
    (he' : e ≤ 971) (hpos : 0 < m) :
    (Float.Model.pack (.finite .positive m e hpos)).unpack = .finite .positive m e hpos := by
  have hlog : m.log2 = 52 := log2_eq hm hm'
  obtain ⟨b, hb⟩ : ∃ b : Nat, e + 1023 + 52 = b := ⟨(e + 1023 + 52).toNat, by omega⟩
  have hb₁ : 0 < b := by omega
  have hb₂ : b < 2047 := by omega
  have hbits : (BitVec.ofNat 11 b).toNat = b := by
    rw [BitVec.toNat_ofNat]
    exact Nat.mod_eq_of_lt (by omega)
  have hmax : ¬ BitVec.ofNat 11 b = -1#11 := by
    intro h
    have hval : b = 2047 := hbits.symm.trans (congrArg BitVec.toNat h)
    omega
  have hmin : ¬ BitVec.ofNat 11 b = 0#11 := by
    intro h
    have hval : b = 0 := hbits.symm.trans (congrArg BitVec.toNat h)
    omega
  have hpack : UnpackedFloat.pack Format.binary64 (.finite .positive m e hpos) =
      packComponents Format.binary64 .positive (BitVec.ofNat 11 b) (BitVec.ofNat 52 m) := by
    have hexp : (e + (Format.binary64.exponentBias : Int) +
        (Format.binary64.mantissaBitsWithoutImplicit : Int)).toNat = b := by
      change (e + 1023 + 52).toNat = b
      omega
    rw [UnpackedFloat.pack]
    simp only [hexp, hlog]
    rw [if_neg (by omega), if_pos (by decide)]
  simp only [Float.Model.unpack, Float.Model.pack, hpack, UnpackedFloat.unpack,
    unpackMantissa_packComponents, unpackExponent_packComponents, if_neg hmax, if_neg hmin,
    UnpackedFloat.finite.injEq]
  refine ⟨?_, ?_, ?_⟩
  · rw [unpackSign_positive]
    rfl
  · rw [append_one]
    omega
  · rw [hbits]
    change (b : Int) - (1023 + 52) = e
    omega

theorem unpack_pack_scaled {q : Nat × Int} (hm : 2 ^ 52 ≤ q.1) (hm' : q.1 < 2 ^ 53)
    (he : -1074 ≤ q.2) (he' : q.2 ≤ 971) : (Float.Model.pack (scaled q)).unpack = scaled q := by
  have hpos : 0 < q.1 := by omega
  rw [scaled, dif_pos hpos]
  exact unpack_pack hm hm' he he' hpos

/-! ### Counts -/

def rounded (n : Nat) : Nat × Int := settle (quotient (n * 2 ^ 53) (n.log2 + 1)) (n.log2 - 52)

theorem quotient_rounded {n : Nat} (hn : n ≠ 0) :
    2 ^ 52 ≤ quotient (n * 2 ^ 53) (n.log2 + 1) ∧ quotient (n * 2 ^ 53) (n.log2 + 1) ≤ 2 ^ 53 := by
  have hlog := log2_mul_two_pow hn 53
  exact quotient_normal (by omega) (by omega)

theorem rounded_normal {n : Nat} (hn : n ≠ 0) (hn' : n < 2 ^ 64) :
    2 ^ 52 ≤ (rounded n).1 ∧ (rounded n).1 < 2 ^ 53 ∧ -1074 ≤ (rounded n).2 ∧
      (rounded n).2 ≤ 971 := by
  have hlog : n.log2 < 64 := (Nat.log2_lt hn).mpr hn'
  obtain ⟨hlow, _⟩ := quotient_rounded hn
  obtain ⟨h₁, h₂, h₃, h₄⟩ := settle_normal (e := n.log2 - 52) hlow
  exact ⟨h₁, h₂, by rw [rounded]; omega, by rw [rounded]; omega⟩

/-- What fits into a mantissa is not rounded. -/
theorem rounded_of_lt {n : Nat} (hn : n ≠ 0) (hn' : n < 2 ^ 53) :
    rounded n = (n * 2 ^ (52 - n.log2), (n.log2 : Int) - 52) := by
  have hlog : n.log2 < 53 := (Nat.log2_lt hn).mpr hn'
  have hpow : n * 2 ^ 53 = n * 2 ^ (52 - n.log2) * 2 ^ (n.log2 + 1) := by
    rw [Nat.mul_assoc, ← Nat.pow_add]
    congr 2
    omega
  have hlt : n * 2 ^ (52 - n.log2) < 2 ^ 53 := by
    rw [← Nat.log2_lt (by positivity), log2_mul_two_pow hn]
    omega
  rw [rounded, hpow, quotient_mul_two_pow, settle, if_pos hlt]

theorem mul_eq (m n : Nat) (d e : Int) (hm : 0 < m) (hn : 0 < n) :
    UnpackedFloat.mul Format.binary64 (.finite .positive m d hm) (.finite .positive n e hn) =
      roundWithAccuracy Format.binary64 .positive (m * n) (d + e) .exact := rfl

theorem round_shifted {n : Nat} (hn : n ≠ 0) :
    roundWithAccuracy Format.binary64 .positive (n * 2 ^ 53) (-53) .exact = scaled (rounded n) := by
  have hlog := log2_mul_two_pow hn 53
  rw [roundWithAccuracy_eq (k := n.log2 + 1) (by omega) (by omega) (by omega), rounded]
  congr 2
  omega

/-- A large count is rounded to the nearest number, and to the even one of two. -/
theorem ofNat_large {n : Nat} (hn : 2 ^ 53 ≤ n) (hn' : n < 2 ^ 64) :
    (Float.ofNat n).toModel.unpack = scaled (rounded n) := by
  have h0 : n ≠ 0 := by omega
  have hmodel : (Float.ofNat n).toModel = Float.Model.ofScientific n 0 := by
    simp only [Float.ofNat, OfScientific.ofScientific, Float.ofScientific]
    rw [dif_neg (by omega)]
    rfl
  have hround : UnpackedFloat.ofScientific Format.binary64 n 0 = scaled (rounded n) := by
    have hexp : ¬ (0 : Int) < -(2 ^ 11 + n.log2) := by omega
    have hproduct : n <<< Format.binary64.mantissaBits * 10 ^ (0 : Int).toNat = n * 2 ^ 53 := by
      simp [Nat.shiftLeft_eq, Format.mantissaBits]
    rw [UnpackedFloat.ofScientific, dif_neg h0, if_neg (by decide), if_neg hexp,
      if_pos (by decide), mul_eq, hproduct]
    exact round_shifted h0
  obtain ⟨h₁, h₂, h₃, h₄⟩ := rounded_normal h0 hn'
  rw [hmodel, Float.Model.ofScientific, hround]
  exact unpack_pack_scaled h₁ h₂ h₃ h₄

theorem one_unpack : (1.0 : Float).toModel.unpack = .finite .positive (2 ^ 52) (-52) (by decide) :=
  rfl

theorem ofUInt64_unpack {n : Nat} (hn : n ≠ 0) (hn' : n < 2 ^ 53) :
    (UInt64.toFloat (UInt64.ofNat n)).toModel.unpack = scaled (rounded n) := by
  have hlog : n.log2 < 53 := (Nat.log2_lt hn).mpr hn'
  have hto : (UInt64.ofNat n).toNat = n := by
    rw [UInt64.toNat_ofNat_of_lt']
    exact Nat.lt_trans hn' (by decide)
  have hround : UnpackedFloat.ofUInt64 Format.binary64 (UInt64.ofNat n) = scaled (rounded n) := by
    have htarget : Format.binary64.targetExponent (totalExponent n 0) = (n.log2 : Int) - 52 := by
      simp only [Format.targetExponent, totalExponent, Format.mantissaBits, Format.minExponent]
      norm_num
      omega
    have hshift : (0 - ((n.log2 : Int) - 52)).toNat = 52 - n.log2 := by omega
    obtain ⟨h₁, h₂, h₃, _⟩ := rounded_normal hn (by omega)
    have hexact := round_exact (k := 0) h₁ h₂ (e := (rounded n).2) (by omega)
    have hgt : compare (n : Int) 0 = .gt := by
      rw [compare_gt_iff_gt]
      omega
    rw [UnpackedFloat.ofUInt64, hto, UnpackedFloat.ofNat, UnpackedFloat.ofInt,
      UnpackedFloat.normalize, hgt]
    simp only [UnpackedFloat.round, Int.toNat_natCast, htarget, decreaseExponent, hshift,
      Nat.shiftLeft_eq]
    rw [rounded_of_lt hn hn'] at hexact ⊢
    simp only [Nat.pow_zero, Nat.mul_one, Nat.cast_zero, Int.add_zero] at hexact
    have hexp : (0 : Int) - (52 - n.log2 : Nat) = (n.log2 : Int) - 52 := by omega
    rw [hexp]
    exact hexact
  obtain ⟨h₁, h₂, h₃, h₄⟩ := rounded_normal hn (by omega)
  change (Float.Model.pack _).unpack = _
  rw [hround]
  exact unpack_pack_scaled h₁ h₂ h₃ h₄

/-- A small count is exact. -/
theorem ofNat_small {n : Nat} (hn : n ≠ 0) (hn' : n < 2 ^ 53) :
    (Float.ofNat n).toModel.unpack = scaled (rounded n) := by
  have hmodel : (Float.ofNat n).toModel =
      (UInt64.toFloat (UInt64.ofNat n)).toModel * (1.0 : Float).toModel := by
    simp only [Float.ofNat, OfScientific.ofScientific, Float.ofScientific]
    rw [dif_pos (by omega)]
    rfl
  obtain ⟨h₁, h₂, h₃, h₄⟩ := rounded_normal hn (by omega)
  have hpos : 0 < (rounded n).1 := by omega
  have hmul : UnpackedFloat.mul Format.binary64 (scaled (rounded n))
      (.finite .positive (2 ^ 52) (-52) (by decide)) = scaled (rounded n) := by
    rw [scaled, dif_pos hpos, mul_eq, round_exact h₁ h₂ (by omega)]
    have hexp : (rounded n).2 + -52 + (52 : Nat) = (rounded n).2 := by omega
    rw [hexp, scaled, dif_pos hpos]
  rw [hmodel]
  change (Float.Model.pack (UnpackedFloat.mul Format.binary64 _ _)).unpack = _
  rw [ofUInt64_unpack hn hn', one_unpack, hmul]
  exact unpack_pack_scaled h₁ h₂ h₃ h₄

theorem ofNat_unpack {n : Nat} (hn : n ≠ 0) (hn' : n < 2 ^ 64) :
    (Float.ofNat n).toModel.unpack = scaled (rounded n) := by
  by_cases h : n < 2 ^ 53
  · exact ofNat_small hn h
  · exact ofNat_large (by omega) hn'

theorem ofNat_zero : (Float.ofNat 0).toModel.unpack = .zero .positive := by
  rfl

/-! ### Order -/

/-- The order of normal numbers: by exponent, then by mantissa. -/
def Below (p q : Nat × Int) : Prop := p.2 < q.2 ∨ (p.2 = q.2 ∧ p.1 ≤ q.1)

theorem settle_mono {p q : Nat} {e : Int} (hpq : p ≤ q) (hq : q ≤ 2 ^ 53) :
    Below (settle p e) (settle q e) := by
  by_cases hp : p < 2 ^ 53
  · by_cases hq' : q < 2 ^ 53
    · rw [settle, settle, if_pos hp, if_pos hq']
      exact .inr ⟨rfl, hpq⟩
    · rw [settle, settle, if_pos hp, if_neg hq']
      exact .inl (by simp)
  · rw [settle, settle, if_neg hp, if_neg (by omega)]
    exact .inr ⟨rfl, Nat.le_refl _⟩

/-- A carry does not reach beyond the next exponent. -/
theorem settle_lt {p q : Nat} {d e : Int} (hq : 2 ^ 52 ≤ q) (hde : d < e) :
    Below (settle p d) (settle q e) := by
  obtain ⟨hlow, _, he, _⟩ := settle_normal (e := e) hq
  unfold Below
  by_cases hp : p < 2 ^ 53
  · rw [settle.eq_1 p, if_pos hp]
    exact .inl (hde.trans_le he)
  · rw [settle.eq_1 p, if_neg hp]
    rcases (show d + 1 ≤ (settle q e).2 by omega).lt_or_eq with hlt | heq
    · exact .inl hlt
    · exact .inr ⟨heq, hlow⟩

theorem rounded_mono {m n : Nat} (hm : m ≠ 0) (hmn : m ≤ n) : Below (rounded m) (rounded n) := by
  have hn : n ≠ 0 := by omega
  obtain ⟨hlow, hhigh⟩ := quotient_rounded hn
  have hlog : m.log2 ≤ n.log2 := by
    rw [Nat.le_log2 hn]
    exact (Nat.log2_self_le hm).trans hmn
  rcases hlog.lt_or_eq with hlt | heq
  · exact settle_lt hlow (by omega)
  · rw [rounded, rounded, heq]
    exact settle_mono (quotient_mono (Nat.mul_le_mul_right (2 ^ 53) hmn) _) hhigh

/-- Comparison follows the order of normal numbers. -/
theorem lt_scaled {x : UnpackedFloat} {p q : Nat × Int} (hp : 0 < p.1) (hq : 0 < q.1)
    (hpq : Below p q) (h : x.lt (scaled p) = true) : x.lt (scaled q) = true := by
  rw [scaled, dif_pos hp] at h
  rw [scaled, dif_pos hq]
  unfold UnpackedFloat.lt at *
  cases x with
  | notANumber => exact h
  | infinity s => cases s <;> exact h
  | zero s => rfl
  | finite s m e hm =>
    cases s with
    | negative => rfl
    | positive =>
      simp only [UnpackedFloat.compare, beq_iff_eq, Option.some.injEq, Ordering.then_eq_lt,
        compare_lt_iff_lt, compare_eq_iff_eq] at h ⊢
      rcases hpq with hlt | ⟨heq, hle⟩ <;> omega

theorem lt_scaled_of_lt_zero {x : UnpackedFloat} {q : Nat × Int} (hq : 0 < q.1)
    (h : x.lt (.zero .positive) = true) : x.lt (scaled q) = true := by
  rw [scaled, dif_pos hq]
  cases x with
  | notANumber => exact h
  | infinity s => cases s <;> exact h
  | zero s => rfl
  | finite s m e hm =>
    cases s with
    | negative => rfl
    | positive => cases h

theorem lt_iff {x y : Float} : x < y ↔ x.toModel.unpack.lt y.toModel.unpack = true := by
  change Float.lt x y = true ↔ _
  rw [Float.lt, decide_eq_true_iff]
  rfl

/-- A number below a count is below every larger one. -/
theorem lt_ofNat_mono {x : Float} {m n : Nat} (hmn : m ≤ n) (hn : n < 2 ^ 64)
    (h : x < Float.ofNat m) : x < Float.ofNat n := by
  by_cases hn0 : n = 0
  · rw [show m = n by omega] at h
    exact h
  · rw [lt_iff] at h ⊢
    obtain ⟨hlow, _⟩ := rounded_normal hn0 hn
    rw [ofNat_unpack hn0 hn]
    by_cases hm0 : m = 0
    · rw [hm0, ofNat_zero] at h
      exact lt_scaled_of_lt_zero (by omega) h
    · obtain ⟨hlow', _⟩ := rounded_normal hm0 (by omega)
      rw [ofNat_unpack hm0 (by omega)] at h
      exact lt_scaled (by omega) (by omega) (rounded_mono hm0 hmn) h

end Trampoline.Binary64

namespace Trampoline.Heap

variable {w : Width} {h : Heap w} {live live' : Nat}

theorem crowded_mono (hle : live ≤ live') (hlt : live' < 2 ^ 64) (hc : h.crowded live = true) :
    h.crowded live' = true := by
  rw [crowded, decide_eq_true_iff] at hc ⊢
  exact Binary64.lt_ofNat_mono hle hlt hc

/-- More live words need no less capacity. -/
theorem capacityFor_mono (hle : live ≤ live') (hlt : live' < 2 ^ 64) (requested : Nat) :
    h.capacityFor live requested ≤ h.capacityFor live' requested := by
  by_cases hgrow : (h.crowded live || decide (h.capacity < live + requested)) = true
  · have hgrow' : (h.crowded live' || decide (h.capacity < live' + requested)) = true := by
      rw [Bool.or_eq_true, decide_eq_true_iff] at hgrow ⊢
      rcases hgrow with hc | hc
      · exact .inl (crowded_mono hle hlt hc)
      · exact .inr (by omega)
    rw [capacityFor, capacityFor, if_pos hgrow, if_pos hgrow']
    omega
  · rw [capacityFor, if_neg hgrow]
    exact h.capacity_le_capacityFor live' requested

end Trampoline.Heap

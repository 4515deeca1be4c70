import Mathlib.Tactic.Ring
import Trampoline.Label

/-!
What words hold, read back.

A word with the reference tag is the word of exactly one reference, and small integers, label
numbers and headers come back as they were put in. None of these three is ever a reference, so
the collector leaves them alone.
-/

namespace Trampoline

namespace Word

variable {w : Width}

/-- The bits of a reference, as a number. -/
theorem ref?_eq_some {v : Word w} {r : Ref} (h : v.ref? = some r) :
    v.toNat = 8 * r.offset + (if r.pair then 4 else 0) + 1 := by
  unfold ref? at h
  split at h
  · next ht =>
    cases h
    have htag : v.toNat % 4 = 1 := by simpa [isRef, tag] using ht
    have hbit : v.toNat / 4 % 2 = 0 ∨ v.toNat / 4 % 2 = 1 := by omega
    rcases hbit with hb | hb
    · simp [hb]; omega
    · simp [hb]; omega
  · cases h

/-- A word with the reference tag is the word of its reference. -/
theorem eq_word {v : Word w} {r : Ref} (h : v.ref? = some r) : v = r.word := by
  apply BitVec.eq_of_toNat_eq
  rw [Ref.word, toNat_ofNat, ← ref?_eq_some h, Nat.mod_eq_of_lt v.toNat_lt]

/-- A reference is read back as it was written. -/
theorem ref?_word {r : Ref} (h : r.offset ≤ w.maxOffset) : (r.word : Word w).ref? = some r := by
  have hm := w.maxOffset_mul
  have hv : (r.word : Word w).toNat = 8 * r.offset + (if r.pair then 4 else 0) + 1 := by
    rw [Ref.word, toNat_ofNat, Nat.mod_eq_of_lt]
    split <;> omega
  obtain ⟨offset, pair⟩ := r
  simp only at hv h
  have htag : (Ref.word ⟨offset, pair⟩ : Word w).isRef = true := by
    simp only [isRef, tag, hv]
    cases pair <;> simp <;> omega
  rw [ref?, if_pos htag, hv]
  cases pair
  · simp; omega
  · simp; omega

theorem ref?_inj {v u : Word w} {r : Ref} (hv : v.ref? = some r) (hu : u.ref? = some r) : v = u :=
  (eq_word hv).trans (eq_word hu).symm

theorem ref?_eq_none_of_tag {v : Word w} (h : v.tag ≠ 1) : v.ref? = none := by
  simp [ref?, isRef, h]

theorem tag_wrapInt (n : Int) : (wrapInt n : Word w).tag = 0 := by
  have hpos : (0 : Int) ≤ 4 * n % w.modulus := Int.emod_nonneg _ (by have := w.modulus_pos; omega)
  simp only [tag, wrapInt, toNat_ofNat]
  cases w <;> simp only [Width.modulus] at * <;> omega

theorem ref?_wrapInt (n : Int) : (wrapInt n : Word w).ref? = none :=
  ref?_eq_none_of_tag (by rw [tag_wrapInt]; decide)

theorem signed_cases (v : Word w) :
    (2 * v.toNat < w.modulus ∧ v.signed = v.toNat) ∨
      (w.modulus ≤ 2 * v.toNat ∧ v.signed = (v.toNat : Int) - w.modulus) := by
  by_cases h : 2 * v.toNat < w.modulus
  · exact .inl ⟨h, by rw [signed, if_pos h]⟩
  · exact .inr ⟨by omega, by rw [signed, if_neg h]⟩

/-- A small integer is read back from its word. -/
theorem intValue_wrapInt {n : Int} (h : w.minInt ≤ n ∧ n ≤ w.maxInt) :
    (wrapInt n : Word w).intValue = n := by
  have hv : (wrapInt n : Word w).toNat = (4 * n % w.modulus).toNat % w.modulus := rfl
  rw [intValue]
  cases w <;> simp only [Width.minInt, Width.maxInt] at h <;>
    rcases signed_cases (wrapInt n : Word _) with ⟨hs, he⟩ | ⟨hs, he⟩ <;>
    rw [hv] at hs he <;> simp only [Width.modulus] at hs he <;> omega

theorem int_eq_ok {n : Int} {v : Word w} (h : Word.int n = .ok v) :
    (w.minInt ≤ n ∧ n ≤ w.maxInt) ∧ v = wrapInt n := by
  simp only [Word.int] at h
  split at h
  · next hn => cases h; exact ⟨hn, rfl⟩
  · cases h

theorem toSmallInt_int {n : Int} {v : Word w} (h : Word.int n = .ok v) : v.toSmallInt = .ok n := by
  obtain ⟨hn, rfl⟩ := int_eq_ok h
  simp [toSmallInt, isInt, tag_wrapInt, intValue_wrapInt hn]

theorem ref?_int {n : Int} {v : Word w} (h : Word.int n = .ok v) : v.ref? = none := by
  obtain ⟨_, rfl⟩ := int_eq_ok h
  exact ref?_wrapInt n

theorem ref?_size {n : Nat} {v : Word w} (h : Word.size n = .ok v) : v.ref? = none := ref?_int h

theorem ref?_codeAddress {id : UInt32} {v : Word w} (h : Word.codeAddress id = .ok v) :
    v.ref? = none := ref?_int h

theorem toSmallInt_eq_ok {v : Word w} {n : Int} (h : v.toSmallInt = .ok n) :
    v.tag = 0 ∧ n = v.intValue := by
  unfold toSmallInt at h
  split at h
  · next hv =>
    cases h
    exact ⟨by simpa [isInt] using hv, rfl⟩
  · cases h

theorem ref?_of_toSmallInt {v : Word w} {n : Int} (h : v.toSmallInt = .ok n) : v.ref? = none :=
  ref?_eq_none_of_tag (by rw [(toSmallInt_eq_ok h).1]; decide)

theorem ref?_of_toCodeAddress {v : Word w} {id : UInt32} (h : v.toCodeAddress = .ok id) :
    v.ref? = none := by
  unfold toCodeAddress at h
  cases hi : v.toSmallInt with
  | error t => rw [hi] at h; cases h
  | ok n => exact ref?_of_toSmallInt hi

theorem toSmallInt_range {v : Word w} {n : Int} (h : v.toSmallInt = .ok n) :
    w.minInt ≤ n ∧ n ≤ w.maxInt := by
  have hlt : v.toNat < w.modulus := v.toNat_lt
  rw [(toSmallInt_eq_ok h).2, intValue]
  rcases signed_cases v with ⟨hs, he⟩ | ⟨hs, he⟩ <;>
    cases w <;> simp only [Width.modulus, Width.minInt, Width.maxInt] at * <;> omega

theorem toSmallInt_le {v : Word w} {n : Int} (h : v.toSmallInt = .ok n) : n ≤ w.maxInt :=
  (toSmallInt_range h).2

theorem signed_ofNat {n : Nat} (hn : (n : Int) ≤ w.maxInt) : (ofNat n : Word w).signed = n := by
  rcases signed_cases (ofNat n : Word w) with ⟨hs, he⟩ | ⟨hs, he⟩ <;>
    rw [toNat_ofNat] at hs he <;>
    cases w <;> simp only [Width.modulus, Width.maxInt] at * <;> omega

/-- A size that fits a small integer is read back from its word. -/
theorem toSmallInt_size {n : Nat} {v : Word w} (hn : (n : Int) ≤ w.maxInt)
    (h : Word.size n = .ok v) : v.toSmallInt = .ok (n : Int) := by
  rw [Word.size, signed_ofNat hn] at h
  exact toSmallInt_int h

/-- A word with the integer tag is the word of the small integer that it holds. -/
theorem wrapInt_intValue {v : Word w} (h : v.tag = 0) : wrapInt v.intValue = v := by
  have hlt : v.toNat < w.modulus := v.toNat_lt
  rw [tag] at h
  apply BitVec.eq_of_toNat_eq
  change (4 * v.intValue % w.modulus).toNat % w.modulus = v.toNat
  rw [intValue]
  rcases signed_cases v with ⟨hs, he⟩ | ⟨hs, he⟩ <;>
    cases w <;> simp only [Width.modulus] at * <;> omega

/-- A word that is a small integer is the word of the size it is read as, also if it is negative. -/
theorem size_ofInt {v : Word w} {n : Int} (h : v.toSmallInt = .ok n) :
    Word.size (Size.ofInt n) = .ok v := by
  have hrange := toSmallInt_range h
  obtain ⟨htag, hn⟩ := toSmallInt_eq_ok h
  have hsigned : (ofNat (Size.ofInt n) : Word w).signed = n := by
    have hof : (Size.ofInt n : Int) = n % sizeRange :=
      Int.toNat_of_nonneg (Int.emod_nonneg _ (by decide))
    rcases signed_cases (ofNat (Size.ofInt n) : Word w) with ⟨hs, he⟩ | ⟨hs, he⟩ <;>
      rw [toNat_ofNat] at hs he <;>
      cases w <;> simp only [Width.modulus, Width.minInt, Width.maxInt, sizeRange] at * <;> omega
  rw [Word.size, hsigned, Word.int, if_pos hrange, hn, wrapInt_intValue htag]

theorem size_of_le {n : Nat} (hn : (n : Int) ≤ w.maxInt) : ∃ v : Word w, Word.size n = .ok v := by
  have hmin : w.minInt ≤ (n : Int) := by
    cases w <;> simp only [Width.minInt] <;> omega
  exact ⟨_, by rw [Word.size, signed_ofNat hn, Word.int, if_pos ⟨hmin, hn⟩]⟩

/-- A label's number is read back from its word, also where it was read as negative. -/
theorem toCodeAddress_codeAddress {id : UInt32} {v : Word w} (h : Word.codeAddress id = .ok v) :
    v.toCodeAddress = .ok id := by
  have hid : id.toNat < 2 ^ 32 := id.toNat_lt
  have hs : (ofNat id.toNat : Word w).signed % 0x100000000 = (id.toNat : Int) := by
    rcases signed_cases (ofNat id.toNat : Word w) with ⟨hs, he⟩ | ⟨hs, he⟩ <;>
      rw [toNat_ofNat] at hs he <;> cases w <;> simp only [Width.modulus] at * <;> omega
  have hi : v.toSmallInt = .ok (ofNat id.toNat : Word w).signed := toSmallInt_int h
  simp only [toCodeAddress, hi, bind, Except.bind, pure, Except.pure, hs]
  simp

/-- The number of a label that has been read from a word can be put into one again. -/
theorem codeAddress_of_toCodeAddress {id : UInt32} {v : Word w} (h : v.toCodeAddress = .ok id) :
    ∃ u : Word w, Word.codeAddress id = .ok u := by
  unfold toCodeAddress at h
  cases hi : v.toSmallInt with
  | error t => rw [hi] at h; cases h
  | ok n =>
    rw [hi] at h
    cases h
    have hrange := toSmallInt_range hi
    have hid : ((UInt32.ofNat (n % 0x100000000).toNat).toNat : Int) = n % 0x100000000 := by
      rw [UInt32.toNat_ofNat']
      omega
    refine ⟨_, if_pos ?_⟩
    rcases signed_cases (ofNat (UInt32.ofNat (n % 0x100000000).toNat).toNat : Word w) with
        ⟨hs, he⟩ | ⟨hs, he⟩ <;>
      rw [toNat_ofNat] at hs he <;>
      cases w <;> simp only [Width.modulus, Width.minInt, Width.maxInt] at * <;> omega

end Word

namespace Size

theorem sub_eq_ok {a b c : Nat} (h : sub (w := w) a b = .ok c) : b ≤ a ∧ c = a - b := by
  unfold sub at h
  split at h
  · cases h
    exact ⟨by assumption, rfl⟩
  · cases h

theorem add_sub (a b : Nat) : sub (w := w) (a + b) b = .ok a := by
  unfold sub
  rw [if_pos (Nat.le_add_left b a), Nat.add_sub_cancel]

theorem add_eq_ok {a b c : Nat} (h : add (w := w) a b = .ok c) : c = a + b := by
  unfold add at h
  split at h
  · cases h
    rfl
  · cases h

theorem ofInt_natCast {n : Nat} (h : n < sizeRange) : ofInt (n : Int) = n := by
  simp only [ofInt, sizeRange] at *
  omega

end Size

namespace Header

variable {w : Width}

theorem toNat_pack (kind : Kind) {uid fields : Nat} (hu : uid ≤ w.maxUid)
    (hf : fields ≤ w.maxFields) :
    (pack kind uid fields : Header w).word.toNat =
      3 + 4 * kind.bit + 8 * fields + w.uidWeight * uid := by
  have hk : kind.bit ≤ 1 := by cases kind <;> decide
  simp only [pack, Word.toNat_ofNat]
  apply Nat.mod_eq_of_lt
  cases w <;>
    simp only [Width.maxUid, Width.uidRange, Width.maxFields, Width.fieldRange, Width.uidWeight,
      Width.modulus] at * <;> omega

theorem isHeader_pack {kind : Kind} {uid fields : Nat} (hu : uid ≤ w.maxUid)
    (hf : fields ≤ w.maxFields) : (pack kind uid fields : Header w).word.isHeader = true := by
  have h : 4 ∣ w.uidWeight * uid := by
    rw [Width.uidWeight]
    exact ⟨2 * w.fieldRange * uid, by ring⟩
  simp only [Word.isHeader, Word.tag, toNat_pack kind hu hf, beq_iff_eq]
  omega

/-- The kind is read back as it was packed. -/
theorem kind_pack {kind : Kind} {uid fields : Nat} (hu : uid ≤ w.maxUid)
    (hf : fields ≤ w.maxFields) : (pack kind uid fields : Header w).kind = kind := by
  have h : 8 ∣ w.uidWeight * uid := by
    rw [Width.uidWeight]
    exact ⟨w.fieldRange * uid, by ring⟩
  have hv := toNat_pack kind hu hf
  cases kind with
  | constructor =>
    rw [Header.kind, if_neg]
    rw [hv, Kind.bit]
    omega
  | closure =>
    rw [Header.kind, if_pos]
    rw [hv, Kind.bit]
    omega

theorem fields_pack {kind : Kind} {uid fields : Nat} (hu : uid ≤ w.maxUid)
    (hf : fields ≤ w.maxFields) : (pack kind uid fields : Header w).fields = fields := by
  have hk : kind.bit ≤ 1 := by cases kind <;> decide
  simp only [Header.fields, toNat_pack kind hu hf]
  cases w <;>
    simp only [Width.maxUid, Width.uidRange, Width.maxFields, Width.fieldRange,
      Width.uidWeight] at * <;> omega

theorem uid_pack {kind : Kind} {uid fields : Nat} (hu : uid ≤ w.maxUid)
    (hf : fields ≤ w.maxFields) : (pack kind uid fields : Header w).uid = uid := by
  have hk : kind.bit ≤ 1 := by cases kind <;> decide
  simp only [Header.uid, toNat_pack kind hu hf]
  cases w <;>
    simp only [Width.maxUid, Width.uidRange, Width.maxFields, Width.fieldRange,
      Width.uidWeight] at * <;> omega

theorem uid_le (h : Header w) : h.uid ≤ w.maxUid := by
  have hlt : h.uid < w.uidRange := Nat.mod_lt _ (by cases w <;> decide)
  rw [Width.maxUid]
  omega

theorem checked_of_le {kind : Kind} {uid fields : Nat} (hu : uid ≤ w.maxUid)
    (hf : fields ≤ w.maxFields) :
    Header.checked kind uid fields = .ok (pack kind uid fields : Header w) := by
  rw [Header.checked, if_neg (Nat.not_lt.mpr hu), if_neg (Nat.not_lt.mpr hf)]

theorem checked_eq_ok {kind : Kind} {uid fields : Nat} {h : Header w}
    (hc : Header.checked kind uid fields = .ok h) :
    uid ≤ w.maxUid ∧ fields ≤ w.maxFields ∧ h = pack kind uid fields := by
  simp only [Header.checked] at hc
  split at hc
  · cases hc
  · split at hc
    · cases hc
    · cases hc
      exact ⟨by omega, by omega, rfl⟩

end Header

theorem Word.ref?_of_isHeader {w : Width} {v : Word w} (h : v.isHeader = true) : v.ref? = none := by
  have ht : v.tag = 3 := by simpa [Word.isHeader] using h
  exact Word.ref?_eq_none_of_tag (by omega)

theorem Word.header?_eq_some {w : Width} {v : Word w} {h : Header w} (hv : v.header? = some h) :
    v.isHeader = true ∧ h = ⟨v⟩ := by
  simp only [Word.header?] at hv
  split at hv
  · next ht => cases hv; exact ⟨ht, rfl⟩
  · cases hv

theorem Ref.checked_eq_ok {w : Width} {offset : Nat} {pair : Bool} {r : Ref}
    (h : Ref.checked (w := w) offset pair = .ok r) :
    offset ≤ w.maxOffset ∧ r = ⟨offset, pair⟩ := by
  simp only [Ref.checked] at h
  split at h
  · next ho => cases h; exact ⟨ho, rfl⟩
  · cases h

/-- A label comes back from the raw word that a closure keeps it in. -/
theorem Label.ofNat_toNat_ofNat {w : Width} (l : Label) :
    Label.ofNat (Word.ofNat l.index : Word w).toNat = l := by
  have hid : l.id.toNat < 2 ^ 32 := l.id.toNat_lt
  have hm : l.id.toNat % w.modulus = l.id.toNat := by
    apply Nat.mod_eq_of_lt
    cases w <;> simp only [Width.modulus] <;> omega
  obtain ⟨id⟩ := l
  simp only [Label.index, Label.ofNat, Word.toNat_ofNat] at *
  rw [hm]
  simp

end Trampoline

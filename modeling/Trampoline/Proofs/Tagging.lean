import Trampoline.Proofs.Integers

/-!
The format of tagged words, bit by bit.

A word is written by shifting its parts to their places, and read by shifting them back and masking
off the rest. Written that way, parts that fit do not touch each other: together they are the number
that has them as its digits. So every word is read as the one thing that it was written from, and
every word that has not the reserved tag is written again as it was read.
-/

namespace Trampoline

variable {w : Width}

/-! ### What a word can hold -/

/-- What a word is written from. -/
inductive Datum where
  | int (n : Int)
  | ref (offset : Nat) (pair : Bool)
  | header (kind : Kind) (uid fields : Nat)
deriving DecidableEq, Repr

namespace Datum

def Fits (w : Width) : Datum → Prop
  | int n => w.minInt ≤ n ∧ n ≤ w.maxInt
  | ref offset _ => offset ≤ w.maxOffset
  | header _ uid fields => uid ≤ w.maxUid ∧ fields ≤ w.maxFields

instance (w : Width) : (d : Datum) → Decidable (d.Fits w)
  | int n => inferInstanceAs (Decidable (w.minInt ≤ n ∧ n ≤ w.maxInt))
  | ref offset _ => inferInstanceAs (Decidable (offset ≤ w.maxOffset))
  | header _ uid fields => inferInstanceAs (Decidable (uid ≤ w.maxUid ∧ fields ≤ w.maxFields))

def tag : Datum → Nat
  | int _ => 0
  | ref _ _ => 1
  | header _ _ _ => 3

/-- The word of it, built under the contracts of its parts. -/
def encode : Datum → Except (Trap w) (Word w)
  | int n => Word.int n
  | ref offset pair => do
    let r ← Ref.checked (w := w) offset pair
    return r.word
  | header kind uid fields => do
    let h ← Header.checked kind uid fields
    return h.word

/-- Its parts, shifted to their places. -/
def bits (w : Width) : Datum → Word w
  | int n => BitVec.ofInt w.bits n <<< 2
  | ref offset pair =>
    (BitVec.ofNat w.bits offset <<< 1 ||| BitVec.ofNat w.bits pair.toNat) <<< 2 ||| 1
  | header kind uid fields =>
    3 ||| BitVec.ofNat w.bits kind.bit <<< 2 ||| BitVec.ofNat w.bits fields <<< 3 |||
      BitVec.ofNat w.bits uid <<< (3 + w.fieldBits)

end Datum

def View.datum : View w → Datum
  | int n => .int n
  | ref r => .ref r.offset r.pair
  | header h => .header h.kind h.uid h.fields

/-- The parts of a word, shifted back and masked. -/
def Word.readBits (v : Word w) : Option Datum :=
  match (v &&& 3).toNat with
  | 0 => some (.int (v.sshiftRight 2).toInt)
  | 1 => some (.ref (v >>> 2 >>> 1).toNat (v >>> 2 &&& 1 == 1))
  | 3 => some (.header (if v >>> 2 &&& 1 = 1 then .closure else .constructor)
      (v >>> (3 + w.fieldBits) &&& BitVec.ofNat w.bits w.maxUid).toNat
      (v >>> 3 &&& BitVec.ofNat w.bits w.maxFields).toNat)
  | _ => none

/-! ### Shifts and masks -/

namespace Word

/-- Bits above the lowest `k` are added to them. -/
theorem ofNat_or_shiftLeft {m n b k : Nat} (hb : b < 2 ^ k) :
    BitVec.ofNat m b ||| BitVec.ofNat m n <<< k = BitVec.ofNat m (b + 2 ^ k * n) := by
  have hshift : BitVec.ofNat m n <<< k = BitVec.ofNat m (2 ^ k * n) := by
    apply BitVec.eq_of_toNat_eq
    simp [Nat.shiftLeft_eq, Nat.mul_comm]
  apply BitVec.eq_of_toNat_eq
  rw [hshift, BitVec.toNat_or]
  simp only [BitVec.toNat_ofNat]
  rw [← Nat.or_mod_two_pow, Nat.or_comm, ← Nat.two_pow_add_eq_or_of_lt hb, Nat.add_comm]

/-- A mask of `k` ones leaves the remainder. -/
theorem toNat_and_mask {m k : Nat} (v : BitVec m) (hk : k ≤ m) :
    (v &&& BitVec.ofNat m (2 ^ k - 1)).toNat = v.toNat % 2 ^ k := by
  have hpow : 2 ^ k ≤ 2 ^ m := Nat.pow_le_pow_right (by decide) hk
  have hpos : 0 < 2 ^ k := Nat.two_pow_pos k
  rw [BitVec.toNat_and, BitVec.toNat_ofNat, Nat.mod_eq_of_lt (by omega),
    Nat.and_two_pow_sub_one_eq_mod]

/-- The tag decides how a word is taken apart. -/
theorem view_eq (v : Word w) :
    v.view = match v.tag with
      | 0 => .ok (.int v.intValue)
      | 1 => .ok (.ref ⟨v.toNat / 8, v.toNat / 4 % 2 == 1⟩)
      | 3 => .ok (.header ⟨v⟩)
      | _ => .error (.reservedTag v) := by
  have htag : v.tag = 0 ∨ v.tag = 1 ∨ v.tag = 2 ∨ v.tag = 3 := by
    rw [tag]
    omega
  unfold view isInt ref? isRef header? isHeader
  rcases htag with h | h | h | h <;> simp [h]

/-- The bit above the tag. -/
theorem bit_above_tag (v : Word w) : v >>> 2 &&& 1 = 1 ↔ v.toNat / 4 % 2 = 1 := by
  have hwidth : 1 ≤ w.bits := by cases w <;> decide
  have hone : (1 : Word w).toNat = 1 := by cases w <;> rfl
  have hmask : (v >>> 2 &&& 1).toNat = (v >>> 2).toNat % 2 := toNat_and_mask (v >>> 2) hwidth
  rw [← BitVec.toNat_inj, hmask, hone, BitVec.toNat_ushiftRight, Nat.shiftRight_eq_div_pow]

theorem fields_eq_bits (v : Word w) :
    (v >>> 3 &&& BitVec.ofNat w.bits w.maxFields).toNat = (Header.mk v).fields := by
  have hwidth : w.fieldBits ≤ w.bits := by cases w <;> decide
  rw [Width.maxFields, w.fieldRange_eq, Nat.pow_eq, toNat_and_mask _ hwidth, Header.fields,
    w.fieldRange_eq, BitVec.toNat_ushiftRight, Nat.shiftRight_eq_div_pow]
  rfl

theorem uid_eq_bits (v : Word w) :
    (v >>> (3 + w.fieldBits) &&& BitVec.ofNat w.bits w.maxUid).toNat = (Header.mk v).uid := by
  have hwidth : w.uidBits ≤ w.bits := by cases w <;> decide
  have hweight : 2 ^ (3 + w.fieldBits) = w.uidWeight := by cases w <;> rfl
  rw [Width.maxUid, w.uidRange_eq, Nat.pow_eq, toNat_and_mask _ hwidth, Header.uid, w.uidRange_eq,
    BitVec.toNat_ushiftRight, Nat.shiftRight_eq_div_pow, hweight]
  rfl

/-- A word is taken apart into what its bits say. -/
theorem readBits_of_view {v : Word w} {view : View w} (h : v.view = .ok view) :
    v.readBits = some view.datum := by
  have hwidth : 2 ≤ w.bits := by cases w <;> decide
  have hlow : (v &&& 3).toNat = v.tag := toNat_and_mask v hwidth
  rw [view_eq] at h
  unfold readBits
  rw [hlow]
  split at h
  · cases h
    rw [toInt_sshiftRight_two]
    rfl
  · cases h
    have hoffset : (v >>> 2 >>> 1).toNat = v.toNat / 8 := by
      simp only [BitVec.toNat_ushiftRight, Nat.shiftRight_eq_div_pow]
      omega
    have hpair : (v >>> 2 &&& 1 == 1) = (v.toNat / 4 % 2 == 1) := by
      rw [Bool.eq_iff_iff, beq_iff_eq, beq_iff_eq]
      exact bit_above_tag v
    rw [hoffset, hpair]
    rfl
  · cases h
    simp only [bit_above_tag, fields_eq_bits, uid_eq_bits]
    rfl
  · cases h

end Word

namespace Datum

theorem bits_int (n : Int) : (int n).bits w = Word.wrapInt n := Word.ofInt_shiftLeft_two n

theorem bits_ref (offset : Nat) (pair : Bool) :
    (ref offset pair).bits w = (Ref.mk offset pair).word := by
  have hpair : pair.toNat < 2 ^ 1 := by cases pair <;> decide
  have hone : 1 < 2 ^ 2 := by decide
  rw [bits, BitVec.or_comm _ (BitVec.ofNat w.bits pair.toNat), Word.ofNat_or_shiftLeft hpair,
    BitVec.or_comm]
  change BitVec.ofNat w.bits 1 ||| _ = _
  rw [Word.ofNat_or_shiftLeft hone, Ref.word, Word.ofNat_eq]
  congr 1
  cases pair <;> simp <;> omega

/-- The shifted parts of a header add up to its word. -/
theorem bits_header (kind : Kind) (uid : Nat) {fields : Nat} (hf : fields ≤ w.maxFields) :
    (header kind uid fields).bits w = (Header.pack kind uid fields : Header w).word := by
  have hk : kind.bit ≤ 1 := by cases kind <;> decide
  have hpow : 2 ^ (3 + w.fieldBits) = 8 * w.fieldRange := by cases w <;> rfl
  have hfields : 3 + 2 ^ 2 * kind.bit + 2 ^ 3 * fields < 2 ^ (3 + w.fieldBits) := by
    rw [hpow]
    rw [Width.maxFields] at hf
    have hpos : 0 < w.fieldRange := by cases w <;> decide
    omega
  change BitVec.ofNat w.bits 3 ||| _ ||| _ ||| _ = _
  rw [Word.ofNat_or_shiftLeft (by decide), Word.ofNat_or_shiftLeft (by omega),
    Word.ofNat_or_shiftLeft hfields, hpow, Header.pack, Word.ofNat_eq]
  rfl

variable {d : Datum}

/-- What fits is accepted, and its parts are where they belong. -/
theorem encode_of_fits (h : d.Fits w) : d.encode = .ok (d.bits w) := by
  cases d with
  | int n => rw [encode, Word.int_of_range h, bits_int]
  | ref offset pair =>
    have hoffset : Ref.checked (w := w) offset pair = .ok ⟨offset, pair⟩ := if_pos h
    rw [encode, hoffset, bits_ref]
    rfl
  | header kind uid fields =>
    rw [encode, Header.checked_of_le h.1 h.2, bits_header kind uid h.2]
    rfl

/-- The tag can be read off the shifted parts. -/
theorem tag_bits (h : d.Fits w) : (d.bits w).tag = d.tag := by
  cases d with
  | int n => rw [bits_int, Word.tag_wrapInt, tag]
  | ref offset pair =>
    have href := Word.ref?_word (w := w) (r := ⟨offset, pair⟩) h
    rw [bits_ref, tag]
    by_contra htag
    rw [Word.ref?_eq_none_of_tag htag] at href
    cases href
  | header kind uid fields =>
    have hheader : (Header.pack kind uid fields : Header w).word.isHeader = true :=
      Header.isHeader_pack h.1 h.2
    rw [bits_header kind uid h.2, tag]
    simpa [Word.isHeader] using hheader

/-- What fits is read back. -/
theorem view_bits (h : d.Fits w) : ∃ view, (d.bits w).view = .ok view ∧ view.datum = d := by
  have htag := tag_bits h
  rw [Word.view_eq]
  cases d with
  | int n =>
    rw [htag]
    refine ⟨_, rfl, ?_⟩
    rw [View.datum, bits_int, Word.intValue_wrapInt h]
  | ref offset pair =>
    have href := Word.ref?_word (w := w) (r := ⟨offset, pair⟩) h
    rw [← bits_ref, Word.ref?, if_pos (by simp [Word.isRef, htag, tag])] at href
    rw [htag]
    refine ⟨_, rfl, ?_⟩
    rw [Option.some.inj href, View.datum]
  | header kind uid fields =>
    rw [htag]
    refine ⟨_, rfl, ?_⟩
    rw [View.datum, bits_header kind uid h.2, Header.kind_pack h.1 h.2, Header.uid_pack h.1 h.2,
      Header.fields_pack h.1 h.2]

end Datum

/-! ### The format -/

/-- Words of the width say what they were written from, all of it and nothing else. -/
structure Faithful (w : Width) : Prop where
  /-- A word that has not the reserved tag is taken apart, into what its bits say, and put together
  again as it was. -/
  rejoined : ∀ v : Word w, v.tag ≠ 2 →
    ∃ view, v.view = .ok view ∧ v.readBits = some view.datum ∧ view.word = .ok v
  written : ∀ d : Datum, d.Fits w → d.encode = .ok (d.bits w)
  read : ∀ d : Datum, d.Fits w → ∃ view, (d.bits w).view = .ok view ∧ view.datum = d
  /-- Integers, references and headers have different tags, none of them the reserved one. -/
  tagged : ∀ d : Datum, d.Fits w → (d.bits w).tag = d.tag
  injective : ∀ d e : Datum, d.Fits w → e.Fits w → d.bits w = e.bits w → d = e
  /-- A relocated reference differs in its offset alone. -/
  relocated : ∀ (r : Ref) (offset : Nat), offset ≤ w.maxOffset →
    ∃ r', r.relocated (w := w) offset = .ok r' ∧ (r'.word : Word w).ref? = some r' ∧
      r'.offset = offset ∧ r'.pair = r.pair ∧ (r'.word : Word w) &&& 7 = r.word &&& 7
  /-- The number of a label is a small integer if it fits, and is read back. -/
  addressed : ∀ id : UInt32, (id.toNat : Int) ≤ w.maxInt → ∃ v : Word w, Word.codeAddress id = .ok v
  returned : ∀ (id : UInt32) (v : Word w), Word.codeAddress id = .ok v → v.toCodeAddress = .ok id

namespace Word

/-- A word that can be taken apart can be put together again. -/
theorem word_view {v : Word w} (h : v.tag ≠ 2) : ∃ view, v.view = .ok view ∧ view.word = .ok v := by
  have htag : v.tag = 0 ∨ v.tag = 1 ∨ v.tag = 3 := by
    have hlt : v.tag < 4 := Nat.mod_lt _ (by decide)
    omega
  have hview := v.view_eq
  rcases htag with h0 | h1 | h3
  · have hint : v.toSmallInt = .ok v.intValue := by simp [toSmallInt, isInt, h0]
    rw [h0] at hview
    refine ⟨_, hview, ?_⟩
    rw [View.word, int_of_range (toSmallInt_range hint), wrapInt_intValue h0]
  · have href : v.ref? = some ⟨v.toNat / 8, v.toNat / 4 % 2 == 1⟩ := by simp [ref?, isRef, h1]
    rw [h1] at hview
    refine ⟨_, hview, ?_⟩
    rw [View.word, ← eq_word href]
  · rw [h3] at hview
    exact ⟨_, hview, rfl⟩

/-- The low bits of a reference tell its kind and nothing of its offset. -/
theorem low_bits_ref (r : Ref) :
    ((r.word : Word w) &&& 7).toNat = (if r.pair then 4 else 0) + 1 := by
  have hwidth : 3 ≤ w.bits := by cases w <;> decide
  have hmask : ((r.word : Word w) &&& 7).toNat = (r.word : Word w).toNat % 8 :=
    toNat_and_mask _ hwidth
  rw [hmask, Ref.word, toNat_ofNat]
  cases w <;> simp only [Width.modulus] <;> split <;> omega

/-- The format of words is faithful at both widths: what fits is read back, and what is read is
written as it was. -/
theorem format_faithful (w : Width) : Faithful w where
  rejoined v hv := by
    obtain ⟨view, hview, hword⟩ := word_view hv
    exact ⟨view, hview, readBits_of_view hview, hword⟩
  written _ := Datum.encode_of_fits
  read _ := Datum.view_bits
  tagged _ := Datum.tag_bits
  injective d e hd he heq := by
    obtain ⟨view, hview, rfl⟩ := Datum.view_bits hd
    obtain ⟨view', hview', rfl⟩ := Datum.view_bits he
    rw [heq, hview'] at hview
    cases hview
    rfl
  relocated r offset hoffset := by
    refine ⟨⟨offset, r.pair⟩, if_pos hoffset, ref?_word hoffset, rfl, rfl, ?_⟩
    apply BitVec.eq_of_toNat_eq
    rw [low_bits_ref, low_bits_ref]
  addressed _ hid := size_of_le hid
  returned _ _ := toCodeAddress_codeAddress

/-- At 32 bits the largest header fills the word to the last bit. -/
theorem format_faithful_full :
    (Datum.header .closure 0x1fffff 0xff).Fits .bits32 ∧
    (Datum.header .closure 0x1fffff 0xff).encode = .ok (0xffffffff : Word .bits32) ∧
    (∃ view : View .bits32, (0xffffffff : Word .bits32).view = .ok view ∧
      view.datum = .header .closure 0x1fffff 0xff) ∧
    (Datum.ref 0x1fffffff true).encode = .ok (0xfffffffd : Word .bits32) := by
  have F := format_faithful .bits32
  have hheader : (Datum.header .closure 0x1fffff 0xff).Fits .bits32 := by decide
  have href : (Datum.ref 0x1fffffff true).Fits .bits32 := by decide
  exact ⟨hheader, F.written _ hheader, F.read _ hheader, F.written _ href⟩

end Word

end Trampoline

import Trampoline.Width

/-!
Tagged words.

The low two bits of a word say what it is: `00` a small integer, `01` a reference to a heap block,
`11` a header, and `10` nothing (reserved). A header is the first word of a headed block, and on
its own it is the value of a constructor without fields.

All encodings are stated as mixed-radix arithmetic on the number of the word, so that decoding is
division and remainder.
-/

namespace Trampoline

abbrev Word (w : Width) := BitVec w.bits

inductive Kind where
  | constructor
  | closure
deriving DecidableEq, Repr

/-- A heap reference: a word offset and whether the block there is a pair, which has no header. -/
structure Ref where
  offset : Nat
  pair : Bool
deriving DecidableEq, Repr

/-- A word read as a header. The word is kept whole, so a header is written back as it was read. -/
structure Header (w : Width) where
  word : Word w
deriving DecidableEq, Repr

namespace Word

variable {w : Width}

/-- The word of a number, modulo the number of words. -/
def ofNat (n : Nat) : Word w :=
  BitVec.ofFin ⟨n % w.modulus, Nat.lt_of_lt_of_eq (Nat.mod_lt n w.modulus_pos) w.modulus_eq⟩

/-- The word read as a signed number. -/
def signed (v : Word w) : Int :=
  if 2 * v.toNat < w.modulus then v.toNat else (v.toNat : Int) - w.modulus

def tag (v : Word w) : Nat := v.toNat % 4

def isInt (v : Word w) : Bool := v.tag == 0

def isRef (v : Word w) : Bool := v.tag == 1

def isHeader (v : Word w) : Bool := v.tag == 3

/-- The word of a small integer; bits that do not fit are lost. -/
def wrapInt (n : Int) : Word w := ofNat (4 * n % w.modulus).toNat

/-- The small integer that a word with the integer tag holds. -/
def intValue (v : Word w) : Int := v.signed / 4

/-- The reference that a word holds, if it has the reference tag. -/
def ref? (v : Word w) : Option Ref :=
  if v.isRef then some ⟨v.toNat / 8, v.toNat / 4 % 2 == 1⟩ else none

/-- The header that a word is, if it has the header tag. -/
def header? (v : Word w) : Option (Header w) :=
  if v.isHeader then some ⟨v⟩ else none

theorem ofNat_eq (n : Nat) : (ofNat n : Word w) = BitVec.ofNat w.bits n := by
  apply BitVec.eq_of_toNat_eq
  simp [ofNat, w.modulus_eq]

theorem toNat_ofNat (n : Nat) : (ofNat n : Word w).toNat = n % w.modulus := rfl

theorem toNat_lt (v : Word w) : v.toNat < w.modulus := by
  rw [w.modulus_eq]; exact v.isLt

theorem signed_eq (v : Word w) : v.signed = v.toInt := by
  simp only [signed, BitVec.toInt, w.modulus_eq, Nat.pow_eq]

end Word

namespace Ref

/-- The word of a reference. -/
def word {w : Width} (r : Ref) : Word w :=
  Word.ofNat (8 * r.offset + (if r.pair then 4 else 0) + 1)

def describe (r : Ref) : String :=
  (if r.pair then "Pair@" else "Obj@") ++ toString r.offset

end Ref

namespace Kind

def bit : Kind → Nat
  | constructor => 0
  | closure => 1

def describe : Kind → String
  | constructor => "Constr"
  | closure => "Closure"

end Kind

namespace Header

variable {w : Width}

/-- Pack a header without checking that the parts fit. -/
def pack (kind : Kind) (uid fields : Nat) : Header w :=
  ⟨Word.ofNat (3 + 4 * kind.bit + 8 * fields + w.uidWeight * uid)⟩

def kind (h : Header w) : Kind :=
  if h.word.toNat / 4 % 2 = 1 then .closure else .constructor

def isClosure (h : Header w) : Bool := h.kind == .closure

/-- Number of fields of a constructor, or of captured arguments of a closure. -/
def fields (h : Header w) : Nat := h.word.toNat / 8 % w.fieldRange

def uid (h : Header w) : Nat := h.word.toNat / w.uidWeight % w.uidRange

def describe (h : Header w) : String :=
  "Header \x7b kind: " ++ h.kind.describe ++ ", uid: " ++ toString h.uid ++
    ", nfields: " ++ toString h.fields ++ " \x7d"

end Header

namespace Uid

def forFalse : Nat := 0

def forTrue : Nat := 1

def forUnit : Nat := 2

/-- The first uid that a program's own constructors and functions get. -/
def first : Nat := 8

end Uid

namespace Word

variable {w : Width}

def falseWord : Word w := (Header.pack .constructor Uid.forFalse 0).word

def trueWord : Word w := (Header.pack .constructor Uid.forTrue 0).word

def unitWord : Word w := (Header.pack .constructor Uid.forUnit 0).word

def ofBool (b : Bool) : Word w := if b then trueWord else falseWord

/-- A word as a lower-case hexadecimal number with its base mark. -/
def hex (v : Word w) : String := "0x" ++ String.ofList (Nat.toDigits 16 v.toNat)

def describe (v : Word w) : String :=
  if v.isInt then "SmallInt(" ++ toString v.intValue ++ ")"
  else match v.ref?, v.header? with
    | some r, _ => "Ref(" ++ r.describe ++ ")"
    | none, some h => h.describe
    | none, none => "Reserved(" ++ v.hex ++ ")"

end Word

end Trampoline

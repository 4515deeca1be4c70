/-!
The two word widths and the limits that follow from them.

A word spends its low two bits on a tag. A small integer keeps the remaining bits. A reference
spends one more bit to tell pairs from headed blocks, and keeps the rest as an offset. A header
spends one bit on its kind, `fieldBits` on a field count and `uidBits` on a uid.
-/

namespace Trampoline

inductive Width where
  | bits32
  | bits64
deriving DecidableEq, Repr

namespace Width

def bits : Width → Nat
  | bits32 => 32
  | bits64 => 64

/-- Number of different words, `2 ^ bits`. -/
def modulus : Width → Nat
  | bits32 => 0x100000000
  | bits64 => 0x10000000000000000

/-- Bits of a header that count fields. -/
def fieldBits : Width → Nat
  | bits32 => 8
  | bits64 => 24

def uidBits : Width → Nat
  | bits32 => 21
  | bits64 => 32

/-- Number of different field counts, `2 ^ fieldBits`. -/
def fieldRange : Width → Nat
  | bits32 => 0x100
  | bits64 => 0x1000000

/-- Number of different uids, `2 ^ uidBits`. -/
def uidRange : Width → Nat
  | bits32 => 0x200000
  | bits64 => 0x100000000

/-- Weight of the uid in a header word: tag, kind and field count lie below it. -/
def uidWeight (w : Width) : Nat := 8 * w.fieldRange

def maxFields (w : Width) : Nat := w.fieldRange - 1

def maxUid (w : Width) : Nat := w.uidRange - 1

/-- Largest word offset that a reference can hold. -/
def maxOffset : Width → Nat
  | bits32 => 0x1fffffff
  | bits64 => 0x1fffffffffffffff

/-- Largest number of words that room can be made for at once: their bytes are counted by a signed
64-bit number. -/
def maxSpaceWords : Width → Nat
  | bits32 => 0x1fffffffffffffff
  | bits64 => 0xfffffffffffffff

def maxInt : Width → Int
  | bits32 => 0x1fffffff
  | bits64 => 0x1fffffffffffffff

def minInt : Width → Int
  | bits32 => -0x20000000
  | bits64 => -0x2000000000000000

theorem modulus_eq (w : Width) : w.modulus = Nat.pow 2 w.bits := by cases w <;> rfl

theorem modulus_pos (w : Width) : 0 < w.modulus := by cases w <;> decide

theorem fieldRange_eq (w : Width) : w.fieldRange = Nat.pow 2 w.fieldBits := by cases w <;> rfl

theorem uidRange_eq (w : Width) : w.uidRange = Nat.pow 2 w.uidBits := by cases w <;> rfl

/-- Every header fits a word. -/
theorem uidWeight_mul_uidRange_le (w : Width) : w.uidWeight * w.uidRange ≤ w.modulus := by
  cases w <;> decide

/-- Every reference fits a word, with no word to spare. -/
theorem maxOffset_mul (w : Width) : 8 * (w.maxOffset + 1) = w.modulus := by cases w <;> rfl

/-- One word more than room can be made for has too many bytes. -/
theorem maxSpaceWords_mul (w : Width) :
    w.bits / 8 * (w.maxSpaceWords + 1) = 0x8000000000000000 := by
  cases w <;> rfl

/-- Every small integer fits a word, with no word to spare. -/
theorem maxInt_sub_minInt (w : Width) : 4 * (w.maxInt - w.minInt + 1) = w.modulus := by
  cases w <;> rfl

end Width

end Trampoline

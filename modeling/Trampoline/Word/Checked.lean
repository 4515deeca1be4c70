import Trampoline.Trap

/-!
Words built and read under their contracts: every function here refuses what does not fit.
-/

namespace Trampoline

namespace Word

variable {w : Width}

def int (n : Int) : Except (Trap w) (Word w) :=
  if w.minInt ≤ n ∧ n ≤ w.maxInt then .ok (wrapInt n) else .error (.intOverflow n)

def toSmallInt (v : Word w) : Except (Trap w) Int :=
  if v.isInt then .ok v.intValue else .error (.notInt v)

/-- A size on the stack is a small integer: its low bits read as a signed word. -/
def size (n : Nat) : Except (Trap w) (Word w) := int (ofNat n : Word w).signed

/-- A label's number on the stack is a small integer too, out of the collector's sight. -/
def codeAddress (id : UInt32) : Except (Trap w) (Word w) := size id.toNat

/-- The label number that a small integer holds, modulo `2 ^ 32`. -/
def toCodeAddress (v : Word w) : Except (Trap w) UInt32 := do
  let n ← v.toSmallInt
  return UInt32.ofNat (n % 0x100000000).toNat

def isTrue (v : Word w) : Except (Trap w) Bool :=
  if v = trueWord then .ok true else if v = falseWord then .ok false else .error (.notBoolean v)

end Word

/-- A reference at a checked offset. -/
def Ref.checked {w : Width} (offset : Nat) (pair : Bool) : Except (Trap w) Ref :=
  if offset ≤ w.maxOffset then .ok ⟨offset, pair⟩ else .error .offsetOverflow

/-- The same kind of block at a new offset. -/
def Ref.relocated {w : Width} (r : Ref) (offset : Nat) : Except (Trap w) Ref :=
  Ref.checked offset r.pair

/-- A header whose parts fit. -/
def Header.checked {w : Width} (kind : Kind) (uid fields : Nat) : Except (Trap w) (Header w) :=
  if w.maxUid < uid then .error .uidRange
  else if w.maxFields < fields then .error .fieldCount
  else .ok (.pack kind uid fields)

/-- A word taken apart. -/
inductive View (w : Width) where
  | int (n : Int)
  | ref (r : Ref)
  | header (h : Header w)
deriving DecidableEq, Repr

/-- Take a word apart. The reserved tag has no view. -/
def Word.view {w : Width} (v : Word w) : Except (Trap w) (View w) :=
  if v.isInt then .ok (.int v.intValue)
  else match v.ref?, v.header? with
    | some r, _ => .ok (.ref r)
    | none, some h => .ok (.header h)
    | none, none => .error (.reservedTag v)

def View.word {w : Width} : View w → Except (Trap w) (Word w)
  | int n => Word.int n
  | ref r => .ok r.word
  | header h => .ok h.word

end Trampoline

import Trampoline.RuntimeError

/-!
Arithmetic on small integers.

Both operands are shifted down to the integers that they are, these are combined the whole word
wide, and the result is shifted up again. So results wrap around at the width of a small integer.
Division goes toward zero, and a remainder has the sign of the dividend.
-/

namespace Trampoline.Fixnum

variable {w : Width}

/-- Both operands have to be small integers; the left one is looked at first. -/
def check (a b : Word w) : Except (Trap w) Unit :=
  if !a.isInt then .error (.notArithmetic a)
  else if !b.isInt then .error (.notArithmetic b)
  else .ok ()

/-- Shift two small integers down, combine all their bits, and shift the result up. -/
def wordwise (f : Word w → Word w → Word w) (a b : Word w) : Word w :=
  f (a.sshiftRight 2) (b.sshiftRight 2) <<< 2

def combine (f : Word w → Word w → Word w) (a b : Word w) : Except (Trap w) (Word w) := do
  check a b
  return wordwise f a b

def divide (f : Word w → Word w → Word w) (a b : Word w) : Except (Trap w) (Option (Word w)) := do
  check a b
  return if b.sshiftRight 2 = 0 then none else some (wordwise f a b)

def compare (f : Word w → Word w → Bool) (a b : Word w) : Except (Trap w) (Word w) := do
  check a b
  return .ofBool (f (a.sshiftRight 2) (b.sshiftRight 2))

def add : Word w → Word w → Except (Trap w) (Word w) := combine (· + ·)

def sub : Word w → Word w → Except (Trap w) (Word w) := combine (· - ·)

def mul : Word w → Word w → Except (Trap w) (Word w) := combine (· * ·)

def div : Word w → Word w → Except (Trap w) (Option (Word w)) := divide BitVec.sdiv

def mod : Word w → Word w → Except (Trap w) (Option (Word w)) := divide BitVec.srem

def lt : Word w → Word w → Except (Trap w) (Word w) := compare BitVec.slt

def le : Word w → Word w → Except (Trap w) (Word w) := compare BitVec.sle

inductive Operator where
  | add
  | sub
  | mul
  | div
  | mod
  | lt
  | le
deriving DecidableEq, Repr

/-- A result without faults of the program. -/
def total (r : Except (Trap w) (Word w)) : Except (Fault w RuntimeError) (Word w) :=
  match r with
  | .ok v => .ok v
  | .error t => .error (.trap t)

/-- A result that is missing when the divisor is zero. -/
def quotient (r : Except (Trap w) (Option (Word w))) : Except (Fault w RuntimeError) (Word w) :=
  match r with
  | .ok (some v) => .ok v
  | .ok none => .error (.error .divisionByZero)
  | .error t => .error (.trap t)

def Operator.apply (op : Operator) (a b : Word w) : Except (Fault w RuntimeError) (Word w) :=
  match op with
  | .add => total (Fixnum.add a b)
  | .sub => total (Fixnum.sub a b)
  | .mul => total (Fixnum.mul a b)
  | .div => quotient (Fixnum.div a b)
  | .mod => quotient (Fixnum.mod a b)
  | .lt => total (Fixnum.lt a b)
  | .le => total (Fixnum.le a b)

end Trampoline.Fixnum

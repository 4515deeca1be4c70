import Trampoline.Fixnum
import Trampoline.Machine.Run

/-!
Sample programs, and the means to declare them. Each takes one integer parameter.
-/

namespace Trampoline

abbrev Declare (w : Width) := Building w (Code w)

namespace Declare

variable {w : Width}

def caseOf (arms : List (Arm Label)) : Declare w (Case Label) :=
  match arms.foldlM (Arms.add w) {} with
  | .error t => throw (.trap t)
  | .ok arms =>
    match arms.build with
    | .error e => throw (.error e)
    | .ok c => return c

/-- The program that the declarations describe; they answer its entry. -/
def program (d : Declare w Label) (journal : Journal w) :
    Except (Fault w ProgramError) (Program (Code w) × Journal w) :=
  match d .empty with
  | .ok entry b => b.build entry journal
  | .error e _ => .error e

end Declare

structure Demo where
  name : String
  description : String
  defaultArg : Int
  declare : (w : Width) → Int → Declare w Label

/-- A parameter that is no small integer. -/
structure ParameterError where
  width : Width
  given : Int
deriving DecidableEq, Repr

def ParameterError.message (e : ParameterError) : String :=
  "Demo parameter " ++ toString e.given ++ " out of range " ++ toString e.width.minInt ++ "..=" ++
    toString e.width.maxInt

def Demo.parameter (d : Demo) (w : Width) : Option Int → Except ParameterError Int
  | none => .ok d.defaultArg
  | some n => if w.minInt ≤ n ∧ n ≤ w.maxInt then .ok n else .error ⟨w, n⟩

namespace Demo

variable {w : Width}

def int (n : Int) : Op w (Word w) := Word.int (w := w) n

end Demo

end Trampoline

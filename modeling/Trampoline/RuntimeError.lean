import Trampoline.Heap

/-!
Fatal conditions of a running program, and what they are reported as.
-/

namespace Trampoline

/-- What a running program was expected to keep. -/
inductive Assertion where
  | closureApplied
  | saturatedCall
  | booleanBranch
deriving DecidableEq, Repr

def Assertion.message : Assertion → String
  | closureApplied => "applied value is a closure"
  | saturatedCall => "saturated closure call"
  | booleanBranch => "branch on a boolean"

/-- A fatal condition of a running program. -/
inductive RuntimeError where
  | outOfMemory (s : Shortage)
  | divisionByZero
  | assertionFailed (a : Assertion)
  | unreachableCase
  | stackOverflow (limit : Nat)
  | failure (text : String)
deriving DecidableEq, Repr

def RuntimeError.message : RuntimeError → String
  | outOfMemory s =>
    "out of memory: cannot reserve " ++ toString s.requested ++ " words (" ++ toString s.live ++
      " live, limit " ++ toString s.max ++ ")"
  | divisionByZero => "division by zero"
  | assertionFailed a => "assertion failed: " ++ a.message
  | unreachableCase => "pattern match reached an unreachable case"
  | stackOverflow limit => "stack overflow (limit " ++ toString limit ++ " words)"
  | failure text => "failure: " ++ text

end Trampoline

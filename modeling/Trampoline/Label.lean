import Trampoline.Space

/-!
Labels, constructors and functions: what a program is declared from, and how a declaration can be
refused.
-/

namespace Trampoline

/-- A code label: an index into a program's table of slots. -/
structure Label where
  id : UInt32
deriving DecidableEq, Repr

namespace Label

/-- The continuation of the entry frame; a run ends there. -/
def programEnd : Label := ⟨0⟩

/-- The continuation of a saturated call that was made on behalf of an application to more
arguments. -/
def applyPending : Label := ⟨1⟩

/-- Labels without code of their own. -/
def isReserved (l : Label) : Bool := l.id < 2

/-- The label of a number, modulo `2 ^ 32`. -/
def ofNat (n : Nat) : Label := ⟨UInt32.ofNat n⟩

def index (l : Label) : Nat := l.id.toNat

end Label

/-- How the values of a constructor are represented. -/
inductive Representation where
  /-- The header word is the value; only for constructors without fields. -/
  | unboxed
  /-- A heap block: the header, then the fields. -/
  | boxed
deriving DecidableEq, Repr

structure Constructor where
  uid : Nat
  fields : Nat
  representation : Representation
deriving DecidableEq, Repr

namespace Constructor

def builtin (uid : Nat) : Constructor := ⟨uid, 0, .unboxed⟩

def header {w : Width} (c : Constructor) : Except (Trap w) (Header w) :=
  Header.checked .constructor c.uid c.fields

def unboxedValue {w : Width} (c : Constructor) : Except (Trap w) (Word w) :=
  match c.representation with
  | .boxed => .error .notUnboxed
  | .unboxed => do
    let header ← c.header
    return header.word

def allocWords (c : Constructor) : Nat :=
  match c.representation with
  | .unboxed => 0
  | .boxed => (Shape.constructor c.fields).words

end Constructor

/-- A declared function: the uid of its closures and its entry label. -/
structure Function where
  uid : Nat
  label : Label
  arity : Nat
  maxAlloc : Nat
deriving DecidableEq, Repr

/-- What an arm of a case tests for. -/
inductive CaseKey where
  | constructor (uid : Nat)
  | integer (n : Int)
  | fallback
deriving DecidableEq, Repr

def CaseKey.describe : CaseKey → String
  | constructor uid => "constructor uid " ++ toString uid
  | integer n => "integer " ++ toString n
  | fallback => "fallback"

inductive ProgramError where
  | unboundLabel (name : String)
  | duplicateBinding (name : String)
  | duplicateCase (key : CaseKey)
  | invalidConstructor (name : String)
  | invalidFunction (name : String)
  | tooManyUids
deriving DecidableEq, Repr

def ProgramError.message : ProgramError → String
  | unboundLabel name => "label `" ++ name ++ "` has no code"
  | duplicateBinding name => "label `" ++ name ++ "` is bound twice"
  | duplicateCase key => "duplicate case arm for " ++ key.describe
  | invalidConstructor name =>
    "constructor `" ++ name ++ "` has an invalid field count for its representation"
  | invalidFunction name =>
    "function `" ++ name ++ "` takes more arguments than a closure can hold"
  | tooManyUids => "uid space exhausted"

end Trampoline

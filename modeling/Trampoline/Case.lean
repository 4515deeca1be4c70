import Std.Data.TreeMap
import Trampoline.Label
import Trampoline.RuntimeError

/-!
Case dispatch in two tiers.

The first tier switches on the whole word, and serves unboxed constructors and small integers. The
second switches on the uid in the header of a boxed constructor. After both comes the fallback arm,
or an error when there is none. A tier that has one arm and nothing after it is taken without a
test.
-/

namespace Trampoline

/-- How a case came to its branch. -/
inductive Route where
  /-- The first tier matched the word. -/
  | unboxed
  /-- The second tier matched the uid of a header. -/
  | boxed
  /-- The only possible branch, taken without a test. -/
  | elided
  | fallback
deriving DecidableEq, Repr

def Route.describe : Route → String
  | unboxed => "Unboxed"
  | boxed => "Boxed"
  | elided => "Elided"
  | fallback => "Fallback"

/-- One tier, with branches of type `β` by number. -/
inductive Tier (β : Type) where
  | skip
  | elided (branch : β)
  | switch (arms : Std.TreeMap Nat β)

namespace Tier

variable {β : Type}

/-- A tier for its arms; `live` says that something comes after it. -/
def compile (arms : List (Nat × β)) (live : Bool) : Tier β :=
  match arms, live with
  | [], _ => skip
  | [(_, branch)], false => elided branch
  | arms, _ => switch (.ofList arms)

def armCount : Tier β → Nat
  | skip => 0
  | elided _ => 1
  | switch arms => arms.size

end Tier

inductive Arm (β : Type) where
  | int (n : Int) (branch : β)
  | constructor (c : Constructor) (branch : β)
  | fallback (branch : β)

/-- The arms of a case, as they are collected. The first arm that was given twice is remembered. -/
structure Arms (β : Type) where
  immediate : List (Nat × β) := []
  boxed : List (Nat × β) := []
  fallback : Option β := none
  duplicate : Option CaseKey := none

structure Case (β : Type) where
  immediate : Tier β
  boxed : Tier β
  fallback : Option β

namespace Arms

variable {β : Type}

def repeated (a : Arms β) (key : CaseKey) : Arms β :=
  { a with duplicate := some (a.duplicate.getD key) }

def addImmediate {w : Width} (a : Arms β) (v : Word w) (branch : β) (key : CaseKey) : Arms β :=
  if a.immediate.any (·.1 == v.toNat) then a.repeated key
  else { a with immediate := (v.toNat, branch) :: a.immediate }

/-- An arm for a constructor, in the tier of its representation. -/
def constructor (w : Width) (a : Arms β) (c : Constructor) (branch : β) :
    Except (Trap w) (Arms β) :=
  match c.representation with
  | .unboxed => do
    let v : Word w ← c.unboxedValue
    return a.addImmediate v branch (.constructor c.uid)
  | .boxed =>
    if a.boxed.any (·.1 == c.uid) then .ok (a.repeated (.constructor c.uid))
    else .ok { a with boxed := (c.uid, branch) :: a.boxed }

def int (w : Width) (a : Arms β) (n : Int) (branch : β) : Except (Trap w) (Arms β) := do
  let v : Word w ← Word.int n
  return a.addImmediate v branch (.integer n)

/-- The arm for whatever no other arm matches. -/
def setFallback (a : Arms β) (branch : β) : Arms β :=
  let a := if a.fallback.isSome then a.repeated .fallback else a
  { a with fallback := some branch }

def add (w : Width) (a : Arms β) : Arm β → Except (Trap w) (Arms β)
  | .int n branch => a.int w n branch
  | .constructor c branch => a.constructor w c branch
  | .fallback branch => .ok (a.setFallback branch)

/-- Compile the arms, unless one was given twice. -/
def build (a : Arms β) : Except ProgramError (Case β) :=
  match a.duplicate with
  | some key => .error (.duplicateCase key)
  | none => .ok
    { immediate := .compile a.immediate (!a.boxed.isEmpty || a.fallback.isSome)
      boxed := .compile a.boxed a.fallback.isSome
      fallback := a.fallback }

end Arms

namespace Case

variable {w : Width} {β : Type}

/-- What is left when no tier matches. -/
def otherwise (c : Case β) : Except (Fault w RuntimeError) (β × Route) :=
  match c.fallback with
  | some branch => .ok (branch, .fallback)
  | none => .error (.error .unreachableCase)

/-- The branch for a value that the first tier left. -/
def selectBoxed (c : Case β) (h : Heap w) (v : Word w) :
    Except (Fault w RuntimeError) (β × Route) :=
  match c.boxed with
  | .skip => c.otherwise
  | .elided branch => .ok (branch, .elided)
  | .switch arms =>
    match v.ref? with
    | none => c.otherwise
    | some r =>
      if r.pair then c.otherwise
      else match h.header r with
        | .error t => .error (.trap t)
        | .ok header =>
          match arms[header.uid]? with
          | some branch => .ok (branch, .boxed)
          | none => c.otherwise

/-- The branch for a value, and how it was found. -/
def select (c : Case β) (h : Heap w) (v : Word w) : Except (Fault w RuntimeError) (β × Route) :=
  match c.immediate with
  | .skip => c.selectBoxed h v
  | .elided branch => .ok (branch, .elided)
  | .switch arms =>
    match arms[v.toNat]? with
    | some branch => .ok (branch, .unboxed)
    | none => c.selectBoxed h v

def armCounts (c : Case β) : Nat × Nat := (c.immediate.armCount, c.boxed.armCount)

end Case

end Trampoline

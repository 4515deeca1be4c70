import Trampoline.Program
import Trampoline.Stack

/-!
The machine: a heap, a stack of frames, a result register, and what it has printed and recorded.

An operation on a machine returns, or ends with a fault; in both cases it leaves a machine behind.

A frame on the stack, growing upward:

    [ continuation ][ link (saved fp) ][ argument 0 … argument n-1 ][ temporaries … ]
                                         ^ fp
-/

namespace Trampoline

/-- Why a value is printed. -/
inductive PrintKind where
  | toplevel
  | trace
  | failure
deriving DecidableEq, Repr

structure Printed (w : Width) where
  kind : PrintKind
  value : Word w
  text : String
deriving DecidableEq, Repr

/-- Where printed values go: they are kept, or dropped. -/
structure Sink (w : Width) where
  keep : Bool := true
  seen : Array (Printed w) := #[]
deriving DecidableEq, Repr

namespace Sink

variable {w : Width}

def print (s : Sink w) (p : Printed w) : Sink w :=
  if s.keep then { s with seen := s.seen.push p } else s

/-- The text of the last final value of a program. -/
def toplevel? (s : Sink w) : Option String :=
  (s.seen.toList.reverse.find? (·.kind == .toplevel)).map (·.text)

end Sink

structure Machine (w : Width) where
  heap : Heap w
  stack : Stack w := {}
  /-- Index of the current frame's first argument. -/
  fp : Nat := 0
  /-- The value delivered by the last return. -/
  result : Word w := .unitWord
  names : Names := .builtin
  sink : Sink w := {}
  maxStackWords : Nat
  /-- Labels entered by the last run. -/
  steps : Nat := 0
  journal : Journal w := {}

abbrev Op (w : Width) := EStateM (Fault w RuntimeError) (Machine w)

/-- What may trap may be done in the middle of an operation. -/
instance {w : Width} : MonadLift (Except (Trap w)) (Op w) where
  monadLift r :=
    match r with
    | .ok a => pure a
    | .error t => throw (.trap t)

instance {w : Width} : MonadLift (Except (Fault w RuntimeError)) (Op w) where
  monadLift r :=
    match r with
    | .ok a => pure a
    | .error e => throw e

namespace Machine

variable {w : Width}

/-- A machine that has run nothing. A trap hands the journal back. -/
def create (settings : MachineSettings) (sink : Sink w) (journal : Journal w) :
    Except (Trap w × Journal w) (Machine w) :=
  match settings.validate w with
  | .error e => .error (.machineSettings e, journal)
  | .ok () =>
    let journal := journal.recordMaking settings.heap
    match Heap.create settings.heap with
    | .error t => .error (t, journal)
    | .ok heap => .ok { heap, sink, maxStackWords := settings.maxStackWords, journal }

/-- The roots of a collection: the result register, then the stack from the bottom up. -/
def roots (m : Machine w) : List (Word w) := m.result :: m.stack.slots.toList

def setRoots (m : Machine w) : List (Word w) → Machine w
  | [] => m
  | result :: slots => { m with result, stack := { m.stack with slots := slots.toArray } }

def fail {α : Type} (e : RuntimeError) : Op w α := throw (.error e)

def trap {α : Type} (t : Trap w) : Op w α := throw (.trap t)

def record (e : Event w) : Op w Unit :=
  modify fun m => { m with journal := m.journal.record e }

def print (kind : PrintKind) (value : Word w) (text : String) : Op w Unit :=
  modify fun m => { m with sink := m.sink.print ⟨kind, value, text⟩ }

def render (v : Word w) : Op w String := do
  let m ← get
  m.heap.render m.names v

def trace (v : Word w) : Op w Unit := do
  let text ← render v
  print .trace v text

/-- Print a value and end with the failure it describes. -/
def failure {α : Type} (v : Word w) : Op w α := do
  let text ← render v
  print .failure v text
  fail (.failure text)

/-! ### Checkpoints -/

/-- The machine as a collection leaves it that traps. -/
def wrecked (m : Machine w) : Machine w :=
  let (heap, roots) := m.heap.wreck m.roots
  { m.setRoots roots with heap }

def settle (r : Except (Trap w) (Checkpoint w)) : Op w (Option Shortage) := fun m =>
  match r with
  | .ok c =>
    .ok c.shortage
      { m.setRoots c.roots with heap := c.heap, journal := m.journal.recordHeap c.events }
  | .error t => .error (.trap t) m.wrecked

def collect : Op w Unit := do
  let m ← get
  let _ ← settle (m.heap.collect m.roots)

/-- Reserve heap words: the only point where code of a program can make a collection happen. Answers
what is missing when the words are not to be had. -/
def checkpoint (words : Nat) : Op w (Option Shortage) := do
  let m ← get
  if m.heap.capacity < m.heap.hp then trap .bounds
  else if words ≤ m.heap.free then
    set { m with heap := m.heap.grant words }
    return none
  else settle (m.heap.reclaim words m.roots)

/-- Reserve heap words, or run out of memory. -/
def prealloc (words : Nat) : Op w Unit := do
  match ← checkpoint words with
  | none => return
  | some s => fail (.outOfMemory s)

/-! ### Objects -/

def allocate {α : Type} (x : Alloc w α) : Op w α := fun m =>
  match x m.heap with
  | .ok a heap => .ok a { m with heap }
  | .error t heap => .error (.trap t) { m with heap }

def construct (c : Constructor) (fields : List (Word w)) : Op w (Word w) :=
  allocate (.construct c fields)

def makePair (fst snd : Word w) : Op w (Word w) := allocate (.makePair fst snd)

def makeClosure (f : Function) (captured : List (Word w)) : Op w (Word w) :=
  allocate (.makeClosure f captured)

/-- Take a closure apart; anything else cannot be applied. -/
def closureView (v : Word w) : Op w (ClosureView w) := do
  let m ← get
  match ← m.heap.closure? v with
  | some c => return c
  | none => fail (.assertionFailed .closureApplied)

def extendClosure (v : Word w) (args : List (Word w)) : Op w (Word w) := do
  let c ← closureView v
  allocate (.extend c args)

def field (v : Word w) (i : Nat) : Op w (Word w) := do
  let m ← get
  m.heap.field v i

def fst (v : Word w) : Op w (Word w) := do
  let m ← get
  m.heap.fst v

def snd (v : Word w) : Op w (Word w) := do
  let m ← get
  m.heap.snd v

/-- Structural equality. A comparison that would go on for ever is a run that does not end. -/
def equalValues (a b : Word w) : Op w Bool := do
  let m ← get
  match ← m.heap.equal a b with
  | some b => return b
  | none => throw .unfinished

end Machine

end Trampoline

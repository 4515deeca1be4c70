import Trampoline.Machine.Basic

/-!
The calling convention: frames are opened, replaced and left on the machine's stack.
-/

namespace Trampoline.Machine

variable {w : Width}

/-- Words of a frame below its first argument: continuation and link. -/
def frameHeaderWords : Nat := 2

/-- End with a stack overflow unless so many more words fit. -/
def checkStack (words : Nat) : Op w Unit := do
  let m ← get
  if m.maxStackWords < m.stack.depth + words then fail (.stackOverflow m.maxStackWords)

def push (v : Word w) : Op w Unit := modify fun m => { m with stack := m.stack.push v }

def pushList (vs : List (Word w)) : Op w Unit :=
  modify fun m => { m with stack := m.stack.pushList vs }

def truncate (depth : Nat) : Op w Unit := do
  let m ← get
  if m.stack.depth < depth then trap .truncatedUpward
  modify fun m => { m with stack := m.stack.shrink depth }

/-- Slot `i` of the current frame: the arguments, then the temporaries. -/
def slot (i : Nat) : Op w (Word w) := do
  let m ← get
  let index ← Size.add (w := w) m.fp i
  match m.stack.slots[index]? with
  | some v => return v
  | none => trap (.frameSlot i)

def setSlot (i : Nat) (v : Word w) : Op w Unit := do
  let m ← get
  let index ← Size.add (w := w) m.fp i
  if m.stack.depth ≤ index then trap (.frameSlot i)
  modify fun m => { m with stack := m.stack.replace index v }

def pushLocal (v : Word w) : Op w Unit := do
  checkStack 1
  push v

def frameLength (m : Machine w) : Except (Trap w) Nat := Size.sub m.stack.depth m.fp

def lastResult : Op w (Word w) := do
  let m ← get
  return m.result

/-- Open a frame for `arity` arguments, which are then pushed. -/
def pushFrame (ret : Label) (arity : Nat) : Op w Unit := do
  checkStack (frameHeaderWords + arity)
  let m ← get
  let continuation ← Word.codeAddress (w := w) ret.id
  let link ← Word.size (w := w) m.fp
  push continuation
  push link
  modify fun m => { m with fp := m.stack.depth }

/-- Drop the current frame; answer its continuation. -/
def leaveFrame : Op w Label := do
  let m ← get
  let base ← Size.sub (w := w) m.fp frameHeaderWords
  let continuation ← m.stack.get base
  let id ← continuation.toCodeAddress
  let saved ← m.stack.get (base + 1)
  let link ← saved.toSmallInt
  truncate base
  modify fun m => { m with fp := Size.ofInt link }
  return ⟨id⟩

/-- Call a label: open a frame above the current one. `ret` runs when the callee returns. -/
def call (callee : Label) (args : List (Word w)) (ret : Label) : Op w Label := do
  pushFrame ret args.length
  pushList args
  return callee

/-- Put other arguments into the current frame, which keeps its continuation. -/
def replaceFrame (args : Op w (List (Word w))) (arity : Nat) : Op w Unit := do
  let m ← get
  truncate m.fp
  checkStack arity
  pushList (← args)

def tailCall (callee : Label) (args : List (Word w)) : Op w Label := do
  replaceFrame (pure args) args.length
  return callee

/-- Deliver a value to the continuation of the current frame. -/
def ret (v : Word w) : Op w Label := do
  modify fun m => { m with result := v }
  leaveFrame

def branch (condition : Word w) (ifTrue ifFalse : Label) : Op w Label :=
  if condition = .trueWord then pure ifTrue
  else if condition = .falseWord then pure ifFalse
  else fail (.assertionFailed .booleanBranch)

def select {β : Type} (c : Case β) (v : Word w) : Op w β := do
  let m ← get
  let (branch, route) ← c.select m.heap v
  record (.dispatched v route)
  return branch

/-- Reserve heap words while holding values outside the stack: they ride on the stack across the
checkpoint, and come back as they are after it, also when the words are not to be had. -/
def preallocSaving (words : Nat) (temps : List (Word w)) :
    Op w (List (Word w) × Option Shortage) := do
  checkStack temps.length
  let base := (← get).stack.depth
  pushList temps
  let shortage ← checkpoint words
  let m ← get
  let temps := m.stack.above base
  truncate base
  return (temps, shortage)

def stackEvents (m : Machine w) : List (Event w) :=
  .stackShown m.stack.depth m.fp ::
    m.stack.slots.toList.zipIdx.reverse.map fun (v, i) => .slotShown i v (i == m.fp)

def dumpStack : Op w Unit := do
  if (← get).journal.records .debug then
    modify fun m => { m with journal := m.stackEvents.foldl Journal.record m.journal }

end Trampoline.Machine

import Trampoline.Machine.Frame

/-!
Application of closures to any number of arguments.

A closure of arity `n` that holds `c` arguments is applied to `k` more.

* `c + k = n`: its entry is called with the held arguments and the new ones.
* `c + k < n`: a closure that holds them all is delivered to the continuation.
* `c + k > n`: the surplus is left on the stack in a pending block, continuation, arguments, count;
  the saturated call is made with the continuation that applies its result to them.
-/

namespace Trampoline.Machine

variable {w : Width}

/-- The arguments that a closure holds, and `args` after them. -/
def allArgs (c : ClosureView w) (args : List (Word w)) : Op w (List (Word w)) := do
  let m ← get
  let held ← m.heap.capturedArgs c
  return held ++ args

/-- Call a closure that is saturated by its arguments. -/
def enter (c : ClosureView w) (args : List (Word w)) (ret : Label) : Op w Label := do
  pushFrame ret c.arity
  pushList (← allArgs c args)
  return c.entry

def tailEnter (c : ClosureView w) (args : List (Word w)) : Op w Label := do
  replaceFrame (allArgs c args) c.arity
  return c.entry

/-- Call a closure that has to be saturated by its arguments. -/
def callClosure (cl : Word w) (args : List (Word w)) (ret : Label) : Op w Label := do
  let c ← closureView cl
  if c.captured + args.length ≠ c.arity then fail (.assertionFailed .saturatedCall)
  enter c args ret

def tailCallClosure (cl : Word w) (args : List (Word w)) : Op w Label := do
  let c ← closureView cl
  if c.captured + args.length ≠ c.arity then fail (.assertionFailed .saturatedCall)
  tailEnter c args

/-- A closure that holds `args` too, made at a checkpoint of its own. The closure and the arguments
ride on the stack across it, and stay there when the words are not to be had. -/
def extendSaving (cl : Word w) (args : List (Word w)) : Op w (Word w) := do
  if args.isEmpty then return cl
  let c ← closureView cl
  let base := (← get).stack.depth
  checkStack (1 + args.length)
  pushList (cl :: args)
  prealloc (Shape.closure (c.captured + args.length)).words
  let m ← get
  let moved ← m.stack.get base
  let extended ← extendClosure moved (m.stack.above (base + 1))
  truncate base
  return extended

/-- Leave the surplus arguments in a pending block and make the saturated call. -/
def overApply (c : ClosureView w) (args : List (Word w)) (ret : Label) : Op w Label := do
  let need ← Size.sub (w := w) c.arity c.captured
  let rest := args.drop need
  checkStack (rest.length + 2)
  push (← Word.codeAddress (w := w) ret.id)
  pushList rest
  push (← Word.size (w := w) rest.length)
  enter c (args.take need) .applyPending

/-- Apply a closure to any number of arguments; `ret` receives the result. -/
def apply (cl : Word w) (args : List (Word w)) (ret : Label) : Op w Label := do
  let c ← closureView cl
  match compare (c.captured + args.length) c.arity with
  | .eq => enter c args ret
  | .lt =>
    let extended ← extendSaving cl args
    modify fun m => { m with result := extended }
    return ret
  | .gt => overApply c args ret

def tailApply (cl : Word w) (args : List (Word w)) : Op w Label := do
  let c ← closureView cl
  match compare (c.captured + args.length) c.arity with
  | .eq => tailEnter c args
  | .lt => Machine.ret (← extendSaving cl args)
  | .gt => overApply c args (← leaveFrame)

/-- Take a pending block off the stack and apply the last result to its arguments. -/
def applyPending : Op w Label := do
  let m ← get
  let depth := m.stack.depth
  let top ← Size.sub (w := w) depth 1
  let saved ← m.stack.get top
  let count := Size.ofInt (← saved.toSmallInt)
  let base ← Size.sub (w := w) depth 2
  let base ← Size.sub (w := w) base count
  let continuation ← m.stack.get base
  let id ← continuation.toCodeAddress
  let rest := (m.stack.above (base + 1)).take count
  truncate base
  apply m.result rest ⟨id⟩

end Trampoline.Machine

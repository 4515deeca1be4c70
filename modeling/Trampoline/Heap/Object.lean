import Trampoline.Label
import Trampoline.RuntimeError

/-!
Objects on the heap: how they are made and what can be read from them.

The words of a new object are taken before its header is looked at, and written before it is known
whether a reference can hold its offset. So a trap may come after words have been taken.
-/

namespace Trampoline

structure ClosureView (w : Width) where
  object : Ref
  header : Header w
  entry : Label
  arity : Nat
deriving DecidableEq, Repr

namespace ClosureView

variable {w : Width}

def captured (c : ClosureView w) : Nat := c.header.fields

end ClosureView

namespace Alloc

variable {w : Width}

def refer (offset : Nat) (pair : Bool) : Alloc w (Word w) := do
  let r ← Ref.checked (w := w) offset pair
  return r.word

def construct (c : Constructor) (fields : List (Word w)) : Alloc w (Word w) :=
  if fields.length ≠ c.fields then throw .arity
  else match c.representation with
    | .unboxed => liftM c.unboxedValue
    | .boxed => do
      let offset ← bump (Shape.constructor fields.length).words
      let header ← c.header (w := w)
      fill offset (header.word :: fields)
      refer offset false

def makePair (fst snd : Word w) : Alloc w (Word w) := do
  let offset ← store [fst, snd]
  refer offset true

/-- A closure over a function that holds some of its arguments. -/
def makeClosure (f : Function) (captured : List (Word w)) : Alloc w (Word w) :=
  if f.arity < captured.length then throw .tooManyCaptures
  else do
    let offset ← bump (Shape.closure captured.length).words
    let header ← Header.checked (w := w) .closure f.uid captured.length
    fill offset (header.word :: .ofNat f.label.index :: .ofNat f.arity :: captured)
    refer offset false

/-- A closure that holds the captured arguments of another one, and `args` after them. -/
def extend (c : ClosureView w) (args : List (Word w)) : Alloc w (Word w) := do
  let captured := c.captured + args.length
  let count := (Shape.closure c.captured).words
  let offset ← bumpCopy (Shape.closure captured).words c.object count
  let header ← Header.checked (w := w) .closure c.header.uid captured
  fill offset [header.word]
  fill (offset + count) args
  refer offset false

end Alloc

namespace Heap

variable {w : Width}

/-- The header of a constructor value or closure; pairs and integers have none. -/
def headerOf (h : Heap w) (v : Word w) : Except (Trap w) (Option (Header w)) :=
  match v.ref? with
  | none => .ok v.header?
  | some r => if r.pair then .ok none else some <$> h.header r

def expectRef (v : Word w) : Except (Trap w) Ref :=
  match v.ref? with
  | some r => .ok r
  | none => .error (.notReference v)

def field (h : Heap w) (v : Word w) (i : Nat) : Except (Trap w) (Word w) := do
  let r ← expectRef v
  if r.pair then throw .fieldOfPair
  let header ← h.header r
  if header.fields ≤ i then throw (.fieldRange i)
  h.load r (1 + i)

def fst (h : Heap w) (v : Word w) : Except (Trap w) (Word w) := do
  let r ← expectRef v
  if !r.pair then throw .fstOfObject
  h.load r 0

def snd (h : Heap w) (v : Word w) : Except (Trap w) (Word w) := do
  let r ← expectRef v
  if !r.pair then throw .sndOfObject
  h.load r 1

/-- Take a closure apart; `none` if the value is something else. -/
def closure? (h : Heap w) (v : Word w) : Except (Trap w) (Option (ClosureView w)) := do
  match v.ref? with
  | none => return none
  | some r =>
    if r.pair then return none
    let header ← h.header r
    if !header.isClosure then return none
    let entry ← h.word (r.offset + 1)
    let arity ← h.word (r.offset + 2)
    return some ⟨r, header, .ofNat entry.toNat, arity.toNat⟩

def capturedArgs (h : Heap w) (c : ClosureView w) : Except (Trap w) (List (Word w)) :=
  h.space.slice (c.object.offset + 3) c.captured

end Heap

end Trampoline

import Trampoline.Word.Checked

/-!
The value stack: arguments, temporaries, frame links and continuations.
-/

namespace Trampoline

/-- A stack and the largest depth it has had since it was last cleared. -/
structure Stack (w : Width) where
  slots : Array (Word w) := #[]
  highWater : Nat := 0
deriving DecidableEq, Repr

namespace Stack

variable {w : Width}

def create (room : Nat) : Except (Trap w) (Stack w) := do
  let _ ← Size.ofWords (w := w) room
  return {}

def depth (s : Stack w) : Nat := s.slots.size

def push (s : Stack w) (v : Word w) : Stack w :=
  let slots := s.slots.push v
  { slots, highWater := max s.highWater slots.size }

def pushList (s : Stack w) (vs : List (Word w)) : Stack w := vs.foldl push s

def pop (s : Stack w) : Option (Word w) × Stack w :=
  (s.slots.back?, { s with slots := s.slots.pop })

def get (s : Stack w) (i : Nat) : Except (Trap w) (Word w) :=
  match s.slots[i]? with
  | some v => .ok v
  | none => .error .bounds

/-- Overwrite a slot, if there is one at the index. -/
def replace (s : Stack w) (i : Nat) (v : Word w) : Stack w :=
  { s with slots := s.slots.setIfInBounds i v }

def set (s : Stack w) (i : Nat) (v : Word w) : Except (Trap w) (Stack w) :=
  if i < s.depth then .ok (s.replace i v) else .error .bounds

def peek (s : Stack w) (n : Nat) : Except (Trap w) (Option (Word w)) := do
  let n ← Size.add n 1
  return if n ≤ s.depth then s.slots[s.depth - n]? else none

/-- Drop the slots at and above `depth`, if there are any. -/
def shrink (s : Stack w) (depth : Nat) : Stack w := { s with slots := s.slots.shrink depth }

def truncate (s : Stack w) (depth : Nat) : Except (Trap w) (Stack w) :=
  if depth ≤ s.depth then .ok (s.shrink depth) else .error .truncatedUpward

/-- The slots at and above `depth`, from the bottom up. -/
def above (s : Stack w) (depth : Nat) : List (Word w) := (s.slots.extract depth).toList

/-- The empty stack, with its mark reset. -/
def clear (_ : Stack w) : Stack w := {}

def swapEnds (s : Stack w) : Except (Trap w) (Stack w) := do
  let last ← Size.sub s.depth 1
  let bottom ← s.get 0
  let top ← s.get last
  return (s.replace 0 top).replace last bottom

def describe (s : Stack w) : String :=
  "Stack \x7b slots: [" ++ ", ".intercalate (s.slots.toList.map Word.describe) ++
    "], high_water: " ++ toString s.highWater ++ " \x7d"

end Stack

end Trampoline

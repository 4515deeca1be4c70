import Trampoline.Machine.Apply

/-!
Runs: the machine goes from label to label until it comes to the end of the program.
-/

namespace Trampoline

abbrev Code (w : Width) := Op w Label

namespace Machine

variable {w : Width}

/-- Enter a label: reserve what its code may allocate, then run the code. -/
def step (p : Program (Code w)) (label : Label) : Op w Label := do
  if label = .applyPending then applyPending
  else match p.slot? label with
    | none => trap .bounds
    | some ⟨name, _, none⟩ => trap (.noCode name)
    | some ⟨name, maxAlloc, some code⟩ =>
      record (.jumped name)
      if 0 < maxAlloc then prealloc maxAlloc
      code

/-- Record an event about a label when such events are recorded; only then the label has to have a
name. -/
def recordNamed (p : Program (Code w)) (label : Label) (event : String → Event w) : Op w Unit := do
  if (← get).journal.records .debug then
    match p.labelName? label with
    | none => trap .bounds
    | some name => record (event name)

/-- Record that a run ended with an error at a label, and the stack it left. -/
def reportFailure (p : Program (Code w)) (e : RuntimeError) (label : Label) : Op w Unit := do
  recordNamed p label (.runFailed e)
  dumpStack

def ticked (m : Machine w) : Machine w := { m with steps := m.steps + 1 }

/-- Enter labels until the end of the program, at most `fuel` of them. The steps have to fit the 64
bits that they are counted in. -/
def loop (p : Program (Code w)) : Nat → Label → Op w Unit
  | 0, label => if label = .programEnd then pure () else throw .unfinished
  | fuel + 1, label => fun m =>
    if label = .programEnd then .ok () m
    else if sizeRange ≤ m.steps + 1 then .error (.trap .bounds) m
    else match step p label m.ticked with
      | .ok next m => loop p fuel next m
      | .error (.error e) m => (do reportFailure p e label; fail e) m
      | .error f m => .error f m

/-- The machine as a run finds it: the program's names, and nothing on the stack. -/
def reset (m : Machine w) (names : Names) : Machine w :=
  { m with names, stack := m.stack.clear, fp := 0, result := .unitWord, steps := 0 }

/-- What a run does before it enters the first label. -/
def start (p : Program (Code w)) : Op w Label := do
  modify (·.reset p.names)
  recordNamed p p.entry .runStarted
  call p.entry [] .programEnd

/-- What a run does when it has come to the end of the program: print the final value. -/
def conclude : Op w (Word w) := do
  let m ← get
  if m.stack.depth ≠ 0 then trap .stackLeft
  record (.runFinished m.steps m.stack.highWater m.heap.stats.collections)
  let text ← render m.result
  print .toplevel m.result text
  return m.result

/-- Run a program from its entry to its end, entering at most `fuel` labels. -/
def run (p : Program (Code w)) (fuel : Nat) : Op w (Word w) := do
  let entry ← start p
  loop p fuel entry
  conclude

end Machine

end Trampoline

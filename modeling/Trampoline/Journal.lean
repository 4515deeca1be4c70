import Trampoline.Case
import Trampoline.Heap.Object

/-!
The journal of a machine: events of its work down to a level of detail, and answers to questions
that code put to the machine while it ran.
-/

namespace Trampoline

inductive Level where
  | error
  | warn
  | info
  | debug
  | trace
deriving DecidableEq, Repr

namespace Level

/-- Position in the order from the most to the least severe. -/
def rank : Level → Nat
  | error => 0
  | warn => 1
  | info => 2
  | debug => 3
  | trace => 4

def describe : Level → String
  | error => "ERROR"
  | warn => "WARN"
  | info => "INFO"
  | debug => "DEBUG"
  | trace => "TRACE"

end Level

inductive Event (w : Width) where
  | heap (e : HeapEvent)
  | programBuilt (labels : Nat) (entry : String)
  | runStarted (entry : String)
  | jumped (label : String)
  | dispatched (v : Word w) (route : Route)
  | runFailed (e : RuntimeError) (label : String)
  | stackShown (depth fp : Nat)
  | slotShown (index : Nat) (v : Word w) (atFrame : Bool)
  | runFinished (steps highWater collections : Nat)
deriving DecidableEq, Repr

def HeapEvent.level : HeapEvent → Level
  | made .. => .debug
  | grown .. => .info
  | collected .. => .debug
  | exhausted .. => .warn

def HeapEvent.message : HeapEvent → String
  | made initial max =>
    "heap: " ++ toString initial ++ " words initial, " ++ toString max ++ " words max"
  | grown before after =>
    "heap grown from " ++ toString before ++ " to " ++ toString after ++ " words"
  | collected number before live capacity =>
    "gc #" ++ toString number ++ ": " ++ toString before ++ " -> " ++ toString live ++
      " words live, capacity " ++ toString capacity
  | exhausted requested live =>
    "heap exhausted: " ++ toString requested ++ " words requested, " ++ toString live ++ " live"

/-- A number, right-aligned in at least four columns. -/
def alignedIndex (n : Nat) : String :=
  let digits := toString n
  String.ofList (List.replicate (4 - digits.length) ' ') ++ digits

namespace Event

variable {w : Width}

def level : Event w → Level
  | heap e => e.level
  | jumped _ => .trace
  | dispatched .. => .trace
  | programBuilt .. => .debug
  | runStarted _ => .debug
  | runFailed .. => .debug
  | stackShown .. => .debug
  | slotShown .. => .debug
  | runFinished .. => .debug

def message : Event w → String
  | heap e => e.message
  | programBuilt labels entry =>
    "program built: " ++ toString labels ++ " labels, entry `" ++ entry ++ "`"
  | runStarted entry => "run: entry `" ++ entry ++ "`"
  | jumped label => "jump " ++ label
  | dispatched v route => "case " ++ v.describe ++ " -> " ++ route.describe
  | runFailed e label => "run: " ++ e.message ++ " at `" ++ label ++ "`"
  | stackShown depth fp => "stack: depth " ++ toString depth ++ ", fp " ++ toString fp
  | slotShown index v atFrame =>
    "  [" ++ alignedIndex index ++ "] " ++ v.describe ++ " " ++ (if atFrame then "<- fp" else "")
  | runFinished steps highWater collections =>
    "run: finished after " ++ toString steps ++ " steps, stack high water " ++
      toString highWater ++ ", " ++ toString collections ++ " collections"

def line (e : Event w) : String := e.level.describe ++ " " ++ e.message

end Event

inductive Answer (w : Width) where
  | word (v : Word w)
  | words (vs : List (Word w))
  | maybeWord (v : Option (Word w))
  | text (s : String)
  | bool (b : Bool)
  | count (n : Nat)
  | header (h : Option (Header w))
  | closure (c : ClosureView w)
  | branch (label : Label) (route : Route)
  | names (constructor function : Option String)
  | stats (hp capacity free : Nat) (s : HeapStats)
deriving DecidableEq, Repr

/-- A journal: the events at or above a level, if there is one, and all noted answers. -/
structure Journal (w : Width) where
  level : Option Level := none
  events : Array (Event w) := #[]
  notes : Array (Answer w) := #[]

namespace Journal

variable {w : Width}

def records (j : Journal w) (l : Level) : Bool :=
  match j.level with
  | none => false
  | some least => l.rank ≤ least.rank

def record (j : Journal w) (e : Event w) : Journal w :=
  if j.records e.level then { j with events := j.events.push e } else j

def recordMaking (j : Journal w) (s : HeapSettings) : Journal w :=
  j.record (.heap (.made s.initialWords s.maxWords))

def recordHeap (j : Journal w) (es : List HeapEvent) : Journal w :=
  es.foldl (fun j e => j.record (.heap e)) j

def note (j : Journal w) (a : Answer w) : Journal w := { j with notes := j.notes.push a }

end Journal

end Trampoline

import Trampoline.Journal
import Trampoline.Literal
import Trampoline.Render

/-!
A session on a heap of its own: commands that reserve, allocate, collect and look, with named
registers and a list of roots. Only the roots follow a collection.
-/

namespace Trampoline

namespace Heap

/-- Where a command takes a word from. -/
inductive Operand (w : Width) where
  | literal (l : Literal w)
  | register (name : String)
  | root (i : Nat)
deriving DecidableEq, Repr

inductive Command (w : Width) where
  | reserve (words : Nat)
  | collect
  | constructor (target : String) (uid : Nat) (fields : List (Operand w))
  | pair (target : String) (fst snd : Operand w)
  | closure (target : String) (uid entry arity : Nat) (captured : List (Operand w))
  /-- A block of some words that starts as a copy of another block's first words. -/
  | copy (target : String) (words : Nat) (source : Operand w) (count : Nat)
      (sets : List (Nat × Operand w))
  | pushRoot (v : Operand w)
  | setRoot (i : Nat) (v : Operand w)
  | popRoot
  | assign (target : String) (v : Operand w)
  | header (v : Operand w)
  | load (v : Operand w) (i : Nat)
  | loadTo (target : String) (v : Operand w) (i : Nat)
  | word (offset : Nat)
  | block (v : Operand w)
  | traced (v : Operand w)
  | equal (a b : Operand w)
  | render (v : Operand w)
  | describe
  /-- So many rounds of commands; register `i` counts them. -/
  | rounds (n : Nat) (body : List (Command w))

inductive Reply (w : Width) where
  | nothing
  | word (v : Word w)
  | maybeWord (v : Option (Word w))
  | words (vs : List (Word w))
  | header (h : Header w)
  | range (first stop : Nat)
  | checkpoint (roots : List (Word w)) (shortage : Option Shortage)
  | equality (b : Bool)
  | text (s : String)
  | descriptions (heap settings : String)
deriving DecidableEq, Repr

structure Session (w : Width) where
  heap : Heap w
  registers : Registers w := {}
  roots : List (Word w) := []
  journal : Journal w := {}

/-- A piece of a session. It ends with a trap, or with a comparison that would not end. -/
abbrev SessionM (w : Width) := EStateM (Fault w Empty) (Session w)

instance {w : Width} : MonadLift (Except (Trap w)) (SessionM w) where
  monadLift r :=
    match r with
    | .ok a => pure a
    | .error t => throw (.trap t)

namespace Session

variable {w : Width}

/-- A session on a new heap. A trap hands the journal back. -/
def create (settings : HeapSettings) (journal : Journal w) :
    Except (Trap w × Journal w) (Session w) :=
  match settings.validate w with
  | .error e => .error (.heapSettings e, journal)
  | .ok () =>
    let journal := journal.recordMaking settings
    match Heap.create settings with
    | .error t => .error (t, journal)
    | .ok heap => .ok { heap, journal }

def eval : Operand w → SessionM w (Word w)
  | .literal l => l.word
  | .register name => do
    let s ← get
    s.registers.get name
  | .root i => do
    let s ← get
    match s.roots[i]? with
    | some v => return v
    | none => throw (.trap .bounds)

def evalList : List (Operand w) → SessionM w (List (Word w))
  | [] => return []
  | v :: vs => do
    let x ← eval v
    let xs ← evalList vs
    return x :: xs

def evalRef (v : Operand w) : SessionM w Ref := do
  let x ← eval v
  expectRef x

def assign (target : String) (v : Word w) : SessionM w Unit :=
  modify fun s => { s with registers := s.registers.set target v }

def settle (f : Heap w → List (Word w) → Except (Trap w) (Checkpoint w)) :
    SessionM w (Reply w) := fun s =>
  match f s.heap s.roots with
  | .ok c =>
    .ok (.checkpoint c.roots c.shortage)
      { s with heap := c.heap, roots := c.roots, journal := s.journal.recordHeap c.events }
  | .error t =>
    let (heap, roots) := s.heap.wreck s.roots
    .error (.trap t) { s with heap, roots }

def allocate {α : Type} (x : Alloc w α) : SessionM w α := fun s =>
  match x s.heap with
  | .ok a heap => .ok a { s with heap }
  | .error t heap => .error (.trap t) { s with heap }

def hold (target : String) (offset : Nat) (pair : Bool) : SessionM w (Reply w) := do
  let r ← Ref.checked (w := w) offset pair
  assign target r.word
  return .word r.word

/-- Overwrite words of a block of so many words by index. -/
def overwrite (offset words : Nat) : List (Nat × Word w) → Alloc w Unit
  | [] => return
  | (i, v) :: rest =>
    if i < words then do
      Alloc.fill (offset + i) [v]
      overwrite offset words rest
    else throw .bounds

/-- Rounds `k` up to below `k + n` of an action. -/
def rounds (body : SessionM w Unit) (k : Nat) : Nat → SessionM w (Reply w)
  | 0 => return .nothing
  | n + 1 => do
    let i ← Word.int (w := w) k
    assign "i" i
    body
    rounds body (k + 1) n

mutual

def exec : Command w → SessionM w (Reply w)
  | .reserve words => do
    let s ← get
    if s.heap.capacity < s.heap.hp then throw (.trap .bounds)
    settle (·.reserve words ·)
  | .collect => settle (·.collect ·)
  | .constructor target uid fields => do
    let fields ← evalList fields
    let header ← Header.checked (w := w) .constructor uid fields.length
    let offset ← allocate (.store (header.word :: fields))
    hold target offset false
  | .pair target fst snd => do
    let fst ← eval fst
    let snd ← eval snd
    let offset ← allocate (.store [fst, snd])
    hold target offset true
  | .closure target uid entry arity captured => do
    let captured ← evalList captured
    let header ← Header.checked (w := w) .closure uid captured.length
    let offset ← allocate (.store (header.word :: .ofNat entry :: .ofNat arity :: captured))
    hold target offset false
  | .copy target words source count sets => do
    let source ← evalRef source
    let values ← evalList (sets.map (·.2))
    let offset ← allocate (.bumpCopy words source count)
    allocate (overwrite offset words ((sets.map (·.1)).zip values))
    hold target offset source.pair
  | .pushRoot v => do
    let x ← eval v
    modify fun s => { s with roots := s.roots ++ [x] }
    return .nothing
  | .setRoot i v => do
    let x ← eval v
    let s ← get
    if s.roots.length ≤ i then throw (.trap .bounds)
    set { s with roots := s.roots.set i x }
    return .nothing
  | .popRoot => do
    let s ← get
    set { s with roots := s.roots.dropLast }
    return .maybeWord s.roots.getLast?
  | .assign target v => do
    let x ← eval v
    assign target x
    return .word x
  | .header v => do
    let r ← evalRef v
    let s ← get
    return .header (← s.heap.header r)
  | .load v i => do
    let r ← evalRef v
    let s ← get
    return .word (← s.heap.load r i)
  | .loadTo target v i => do
    let r ← evalRef v
    let s ← get
    let x ← s.heap.load r i
    assign target x
    return .word x
  | .word offset => do
    let s ← get
    return .word (← s.heap.word offset)
  | .block v => do
    let r ← evalRef v
    let s ← get
    return .words (← s.heap.block r)
  | .traced v => do
    let r ← evalRef v
    let s ← get
    let shape ← s.heap.space.shape r
    return .range shape.lead shape.words
  | .equal a b => do
    let a ← eval a
    let b ← eval b
    let s ← get
    match ← s.heap.equal a b with
    | some answer => return .equality answer
    | none => throw .unfinished
  | .render v => do
    let x ← eval v
    let s ← get
    return .text (← s.heap.render .builtin x)
  | .describe => do
    let s ← get
    return .descriptions s.heap.describe s.heap.settings.describe
  | .rounds n body => rounds (execList body) 0 n

/-- Carry out commands in order; their replies are dropped. -/
def execList : List (Command w) → SessionM w Unit
  | [] => return
  | c :: cs => do
    let _ ← exec c
    execList cs

end

end Session

end Heap

end Trampoline

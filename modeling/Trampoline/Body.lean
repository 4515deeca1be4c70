import Trampoline.Fixnum
import Trampoline.Literal
import Trampoline.Machine.Run

/-!
A language for the code of labels.

A body is a list of statements. Expressions build and read values, effects change the machine,
probes ask it questions and note the answers in its journal, and the first transfer says where to
go next. Registers hold words for the time of one body; a collection does not see them.
-/

namespace Trampoline

/-- An expression. Operands are evaluated from left to right, before the operation. -/
inductive Expr (w : Width) where
  | literal (l : Literal w)
  | register (name : String)
  /-- A slot of the current frame. -/
  | slot (i : Nat)
  /-- The value delivered by the last return. -/
  | result
  /-- The value of an unboxed constructor. -/
  | nullary (c : Constructor)
  | construct (c : Constructor) (fields : List (Expr w))
  | pair (fst snd : Expr w)
  | closure (f : Function) (captured : List (Expr w))
  | extend (closure : Expr w) (args : List (Expr w))
  | field (e : Expr w) (i : Nat)
  | fst (e : Expr w)
  | snd (e : Expr w)
  | equal (a b : Expr w)
  | arith (op : Fixnum.Operator) (a b : Expr w)

/-- A question to the machine. -/
inductive Probe (w : Width) where
  | eval (e : Expr w)
  | render (e : Expr w)
  | headerOf (e : Expr w)
  | view (e : Expr w)
  | same (a b : Expr w)
  | block (e : Expr w)
  | route (c : Case Label) (e : Expr w)
  | frameLength
  | stack
  | peek (n : Nat)
  | allocWords (c : Constructor)
  | names (uid : Nat)
  | stats

inductive Transfer (w : Width) where
  | jump (label : Label)
  | ret (e : Expr w)
  | call (callee : Label) (args : List (Expr w)) (ret : Label)
  | tailCall (callee : Label) (args : List (Expr w))
  | branch (condition : Expr w) (ifTrue ifFalse : Label)
  | select (c : Case Label) (e : Expr w)
  | callClosure (closure : Expr w) (args : List (Expr w)) (ret : Label)
  | tailCallClosure (closure : Expr w) (args : List (Expr w))
  | apply (closure : Expr w) (args : List (Expr w)) (ret : Label)
  | tailApply (closure : Expr w) (args : List (Expr w))
  | fail (e : Expr w)

inductive Stmt (w : Width) where
  | assign (register : String) (e : Expr w)
  | push (e : Expr w)
  | setSlot (i : Nat) (e : Expr w)
  | trace (e : Expr w)
  | prealloc (words : Nat)
  /-- Reserve words; the registers follow a collection. -/
  | preallocSaving (words : Nat) (registers : List String)
  | dumpStack
  | cond (e : Expr w) (ifTrue ifFalse : List (Stmt w))
  /-- So many rounds of statements; register `i` counts them. -/
  | rounds (n : Nat) (body : List (Stmt w))
  | probe (p : Probe w)
  | transfer (t : Transfer w)

/-- A machine and the registers of the body it runs. -/
structure Desk (w : Width) where
  machine : Machine w
  registers : Registers w := {}

abbrev Act (w : Width) := EStateM (Fault w RuntimeError) (Desk w)

/-- Operations of the machine leave the registers alone. -/
instance {w : Width} : MonadLift (Op w) (Act w) where
  monadLift op := fun ⟨machine, registers⟩ =>
    match op machine with
    | .ok a machine => .ok a ⟨machine, registers⟩
    | .error e machine => .error e ⟨machine, registers⟩

namespace Act

variable {w : Width}

def check {α : Type} (r : Except (Trap w) α) : Act w α :=
  match r with
  | .ok a => pure a
  | .error t => throw (.trap t)

def heap {α : Type} (f : Heap w → Except (Trap w) α) : Act w α := do
  let d ← get
  check (f d.machine.heap)

def register (name : String) : Act w (Word w) := do
  let d ← get
  check (d.registers.get name)

def assign (name : String) (v : Word w) : Act w Unit :=
  modify fun d => { d with registers := d.registers.set name v }

def registers : List String → Act w (List (Word w))
  | [] => return []
  | name :: names => do
    let v ← register name
    let vs ← registers names
    return v :: vs

/-- Rounds `k` up to below `k + n` of an action, or up to the first transfer. -/
def rounds (body : Act w (Option Label)) (k : Nat) : Nat → Act w (Option Label)
  | 0 => return none
  | n + 1 => do
    let i ← check (Word.int k)
    assign "i" i
    match ← body with
    | some label => return some label
    | none => rounds body (k + 1) n

end Act

namespace Expr

variable {w : Width}

mutual

def eval : Expr w → Act w (Word w)
  | literal l => Act.check l.word
  | register name => Act.register name
  | slot i => Machine.slot (w := w) i
  | result => Machine.lastResult (w := w)
  | nullary c => Act.check c.unboxedValue
  | construct c fields => do
    let fields ← evalList fields
    Machine.construct c fields
  | pair a b => do
    let a ← a.eval
    let b ← b.eval
    Machine.makePair a b
  | closure f captured => do
    let captured ← evalList captured
    Machine.makeClosure f captured
  | extend e args => do
    let cl ← e.eval
    let args ← evalList args
    Machine.extendClosure cl args
  | field e i => do
    let v ← e.eval
    Machine.field v i
  | fst e => do
    let v ← e.eval
    Machine.fst v
  | snd e => do
    let v ← e.eval
    Machine.snd v
  | equal a b => do
    let a ← a.eval
    let b ← b.eval
    return .ofBool (← Machine.equalValues a b)
  | arith op a b => do
    let a ← a.eval
    let b ← b.eval
    match op.apply a b with
    | .ok v => return v
    | .error e => throw e

def evalList : List (Expr w) → Act w (List (Word w))
  | [] => return []
  | e :: es => do
    let v ← e.eval
    let vs ← evalList es
    return v :: vs

end

end Expr

namespace Probe

variable {w : Width}

def ask : Probe w → Act w (Answer w)
  | eval e => return .word (← e.eval)
  | render e => do
    let v ← e.eval
    return .text (← Machine.render v)
  | headerOf e => do
    let v ← e.eval
    return .header (← Act.heap (·.headerOf v))
  | view e => do
    let v ← e.eval
    return .closure (← Machine.closureView v)
  | same a b => do
    let a ← a.eval
    let b ← b.eval
    return .bool (← Machine.equalValues a b)
  | block e => do
    let v ← e.eval
    let r ← Act.check (Heap.expectRef v)
    return .words (← Act.heap (·.block r))
  | route c e => do
    let v ← e.eval
    let d ← get
    match c.select d.machine.heap v with
    | .ok (label, way) => return .branch label way
    | .error e => throw e
  | frameLength => do
    let d ← get
    return .count (← Act.check d.machine.frameLength)
  | stack => do
    let d ← get
    return .words d.machine.stack.slots.toList
  | peek n => do
    let d ← get
    return .maybeWord (← Act.check (d.machine.stack.peek n))
  | allocWords c => return .count c.allocWords
  | names uid => do
    let d ← get
    return .names (d.machine.names.constructor? uid) (d.machine.names.function? uid)
  | stats => do
    let d ← get
    let h := d.machine.heap
    return .stats h.hp h.capacity h.free h.stats

end Probe

namespace Transfer

variable {w : Width}

def exec : Transfer w → Act w Label
  | jump label => return label
  | ret e => do
    let v ← e.eval
    Machine.ret v
  | call callee args k => do
    let args ← Expr.evalList args
    Machine.call callee args k
  | tailCall callee args => do
    let args ← Expr.evalList args
    Machine.tailCall callee args
  | branch condition ifTrue ifFalse => do
    let v ← condition.eval
    Machine.branch v ifTrue ifFalse
  | select c e => do
    let v ← e.eval
    Machine.select c v
  | callClosure closure args k => do
    let cl ← closure.eval
    let args ← Expr.evalList args
    Machine.callClosure cl args k
  | tailCallClosure closure args => do
    let cl ← closure.eval
    let args ← Expr.evalList args
    Machine.tailCallClosure cl args
  | apply closure args k => do
    let cl ← closure.eval
    let args ← Expr.evalList args
    Machine.apply cl args k
  | tailApply closure args => do
    let cl ← closure.eval
    let args ← Expr.evalList args
    Machine.tailApply cl args
  | fail e => do
    let v ← e.eval
    Machine.failure (α := Label) v

end Transfer

namespace Stmt

variable {w : Width}

/-- Reserve words while the registers ride on the stack. They are written back also when the words
are not to be had. -/
def reserveSaving (words : Nat) (names : List String) : Act w Unit := do
  let temps ← Act.registers names
  let (temps, shortage) ← Machine.preallocSaving words temps
  modify fun d => { d with
    registers := (names.zip temps).foldl (fun r (name, v) => r.set name v) d.registers }
  match shortage with
  | none => return
  | some s => throw (.error (.outOfMemory s))

mutual

/-- Carry out a statement; answer the label if it is a transfer. -/
def exec : Stmt w → Act w (Option Label)
  | assign register e => do
    let v ← e.eval
    Act.assign register v
    return none
  | push e => do
    let v ← e.eval
    Machine.pushLocal v
    return none
  | setSlot i e => do
    let v ← e.eval
    Machine.setSlot i v
    return none
  | trace e => do
    let v ← e.eval
    Machine.trace v
    return none
  | prealloc words => do
    Machine.prealloc (w := w) words
    return none
  | preallocSaving words registers => do
    reserveSaving words registers
    return none
  | dumpStack => do
    Machine.dumpStack (w := w)
    return none
  | cond e ifTrue ifFalse => do
    let v ← e.eval
    if ← Act.check v.isTrue then execList ifTrue else execList ifFalse
  | rounds n body => Act.rounds (execList body) 0 n
  | probe p => do
    let a ← p.ask
    modify fun d => { d with machine := { d.machine with journal := d.machine.journal.note a } }
    return none
  | transfer t => some <$> t.exec

/-- Carry out statements up to the first transfer. -/
def execList : List (Stmt w) → Act w (Option Label)
  | [] => return none
  | s :: ss => do
    match ← s.exec with
    | some label => return some label
    | none => execList ss

end

end Stmt

abbrev Body (w : Width) := List (Stmt w)

/-- The code that a body stands for, run with fresh registers. A body without a transfer runs past
its end. -/
def Body.code {w : Width} (body : Body w) : Code w := fun m =>
  match Stmt.execList body { machine := m } with
  | .ok (some label) d => .ok label d.machine
  | .ok none d => .error (.trap .bounds) d.machine
  | .error e d => .error e d.machine

end Trampoline

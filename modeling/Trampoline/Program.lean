import Trampoline.Journal
import Trampoline.Render
import Trampoline.Text.Quoted

/-!
Programs: a flat table of labels, each with a piece of code of some type `κ`, and the names of the
constructors and functions that go with it.

A program is put together by a builder. A label is declared first and bound to its code later, at
most once; a program is built only when every label has code. Constructors and functions share one
sequence of uids.
-/

namespace Trampoline

/-- A label's name, the words to reserve before its code runs, and its code once it is bound. -/
structure Slot (κ : Type) where
  name : String
  maxAlloc : Nat := 0
  code : Option κ := none

structure Builder (w : Width) (κ : Type) where
  slots : Array (Slot κ)
  names : Names
  nextUid : Nat

/-- Calls on a builder. A call that fails leaves a builder behind, too. -/
abbrev Building (w : Width) (κ : Type) := EStateM (Fault w ProgramError) (Builder w κ)

inductive Declaration where
  | constructor (name : String) (fields : Nat) (r : Representation)
  | function (name : String) (arity maxAlloc : Nat)
deriving DecidableEq, Repr

/-- A program: a table of slots, an entry label, and printable names. -/
structure Program (κ : Type) where
  slots : Array (Slot κ)
  entry : Label
  names : Names

namespace Builder

variable {w : Width} {κ : Type}

/-- A builder that has the two reserved labels and the builtin constructors. -/
def empty : Builder w κ :=
  { slots := #[{ name := "program_end" }, { name := "apply_pending" }]
    names := .builtin
    nextUid := Uid.first }

def label (name : String) : Building w κ Label :=
  modifyGet fun b => (.ofNat b.slots.size, { b with slots := b.slots.push { name } })

def bind (l : Label) (maxAlloc : Nat) (code : κ) : Building w κ Unit := do
  match (← get).slots[l.index]? with
  | none => throw (.trap .bounds)
  | some slot =>
    if l.isReserved || slot.code.isSome then throw (.error (.duplicateBinding slot.name))
    else modify fun b => { b with
      slots := b.slots.setIfInBounds l.index { name := slot.name, maxAlloc, code := some code } }

/-- The next uid, unless they are used up. Uids are counted in 32 bits, so at a width where the
last uid fills them, it cannot be given out. -/
def freshUid : Building w κ Nat := do
  let uid := (← get).nextUid
  if w.maxUid < uid then throw (.error .tooManyUids)
  else if uid + 1 < 0x100000000 then
    modify fun b => { b with nextUid := uid + 1 }
    return uid
  else throw (.trap .bounds)

/-- Declare a function: a uid for its closures and an entry label. -/
def function (name : String) (arity maxAlloc : Nat) : Building w κ Function := do
  if w.maxFields < arity then throw (.error (.invalidFunction name))
  else
    let uid ← freshUid
    let entry ← label name
    modify fun b => { b with names.functions := Names.record b.names.functions uid name }
    return ⟨uid, entry, arity, maxAlloc⟩

def define (f : Function) (code : κ) : Building w κ Unit :=
  bind f.label f.maxAlloc code

def constructor (name : String) (fields : Nat) (r : Representation) : Building w κ Constructor := do
  if w.maxFields < fields || (r == .unboxed && fields != 0) then
    throw (.error (.invalidConstructor name))
  else
    let uid ← freshUid
    modify fun b => { b with names.constructors := Names.record b.names.constructors uid name }
    return ⟨uid, fields, r⟩

def declare : Declaration → Building w κ Nat
  | .constructor name fields r => Constructor.uid <$> constructor name fields r
  | .function name arity maxAlloc => Function.uid <$> function name arity maxAlloc

/-- The first label that still has no code, the reserved ones apart. Labels are numbered modulo
`2 ^ 32`, so a slot that far up would pass for reserved again. -/
def unbound? (b : Builder w κ) : Option (Slot κ) :=
  (b.slots.toList.zipIdx.find? fun (slot, i) =>
    !(Label.ofNat i).isReserved && slot.code.isNone).map Prod.fst

/-- Build the program. The report of it names the entry, so the entry's name is looked up only when
the journal records such reports. -/
def build (b : Builder w κ) (entry : Label) (journal : Journal w) :
    Except (Fault w ProgramError) (Program κ × Journal w) :=
  match b.unbound? with
  | some slot => .error (.error (.unboundLabel slot.name))
  | none =>
    let program : Program κ := ⟨b.slots, entry, b.names⟩
    if journal.records .debug then
      match b.slots[entry.index]? with
      | none => .error (.trap .bounds)
      | some slot => .ok (program, journal.record (.programBuilt b.slots.size slot.name))
    else .ok (program, journal)

end Builder

namespace Program

variable {κ μ : Type}

def slot? (p : Program κ) (l : Label) : Option (Slot κ) := p.slots[l.index]?

def labelName? (p : Program κ) (l : Label) : Option String := (p.slot? l).map (·.name)

def labelNames (p : Program κ) : List String := p.slots.toList.map (·.name)

/-- The same program with its code turned into something else. -/
def map (f : κ → μ) (p : Program κ) : Program μ :=
  { slots := p.slots.map fun s => ⟨s.name, s.maxAlloc, s.code.map f⟩
    entry := p.entry
    names := p.names }

/-- Text of a program in messages, if its entry has a name. -/
def describe? (p : Program κ) : Option String :=
  (p.labelName? p.entry).map fun name =>
    "Program \x7b labels: " ++ toString p.slots.size ++ ", entry: " ++ Text.quoted name ++ " \x7d"

end Program

end Trampoline

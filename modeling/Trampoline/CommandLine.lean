import Trampoline.Demo

/-!
The command line: `vm [OPTIONS] [DEMO] [ARG]`.

Arguments are read from left to right. An option takes the next argument or what follows its equals
sign as its value; `--` makes everything after it positional. The first argument that cannot be
accepted ends the reading with a usage error. Asking for the version also ends it, with what came
before already accepted.
-/

namespace Trampoline.CommandLine

inductive UsageError where
  | unknownOption (name : String)
  | repeatedOption (name : String)
  | missingValue (name : String)
  | unexpectedValue (name : String)
  | invalidNumber (text : String)
  | surplusArgument (text : String)
deriving DecidableEq, Repr

inductive SizeOption where
  | heapWords
  | maxHeapWords
  | stackWords
deriving DecidableEq, Repr

def SizeOption.name : SizeOption → String
  | heapWords => "--heap-words"
  | maxHeapWords => "--max-heap-words"
  | stackWords => "--stack-words"

def SizeOption.all : List SizeOption := [heapWords, maxHeapWords, stackWords]

structure Options where
  demo : Option String := none
  arg : Option Int := none
  heapWords : Option Nat := none
  maxHeapWords : Option Nat := none
  stackWords : Option Nat := none
  list : Bool := false
deriving DecidableEq, Repr

inductive Request where
  | version
  | run (o : Options)
deriving DecidableEq, Repr

def digits? (cs : List Char) : Option Nat :=
  if cs.isEmpty || !cs.all Char.isDigit then none
  else some (cs.foldl (fun n c => 10 * n + (c.toNat - '0'.toNat)) 0)

/-- A size: digits, with an optional plus sign, below `2 ^ 64`. -/
def size? (s : String) : Option Nat :=
  let cs := match s.toList with
    | '+' :: cs => cs
    | cs => cs
  (digits? cs).filter (· < sizeRange)

/-- A signed 64-bit number: digits, with an optional sign. -/
def int? (s : String) : Option Int :=
  let n := match s.toList with
    | '-' :: cs => (digits? cs).map fun n => -(n : Int)
    | '+' :: cs => (digits? cs).map Int.ofNat
    | cs => (digits? cs).map Int.ofNat
  n.filter fun n => -0x8000000000000000 ≤ n && n < 0x8000000000000000

def Options.setSize (o : Options) (option : SizeOption) (text : String) :
    Except UsageError Options :=
  match size? text with
  | none => .error (.invalidNumber text)
  | some n =>
    match option with
    | .heapWords =>
      if o.heapWords.isSome then .error (.repeatedOption option.name)
      else .ok { o with heapWords := some n }
    | .maxHeapWords =>
      if o.maxHeapWords.isSome then .error (.repeatedOption option.name)
      else .ok { o with maxHeapWords := some n }
    | .stackWords =>
      if o.stackWords.isSome then .error (.repeatedOption option.name)
      else .ok { o with stackWords := some n }

/-- Accept a positional argument: the demo, then its parameter. -/
def Options.positional (o : Options) (text : String) : Except UsageError Options :=
  if o.demo.isNone then .ok { o with demo := some text }
  else if o.arg.isSome then .error (.surplusArgument text)
  else match int? text with
    | some n => .ok { o with arg := some n }
    | none => .error (.invalidNumber text)

/-- An option and the value after its equals sign. -/
def splitValue (cs : List Char) : String × Option String :=
  match cs.dropWhile (· != '=') with
  | [] => (String.ofList cs, none)
  | _ :: value => (String.ofList (cs.takeWhile (· != '=')), some (String.ofList value))

/-- Is the argument a negative number where one is expected, after the demo? -/
def Options.expectsNegative (o : Options) (cs : List Char) : Bool :=
  o.demo.isSome && o.arg.isNone && (int? (String.ofList cs)).isSome

inductive Reading where
  | version
  | next (o : Options)
  /-- The value of this option is the argument to come. -/
  | awaits (option : SizeOption)
  /-- All arguments to come are positional. -/
  | positionals

def readLong (o : Options) (cs : List Char) : Except UsageError Reading :=
  let (name, value) := splitValue cs
  match SizeOption.all.find? (·.name == name), value with
  | some option, some text => .next <$> o.setSize option text
  | some option, none => .ok (.awaits option)
  | none, value =>
    if name != "--list" && name != "--version" then .error (.unknownOption name)
    else if value.isSome then .error (.unexpectedValue name)
    else if name == "--version" then .ok .version
    else if o.list then .error (.repeatedOption name)
    else .ok (.next { o with list := true })

def readOne (o : Options) (text : String) : Except UsageError Reading :=
  match text.toList with
  | ['-', '-'] => .ok .positionals
  | '-' :: '-' :: _ => readLong o text.toList
  | '-' :: 'V' :: _ => .ok .version
  | '-' :: c :: cs =>
    if o.expectsNegative ('-' :: c :: cs) then .next <$> o.positional text
    else .error (.unknownOption text)
  | _ => .next <$> o.positional text

def looksLikeOption (text : String) : Bool :=
  match text.toList with
  | '-' :: _ :: _ => true
  | _ => false

/-- Read the rest of a command line. -/
def read (o : Options) : List String → Except UsageError Request
  | [] => .ok (.run o)
  | text :: rest =>
    match readOne o text with
    | .error e => .error e
    | .ok .version => .ok .version
    | .ok (.next o) => read o rest
    | .ok .positionals => do
      let o ← rest.foldlM Options.positional o
      return .run o
    | .ok (.awaits option) =>
      match rest with
      | [] => .error (.missingValue option.name)
      | value :: rest =>
        if looksLikeOption value then .error (.missingValue option.name)
        else match o.setSize option value with
          | .error e => .error e
          | .ok o => read o rest

/-- What a run of the command line leaves: its exit status and what it wrote. -/
structure Outcome where
  status : Nat
  output : String := ""
  errors : String := ""
deriving DecidableEq, Repr

/-- A name in a column of ten. -/
def column (name : String) : String :=
  name ++ String.ofList (List.replicate (10 - name.length) ' ')

def listing : String :=
  String.join <| Demo.all.map fun d =>
    column d.name ++ " " ++ d.description ++ " (default " ++ toString d.defaultArg ++ ")\n"

def Options.settings (o : Options) : MachineSettings :=
  let defaults : MachineSettings := {}
  let initialWords := o.heapWords.getD defaults.heap.initialWords
  { heap :=
      { initialWords
        maxWords := max (o.maxHeapWords.getD defaults.heap.maxWords) initialWords }
    maxStackWords := o.stackWords.getD defaults.maxStackWords }

/-- What a machine printed, as written to the two streams. -/
def written {w : Width} (seen : List (Printed w)) : String × String :=
  seen.foldl (fun (output, errors) p =>
    match p.kind with
    | .toplevel => (output ++ p.text ++ "\n", errors)
    | .trace => (output, errors ++ "trace: " ++ p.text ++ "\n")
    | .failure => (output, errors ++ "failure: " ++ p.text ++ "\n")) ("", "")

def errorStatus : Nat := 1

def usageStatus : Nat := 2

def trapStatus : Nat := 101

def runProgram {w : Width} (p : Program (Code w)) (m : Machine w) (fuel : Nat) : Outcome :=
  match Machine.run p fuel m with
  | .ok _ m =>
    let (output, errors) := written m.sink.seen.toList
    { status := 0, output, errors }
  | .error (.error e) m =>
    let (output, errors) := written m.sink.seen.toList
    { status := errorStatus, output, errors := errors ++ "fatal error: " ++ e.message ++ "\n" }
  | .error _ m =>
    let (output, errors) := written m.sink.seen.toList
    { status := trapStatus, output, errors }

def runDemo (w : Width) (o : Options) (name : String) (fuel : Nat) : Outcome :=
  let refuse (text : String) : Outcome := { status := errorStatus, errors := text ++ "\n" }
  match Demo.find? name with
  | none => refuse ("Unknown demo '" ++ name ++ "', try --list")
  | some d =>
    match d.parameter w o.arg, o.settings.validate w with
    | .error e, _ => refuse e.message
    | _, .error e => refuse ("Invalid settings: " ++ e.message)
    | .ok n, .ok () =>
      match d.program (w := w) n {}, Machine.create (w := w) o.settings {} {} with
      | .error (.error e), _ => refuse ("Error building " ++ d.name ++ ": " ++ e.message)
      | .ok (p, _), .ok m => runProgram p m fuel
      | _, _ => { status := trapStatus }

def run (w : Width) (args : List String) (fuel : Nat) : Outcome :=
  match read {} args with
  | .error _ => { status := usageStatus }
  | .ok .version => { status := 0, output := "vm 0.1.0\n" }
  | .ok (.run o) =>
    match o.demo, o.list with
    | some name, false => runDemo w o name fuel
    | _, _ => { status := 0, output := listing }

end Trampoline.CommandLine

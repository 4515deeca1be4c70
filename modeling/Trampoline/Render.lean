import Trampoline.Heap

/-!
The printed form of a value: integers in decimal, constructors by name with their fields, pairs as
tuples, closures by function name, arity and captured arguments.
-/

namespace Trampoline

/-- The names of a program's constructors and functions, each in a table by uid. A table ends where
its last name stands, and has no name for the uids of the other table. -/
structure Names where
  constructors : Array (Option String)
  functions : Array (Option String)
deriving DecidableEq, Repr

namespace Names

def builtin : Names :=
  { constructors := #[some "False", some "True", some "Unit", none, none, none, none, none]
    functions := .replicate Uid.first none }

/-- Enter a name in a table, which is made longer if the uid is beyond its end. -/
def record (table : Array (Option String)) (uid : Nat) (name : String) : Array (Option String) :=
  (table ++ Array.replicate (uid + 1 - table.size) none).setIfInBounds uid (some name)

def constructor? (n : Names) (uid : Nat) : Option String := n.constructors[uid]?.join

def function? (n : Names) (uid : Nat) : Option String := n.functions[uid]?.join

def constructorText (n : Names) (uid : Nat) : String :=
  (n.constructor? uid).getD ("c" ++ toString uid)

def functionText (n : Names) (uid : Nat) : String :=
  (n.function? uid).getD ("f" ++ toString uid)

end Names

/-- Values nested deeper than this are printed as dots. -/
def maxRenderDepth : Nat := 32

namespace Heap

variable {w : Width}

/-- Print a value of which `levels` levels are shown. -/
def renderLevels (h : Heap w) (names : Names) : Nat → Word w → Except (Trap w) String
  | 0, _ => .ok "..."
  | levels + 1, v => do
    match ← v.view with
    | .int n => return toString n
    | .header header => return names.constructorText header.uid
    | .ref r =>
      let part (i : Nat) : Except (Trap w) String := do
        let v ← h.load r i
        h.renderLevels names levels v
      if r.pair then
        let fst ← part 0
        let snd ← part 1
        return "(" ++ fst ++ ", " ++ snd ++ ")"
      let header ← h.header r
      match header.kind with
      | .constructor =>
        let name := names.constructorText header.uid
        if header.fields = 0 then return name
        let fields ← (List.range header.fields).mapM fun i => part (1 + i)
        return name ++ "(" ++ ", ".intercalate fields ++ ")"
      | .closure =>
        let arity ← h.word (r.offset + 2)
        let captured ← (List.range header.fields).mapM fun i => part (3 + i)
        return "<closure " ++ names.functionText header.uid ++ "/" ++ toString arity.toNat ++ "+" ++
          toString header.fields ++ String.join (captured.map (" " ++ ·)) ++ ">"

def render (h : Heap w) (names : Names) (v : Word w) : Except (Trap w) String :=
  h.renderLevels names (maxRenderDepth + 1) v

end Heap

end Trampoline

import Trampoline.Word.Checked

/-!
Literals, which denote words, and named registers, which hold them.
-/

namespace Trampoline

/-- A way to write down a word. -/
inductive Literal (w : Width) where
  | int (n : Int)
  | wrapped (n : Int)
  | code (id : UInt32)
  | raw (v : Word w)
  | bool (b : Bool)
  | unit
  | ref (offset : Nat) (pair : Bool)
  | header (kind : Kind) (uid fields : Nat)
deriving DecidableEq, Repr

def Literal.word {w : Width} : Literal w → Except (Trap w) (Word w)
  | int n => Word.int n
  | wrapped n => .ok (.wrapInt n)
  | code id => Word.codeAddress id
  | raw v => .ok v
  | bool b => .ok (.ofBool b)
  | unit => .ok .unitWord
  | ref offset pair => do
    let r ← Ref.checked offset pair
    return r.word
  | header kind uid fields => do
    let h ← Header.checked kind uid fields
    return h.word

structure Registers (w : Width) where
  entries : List (String × Word w) := []
deriving DecidableEq, Repr

namespace Registers

variable {w : Width}

/-- The word in a register; an unset register is out of bounds. -/
def get (r : Registers w) (name : String) : Except (Trap w) (Word w) :=
  match r.entries.lookup name with
  | some v => .ok v
  | none => .error .bounds

def set (r : Registers w) (name : String) (v : Word w) : Registers w :=
  ⟨(name, v) :: r.entries.filter (·.1 != name)⟩

end Registers

end Trampoline

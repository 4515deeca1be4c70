import Trampoline.Demo.Currying
import Trampoline.Demo.Data
import Trampoline.Demo.Recursion

/-!
The list of sample programs.
-/

namespace Trampoline.Demo

def all : List Demo :=
  [{ name := "toplevel"
     description := "return the integer 789"
     defaultArg := 0
     declare := fun _ _ => Toplevel.declare },
   { name := "sum_loop"
     description := "sum 1..n with a self tail call"
     defaultArg := 1000000
     declare := fun _ n => SumLoop.declare n },
   { name := "fib"
     description := "naive doubly recursive fibonacci"
     defaultArg := 25
     declare := fun _ n => Fib.declare n },
   { name := "curry"
     description := "partial, saturated and over-application of closures"
     defaultArg := 10
     declare := fun _ n => Curry.declare n },
   { name := "list_sum"
     description := "build the list 1..n on the heap and sum it with a case"
     defaultArg := 10000
     declare := fun _ n => ListSum.declare n },
   { name := "pairs"
     description := "build a pair and swap it"
     defaultArg := 10
     declare := fun _ n => Pairs.declare n },
   { name := "equal"
     description := "compare two separately built lists of length n"
     defaultArg := 100
     declare := fun _ n => EqualLists.declare n }]

def find? (name : String) : Option Demo := all.find? (·.name == name)

def program {w : Width} (d : Demo) (n : Int) (journal : Journal w) :
    Except (Fault w ProgramError) (Program (Code w) × Journal w) :=
  (d.declare w n).program journal

end Trampoline.Demo

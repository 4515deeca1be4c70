import Trampoline.Demo.Basic

/-!
A program that applies closures to too few, enough, and too many arguments.

With `add3 a b c = a + b + c` and `adder x = add3 x` it computes
`(add3 n) (2n) (3n) + adder n 1 2`, which is `7n + 3`.
-/

namespace Trampoline.Demo.Curry

open Machine

variable {w : Width}

def add3 : Code w := do
  let ab ← Fixnum.add (← slot 0) (← slot 1)
  ret (← Fixnum.add ab (← slot 2))

def adder (add3 : Function) : Code w := do
  let c ← makeClosure add3 [← slot 0]
  ret c

/-- Temporaries of the frame: `add3`, `adder`, `add3 n`, `add3 n 2n`, and `6n`. -/
def start (n : Int) (add3 adder : Function) (k1 : Label) : Code w := do
  let f ← makeClosure add3 []
  let g ← makeClosure adder []
  pushLocal f
  pushLocal g
  apply f [← int n] k1

def applyResult (n factor : Int) (k : Label) : Code w := do
  let p ← lastResult
  pushLocal p
  apply p [← Fixnum.mul (← int factor) (← int n)] k

def applyAdder (n : Int) (k4 : Label) : Code w := do
  pushLocal (← lastResult)
  let g ← slot 1
  apply g [← int n, ← int 1, ← int 2] k4

def finish : Code w := do
  ret (← Fixnum.add (← slot 4) (← lastResult))

def declare (n : Int) : Declare w Label := do
  let add3Function ← Builder.function "add3" 3 0
  let adderFunction ← Builder.function "adder" 1 (Shape.closure 1).words
  let mainLabel ← Builder.label "main"
  let k1 ← Builder.label "k1"
  let k2 ← Builder.label "k2"
  let k3 ← Builder.label "k3"
  let k4 ← Builder.label "k4"
  Builder.define add3Function add3
  Builder.define adderFunction (adder add3Function)
  Builder.bind mainLabel (2 * (Shape.closure 0).words) (start n add3Function adderFunction k1)
  Builder.bind k1 0 (applyResult n 2 k2)
  Builder.bind k2 0 (applyResult n 3 k3)
  Builder.bind k3 0 (applyAdder n k4)
  Builder.bind k4 0 finish
  return mainLabel

end Trampoline.Demo.Curry

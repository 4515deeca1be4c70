import Trampoline.Demo.Basic

/-!
Programs on integers: a constant, a loop by tail calls, and a double recursion.
-/

namespace Trampoline.Demo

open Machine

variable {w : Width}

namespace Toplevel

def start : Code w := do
  ret (← int 789)

def declare : Declare w Label := do
  let entry ← Builder.label "main"
  Builder.bind entry 0 start
  return entry

end Toplevel

/-! Sum `1 … n` with a loop that calls itself in place of its frame. -/

namespace SumLoop

def start (n : Int) (loop : Label) : Code w := do
  tailCall loop [← int n, ← int 0]

def test (done step : Label) : Code w := do
  branch (← Fixnum.le (← slot 0) (← int 0)) done step

def step (loop : Label) : Code w := do
  let i ← slot 0
  let sum ← slot 1
  tailCall loop [← Fixnum.sub i (← int 1), ← Fixnum.add sum i]

def done : Code w := do
  ret (← slot 1)

def declare (n : Int) : Declare w Label := do
  let mainLabel ← Builder.label "main"
  let loopLabel ← Builder.label "loop"
  let stepLabel ← Builder.label "loop_step"
  let doneLabel ← Builder.label "loop_done"
  Builder.bind mainLabel 0 (start n loopLabel)
  Builder.bind loopLabel 0 (test doneLabel stepLabel)
  Builder.bind stepLabel 0 (step loopLabel)
  Builder.bind doneLabel 0 done
  return mainLabel

end SumLoop

/-! Fibonacci numbers by double recursion. -/

namespace Fib

def start (n : Int) (fib : Label) : Code w := do
  tailCall fib [← int n]

def test (small big : Label) : Code w := do
  branch (← Fixnum.lt (← slot 0) (← int 2)) small big

def small : Code w := do
  ret (← slot 0)

def big (fib k1 : Label) : Code w := do
  call fib [← Fixnum.sub (← slot 0) (← int 1)] k1

/-- The second recursive call, with the first result kept in the frame. -/
def first (fib k2 : Label) : Code w := do
  pushLocal (← lastResult)
  call fib [← Fixnum.sub (← slot 0) (← int 2)] k2

def second : Code w := do
  ret (← Fixnum.add (← slot 1) (← lastResult))

def declare (n : Int) : Declare w Label := do
  let mainLabel ← Builder.label "main"
  let fib ← Builder.function "fib" 1 0
  let smallLabel ← Builder.label "fib_small"
  let bigLabel ← Builder.label "fib_big"
  let k1 ← Builder.label "fib_k1"
  let k2 ← Builder.label "fib_k2"
  Builder.bind mainLabel 0 (start n fib.label)
  Builder.define fib (test smallLabel bigLabel)
  Builder.bind smallLabel 0 small
  Builder.bind bigLabel 0 (big fib.label k1)
  Builder.bind k1 0 (first fib.label k2)
  Builder.bind k2 0 second
  return mainLabel

end Fib

end Trampoline.Demo

import Trampoline.Demo.Basic

/-!
Programs on heap data: a list that is built and summed, a pair that is swapped, and two lists that
are compared.
-/

namespace Trampoline.Demo

open Machine

variable {w : Width}

/-! Build `Cons(1, Cons(2, … Nil))` one cell at a time, then sum it by cases. -/

namespace ListSum

def start (n : Int) (nil : Constructor) (build : Label) : Code w := do
  let empty ← nil.unboxedValue (w := w)
  tailCall build [← int n, empty]

def test (done step : Label) : Code w := do
  branch (← Fixnum.le (← slot 0) (← int 0)) done step

def step (cons : Constructor) (build : Label) : Code w := do
  let i ← slot 0
  let list ← slot 1
  let cell ← construct cons [i, list]
  tailCall build [← Fixnum.sub i (← int 1), cell]

def built (sum : Label) : Code w := do
  tailCall sum [← slot 1, ← int 0]

def sum (c : Case Label) : Code w := do
  select c (← slot 0)

def sumNil : Code w := do
  ret (← slot 1)

def sumCons (sum : Label) : Code w := do
  let list ← slot 0
  let total ← slot 1
  let head ← field list 0
  let tail ← field list 1
  tailCall sum [tail, ← Fixnum.add total head]

def declare (n : Int) : Declare w Label := do
  let nil ← Builder.constructor "Nil" 0 .unboxed
  let cons ← Builder.constructor "Cons" 2 .boxed
  let mainLabel ← Builder.label "main"
  let buildLabel ← Builder.label "build"
  let stepLabel ← Builder.label "build_step"
  let doneLabel ← Builder.label "build_done"
  let sumLabel ← Builder.label "sum"
  let nilLabel ← Builder.label "sum_nil"
  let consLabel ← Builder.label "sum_cons"
  let cases ← Declare.caseOf [.constructor nil nilLabel, .constructor cons consLabel]
  Builder.bind mainLabel 0 (start n nil buildLabel)
  Builder.bind buildLabel (Shape.constructor 2).words (test doneLabel stepLabel)
  Builder.bind stepLabel 0 (step cons buildLabel)
  Builder.bind doneLabel 0 (built sumLabel)
  Builder.bind sumLabel 0 (sum cases)
  Builder.bind nilLabel 0 sumNil
  Builder.bind consLabel 0 (sumCons sumLabel)
  return mainLabel

end ListSum

/-! Build the pair of `n` and its square, show it, and swap it. -/

namespace Pairs

def start (n : Int) (swap : Label) : Code w := do
  let v ← int n
  let square ← Fixnum.mul v v
  let p ← makePair v square
  trace p
  tailCall swap [p]

def swap : Code w := do
  let p ← slot 0
  let a ← snd p
  let b ← fst p
  ret (← makePair a b)

def declare (n : Int) : Declare w Label := do
  let mainLabel ← Builder.label "main"
  let swapLabel ← Builder.label "swap"
  Builder.bind mainLabel 2 (start n swapLabel)
  Builder.bind swapLabel 2 swap
  return mainLabel

end Pairs

/-! Build the list `1 … n` twice and compare the two. -/

namespace EqualLists

def consDown (cons : Constructor) : Nat → Word w → Op w (Word w)
  | 0, list => return list
  | k + 1, list => do
    let cell ← construct cons [← int (k + 1), list]
    consDown cons k cell

def start (length : Nat) (cons nil : Constructor) : Code w := do
  let empty ← nil.unboxedValue (w := w)
  let first ← consDown cons length empty
  let second ← consDown cons length empty
  ret (.ofBool (← equalValues first second))

def declare (n : Int) : Declare w Label := do
  let cons ← Builder.constructor "Cons" 2 .boxed
  let nil ← Builder.constructor "Nil" 0 .unboxed
  let mainLabel ← Builder.label "main"
  let length := n.toNat
  Builder.bind mainLabel (2 * length * (Shape.constructor 2).words) (start length cons nil)
  return mainLabel

end EqualLists

end Trampoline.Demo

import Trampoline.Width
import Trampoline.Decimal.Shortest

/-!
Sizes that a heap and a machine are made with, and when they are acceptable.
-/

namespace Trampoline

/-- Sizes of a heap, in words. -/
structure HeapSettings where
  /-- Capacity at the start. -/
  initialWords : Nat := 0x10000
  /-- Capacity that the heap may grow to. -/
  maxWords : Nat := 0x4000000
  /-- Live share of the capacity above which a collection is followed by growth. -/
  growThreshold : Float := 0.5

structure MachineSettings where
  heap : HeapSettings := {}
  /-- Limit of the stack, in words. -/
  maxStackWords : Nat := 0x100000

/-- Why settings are refused. -/
inductive SettingsError where
  | noInitialWords
  | maxBelowInitial
  | maxNotAddressable
  | thresholdRange
  | stackTooSmall
  | stackNotLinkable
deriving DecidableEq, Repr

def SettingsError.message : SettingsError → String
  | noInitialWords => "initial_words must be > 0"
  | maxBelowInitial => "max_words must be >= initial_words"
  | maxNotAddressable => "max_words exceeds addressable offsets"
  | thresholdRange => "grow_threshold must be between 0.0 and 1.0"
  | stackTooSmall => "max_stack_words must be >= 16"
  | stackNotLinkable => "max_stack_words does not fit a frame link"

/-- The first fault of the heap settings at width `w`. -/
def HeapSettings.validate (w : Width) (s : HeapSettings) : Except SettingsError Unit :=
  if s.initialWords = 0 then .error .noInitialWords
  else if s.maxWords < s.initialWords then .error .maxBelowInitial
  else if w.maxOffset < s.maxWords then .error .maxNotAddressable
  else if 0.0 ≤ s.growThreshold && s.growThreshold ≤ 1.0 then .ok ()
  else .error .thresholdRange

/-- The first fault of the machine settings at width `w`, the heap's before the stack's. -/
def MachineSettings.validate (w : Width) (s : MachineSettings) : Except SettingsError Unit := do
  s.heap.validate w
  if s.maxStackWords < 16 then throw .stackTooSmall
  if w.maxInt < s.maxStackWords then throw .stackNotLinkable

def HeapSettings.describe (s : HeapSettings) : String :=
  "HeapSettings \x7b initial_words: " ++ toString s.initialWords ++
    ", max_words: " ++ toString s.maxWords ++
    ", grow_threshold: " ++ Decimal.ofFloat s.growThreshold ++ " \x7d"

end Trampoline

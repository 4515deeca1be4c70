import Trampoline.Settings
import Trampoline.Word

/-!
Traps and faults.

A trap is a broken contract of the runtime itself: an index outside its bounds, a word used as what
it is not, an allocation outside its reservation. It ends whatever was being done. An error is a
fatal condition of the program that runs, and leaves the machine as it stands.
-/

namespace Trampoline

/-- A broken contract. -/
inductive Trap (w : Width) where
  /-- An index or a size outside its range. -/
  | bounds
  /-- An unboxed value was asked of a constructor with blocks. -/
  | notUnboxed
  | intOverflow (n : Int)
  | notInt (v : Word w)
  | offsetOverflow
  | uidRange
  | fieldCount
  | reservedTag (v : Word w)
  | notBoolean (v : Word w)
  | notArithmetic (v : Word w)
  | heapSettings (e : SettingsError)
  | machineSettings (e : SettingsError)
  | overReservation (words hp limit : Nat)
  | copyTooLong
  | headerOfPair (r : Ref)
  | corruptHeader (r : Ref)
  | truncatedUpward
  | frameSlot (i : Nat)
  | arity
  | tooManyCaptures
  | notReference (v : Word w)
  | fieldOfPair
  | fieldRange (i : Nat)
  | fstOfObject
  | sndOfObject
  | noCode (label : String)
  | stackLeft
deriving DecidableEq, Repr

/-- The words of a trap. Bounds and representation traps have none. -/
def Trap.message {w : Width} : Trap w → Option String
  | bounds => none
  | notUnboxed => none
  | intOverflow n => some ("small integer overflow: " ++ toString n)
  | notInt v => some ("not a small integer: " ++ v.describe)
  | offsetOverflow => some "heap offset overflow"
  | uidRange => some "uid out of range"
  | fieldCount => some "field count out of range"
  | reservedTag v => some ("reserved tag in value " ++ v.hex)
  | notBoolean v => some ("not a boolean: " ++ v.describe)
  | notArithmetic v => some ("arithmetic on " ++ v.describe)
  | heapSettings e => some ("Invalid Heap Settings: \"" ++ e.message ++ "\"")
  | machineSettings e => some ("Invalid Machine Settings: \"" ++ e.message ++ "\"")
  | overReservation words hp limit =>
    some ("allocation of " ++ toString words ++ " words exceeds the reservation (hp " ++
      toString hp ++ ", limit " ++ toString limit ++ ")")
  | copyTooLong => some "assertion failed: prefix <= words"
  | headerOfPair r => some ("pairs carry no header: " ++ r.describe)
  | corruptHeader r => some ("corrupt header at " ++ r.describe)
  | truncatedUpward => some "stack truncated upward"
  | frameSlot i => some ("frame slot " ++ toString i ++ " out of range")
  | arity => some "constructor arity"
  | tooManyCaptures => some "closure captures too many arguments"
  | notReference v => some ("expected a heap reference, got " ++ v.describe)
  | fieldOfPair => some "field access on a pair"
  | fieldRange i => some ("field " ++ toString i ++ " out of range")
  | fstOfObject => some "fst of a non-pair"
  | sndOfObject => some "snd of a non-pair"
  | noCode label => some ("label `" ++ label ++ "` has no code")
  | stackLeft => some "stack not empty at program end"

/-- How an operation ends when it does not return: with an error of type `ε`, with a trap, or not
at all within its allowance of steps. -/
inductive Fault (w : Width) (ε : Type) where
  | error (e : ε)
  | trap (t : Trap w)
  | unfinished
deriving DecidableEq, Repr

/-- Sizes and indices are 64-bit numbers. -/
def sizeRange : Nat := 0x10000000000000000

namespace Size

variable {w : Width}

def add (a b : Nat) : Except (Trap w) Nat :=
  if a + b < sizeRange then .ok (a + b) else .error .bounds

def sub (a b : Nat) : Except (Trap w) Nat :=
  if b ≤ a then .ok (a - b) else .error .bounds

/-- A number of words that room can be made for. -/
def ofWords (n : Nat) : Except (Trap w) Nat :=
  if n ≤ w.maxSpaceWords then .ok n else .error .bounds

/-- A signed number read as a size. -/
def ofInt (n : Int) : Nat := (n % sizeRange).toNat

end Size

end Trampoline

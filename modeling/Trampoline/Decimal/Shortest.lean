/-!
The shortest decimal of a binary floating-point number.

A finite number `m * 2 ^ q` is the nearest one to every real in an interval around it. Its shortest
decimal is the one with the fewest digits in that interval, and of those the nearest.
-/

namespace Trampoline.Decimal

/-- A positive decimal: `0.d₁d₂… * 10 ^ point`, with the digits as one number. -/
structure Digits where
  digits : Nat
  count : Nat
  point : Int
deriving DecidableEq, Repr

/-- The reals that round to a number, as integers over one denominator: the ends, the number
itself, and whether the ends belong to it. -/
structure Interval where
  low : Nat
  value : Nat
  high : Nat
  unit : Nat
  closed : Bool
deriving DecidableEq, Repr

namespace Interval

/-- The interval of `m * 2 ^ q`, where `narrow` says that the neighbour below is half as far away
as the one above. -/
def around (m : Nat) (q : Int) (narrow : Bool) : Interval :=
  let scale := Nat.pow 2 (q - 2).toNat
  { low := (4 * m - if narrow then 1 else 2) * scale
    value := 4 * m * scale
    high := (4 * m + 2) * scale
    unit := Nat.pow 2 (2 - q).toNat
    closed := m % 2 == 0 }

def holds (i : Interval) (c : Nat) (e : Int) : Bool :=
  let x := c * Nat.pow 10 e.toNat * i.unit
  let s := Nat.pow 10 (-e).toNat
  if i.closed then i.low * s ≤ x && x ≤ i.high * s else i.low * s < x && x < i.high * s

/-- The least `point` from `start` on, among the next `tries`, with `value < 10 ^ point`. -/
def pointFrom (i : Interval) (start : Int) : Nat → Int
  | 0 => start
  | tries + 1 =>
    if i.value * Nat.pow 10 (-start).toNat < Nat.pow 10 start.toNat * i.unit then start
    else i.pointFrom (start + 1) tries

/-- The decimal of `count` digits nearest to the value, if one of its two neighbours on that grid
lies in the interval. -/
def atCount? (i : Interval) (point : Int) (count : Nat) : Option Digits :=
  let e := point - count
  let num := i.value * Nat.pow 10 (-e).toNat
  let den := i.unit * Nat.pow 10 e.toNat
  let below := num / den
  let down := i.holds below e
  let up := i.holds (below + 1) e
  if down && (!up || 2 * (num % den) < den) then some ⟨below, count, point⟩
  else if up then some ⟨below + 1, count, point⟩
  else none

/-- Seventeen digits always suffice for a binary64 number. -/
def shortest (i : Interval) : Digits :=
  let point := i.pointFrom (-330) 700
  ((List.range' 1 17).findSome? (i.atCount? point)).getD ⟨0, 1, 1⟩

end Interval

namespace Digits

def trimmed (d : Digits) : List Char :=
  ((Nat.toDigits 10 d.digits).reverse.dropWhile (· == '0')).reverse

def place (d : Digits) : Int := d.point + (Nat.toDigits 10 d.digits).length - d.count

/-- Positional notation, with at least one digit on each side of the point. -/
def positional (d : Digits) : String :=
  let ds := d.trimmed
  let p := d.place
  let whole := ds.take p.toNat ++ List.replicate (p.toNat - ds.length) '0'
  let part := List.replicate (-p).toNat '0' ++ ds.drop p.toNat
  String.ofList (if whole.isEmpty then ['0'] else whole) ++ "." ++
    String.ofList (if part.isEmpty then ['0'] else part)

/-- Scientific notation: one digit before the point, and no point without a digit after it. -/
def scientific (d : Digits) : String :=
  let ds := d.trimmed
  let rest := ds.drop 1
  String.ofList (ds.take 1) ++ (if rest.isEmpty then "" else "." ++ String.ofList rest) ++ "e" ++
    toString (d.place - 1)

/-- Positional from `0.0001` up to below `10 ^ 16`, scientific elsewhere. -/
def text (d : Digits) : String :=
  if -4 < d.place && d.place ≤ 16 then d.positional else d.scientific

end Digits

/-- The text of a binary64 number, from which it can be read back. -/
def ofFloat (x : Float) : String :=
  let bits : Nat := x.toBits.toNat
  let fraction : Nat := bits % 0x10000000000000
  let exponent : Nat := bits / 0x10000000000000 % 2048
  let sign := if bits / 0x8000000000000000 = 1 then "-" else ""
  if exponent = 2047 then
    if fraction = 0 then sign ++ "inf" else "NaN"
  else if exponent = 0 && fraction = 0 then sign ++ "0.0"
  else if exponent = 0 then sign ++ (Interval.around fraction (-1074) false).shortest.text
  else
    sign ++ (Interval.around (fraction + 0x10000000000000) ((exponent : Int) - 1075)
      (fraction = 0 && exponent > 1)).shortest.text

end Trampoline.Decimal

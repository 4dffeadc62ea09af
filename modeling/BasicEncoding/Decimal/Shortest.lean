import BasicEncoding.Binary64

/-! The fewest decimal digits that read back as a binary floating point number. The numbers that
round to a given one form an interval, its ends included when the significand is even. On each
decimal grid, from coarse to fine, only the two neighbours of the number can be the nearest point
inside; the first grid with such a point decides, the nearer neighbour wins, and a tie goes up. -/
namespace BasicEncoding.Decimal

structure Digits where
  digits : Nat
  exponent : Int
  deriving DecidableEq, Repr

namespace Shortest

/-- A number and the ends of its interval in one unit, the quarter of the last place. -/
structure Interval where
  low : Nat
  middle : Nat
  high : Nat
  closed : Bool

/-- The interval of a nonzero finite number. Below the least significand the neighbours are half
as far apart. -/
def interval (significand : Nat) : Interval where
  low := 4 * significand - if significand = 2 ^ 52 then 1 else 2
  middle := 4 * significand
  high := 4 * significand + 2
  closed := significand % 2 = 0

/-- Lengths in a common unit: that of the interval, which is `2 ^ scale`, and that of the grid of
`10 ^ place`. -/
def units (scale place : Int) : Nat × Nat :=
  (2 ^ scale.toNat * 10 ^ (-place).toNat, 10 ^ place.toNat * 2 ^ (-scale).toNat)

def Interval.contains (i : Interval) (unit point : Nat) : Bool :=
  if i.closed then i.low * unit ≤ point ∧ point ≤ i.high * unit
  else i.low * unit < point ∧ point < i.high * unit

def onGrid? (i : Interval) (scale place : Int) : Option Nat :=
  let (unit, step) := units scale place
  let below := i.middle * unit / step
  let down := i.contains unit (below * step)
  let up := i.contains unit ((below + 1) * step)
  if down && up then
    some (if 2 * (i.middle * unit) < (2 * below + 1) * step then below else below + 1)
  else if down then some below
  else if up then some (below + 1)
  else none

/-- Tries ever finer grids. Seventeen digits always suffice, so the count does not run out. -/
def search (i : Interval) (scale : Int) : Nat → Int → Digits
  | 0, place => ⟨0, place⟩
  | n + 1, place =>
    match onGrid? i scale place with
    | some digits => ⟨digits, place⟩
    | none => search i scale n (place - 1)

/-- A place at or above the leading digit of a number below `2 ^ (exponent + 1)`. -/
def firstPlace (exponent : Int) : Int :=
  (exponent + 1) * 30103 / 100000 + 2

end Shortest

def shortest (x : Binary64) : Digits :=
  Shortest.search (Shortest.interval x.significand) (x.scale - 2) 24
    (Shortest.firstPlace x.exponent)

/-- All digits written out, with a point only where some stand behind it. -/
def Digits.positional (d : Digits) : String :=
  let shown := toString d.digits
  let behind := (-d.exponent).toNat
  if 0 ≤ d.exponent then shown ++ String.ofList (List.replicate d.exponent.toNat '0')
  else if behind < shown.length then
    let whole := shown.length - behind
    String.ofList (shown.toList.take whole) ++ "." ++ String.ofList (shown.toList.drop whole)
  else "0." ++ String.ofList (List.replicate (behind - shown.length) '0') ++ shown

/-- One digit before the point, and the exponent behind an `e`. -/
def Digits.scientific (d : Digits) : String :=
  match (toString d.digits).toList with
  | [] => ""
  | first :: rest =>
    String.ofList (if rest.isEmpty then [first] else first :: '.' :: rest) ++ "e" ++
      toString (d.exponent + rest.length)

end Decimal

namespace Binary64

def render (form : Decimal.Digits → String) (x : Binary64) : String :=
  if x.isNaN then "NaN"
  else
    (if x.isNegative then "-" else "") ++
      if x.isInfinite then "inf" else if x.isZero then form ⟨0, 0⟩ else form (Decimal.shortest x)

def text : Binary64 → String :=
  render Decimal.Digits.positional

def scientificText : Binary64 → String :=
  render Decimal.Digits.scientific

end Binary64

end BasicEncoding

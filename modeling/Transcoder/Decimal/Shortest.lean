/-!
# The shortest decimal of a binary fraction

A binary fraction stands for all numbers that round to it. `shortest` gives a decimal among them
with the fewest digits, and of those the nearest: it tries one digit, two digits and so on, and on
each decimal grid only the two neighbours of the value can be nearest. All arithmetic is exact.
-/
namespace Transcoder.Decimal

/-- A number between two ends, all over one denominator. -/
structure Span where
  low : Nat
  value : Nat
  high : Nat
  denominator : Nat
  /-- The ends belong to it. -/
  closed : Bool
  deriving DecidableEq, Repr

namespace Span

/-- The numbers that round to a finite double with these bits: up to half way to its neighbours.
The neighbour below a power of two is nearer. -/
def ofBits (bits : UInt64) : Span :=
  let exponent := bits.toNat >>> 52 % 2048
  let fraction := bits.toNat % (1 <<< 52)
  let m := if exponent = 0 then fraction else 1 <<< 52 + fraction
  let below := if fraction = 0 ∧ 1 < exponent then 1 else 2
  let shift := max exponent 1 - 1
  ⟨(4 * m - below) <<< shift, (4 * m) <<< shift, (4 * m + 2) <<< shift, 1 <<< 1076, m % 2 = 0⟩

/-- The span in units of `10 ^ s`. -/
def inUnits (x : Span) (s : Int) : Span :=
  { x with
    low := x.low * Nat.pow 10 (-s).toNat
    value := x.value * Nat.pow 10 (-s).toNat
    high := x.high * Nat.pow 10 (-s).toNat
    denominator := x.denominator * Nat.pow 10 s.toNat }

/-- The whole number `d` lies in the span. -/
def has (x : Span) (d : Nat) : Bool :=
  if x.closed then x.low ≤ d * x.denominator && d * x.denominator ≤ x.high
  else x.low < d * x.denominator && d * x.denominator < x.high

/-- The whole number nearest to the value among those in the span; halves go to the even one. -/
def whole? (x : Span) : Option Nat :=
  let d := x.value / x.denominator
  match x.has d, x.has (d + 1) with
  | false, false => none
  | true, false => some d
  | false, true => some (d + 1)
  | true, true =>
    let half := (2 * d + 1) * x.denominator
    some (if 2 * x.value < half ∨ 2 * x.value = half ∧ d % 2 = 0 then d else d + 1)

/-- The exponent of the leading decimal digit of a positive value. -/
def magnitude (x : Span) : Int :=
  if x.denominator ≤ x.value then (Nat.toDigits 10 (x.value / x.denominator)).length - 1
  else -(Nat.toDigits 10 ((x.denominator - 1) / x.value)).length

/-- Digits `d` and an exponent `s` such that `d * 10 ^ s` lies in the span, with as few digits as
possible. Seventeen always suffice for a double. -/
def shortest (x : Span) : Nat × Int :=
  ((List.range 17).findSome? fun (n : Nat) =>
    let s := x.magnitude - (n : Int)
    (x.inUnits s).whole?.map fun d => (d, s)).getD (0, 0)

end Span

end Transcoder.Decimal

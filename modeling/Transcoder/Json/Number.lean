import Transcoder.Decimal.Shortest

/-!
# The numbers of JSON texts

A number without fraction and exponent is kept exactly if it fits 64 bits. All others become
doubles: the leading digits that fit 64 bits are converted and then scaled by one power of ten.
-/
namespace Transcoder.Json

/-- A number of a JSON text. -/
inductive Number where
  /-- A natural number below `2 ^ 64`. -/
  | natural (n : Nat)
  /-- The number `-n`, where `n` is from 1 to `2 ^ 63`. -/
  | negative (n : Nat)
  | double (x : Float)

/-- How a number is spelled: its sign and the digits of its parts. -/
structure Numeral where
  negative : Bool
  whole : List Nat
  fraction : List Nat := []
  /-- The exponent's sign, set where it is negative, and its digits. -/
  exponent : Option (Bool × List Nat) := none

namespace Numeral

/-- The significand with one digit more, if it fits 64 bits. -/
def append? (significand digit : Nat) : Option Nat :=
  if significand * 10 + digit < UInt64.size then some (significand * 10 + digit) else none

/-- The significand with the digits behind it that fit, and how many do not. -/
def absorb (significand : Nat) : List Nat → Nat × Nat
  | [] => (significand, 0)
  | d :: rest =>
    match append? significand d with
    | some significand => absorb significand rest
    | none => (significand, rest.length + 1)

/-- The exponent that the digits say; `none` from `2 ^ 31` on. -/
def exponentOf? (digits : List Nat) : Option Nat :=
  digits.foldl (fun e d => e.bind fun e => if e * 10 + d < UInt32.size / 2 then some (e * 10 + d) else none)
    (some 0)

/-- The double nearest to `10 ^ n`. -/
def powerOfTen (n : Nat) : Float := Float.ofScientific 1 false n

/-- A double scaled by a power of ten, `none` where that is too large. Very small powers are
applied in steps. -/
def scale (x : Float) (exponent : Int) : Option Float :=
  if exponent < -308 then
    if x == 0 then some x else scale (x / powerOfTen 308) (exponent + 308)
  else if exponent < 0 then some (x / powerOfTen (-exponent).toNat)
  else if exponent ≤ 308 then
    let y := x * powerOfTen exponent.toNat
    if y.isInf then none else some y
  else if x == 0 then some x
  else none
termination_by (-exponent).toNat
decreasing_by omega

/-- The double of a significand times a power of ten, with a sign. -/
def double? (negative : Bool) (significand : Nat) (exponent : Int) : Option Number :=
  (scale (UInt64.ofNat significand).toFloat exponent).map fun x =>
    .double (if negative then -x else x)

/-- The number that a numeral spells; `none` where it is too large. -/
def number? (n : Numeral) : Option Number :=
  let (significand, above) := absorb 0 n.whole
  if above = 0 ∧ n.fraction = [] ∧ n.exponent = none then
    if !n.negative then some (.natural significand)
    else if 0 < significand ∧ significand ≤ UInt64.size / 2 then some (.negative significand)
    else double? true significand 0
  else
    let (significand, left) := absorb significand n.fraction
    let start : Int := above - (n.fraction.length - left : Nat)
    match n.exponent with
    | none => double? n.negative significand start
    | some (down, digits) =>
      match exponentOf? digits with
      | some e => double? n.negative significand (if down then start - e else start + e)
      | none => if significand = 0 ∨ down then double? n.negative 0 0 else none

end Numeral

namespace Number

/-- Digits with a point behind the first `n`, and a zero where nothing follows. -/
def pointAfter (n : Nat) (digits : List Char) : List Char :=
  let padded := digits ++ List.replicate (n - digits.length) '0'
  padded.take n ++ '.' :: (if padded.length = n then ['0'] else padded.drop n)

/-- An exponent with its sign. -/
def exponentText (e : Int) : List Char :=
  (if e < 0 then '-' else '+') :: Nat.toDigits 10 e.natAbs

/-- A decimal: positional where the exponent of the leading digit is from -5 to 15, else with an
exponent. -/
def decimalText (digits : List Char) (leading : Int) : List Char :=
  if 0 ≤ leading ∧ leading ≤ 15 then pointAfter (leading.toNat + 1) digits
  else if -5 ≤ leading ∧ leading < 0 then
    '0' :: '.' :: (List.replicate ((-leading).toNat - 1) '0' ++ digits)
  else
    digits.take 1 ++ (if digits.length ≤ 1 then [] else '.' :: digits.drop 1) ++
      'e' :: exponentText leading

/-- A finite double in as few digits as tell it from all others. -/
def doubleText (x : Float) : String :=
  let sign := if UInt64.size / 2 ≤ x.toBits.toNat then "-" else ""
  if x == 0 then sign ++ "0.0"
  else
    let (d, s) := (Decimal.Span.ofBits x.toBits).shortest
    let digits := Nat.toDigits 10 d
    let kept := (digits.reverse.dropWhile (· == '0')).reverse
    sign ++ String.ofList (decimalText kept (s + digits.length - 1))

/-- How a number is written. -/
def text : Number → String
  | natural n => toString n
  | negative n => "-" ++ toString n
  | double x => doubleText x

end Number

end Transcoder.Json

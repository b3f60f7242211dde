/-!
# Hexadecimal text

Digits are lower case.
-/
namespace Transcoder.Text

/-- The hexadecimal digit of a number below 16. -/
def hexDigit (n : Nat) : Char := Nat.digitChar (n % 16)

/-- A number in hexadecimal, with zeros in front up to `width` digits. -/
def hexNat (width n : Nat) : String :=
  let digits := Nat.toDigits 16 n
  String.ofList (List.replicate (width - digits.length) '0' ++ digits)

/-- The two digits of a byte. -/
def hexByte (b : UInt8) : List Char := [hexDigit (b.toNat / 16), hexDigit b.toNat]

/-- Bytes, two digits each. -/
def hexBytes (bytes : List UInt8) : String := String.ofList (bytes.flatMap hexByte)

end Transcoder.Text

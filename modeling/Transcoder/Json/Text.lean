/-!
# The texts inside JSON

A JSON text writes some characters by the 16-bit units that encode them. A unit of a surrogate pair
alone is no character.
-/
namespace Transcoder.Json

/-- A character as it stands in a JSON text, or a unit written by its number. -/
inductive Piece where
  | char (c : Char)
  | unit (n : Nat)
  deriving DecidableEq, Repr

namespace Piece

/-- The unit begins a surrogate pair. -/
def leads (n : Nat) : Bool := 0xD800 ≤ n && n < 0xDC00

/-- The unit ends a surrogate pair. -/
def trails (n : Nat) : Bool := 0xDC00 ≤ n && n < 0xE000

/-- The characters of some pieces; `none` where half of a pair stands alone. -/
def characters? : List Piece → Option (List Char)
  | [] => some []
  | char c :: rest => (characters? rest).map (c :: ·)
  | unit n :: unit m :: rest =>
    if leads n then
      if trails m then
        (characters? rest).map (Char.ofNat (0x10000 + (n - 0xD800) * 0x400 + (m - 0xDC00)) :: ·)
      else none
    else if trails n then none
    else (characters? (unit m :: rest)).map (Char.ofNat n :: ·)
  | unit n :: rest =>
    if leads n || trails n then none else (characters? rest).map (Char.ofNat n :: ·)

end Piece

/-- The value of a hexadecimal digit. -/
def hexValue? (c : Char) : Option Nat :=
  if '0' ≤ c ∧ c ≤ '9' then some (c.toNat - '0'.toNat)
  else if 'a' ≤ c ∧ c ≤ 'f' then some (c.toNat - 'a'.toNat + 10)
  else if 'A' ≤ c ∧ c ≤ 'F' then some (c.toNat - 'A'.toNat + 10)
  else none

/-- The character that a backslash before `c` stands for. -/
def escaped? : Char → Option Char
  | '"' => some '"'
  | '\\' => some '\\'
  | '/' => some '/'
  | 'b' => some '\x08'
  | 'f' => some '\x0c'
  | 'n' => some '\n'
  | 'r' => some '\r'
  | 't' => some '\t'
  | _ => none

/-- The pieces of a text up to its closing quote, and what follows that. -/
def scanText : List Char → Option (List Piece × List Char)
  | [] => none
  | '"' :: rest => some ([], rest)
  | '\\' :: 'u' :: a :: b :: c :: d :: rest => do
    let n := (← hexValue? a) * 4096 + (← hexValue? b) * 256 + (← hexValue? c) * 16 + (← hexValue? d)
    let (pieces, rest) ← scanText rest
    return (.unit n :: pieces, rest)
  | '\\' :: c :: rest => do
    let c ← escaped? c
    let (pieces, rest) ← scanText rest
    return (.char c :: pieces, rest)
  | c :: rest => do
    if c = '\\' ∨ c < ' ' then none
    let (pieces, rest) ← scanText rest
    return (.char c :: pieces, rest)

end Transcoder.Json

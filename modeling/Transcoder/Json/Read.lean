import Transcoder.Json.Number
import Transcoder.Json.Text

/-!
# Reading JSON

A text is read for the one field of its outermost object that is asked for. The value of that field
is read with all care: containers may stand in one another 127 deep, texts must be characters, and
numbers must not be too large. The other fields only have to be JSON; nobody looks at them.
-/
namespace Transcoder

/-- A value of a JSON text. Objects keep the order of their fields, and fields of equal names. -/
inductive Json where
  | null
  | bool (b : Bool)
  | number (n : Json.Number)
  | string (s : String)
  | array (items : List Json)
  | object (fields : List (String × Json))

namespace Json

/-- How a value is read: with care, when so many more containers may be opened, or skipped. -/
inductive Care where
  | levels (n : Nat)
  | skipped
  deriving DecidableEq, Repr

/-- The care for what stands inside a container; `none` where no more may be opened. -/
def Care.inside? : Care → Option Care
  | levels 0 => none
  | levels (n + 1) => some (levels n)
  | skipped => some skipped

/-- With care, something must be there; what is skipped may be anything. -/
def Care.require {α : Type} (care : Care) (fallback : α) (found : Option α) : Option α :=
  match care with
  | levels _ => found
  | skipped => some (found.getD fallback)

/-- The deepest nesting of containers, the outermost one counted. -/
def maxDepth : Nat := 127

/-- The text without white space in front. -/
def skipBlanks (cs : List Char) : List Char :=
  cs.dropWhile fun c => c == ' ' || c == '\t' || c == '\n' || c == '\r'

/-- The text behind a mark, which may have white space in front. -/
def after? (mark : Char) (cs : List Char) : Option (List Char) :=
  match skipBlanks cs with
  | c :: rest => if c = mark then some rest else none
  | [] => none

/-! ## Numbers and texts -/

/-- The digits in front of a text, and the rest. -/
def scanDigits (cs : List Char) : List Nat × List Char :=
  ((cs.takeWhile Char.isDigit).map fun c => c.toNat - '0'.toNat, cs.dropWhile Char.isDigit)

/-- One digit or more. -/
def scanDigits? (cs : List Char) : Option (List Nat × List Char) :=
  if (scanDigits cs).1.isEmpty then none else some (scanDigits cs)

/-- The digits before the point: one zero, or no zero in front. -/
def scanWhole? (cs : List Char) : Option (List Nat × List Char) := do
  let (digits, rest) ← scanDigits? cs
  if digits.head? = some 0 ∧ 1 < digits.length then none
  return (digits, rest)

/-- A point and the digits behind it, or nothing. -/
def scanFraction? : List Char → Option (List Nat × List Char)
  | '.' :: rest => scanDigits? rest
  | cs => some ([], cs)

/-- An exponent, or nothing. -/
def scanExponent? : List Char → Option (Option (Bool × List Nat) × List Char)
  | 'e' :: rest | 'E' :: rest =>
    match rest with
    | '-' :: rest => (scanDigits? rest).map fun (digits, rest) => (some (true, digits), rest)
    | '+' :: rest => (scanDigits? rest).map fun (digits, rest) => (some (false, digits), rest)
    | rest => (scanDigits? rest).map fun (digits, rest) => (some (false, digits), rest)
  | cs => some (none, cs)

/-- A number behind its sign. -/
def scanUnsigned? (negative : Bool) (cs : List Char) : Option (Numeral × List Char) := do
  let (whole, rest) ← scanWhole? cs
  let (fraction, rest) ← scanFraction? rest
  let (exponent, rest) ← scanExponent? rest
  return (⟨negative, whole, fraction, exponent⟩, rest)

/-- A number. -/
def scanNumeral? : List Char → Option (Numeral × List Char)
  | '-' :: rest => scanUnsigned? true rest
  | cs => scanUnsigned? false cs

/-- A text behind its opening quote. -/
def readText (care : Care) (cs : List Char) : Option (String × List Char) := do
  let (pieces, rest) ← scanText cs
  let characters ← care.require [] (Piece.characters? pieces)
  return (String.ofList characters, rest)

/-! ## Values -/

mutual

/-- A value in front of a text, and the rest. -/
def readValue (care : Care) : (fuel : Nat) → List Char → Option (Json × List Char)
  | 0, _ => none
  | fuel + 1, cs =>
    match skipBlanks cs with
    | 'n' :: 'u' :: 'l' :: 'l' :: rest => some (.null, rest)
    | 't' :: 'r' :: 'u' :: 'e' :: rest => some (.bool true, rest)
    | 'f' :: 'a' :: 'l' :: 's' :: 'e' :: rest => some (.bool false, rest)
    | '"' :: rest => (readText care rest).map fun (s, rest) => (.string s, rest)
    | '[' :: rest => do
      let inside ← care.inside?
      match after? ']' rest with
      | some rest => return (.array [], rest)
      | none =>
        let (items, rest) ← readItems inside fuel rest
        return (.array items, rest)
    | '\x7b' :: rest => do
      let inside ← care.inside?
      match after? '\x7d' rest with
      | some rest => return (.object [], rest)
      | none =>
        let (fields, rest) ← readFields inside fuel rest
        return (.object fields, rest)
    | cs => do
      let (numeral, rest) ← scanNumeral? cs
      let n ← care.require (.natural 0) numeral.number?
      return (.number n, rest)

/-- The items of an array, from one of them on, and what follows its end. -/
def readItems (care : Care) : (fuel : Nat) → List Char → Option (List Json × List Char)
  | 0, _ => none
  | fuel + 1, cs => do
    let (item, rest) ← readValue care fuel cs
    match after? ',' rest with
    | some rest =>
      let (items, rest) ← readItems care fuel rest
      return (item :: items, rest)
    | none => return ([item], ← after? ']' rest)

/-- The fields of an object, from one of them on, and what follows its end. -/
def readFields (care : Care) : (fuel : Nat) → List Char → Option (List (String × Json) × List Char)
  | 0, _ => none
  | fuel + 1, cs => do
    let (name, rest) ← readText care (← after? '"' cs)
    let (value, rest) ← readValue care fuel (← after? ':' rest)
    match after? ',' rest with
    | some rest =>
      let (fields, rest) ← readFields care fuel rest
      return ((name, value) :: fields, rest)
    | none => return ([(name, value)], ← after? '\x7d' rest)

end

/-! ## Texts with one field -/

/-- The care for the field that is asked for, one level inside the text. -/
def wanted : Care := .levels (maxDepth - 1)

/-- The values of the fields called `name`, from one field of the outermost object on. -/
def readNamed (name : String) (full : Nat) :
    (fuel : Nat) → List Char → Option (List Json × List Char)
  | 0, _ => none
  | fuel + 1, cs => do
    let (key, rest) ← readText wanted (← after? '"' cs)
    let (value, rest) ← readValue (if key = name then wanted else .skipped) full (← after? ':' rest)
    let found := if key = name then [value] else []
    match after? ',' rest with
    | some rest =>
      let (more, rest) ← readNamed name full fuel rest
      return (found ++ more, rest)
    | none => return (found, ← after? '\x7d' rest)

/-- What a text holds for the field called `name`: the values of that name in an object, or the
items of an array, which stands for an object. -/
def readRecord (name : String) (cs : List Char) : Option (List Json × List Char) :=
  let fuel := 2 * cs.length + 2
  match skipBlanks cs with
  | '\x7b' :: rest =>
    match after? '\x7d' rest with
    | some rest => some ([], rest)
    | none => readNamed name fuel fuel rest
  | '[' :: rest =>
    match after? ']' rest with
    | some rest => some ([], rest)
    | none => readItems wanted fuel rest
  | _ => none

/-- The value of the field called `name` in a text that holds exactly one. -/
def field? (name text : String) : Option Json := do
  let (found, rest) ← readRecord name text.toList
  match found, skipBlanks rest with
  | [value], [] => some value
  | _, _ => none

end Json

end Transcoder

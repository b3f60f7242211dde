import Transcoder.Text.Extending
import Transcoder.Text.Hex
import Transcoder.Text.Unprintable

/-!
# Quoted text

A quoted text can be read without doubt: quotes and backslashes are marked, and characters that do
not show, or that would change the character before them, are written by number.
-/
namespace Transcoder.Text

/-- The character lies in one of the runs. -/
def inRuns (runs : Array (Nat × Nat)) (c : Char) : Bool :=
  runs.any fun (first, last) => first ≤ c.toNat && c.toNat ≤ last

/-- The character is written as it is. -/
def plain (c : Char) : Bool :=
  c == ' ' || !inRuns unprintable c && !inRuns extending c

/-- A character inside quotes. -/
def quoteChar (c : Char) : List Char :=
  match c with
  | '\x00' => ['\\', '0']
  | '\t' => ['\\', 't']
  | '\n' => ['\\', 'n']
  | '\r' => ['\\', 'r']
  | '"' => ['\\', '"']
  | '\\' => ['\\', '\\']
  | c =>
    if plain c then [c]
    else ['\\', 'u', '\x7b'] ++ Nat.toDigits 16 c.toNat ++ ['\x7d']

/-- A text in quotes. -/
def quote (s : String) : String := String.ofList ('"' :: s.toList.flatMap quoteChar ++ ['"'])

end Transcoder.Text

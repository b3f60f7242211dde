/-!
# Text in columns

Widths count characters; text wider than its column is not cut.
-/
namespace Transcoder.Text

/-- Text at the left end of a column. -/
def padRight (width : Nat) (s : String) : String :=
  s ++ String.ofList (List.replicate (width - s.length) ' ')

/-- Text at the right end of a column. -/
def padLeft (width : Nat) (s : String) : String :=
  String.ofList (List.replicate (width - s.length) ' ') ++ s

/-- The first `width` characters of a text. -/
def cut (width : Nat) (s : String) : String := String.ofList (s.toList.take width)

end Transcoder.Text

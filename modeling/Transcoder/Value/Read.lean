import Transcoder.Cursor.Reader
import Transcoder.Schema.Node
import Transcoder.Value.Partial

/-!
# Reading values

A value is read byte by byte into a `PartialValue`. `resume` keeps what it has read when the stream
stops it; `readValue` reads a whole value or leaves the reader where it was.
-/
namespace Transcoder

/-- Why a value or a block cannot be read. -/
inductive DecodeError where
  /-- A node of that kind has no encoding of its own. -/
  | unsupported (tag : NodeTag)
  /-- A block that ends at `expected` was left at `actual`. -/
  | blockUnderrun (expected actual : Position)
  | stream (cause : StreamError)
  deriving DecidableEq, Repr

namespace DecodeError

/-- The error only says that more input is needed (`DecodeError.is_suspension`). -/
def suspends : DecodeError → Bool
  | stream cause => cause.suspends
  | _ => false

/-- The wording of each cause. -/
def message : DecodeError → String
  | unsupported tag => s!"unsupported format: no read primitive for {tag}"
  | blockUnderrun expected actual =>
    s!"block ends at {expected} but reading stopped at {actual}"
  | stream cause => cause.message

end DecodeError

namespace Cursor

/-- Reads on until the value is complete or the stream stops it (`ReadStream.resume_value`); what
was read is kept in the reader and the partial value. -/
def resume (t : Tape) (c : Reader) (p : PartialValue) :
    Except StreamError UInt64 × Reader × PartialValue :=
  match c.readByte t with
  | (.error e, c) => (.error e, c, p)
  | (.ok b, c) =>
    match h : p.feed b with
    | (.error e, p) => (.error e, c, p)
    | (.ok (some w), p) => (.ok w, c, p)
    | (.ok none, p') =>
      have := PartialValue.remaining_lt_of_feed h
      resume t c p'
termination_by p.remaining

/-- Reads a value of the kind (`ReadStream.read_kind`); a reader that fails has not moved. -/
def readValue (c : Reader) (t : Tape) (kind : IntKind) : Except DecodeError (UInt64 × Reader) :=
  match c.resume t (.start kind) with
  | (.ok w, c, _) => .ok (w, c)
  | (.error e, _, _) => .error (.stream e)

/-- Reads a value as a node says (`ReadStream.read_value`); only value nodes have an encoding. -/
def readNode (c : Reader) (t : Tape) (node : Node) : Except DecodeError (UInt64 × Reader) :=
  match node.valueKind? with
  | some kind => c.readValue t kind
  | none => .error (.unsupported node.tag)

/-- Reads the size of a block (`ReadStream.read_block_size`): a `varuint32`, padded or not. -/
def readSize (c : Reader) (t : Tape) : Except DecodeError (Nat × Reader) :=
  (c.readValue t .varuint32).map fun (w, c) => (w.toNat, c)

end Cursor

end Transcoder

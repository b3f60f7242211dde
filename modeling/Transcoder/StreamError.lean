import Transcoder.Position

/-!
# What can go wrong on a byte stream

One cause is no failure: `notAvailable` says that the byte may still arrive, so a caller that can
wait asks `suspends` before it gives up.
-/
namespace Transcoder

/-- Causes raised by tapes, cursors and the LEB128 codec (`WireError`). -/
inductive StreamError where
  /-- No chunk among the first `limit` ended the number. -/
  | varintTooLong (limit : Nat)
  /-- The number needs more than `bits` bits. -/
  | varintOverflow (bits : Nat)
  /-- A slice of `length` bytes ended inside a number. -/
  | sliceEnded (length : Nat)
  /-- The tape is broken, or the page of `address` was released. -/
  | brokenCursor (address : Nat)
  /-- An access at `at_` would cross the block end `stop`. -/
  | pastBlockEnd (at_ stop : Position)
  /-- The byte at `address` has not arrived yet. -/
  | notAvailable (address : Nat)
  /-- A read at or past the fixed end of the stream. -/
  | endOfStream (address : Nat)
  /-- A write at or past the fixed end `eof` of the stream. -/
  | writeAfterEnd (address eof : Nat)
  /-- The end is fixed at `eof` and cannot be fixed elsewhere. -/
  | endAlreadyFixed (eof requested : Nat)
  /-- The end cannot be fixed below the `fill` bytes that are there. -/
  | endBeforeFill (requested fill : Nat)
  /-- No block is left to leave. -/
  | noEnclosingBlock
  /-- A bit operation on a byte cursor. -/
  | bitCursorRequired
  /-- `address` lies outside the page it was looked up in, or is none at all, and the program
  stops. -/
  | outsidePage (address : Nat)
  deriving DecidableEq, Repr

namespace StreamError

/-- The error only says that more input is needed (`WireError.is_suspension`). -/
def suspends : StreamError → Bool
  | notAvailable _ => true
  | _ => false

/-- The error is a malformed LEB128 number (`WireError.is_malformed`). -/
def malformed : StreamError → Bool
  | varintTooLong _ | varintOverflow _ => true
  | _ => false

/-- The wording of each cause. -/
def message : StreamError → String
  | varintTooLong limit => s!"varint too long: exceeded {limit}-byte limit"
  | varintOverflow bits => s!"varint overflows {bits}-bit target"
  | sliceEnded length => s!"unexpected end of input at offset {length}"
  | brokenCursor address => s!"broken cursor at address {address}"
  | pastBlockEnd at_ stop => s!"access at {at_} is past end of block {stop}"
  | notAvailable address => s!"byte {address} not yet available"
  | endOfStream address => s!"end of stream at {address}"
  | writeAfterEnd address eof => s!"write at {address} beyond frozen eof {eof}"
  | endAlreadyFixed eof requested =>
    s!"eof already frozen at {eof}, cannot move it to {requested}"
  | endBeforeFill requested fill =>
    s!"cannot freeze eof at {requested}: {fill} bytes already committed"
  | noEnclosingBlock => "no enclosing block to return to"
  | bitCursorRequired => "operation requires a Bit cursor"
  | outsidePage address => s!"address {address} is outside the page"

end StreamError

end Transcoder

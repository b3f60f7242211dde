import Transcoder.Value.Read

/-!
# Reading blocks

Entering a block makes its end the innermost end of the reader, so nothing inside reads past it;
leaving asks that the reader stands exactly there.
-/
namespace Transcoder

/-- The place of a block's body (`EnteredBlock`). -/
structure Extent where
  bodyStart : Nat
  stop : Position
  deriving DecidableEq, Repr

namespace Extent

/-- The length of the body (`EnteredBlock.size`). -/
def size (e : Extent) : Nat := e.stop.byte - e.bodyStart

end Extent

namespace Cursor

/-- Enters a block whose `size` bytes start at the reader (`BlockReader.enter_sized`); no body
reaches past the largest address. -/
def enterSized (c : Reader) (t : Tape) (size : Nat) : Except DecodeError (Extent × Reader) :=
  let stop := Position.ofByte (min (c.address + size) (UInt64.size - 1))
  match c.pushBound t stop with
  | .ok c => .ok (⟨c.address, stop⟩, c)
  | .error e => .error (.stream e)

/-- Reads the size of a block and enters it (`BlockReader.enter`); a reader that fails has not
moved. -/
def enter (c : Reader) (t : Tape) : Except DecodeError (Extent × Reader) := do
  let (size, c) ← c.readSize t
  c.enterSized t size

/-- Leaves the block, at its end (`BlockReader.leave`). -/
def leave (c : Reader) (t : Tape) (e : Extent) : Except DecodeError Reader :=
  if c.position = e.stop then
    match c.popBound t with
    | .ok c => .ok c
    | .error cause => .error (.stream cause)
  else .error (.blockUnderrun e.stop c.position)

end Cursor

end Transcoder

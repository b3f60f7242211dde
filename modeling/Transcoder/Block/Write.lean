import Transcoder.Value.Write

/-!
# Writing blocks

A block is a size and a body of that many bytes. The size is not known when the block is begun, so
a header of fixed width is reserved for it, the body is written, and the header is overwritten. A
framing that minimizes gives the header its shortest form instead and moves the body up to it.
-/
namespace Transcoder

/-- A begun block (`OpenBlock`): a writer on its header, which holds the header's page, and the
header's width. -/
structure OpenHeader where
  cursor : Writer
  reserved : Nat
  deriving DecidableEq, Repr

namespace OpenHeader

/-- The address of the header (`OpenBlock.start`). -/
def start (h : OpenHeader) : Nat := h.cursor.address

/-- The address of the body (`OpenBlock.body_start`). -/
def bodyStart (h : OpenHeader) : Nat := h.start + h.reserved

end OpenHeader

/-- How block headers are written (`BlockWriter`). -/
structure Framing where
  /-- The width of a reserved header, in chunks. -/
  reserved : Nat := Leb128.chunksInWord 32
  /-- Headers get their shortest form when the block is finished. -/
  minimize : Bool := false
  deriving DecidableEq, Repr

/-- The length of a body that ends at `stop`, behind a header of `reserved` bytes at `start`
(`WriteStream.block_size`). Where a writer has gone back before the body, 0 stands for a machine
word that runs below zero. -/
def bodySize (start stop reserved : Nat) : Nat := stop - (start + reserved)

/-- Runs an action of another writer on the same tape; the result has that writer beside it. -/
def Writing.through {ε α : Type} (c : Writer) (act : Writing ε α) : Writing ε (α × Writer) :=
  fun (t, pos) =>
    match act (t, c) with
    | .ok a (t, c) => .ok (a, c) (t, pos)
    | .error e (t, _) => .error e (t, pos)

namespace Framing

/-- A framing whose headers have at least one chunk (`BlockWriter.with_reserved_chunks`). -/
def withReserved (f : Framing) (chunks : Nat) : Framing := { f with reserved := max chunks 1 }

/-- Reserves a header at the writer and goes behind it (`BlockWriter.begin`). -/
def beginBlock (f : Framing) : Writing EncodeError OpenHeader := fun (t, c) =>
  match Cursor.writePaddedSize 0 f.reserved (t, c) with
  | .ok () s => .ok ⟨c, f.reserved⟩ s
  | .error e s => .error e s

/-- Moves the writer to byte `address`. -/
def seekTo (address : Nat) : Writing EncodeError Unit := fun (t, c) =>
  .ok () (t, c.seek t address)

/-- Cuts the tape off at `address`. -/
def truncateAt (address : Nat) : Writing EncodeError Unit := fun (t, c) =>
  match t.truncate address with
  | .ok t => .ok () (t, c)
  | .error e => .error (.stream e) (t, c)

/-- Writes the size of a block whose body ends at the writer, and gives it (`BlockWriter.finish`).
Both ways of writing it refuse the sizes that the reserved header cannot say. -/
def finishBlock (f : Framing) (h : OpenHeader) : Writing EncodeError Nat := do
  let size := bodySize h.start (← get).2.address h.reserved
  if f.minimize then
    discard <| Writing.through h.cursor (Cursor.writePaddedSize size h.reserved)
    let ((), header) ← Writing.through h.cursor (Cursor.writeSize size)
    if header.address < h.bodyStart then
      let ((), header) ← Writing.through header (Cursor.moveBlock h.bodyStart size)
      truncateAt header.address
      seekTo header.address
    return size
  else
    discard <| Writing.through h.cursor (Cursor.writePaddedSize size h.reserved)
    return size

end Framing

end Transcoder

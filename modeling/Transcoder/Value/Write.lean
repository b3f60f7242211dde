import Transcoder.Cursor.Reader
import Transcoder.Cursor.Writer
import Transcoder.Schema.Node

/-!
# Writing values and sizes

A value that is refused leaves the writer where it was and the fill address as it was. The fields
that frame a block, `writePaddedSize` and `writeSize`, go byte by byte and stop where they are
refused.
-/
namespace Transcoder

/-- Why a value or a block cannot be written. -/
inductive EncodeError where
  /-- A node of that kind has no encoding of its own. -/
  | unsupported (tag : NodeTag)
  /-- The word is no value of the kind. -/
  | valueOutOfRange (kind : IntKind) (word : UInt64)
  /-- The size is above what its header can say. -/
  | blockTooLarge (size limit : Nat)
  | stream (cause : StreamError)
  deriving DecidableEq, Repr

namespace EncodeError

/-- The wording of each cause. -/
def message : EncodeError → String
  | unsupported tag => s!"unsupported format: no write primitive for {tag}"
  | valueOutOfRange kind word =>
    "value 0x" ++ Text.hexNat 1 word.toNat ++ s!" does not fit {kind}"
  | blockTooLarge size limit =>
    s!"block body exceeds maximum size ({size} bytes, limit {limit})"
  | stream cause => cause.message

end EncodeError

/-- The low `n` bytes of a number, lowest first. -/
def littleEndian : (n v : Nat) → List UInt8
  | 0, _ => []
  | n + 1, v => UInt8.ofNat (v % 256) :: littleEndian n (v / 256)

/-- The largest size that a header of `reserved` chunks can say, as far as sizes go
(`header_limit`). -/
def headerLimit (reserved : Nat) : Nat :=
  if 64 ≤ 7 * reserved then UInt64.size - 1 else 1 <<< (7 * reserved) - 1

namespace Cursor

/-- Writes the bytes of a value and stops where one is refused (`stage_kind`). -/
def stageValue (kind : IntKind) (w : UInt64) : Writing StreamError Unit :=
  match kind.form? with
  | none => writeBytes (littleEndian kind.maxLength w.toNat)
  | some form => Leb128.emit writeByte form w

/-- Writes the bytes of a value, or none of them. -/
def stageWhole (kind : IntKind) (w : UInt64) : Writing StreamError Unit := fun (t, c) =>
  wholly t.fill (fun _ _ => c) (stageValue kind w (t, c))

/-- Writes a value of the kind, or nothing (`WriteStream.write_kind`). -/
def writeValue (kind : IntKind) (w : UInt64) : Writing EncodeError Unit :=
  if kind.fits w then (stageWhole kind w).mapError .stream
  else throw (.valueOutOfRange kind w)

/-- Writes a value as a node says (`WriteStream.write_value`); only value nodes have an encoding. -/
def writeNode (node : Node) (w : UInt64) : Writing EncodeError Unit :=
  match node.valueKind? with
  | some kind => writeValue kind w
  | none => throw (.unsupported node.tag)

/-- Writes a size in exactly `reserved` chunks (`WriteStream.write_fixed_block_size`). -/
def writePaddedSize (size reserved : Nat) : Writing EncodeError Unit :=
  if headerLimit reserved < size then throw (.blockTooLarge size (headerLimit reserved))
  else (Leb128.emitPadded writeByte reserved size).mapError .stream

/-- Writes a size in as few chunks as it takes (`WriteStream.write_varint_block_size`). -/
def writeSize (size : Nat) : Writing EncodeError Unit :=
  Writing.mapError .stream ((Leb128.unsigned size).forM writeByte)

/-- Copies `size` bytes, read by `source`, to the writer. -/
def copyFrom : (size : Nat) → (source : Reader) → Writing StreamError Unit
  | 0, _ => pure ()
  | n + 1, source => fun (t, c) =>
    match source.readByte t with
    | (.error e, _) => .error e (t, c)
    | (.ok b, source) =>
      match writeByte b (t, c) with
      | .error e s => .error e s
      | .ok () s => copyFrom n source s

/-- Copies `size` written bytes from `start` on to the writer (`WriteStream.move_block`). -/
def moveBlock (start size : Nat) : Writing EncodeError Unit := fun (t, c) =>
  Writing.mapError .stream (copyFrom size (readerOver c start)) (t, c)

end Cursor

end Transcoder

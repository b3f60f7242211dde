import Transcoder.Leb128.Encode

/-!
# The integer kinds of a stream

Every value travels as a 64-bit word; signed kinds use the two's complement word of the number.
-/
namespace Transcoder

/-- How an integer stands in a stream (`ValueKind`): its width, its sign and its encoding. -/
inductive IntKind where
  | uint8
  | uint32
  | uint64
  | varint32
  | varint64
  | varuint32
  | varuint64
  | fixedVaruint32
  | fixedVaruint64
  deriving DecidableEq, Repr

namespace IntKind

/-- Every kind, in the order of the opcodes (`ValueKind.ALL`). -/
def all : List IntKind :=
  [uint8, uint32, uint64, varint32, varint64, varuint32, varuint64, fixedVaruint32, fixedVaruint64]

/-- The name of a kind in manifests, value lists and messages (`ValueKind.name`). -/
def name : IntKind → String
  | uint8 => "uint8"
  | uint32 => "uint32"
  | uint64 => "uint64"
  | varint32 => "varint32"
  | varint64 => "varint64"
  | varuint32 => "varuint32"
  | varuint64 => "varuint64"
  | fixedVaruint32 => "fixed_varuint32"
  | fixedVaruint64 => "fixed_varuint64"

instance : ToString IntKind := ⟨name⟩

/-- The kind of that name (`ValueKind.from_name`). -/
def ofName? (s : String) : Option IntKind := all.find? (·.name == s)

/-- Bits of the values that the kind holds (`ValueKind.bit_width`). -/
def width : IntKind → Nat
  | uint8 => 8
  | uint32 | varint32 | varuint32 | fixedVaruint32 => 32
  | uint64 | varint64 | varuint64 | fixedVaruint64 => 64

/-- The kind holds negative numbers (`ValueKind.is_signed`). -/
def signed : IntKind → Bool
  | varint32 | varint64 => true
  | _ => false

/-- The kind is written as LEB128 (`ValueKind.is_leb128`); the others are little-endian of fixed
width. -/
def leb128 : IntKind → Bool
  | uint8 | uint32 | uint64 => false
  | _ => true

/-- The longest encoding of a value of the kind, in bytes (`ValueKind.max_encoded_len`). -/
def maxLength (k : IntKind) : Nat :=
  if k.leb128 then Leb128.chunksInWord k.width else k.width / 8

/-- The word is a value of the kind (`ValueKind.fits`). -/
def fits (k : IntKind) (w : UInt64) : Bool :=
  if k.signed then
    let half : Int := (1 <<< (k.width - 1) : Nat)
    decide (-half ≤ w.toInt64.toInt ∧ w.toInt64.toInt < half)
  else decide (w.toNat < 1 <<< k.width)

/-- The LEB128 form of the kind's encoding; `none` for the little-endian kinds. -/
def form? : IntKind → Option Leb128.Form
  | uint8 | uint32 | uint64 => none
  | varint32 | varint64 => some .signed
  | varuint32 | varuint64 => some .unsigned
  | fixedVaruint32 => some (.padded (Leb128.chunksInWord 32))
  | fixedVaruint64 => some (.padded (Leb128.chunksInWord 64))

theorem maxLength_pos (k : IntKind) : 0 < k.maxLength := by cases k <;> decide

end IntKind

end Transcoder

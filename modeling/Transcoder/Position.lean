/-!
# Positions in a byte stream

A position is the number of bits before it, so the order of positions is the order of the stream
and a bit position is a byte position with an offset of 0 to 7 bits.
-/
namespace Transcoder

/-- How finely a cursor moves (`StreamKind`): by whole bytes, or by single bits. -/
inductive Grain where
  | byte
  | bit
  deriving DecidableEq, Repr

/-- A stream position (`BitAddress`): the number of bits before it, counting each byte from its most
significant bit. -/
structure Position where
  bits : Nat
  deriving DecidableEq, Repr

namespace Position

/-- The start of byte `n` (`BitAddress.from_byte`). -/
def ofByte (n : Nat) : Position := ⟨8 * n⟩

/-- The position `bit` bits into byte `byte` (`BitAddress.new`); eight bits or more carry into the
byte. -/
def ofBit (byte bit : Nat) : Position := ⟨8 * byte + bit⟩

/-- The byte that the position lies in (`BitAddress.byte`). -/
def byte (p : Position) : Nat := p.bits / 8

/-- Bits of that byte before the position, 0 to 7 (`BitAddress.bit`). -/
def bit (p : Position) : Nat := p.bits % 8

/-- A position is aligned when it lies between two bytes (`BitAddress.is_byte_aligned`). -/
def aligned (p : Position) : Bool := p.bit == 0

/-- The first byte boundary at or after the position (`BitAddress.ceil_byte`). -/
def ceilByte (p : Position) : Nat := (p.bits + 7) / 8

/-- The end of a stream whose end is not known yet (`BitAddress.MAX`): the largest 64-bit byte
address. -/
def unbounded : Position := ofByte (UInt64.size - 1)

instance : LE Position := ⟨fun p q => p.bits ≤ q.bits⟩
instance : LT Position := ⟨fun p q => p.bits < q.bits⟩
instance (p q : Position) : Decidable (p ≤ q) := inferInstanceAs (Decidable (p.bits ≤ q.bits))
instance (p q : Position) : Decidable (p < q) := inferInstanceAs (Decidable (p.bits < q.bits))

/-- The byte, with the bit after a colon where it is not 0. -/
def text (p : Position) : String :=
  if p.bit = 0 then toString p.byte else toString p.byte ++ ":" ++ toString p.bit

instance : ToString Position := ⟨text⟩

theorem le_def {p q : Position} : p ≤ q ↔ p.bits ≤ q.bits := Iff.rfl
theorem lt_def {p q : Position} : p < q ↔ p.bits < q.bits := Iff.rfl

@[simp] theorem byte_ofByte (n : Nat) : (ofByte n).byte = n := by simp [ofByte, byte]
@[simp] theorem bit_ofByte (n : Nat) : (ofByte n).bit = 0 := by simp [ofByte, bit]
theorem bit_lt (p : Position) : p.bit < 8 := Nat.mod_lt _ (by decide)
theorem bits_eq (p : Position) : p.bits = 8 * p.byte + p.bit := (Nat.div_add_mod ..).symm

end Position

end Transcoder

/-!
# LEB128: writing numbers in chunks of seven bits

A number is cut into chunks of seven bits, lowest first; every chunk but the last has the top bit
of its byte set. A shortest encoding stops at the first chunk that leaves nothing to say, a padded
one after a given number of chunks.

The step equations `unsigned_of_lt`, `unsigned_of_le`, `signed_of_small` and `signed_of_large` are
what later proofs unfold by.
-/
namespace Transcoder.Leb128

/-- Chunks that hold a word of `bits` bits (`chunks_in_word`). -/
def chunksInWord (bits : Nat) : Nat := (bits + 6) / 7

/-- A byte that carries the lowest chunk of `v` and says that more follow. -/
def continued (v : Nat) : UInt8 := UInt8.ofNat (128 + v % 128)

/-- The shortest encoding of a natural number. -/
def unsigned (v : Nat) : List UInt8 :=
  if v < 128 then [UInt8.ofNat v] else continued v :: unsigned (v / 128)
termination_by v
decreasing_by omega

/-- The shortest encoding of an integer whose last chunk shows the sign in its sixth bit. -/
def signed (v : Int) : List UInt8 :=
  if -64 ≤ v ∧ v < 64 then [UInt8.ofNat (v % 128).toNat]
  else continued (v % 128).toNat :: signed (v / 128)
termination_by v.natAbs
decreasing_by omega

/-- How an encoding ends (`Termination`). -/
inductive Form where
  /-- Shortest, for the number that the word is. -/
  | unsigned
  /-- Shortest, for the two's complement number that the word is. -/
  | signed
  /-- Exactly `chunks` chunks, and one where `chunks` is 0. -/
  | padded (chunks : Nat)
  deriving DecidableEq, Repr

section Emit

variable {m : Type → Type} [Monad m] (put : UInt8 → m Unit)

/-- Puts `v` in exactly `chunks` chunks, one byte at a time; bits beyond them are lost. -/
def emitPadded : (chunks v : Nat) → m Unit
  | 0, v | 1, v => put (UInt8.ofNat (v % 128))
  | n + 2, v => do
    put (continued v)
    emitPadded (n + 1) (v / 128)

/-- Puts a 64-bit word in the given form, one byte at a time (`emit_leb128`). -/
def emit : Form → UInt64 → m Unit
  | .unsigned, w => (unsigned w.toNat).forM put
  | .signed, w => (signed w.toInt64.toInt).forM put
  | .padded chunks, w => emitPadded put chunks w.toNat

end Emit

/-- Puts a byte into a buffer with room for `room` bytes; a full buffer refuses the byte. -/
def putWithin (room : Nat) (b : UInt8) : EStateM UInt8 (Array UInt8) Unit := fun buf =>
  if buf.size < room then .ok () (buf.push b) else .error b buf

/-- The bytes put by `emit` into a buffer with room for `room` bytes, or the byte that the full
buffer refused (`encode_into`). -/
def encodeWithin (room : Nat) (form : Form) (w : UInt64) :
    EStateM.Result UInt8 (Array UInt8) Unit :=
  emit (putWithin room) form w #[]

theorem unsigned_of_lt {v : Nat} (h : v < 128) : unsigned v = [UInt8.ofNat v] := by
  rw [unsigned, if_pos h]

theorem unsigned_of_le {v : Nat} (h : 128 ≤ v) : unsigned v = continued v :: unsigned (v / 128) := by
  rw [unsigned, if_neg (by omega)]

theorem signed_of_small {v : Int} (h : -64 ≤ v ∧ v < 64) :
    signed v = [UInt8.ofNat (v % 128).toNat] := by
  rw [signed, if_pos h]

theorem signed_of_large {v : Int} (h : ¬(-64 ≤ v ∧ v < 64)) :
    signed v = continued (v % 128).toNat :: signed (v / 128) := by
  rw [signed, if_neg h]

end Transcoder.Leb128

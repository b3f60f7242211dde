import Transcoder.Leb128.Encode
import Transcoder.StreamError

/-!
# LEB128: reading numbers one byte at a time

An accumulator holds what is known of a number between two bytes, so a number may be cut anywhere.
When a number is complete or refused, the accumulator is empty again.
-/
namespace Transcoder.Leb128

/-- The seven bits of the number that a byte carries. -/
def payload (b : UInt8) : Nat := b.toNat % 128

/-- The top bit of a byte says that the number goes on. -/
def continues (b : UInt8) : Bool := 128 ≤ b.toNat

/-- A number of at most `bits` bits in the making (`Leb128Accumulator`): `value` is what the first
`count` chunks say. -/
structure Accumulator where
  bits : Nat
  signed : Bool
  value : Nat := 0
  count : Nat := 0
  deriving DecidableEq, Repr

namespace Accumulator

/-- An empty accumulator (`Leb128Accumulator.with_sign`); widths outside 1 to 64 go to the nearer
end. -/
def ofWidth (signed : Bool) (bits : Nat) : Accumulator := ⟨max 1 (min bits 64), signed, 0, 0⟩

/-- The most chunks that a number of this width takes (`Leb128Accumulator.max_chunks`). -/
def maxChunks (a : Accumulator) : Nat := chunksInWord a.bits

/-- Forgets the number in the making (`Leb128Accumulator.reset`). -/
def reset (a : Accumulator) : Accumulator := { a with value := 0, count := 0 }

/-- The last chunk sets no bit beyond the width; of a signed number, those bits repeat the sign. -/
def fits (a : Accumulator) (chunk : Nat) : Bool :=
  let room := a.bits - 7 * a.count
  if room < 7 then
    if a.signed then
      let top := chunk >>> (room - 1)
      top == 0 || top == 127 >>> (room - 1)
    else chunk >>> room == 0
  else true

/-- The number that ends with `chunk`; the sixth bit of a signed number's last chunk is its sign. -/
def finish (a : Accumulator) (chunk : Nat) : Int :=
  let borrow := if a.signed ∧ 64 ≤ chunk then 1 <<< (7 * a.count + 7) else 0
  (a.value + chunk <<< (7 * a.count) : Nat) - (borrow : Nat)

/-- Takes one byte (`Leb128Accumulator.feed`). The result is the number, as a two's complement word,
when the byte ends it. -/
def feed (a : Accumulator) (b : UInt8) : Except StreamError (Option UInt64) × Accumulator :=
  if continues b then
    if a.maxChunks ≤ a.count + 1 then (.error (.varintTooLong a.maxChunks), a.reset)
    else
      (.ok none,
        { a with value := a.value + payload b <<< (7 * a.count), count := a.count + 1 })
  else if a.fits (payload b) then
    (.ok (some (UInt64.ofInt (a.finish (payload b)))), a.reset)
  else (.error (.varintOverflow a.bits), a.reset)

/-- A byte leaves the number unfinished only when it counts below the limit. -/
theorem count_lt_of_feed {a a' : Accumulator} {b : UInt8} (h : a.feed b = (.ok none, a')) :
    a'.count = a.count + 1 ∧ a.count + 1 < a.maxChunks ∧ a'.maxChunks = a.maxChunks := by
  unfold feed at h
  split at h
  · split at h
    · simp at h
    · simp only [Prod.mk.injEq, true_and] at h
      subst h
      exact ⟨rfl, by omega, rfl⟩
  · split at h <;> simp at h

end Accumulator

/-- The number at the front of `bytes` and how many bytes it takes (`decode_with`); `seen` bytes
came before. -/
def decodeFrom (a : Accumulator) (seen : Nat) : List UInt8 → Except StreamError (UInt64 × Nat)
  | [] => .error (.sliceEnded seen)
  | b :: rest =>
    match a.feed b with
    | (.error e, _) => .error e
    | (.ok (some v), _) => .ok (v, seen + 1)
    | (.ok none, a) => decodeFrom a (seen + 1) rest

/-- The 64-bit number at the front of `bytes` and how many bytes it takes (`decode_varint`,
`decode_signed_varint`). -/
def decode (signed : Bool) (bytes : List UInt8) : Except StreamError (UInt64 × Nat) :=
  decodeFrom (.ofWidth signed 64) 0 bytes

end Transcoder.Leb128

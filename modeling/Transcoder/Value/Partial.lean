import Transcoder.IntKind
import Transcoder.Leb128.Accumulator

/-!
# Values in the making

A partial value holds the bytes of a value that were read so far, so a read that runs out of input
goes on where it stopped. `remaining_lt_of_feed` says that it takes finitely many bytes.
-/
namespace Transcoder

/-- What is known of a value of some kind (`ValueAccumulator`). -/
inductive PartialValue where
  /-- The first `count` bytes of a little-endian value say `value`. -/
  | fixed (kind : IntKind) (value count : Nat)
  | leb128 (kind : IntKind) (acc : Leb128.Accumulator)
  deriving DecidableEq, Repr

namespace PartialValue

/-- Nothing read yet (`ValueAccumulator.new`). -/
def start (kind : IntKind) : PartialValue :=
  if kind.leb128 then .leb128 kind (.ofWidth kind.signed kind.width) else .fixed kind 0 0

def kind : PartialValue → IntKind
  | fixed kind .. | leb128 kind _ => kind

/-- Bytes read of the value (`ValueAccumulator.bytes_consumed`). -/
def consumed : PartialValue → Nat
  | fixed _ _ count => count
  | leb128 _ acc => acc.count

/-- Takes one byte (`ValueAccumulator.feed`). The result is the value when the byte ends it; the
next byte starts anew. -/
def feed (p : PartialValue) (b : UInt8) : Except StreamError (Option UInt64) × PartialValue :=
  match p with
  | fixed kind value count =>
    if count + 1 < kind.maxLength then
      (.ok none, fixed kind (value + b.toNat <<< (8 * count)) (count + 1))
    else (.ok (some (UInt64.ofNat (value + b.toNat <<< (8 * count)))), fixed kind 0 0)
  | leb128 kind acc => ((acc.feed b).1, leb128 kind (acc.feed b).2)

/-- A bound on the bytes that the value still takes after the next one. -/
def remaining : PartialValue → Nat
  | fixed kind _ count => kind.maxLength - count
  | leb128 _ acc => acc.maxChunks - acc.count

/-- Every byte that does not end the value brings its end nearer. -/
theorem remaining_lt_of_feed {p p' : PartialValue} {b : UInt8} (h : p.feed b = (.ok none, p')) :
    p'.remaining < p.remaining := by
  cases p with
  | fixed kind value count =>
    simp only [feed] at h
    split at h
    · simp only [Prod.mk.injEq, true_and] at h
      subst h
      simp only [remaining]
      omega
    · simp at h
  | leb128 kind acc =>
    simp only [feed, Prod.mk.injEq] at h
    obtain ⟨hr, rfl⟩ := h
    have h' := @Leb128.Accumulator.count_lt_of_feed acc (acc.feed b).2 b (Prod.ext hr rfl)
    simp only [remaining, h'.1, h'.2.2]
    omega

end PartialValue

end Transcoder

import Transcoder.Leb128.Accumulator
import Transcoder.Proofs.Leb128.Bytes

/-!
# What an accumulator takes for a number

The check on the last chunk of a number looks at the bits of that chunk alone. It is no narrower and
no wider than it should be: a number passes when the width can say it, and only then.

Results:
* `fits_iff`: the check on the last chunk, in terms of the number as a whole.
* `Fair.feed`, `Fair.finish`: what is true of a number in the making, and once it is made.
-/
namespace Transcoder.Leb128

/-- The numbers of so many bits, with or without a sign. -/
def InRange (signed : Bool) (bits : Nat) (n : Int) : Prop :=
  if signed then -(1 <<< (bits - 1) : Nat) ≤ n ∧ n < (1 <<< (bits - 1) : Nat)
  else 0 ≤ n ∧ n < (1 <<< bits : Nat)

theorem inRange_natCast {bits n : Nat} : InRange false bits n ↔ n < 1 <<< bits := by
  rw [InRange, if_neg Bool.false_ne_true, Int.ofNat_lt]
  exact and_iff_right (Int.natCast_nonneg n)

theorem one_shiftLeft_pos (n : Nat) : 0 < 1 <<< n := by
  rw [Nat.one_shiftLeft]
  exact Nat.two_pow_pos n

theorem one_shiftLeft_add (m n : Nat) : 1 <<< (m + n) = (1 <<< m) * (1 <<< n) := by
  rw [Nat.one_shiftLeft, Nat.one_shiftLeft, Nat.one_shiftLeft, Nat.pow_add]

theorem one_shiftLeft_le {m n : Nat} (h : m ≤ n) : 1 <<< m ≤ 1 <<< n := by
  rw [Nat.one_shiftLeft, Nat.one_shiftLeft]
  exact Nat.pow_le_pow_right (by decide) h

theorem shiftLeft_eq_mul (v n : Nat) : v <<< n = v * (1 <<< n) := by
  rw [Nat.one_shiftLeft, Nat.shiftLeft_eq]

/-- Whatever is below the lowest digit, the digits decide. -/
theorem scaled_lt {v x : Nat} {s h : Int} (hv : v < x) : (v : Int) + s * x < h * x ↔ s < h := by
  have hx : (0 : Int) < x := by omega
  constructor
  · intro hlt
    apply Int.lt_of_not_ge
    intro hle
    have := Int.mul_le_mul_of_nonneg_right hle (Int.le_of_lt hx)
    omega
  · intro hlt
    have := Int.mul_le_mul_of_nonneg_right (Int.add_one_le_of_lt hlt) (Int.le_of_lt hx)
    rw [Int.add_mul, Int.one_mul] at this
    omega

theorem le_scaled {v x : Nat} {s h : Int} (hv : v < x) : h * x ≤ (v : Int) + s * x ↔ h ≤ s := by
  rw [← Int.not_lt, ← Int.not_lt, scaled_lt hv]

/-- What the last chunk of a number says: its sixth bit is the sign of a signed number. -/
def lastDigit (signed : Bool) (chunk : Nat) : Int :=
  if signed ∧ 64 ≤ chunk then chunk - 128 else chunk

namespace Accumulator

variable {a a' : Accumulator} {b : UInt8} {chunk : Nat}

/-- The weight of the next chunk. -/
def weight (a : Accumulator) : Nat := 1 <<< (7 * a.count)

/-- A number in the making: more chunks are left for it, and it says no more than the bits so far. -/
structure Fair (a : Accumulator) : Prop where
  count_lt : a.count < a.maxChunks
  value_lt : a.value < a.weight

theorem fair_ofWidth (signed : Bool) (bits : Nat) : (ofWidth signed bits).Fair := by
  refine ⟨?_, Nat.one_pos⟩
  show 0 < (max 1 (min bits 64) + 6) / 7
  omega

theorem Fair.room (h : a.Fair) : 7 * a.count < a.bits := by
  have := h.count_lt
  unfold maxChunks chunksInWord at this
  omega

theorem finish_eq (a : Accumulator) (chunk : Nat) :
    a.finish chunk = a.value + lastDigit a.signed chunk * a.weight := by
  have hx : 1 <<< (7 * a.count + 7) = 128 * a.weight := one_shiftLeft_seven_mul_succ a.count
  unfold finish lastDigit
  rw [shiftLeft_eq_mul chunk]
  change ((a.value + chunk * a.weight : Nat) : Int) - _ = _
  by_cases hs : a.signed = true ∧ 64 ≤ chunk
  · rw [if_pos hs, if_pos hs, hx, Int.sub_mul]
    push_cast
    omega
  · rw [if_neg hs, if_neg hs]
    push_cast
    omega

/-- The last chunk alone, against the bits that are left for it. -/
theorem fits_iff_lastDigit (hroom : 7 * a.count < a.bits) (hc : chunk < 128) :
    a.fits chunk = true ↔ InRange a.signed (a.bits - 7 * a.count) (lastDigit a.signed chunk) := by
  obtain ⟨room, hr⟩ : ∃ room, room = a.bits - 7 * a.count := ⟨_, rfl⟩
  have hpos : 0 < room := by omega
  simp only [fits, InRange, lastDigit, ← hr]
  by_cases hsmall : room < 7
  · rw [if_pos hsmall]
    -- six widths are left, and the chunk is cut off by a shift of known length
    have hcases : room = 1 ∨ room = 2 ∨ room = 3 ∨ room = 4 ∨ room = 5 ∨ room = 6 := by omega
    cases a.signed
    · obtain rfl | rfl | rfl | rfl | rfl | rfl := hcases <;>
        simp only [Bool.false_eq_true, if_false, beq_iff_eq, Nat.shiftRight_eq_div_pow,
          Nat.reducePow, Nat.reduceShiftLeft] <;> omega
    · obtain rfl | rfl | rfl | rfl | rfl | rfl := hcases <;>
        simp [Nat.shiftRight_eq_div_pow] <;> split <;> omega
  · rw [if_neg hsmall]
    have h7 : 128 ≤ 1 <<< room := one_shiftLeft_le (m := 7) (by omega)
    have h6 : 64 ≤ 1 <<< (room - 1) := one_shiftLeft_le (m := 6) (by omega)
    generalize 1 <<< room = limit at h7 ⊢
    generalize 1 <<< (room - 1) = half at h6 ⊢
    cases a.signed
    · simp only [Bool.false_eq_true, false_and, if_false, true_iff]
      omega
    · simp only [if_true, true_and, true_iff]
      split <;> omega

/-- The number passes when its width can say it. -/
theorem fits_iff (h : a.Fair) (hc : chunk < 128) :
    a.fits chunk = true ↔ InRange a.signed a.bits (a.finish chunk) := by
  have hroom := h.room
  have hv := h.value_lt
  rw [fits_iff_lastDigit hroom hc, finish_eq]
  unfold InRange
  cases a.signed
  · have hw : 1 <<< a.bits = 1 <<< (a.bits - 7 * a.count) * a.weight := by
      rw [weight, ← one_shiftLeft_add, Nat.sub_add_cancel (Nat.le_of_lt hroom)]
    have h0 := le_scaled (s := lastDigit false chunk) (h := 0) hv
    simp only [Bool.false_eq_true, if_false, hw, Int.natCast_mul, scaled_lt hv]
    rw [← h0, Int.zero_mul]
  · have hw : 1 <<< (a.bits - 1) = 1 <<< (a.bits - 7 * a.count - 1) * a.weight := by
      rw [weight, ← one_shiftLeft_add]
      congr 1
      omega
    simp only [if_true, hw, Int.natCast_mul, scaled_lt hv]
    rw [← Int.neg_mul, le_scaled hv]

/-! ## One byte -/

theorem payload_lt (b : UInt8) : payload b < 128 := Nat.mod_lt _ (by decide)

theorem feed_of_continues (hb : continues b = true) (hc : a.count + 1 < a.maxChunks) :
    a.feed b = (.ok none, ⟨a.bits, a.signed, a.value + payload b * a.weight, a.count + 1⟩) := by
  rw [feed, if_pos hb, if_neg (by omega), shiftLeft_eq_mul]
  rfl

theorem feed_of_last (hb : continues b = false) (hf : a.fits (payload b) = true) :
    a.feed b = (.ok (some (.ofInt (a.finish (payload b)))), a.reset) := by
  rw [feed, if_neg (by simp [hb]), if_pos hf]

theorem bits_of_feed (a : Accumulator) (b : UInt8) :
    (a.feed b).2.bits = a.bits ∧ (a.feed b).2.signed = a.signed := by
  unfold feed
  split
  · split <;> exact ⟨rfl, rfl⟩
  · split <;> exact ⟨rfl, rfl⟩

/-- An accumulator that has finished or refused a number is as good as new. -/
theorem Fair.reset (h : a.Fair) : a.reset.Fair := ⟨Nat.zero_lt_of_lt h.count_lt, Nat.one_pos⟩

/-- A byte leaves a number in the making, or none. -/
theorem Fair.feed (h : a.Fair) (b : UInt8) : (a.feed b).2.Fair := by
  unfold Accumulator.feed
  split
  · split
    · exact h.reset
    · rename_i hc
      refine ⟨by simp only [maxChunks] at hc ⊢; omega, ?_⟩
      show a.value + payload b <<< (7 * a.count) < 1 <<< (7 * (a.count + 1))
      have hp := Nat.mul_le_mul_right a.weight (Nat.le_of_lt_succ (payload_lt b))
      have hv := h.value_lt
      rw [shiftLeft_eq_mul, one_shiftLeft_seven_mul_succ]
      change a.value + payload b * a.weight < 128 * a.weight
      omega
  · split <;> exact h.reset

/-- A byte does not continue a number that it ends. -/
theorem continues_of_feed {w : UInt64} (hf : a.feed b = (.ok (some w), a')) :
    continues b = false := by
  unfold Accumulator.feed at hf
  split at hf
  · split at hf <;> simp at hf
  · rename_i hb
    simpa using hb

/-- The word of a finished number is that of a number that its width can say. -/
theorem Fair.finish (h : a.Fair) {w : UInt64} (hf : a.feed b = (.ok (some w), a')) :
    ∃ n, InRange a.signed a.bits n ∧ w = .ofInt n := by
  unfold Accumulator.feed at hf
  split at hf
  · split at hf <;> simp at hf
  · split at hf
    · rename_i hfit
      simp only [Prod.mk.injEq, Except.ok.injEq, Option.some.injEq] at hf
      exact ⟨_, (fits_iff h (payload_lt b)).1 hfit, hf.1.symm⟩
    · simp at hf

end Accumulator

end Transcoder.Leb128

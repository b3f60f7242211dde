import Transcoder.Proofs.Value.Completing

/-!
# An accumulator in machine words

On a machine the number in the making is a 64-bit word, and a chunk gets into it by a shift and a
disjunction. A shift by as many bits as the word has, and a difference below zero, have no meaning
there: here they are `none`. They do not come up, and what is shifted out of the word is what no
number of the width has.

Results:
* `Registers.feed?_eq`: a byte does in machine words what it does to the accumulator.
-/
namespace Transcoder.Leb128

/-- A shift to the left, where the word is wide enough for it. -/
def shiftLeft? (w : UInt64) (n : Nat) : Option UInt64 :=
  if n < 64 then some (w <<< UInt64.ofNat n) else none

/-- A shift of a chunk to the right, where a byte is wide enough for it. -/
def shiftRight? (chunk : UInt8) (n : Nat) : Option UInt8 :=
  if n < 8 then some (chunk >>> UInt8.ofNat n) else none

/-- A difference that is not below zero. -/
def minus? (m n : Nat) : Option Nat := if n ≤ m then some (m - n) else none

/-- The state of an accumulator: the number so far as a word, and where the next chunk goes. -/
structure Registers where
  bits : Nat
  signed : Bool
  value : UInt64 := 0
  shift : Nat := 0
  count : Nat := 0
  deriving DecidableEq, Repr

namespace Registers

/-- Forgets the number in the making. -/
def reset (r : Registers) : Registers := { r with value := 0, shift := 0, count := 0 }

/-- Whether the bits of the last chunk beyond the `allowed` ones may be dropped. -/
def fits? (r : Registers) (allowed : Nat) (chunk : UInt8) : Option Bool :=
  if 7 ≤ allowed then some true
  else if r.signed then do
    let below ← minus? allowed 1
    let top ← shiftRight? chunk below
    let ones ← shiftRight? 0x7F below
    return top == 0 || top == ones
  else do
    let rest ← shiftRight? chunk allowed
    return rest == 0

/-- The word with the last chunk in it, and all bits above if its sign says so. -/
def finish? (r : Registers) (chunk : UInt8) : Option UInt64 := do
  let part ← shiftLeft? chunk.toUInt64 r.shift
  let width := r.shift + 7
  if r.signed ∧ width < 64 ∧ chunk &&& 0x40 ≠ 0 then
    let above ← shiftLeft? (.ofNat (UInt64.size - 1)) width
    return r.value ||| part ||| above
  else return r.value ||| part

/-- Takes one byte, unless that needs a shift that is too wide or a difference below zero. -/
def feed? (r : Registers) (b : UInt8) :
    Option (Except StreamError (Option UInt64) × Registers) := do
  let chunk := b &&& 0x7F
  let limit := chunksInWord r.bits
  if b &&& 0x80 ≠ 0 then
    if limit ≤ r.count + 1 then return (.error (.varintTooLong limit), r.reset)
    else
      let part ← shiftLeft? chunk.toUInt64 r.shift
      return (.ok none,
        { r with value := r.value ||| part, shift := r.shift + 7, count := r.count + 1 })
  else
    let allowed ← minus? r.bits r.shift
    if ← r.fits? allowed chunk then
      let word ← r.finish? chunk
      return (.ok (some word), r.reset)
    else return (.error (.varintOverflow r.bits), r.reset)

/-- The words that an accumulator is kept in. -/
def ofAccumulator (a : Accumulator) : Registers :=
  ⟨a.bits, a.signed, .ofNat a.value, 7 * a.count, a.count⟩

end Registers

/-! ## Bytes -/

theorem and_128 : ∀ n < 256, n &&& 128 = 0 ↔ n < 128 := by decide +kernel

theorem and_64 : ∀ n < 128, n &&& 64 = 0 ↔ n < 64 := by decide +kernel

/-- The chunk of a byte. -/
theorem toNat_chunk (b : UInt8) : (b &&& 0x7F).toNat = payload b := by
  rw [UInt8.toNat_and]
  exact Nat.and_two_pow_sub_one_eq_mod _ 7

theorem continues_iff (b : UInt8) : continues b = true ↔ b &&& 0x80 ≠ 0 := by
  have h := and_128 b.toNat b.toNat_lt
  rw [continues, decide_eq_true_iff, ne_eq, ← UInt8.toNat_inj, UInt8.toNat_and]
  exact ⟨fun hb hz => Nat.not_lt.2 hb (h.1 hz), fun hb => Nat.not_lt.1 fun hlt => hb (h.2 hlt)⟩

theorem sign_iff {chunk : UInt8} (hc : chunk.toNat < 128) :
    chunk &&& 0x40 ≠ 0 ↔ 64 ≤ chunk.toNat := by
  have h := and_64 chunk.toNat hc
  rw [ne_eq, ← UInt8.toNat_inj, UInt8.toNat_and]
  exact ⟨fun hb => Nat.not_lt.1 fun hlt => hb (h.2 hlt), fun hb hz => Nat.not_lt.2 hb (h.1 hz)⟩

/-! ## Words -/

/-- A part that begins above the word so far is added to it, as far as there are bits. -/
theorem or_shiftLeft {x w : UInt64} {n : Nat} (hn : n < 64) (hx : x.toNat < 1 <<< n) :
    x ||| w <<< UInt64.ofNat n = .ofNat (x.toNat + w.toNat * (1 <<< n)) := by
  have hsplit : UInt64.size = 1 <<< n * (1 <<< (64 - n)) := by
    rw [← one_shiftLeft_add, Nat.add_sub_cancel' (Nat.le_of_lt hn)]
    rfl
  have hshift : (w <<< UInt64.ofNat n).toNat = 1 <<< n * (w.toNat % (1 <<< (64 - n))) := by
    rw [UInt64.toNat_shiftLeft, UInt64.toNat_ofNat', Nat.mod_mod_of_dvd _ (by decide),
      Nat.mod_eq_of_lt hn, shiftLeft_eq_mul, ← Nat.mul_mod_mul_left, ← hsplit, Nat.mul_comm]
  have hor : x.toNat ||| 1 <<< n * (w.toNat % (1 <<< (64 - n))) =
      x.toNat + 1 <<< n * (w.toNat % (1 <<< (64 - n))) := by
    rw [Nat.one_shiftLeft] at hx ⊢
    rw [Nat.or_comm, ← Nat.two_pow_add_eq_or_of_lt hx, Nat.add_comm]
  have hlt : x.toNat + 1 <<< n * (w.toNat % (1 <<< (64 - n))) < UInt64.size := by
    have hr := Nat.mul_le_mul_left (1 <<< n)
      (Nat.succ_le_of_lt (Nat.mod_lt w.toNat (one_shiftLeft_pos (64 - n))))
    rw [Nat.mul_succ, ← hsplit] at hr
    omega
  have hmul : x.toNat + w.toNat * (1 <<< n) = x.toNat + 1 <<< n * (w.toNat % (1 <<< (64 - n))) +
      UInt64.size * (w.toNat / (1 <<< (64 - n))) := by
    rw [hsplit, Nat.mul_assoc, Nat.add_assoc, ← Nat.mul_add, Nat.mod_add_div, Nat.mul_comm]
  apply UInt64.toNat_inj.1
  rw [UInt64.toNat_or, hshift, hor, UInt64.toNat_ofNat', hmul]
  exact ((Nat.add_mul_mod_self_left _ _ _).trans (Nat.mod_eq_of_lt hlt)).symm

/-! ## One byte -/

namespace Registers

open Accumulator

variable {a : Accumulator} {b chunk : UInt8}

/-- An accumulator that a word can hold. -/
structure Held (a : Accumulator) : Prop where
  fair : a.Fair
  bits_le : a.bits ≤ 64

namespace Held

theorem shift_lt (h : Held a) : 7 * a.count < 64 := Nat.lt_of_lt_of_le h.fair.room h.bits_le

theorem weight_le (h : Held a) : a.weight ≤ 1 <<< 63 :=
  one_shiftLeft_le (Nat.le_of_lt_succ h.shift_lt)

theorem toNat_value (h : Held a) : (UInt64.ofNat a.value).toNat = a.value := by
  have hlt := Nat.lt_of_lt_of_le h.fair.value_lt h.weight_le
  rw [UInt64.toNat_ofNat']
  exact Nat.mod_eq_of_lt (Nat.lt_trans hlt (by decide))

/-- The word with one more chunk in it. -/
theorem or_part (h : Held a) (chunk : UInt8) :
    UInt64.ofNat a.value ||| chunk.toUInt64 <<< UInt64.ofNat (7 * a.count) =
      .ofNat (a.value + chunk.toNat * a.weight) := by
  have hx : (UInt64.ofNat a.value).toNat < 1 <<< (7 * a.count) :=
    h.toNat_value.symm ▸ h.fair.value_lt
  rw [or_shiftLeft h.shift_lt hx, h.toNat_value, UInt8.toNat_toUInt64, weight]

theorem feed (h : Held a) (b : UInt8) : Held (a.feed b).2 :=
  ⟨h.fair.feed b, (bits_of_feed a b).1.symm ▸ h.bits_le⟩

end Held

theorem shiftRight?_eq {n : Nat} (hn : n < 8) (chunk : UInt8) :
    ∃ top, shiftRight? chunk n = some top ∧ top.toNat = chunk.toNat >>> n := by
  refine ⟨_, if_pos hn, ?_⟩
  rw [UInt8.toNat_shiftRight, UInt8.toNat_ofNat']
  congr 1
  omega

theorem beq_toNat (a b : UInt8) : (a == b) = (a.toNat == b.toNat) := by
  rw [Bool.eq_iff_iff, beq_iff_eq, beq_iff_eq, UInt8.toNat_inj]

/-- The check on the last chunk, in bytes. -/
theorem fits?_eq (h : Held a) (chunk : UInt8) :
    (ofAccumulator a).fits? (a.bits - 7 * a.count) chunk = some (a.fits chunk.toNat) := by
  have hroom := h.fair.room
  obtain ⟨room, hr⟩ : ∃ room, room = a.bits - 7 * a.count := ⟨_, rfl⟩
  simp only [fits?, fits, ofAccumulator, ← hr]
  by_cases hsmall : room < 7
  · rw [if_neg (by omega), if_pos hsmall]
    cases a.signed
    · obtain ⟨rest, he, hrest⟩ := shiftRight?_eq (show room < 8 by omega) chunk
      simp [he, beq_toNat, hrest]
    · obtain ⟨top, he, htop⟩ := shiftRight?_eq (show room - 1 < 8 by omega) chunk
      obtain ⟨ones, he', hones⟩ := shiftRight?_eq (show room - 1 < 8 by omega) 0x7F
      simp [he, he', minus?, show 1 ≤ room by omega, beq_toNat, htop, hones]
  · rw [if_pos (by omega), if_neg hsmall]

/-- What is taken away for the sign is what the word cannot hold, or all of its bits above. -/
theorem ofInt_sub {y n : Nat} (hy : y < 1 <<< n) : UInt64.ofInt ((y : Int) - (1 <<< n : Nat)) =
    if n < 64 then .ofNat y ||| .ofNat (UInt64.size - 1) <<< UInt64.ofNat n else .ofNat y := by
  apply UInt64.toNat_inj.1
  rw [toNat_ofInt]
  split
  · rename_i hn
    have hx := one_shiftLeft_le (Nat.le_of_lt_succ hn)
    have hy' : (UInt64.ofNat y).toNat = y := by
      rw [UInt64.toNat_ofNat']
      exact Nat.mod_eq_of_lt (Nat.lt_trans (Nat.lt_of_lt_of_le hy hx) (by decide))
    rw [or_shiftLeft hn (hy'.symm ▸ hy), hy', UInt64.toNat_ofNat']
    have hall : (UInt64.ofNat (UInt64.size - 1)).toNat = UInt64.size - 1 := by decide
    rw [hall]
    simp only [UInt64.size] at hx ⊢
    omega
  · rename_i hn
    have hx : 1 <<< n = UInt64.size * (1 <<< (n - 64)) := by
      rw [show UInt64.size = 1 <<< 64 by rfl, ← one_shiftLeft_add, Nat.add_sub_cancel' (by omega)]
    rw [hx, UInt64.toNat_ofNat']
    simp only [UInt64.size]
    omega

/-- The number that a chunk ends, as a word. -/
theorem finish?_eq (h : Held a) (chunk : UInt8) (hc : chunk.toNat < 128) :
    (ofAccumulator a).finish? chunk = some (.ofInt (a.finish chunk.toNat)) := by
  have hwidth : 1 <<< (7 * a.count + 7) = 128 * a.weight := one_shiftLeft_seven_mul_succ a.count
  have hy : a.value + chunk.toNat * a.weight < 1 <<< (7 * a.count + 7) := by
    have hv := h.fair.value_lt
    have hp := Nat.mul_le_mul_right a.weight (Nat.le_of_lt_succ hc)
    omega
  have hpart : shiftLeft? chunk.toUInt64 (ofAccumulator a).shift =
      some (chunk.toUInt64 <<< UInt64.ofNat (7 * a.count)) := if_pos h.shift_lt
  rw [finish?, hpart]
  simp only [ofAccumulator, Option.bind_eq_bind, Option.bind_some, h.or_part, finish, sign_iff hc]
  rw [shiftLeft_eq_mul chunk.toNat]
  change _ = some (UInt64.ofInt ((a.value + chunk.toNat * a.weight : Nat) - _))
  by_cases hs : a.signed = true ∧ 64 ≤ chunk.toNat
  · rw [if_pos hs, ofInt_sub hy]
    by_cases hn : 7 * a.count + 7 < 64
    · simp only [hs, hn, and_self, if_true, shiftLeft?, Option.bind_some, pure]
    · simp only [hn, false_and, and_false, if_false, pure]
  · rw [if_neg hs, if_neg (fun hand => hs ⟨hand.1, hand.2.2⟩)]
    rw [show ((0 : Nat) : Int) = 0 from rfl, Int.sub_zero, ofInt_natCast]
    rfl

/-- A byte does in machine words what it does to the accumulator: nothing is shifted by as many bits
as the word has, and no difference is below zero. -/
theorem feed?_eq (h : Held a) (b : UInt8) :
    (ofAccumulator a).feed? b = some ((a.feed b).1, ofAccumulator (a.feed b).2) := by
  have hp : (b &&& 0x7F).toNat = payload b := toNat_chunk b
  have hlimit : chunksInWord (ofAccumulator a).bits = a.maxChunks := rfl
  have hcount : (ofAccumulator a).count = a.count := rfl
  simp only [feed?, Accumulator.feed, hlimit, hcount]
  by_cases hb : continues b = true
  · rw [if_pos ((continues_iff b).1 hb), if_pos hb]
    by_cases hl : a.maxChunks ≤ a.count + 1
    · rw [if_pos hl, if_pos hl]
      rfl
    · rw [if_neg hl, if_neg hl]
      have hpart : shiftLeft? (b &&& 0x7F).toUInt64 (ofAccumulator a).shift =
          some ((b &&& 0x7F).toUInt64 <<< UInt64.ofNat (7 * a.count)) := if_pos h.shift_lt
      have hor := h.or_part (b &&& 0x7F)
      rw [hp, weight, ← shiftLeft_eq_mul] at hor
      rw [hpart, Option.bind_eq_bind, Option.bind_some]
      simp only [ofAccumulator, hor]
      rfl
  · rw [if_neg fun hn => hb ((continues_iff b).2 hn), if_neg hb]
    have hallowed : minus? (ofAccumulator a).bits (ofAccumulator a).shift =
        some (a.bits - 7 * a.count) := if_pos (Nat.le_of_lt h.fair.room)
    have hfits := fits?_eq h (b &&& 0x7F)
    have hfinish := finish?_eq h (b &&& 0x7F) (hp.symm ▸ payload_lt b)
    rw [hp] at hfits hfinish
    rw [hallowed, Option.bind_eq_bind, Option.bind_some, hfits, Option.bind_eq_bind,
      Option.bind_some, hfinish]
    cases a.fits (payload b) <;> rfl

end Registers

end Transcoder.Leb128

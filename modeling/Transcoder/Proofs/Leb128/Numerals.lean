import Transcoder.Proofs.Leb128.Registers

/-!
# Numerals of base 128

The bytes of a number are its digits, lowest first, and all of them but the last say that more
follow. This is all that an accumulator takes: it says nothing up to the last digit of a numeral, and
then the number, if its width can say it. What does not end in time, ends there all the same. Then
the accumulator is as good as new, whatever came before.

Results:
* `Accumulator.feeds_of_continues`, `Accumulator.feeds_numeral`, `Accumulator.feeds_endless`: a part
  of a numeral, a whole one, and one that is too long.
* `Accumulator.feeds_idle`: what an accumulator answers to any bytes, from the start or once it has
  finished, refused or forgotten a number.
-/
namespace Transcoder.Leb128

/-- The digits, lowest first, as a number. -/
def digits : List UInt8 → Nat
  | [] => 0
  | b :: bytes => payload b + 128 * digits bytes

/-- The number that the digits say; the top bit of the last one is the sign, if there is one. -/
def numeral (signed : Bool) (bytes : List UInt8) : Int :=
  if signed ∧ (digits bytes).testBit (7 * bytes.length - 1) then
    digits bytes - (1 <<< (7 * bytes.length) : Nat)
  else digits bytes

instance (signed : Bool) (bits : Nat) (n : Int) : Decidable (InRange signed bits n) :=
  inferInstanceAs (Decidable (if signed then
    -(1 <<< (bits - 1) : Nat) ≤ n ∧ n < (1 <<< (bits - 1) : Nat)
    else 0 ≤ n ∧ n < (1 <<< bits : Nat)))

/-- What is said to a number that is complete: the number as a two's complement word, if the width
can say it. -/
def answer (signed : Bool) (bits : Nat) (n : Int) : Except StreamError (Option UInt64) :=
  if InRange signed bits n then .ok (some (.ofInt n)) else .error (.varintOverflow bits)

theorem digits_lt (bytes : List UInt8) : digits bytes < 1 <<< (7 * bytes.length) := by
  induction bytes with
  | nil => exact Nat.one_pos
  | cons b bytes ih =>
    have hb := Accumulator.payload_lt b
    rw [digits, List.length_cons, one_shiftLeft_seven_mul_succ]
    omega

theorem digits_append (init rest : List UInt8) :
    digits (init ++ rest) = digits init + digits rest * (1 <<< (7 * init.length)) := by
  induction init with
  | nil =>
    rw [List.nil_append, digits, Nat.zero_add]
    exact (Nat.mul_one _).symm
  | cons b init ih =>
    rw [List.cons_append, digits, digits, ih, List.length_cons, one_shiftLeft_seven_mul_succ,
      Nat.mul_left_comm (digits rest), Nat.mul_add, Nat.add_assoc]

/-- The top bit of a digit. -/
theorem testBit_six : ∀ p < 128, Nat.testBit p 6 = decide (64 ≤ p) := by decide +kernel

/-- The sign is in the last digit. -/
theorem numeral_append (signed : Bool) (init : List UInt8) (last : UInt8) :
    numeral signed (init ++ [last]) =
      digits init + lastDigit signed (payload last) * (1 <<< (7 * init.length) : Nat) := by
  have hlength : (init ++ [last]).length = init.length + 1 := by
    rw [List.length_append, List.length_singleton]
  have hdigits : digits (init ++ [last]) =
      digits init + payload last * (1 <<< (7 * init.length)) := by
    rw [digits_append, digits, digits, Nat.mul_zero, Nat.add_zero]
  have hsign : (digits (init ++ [last])).testBit (7 * (init ++ [last]).length - 1) =
      decide (64 ≤ payload last) := by
    have hlt := digits_lt init
    rw [Nat.one_shiftLeft] at hlt
    rw [hdigits, hlength, Nat.one_shiftLeft, Nat.mul_comm, Nat.add_comm,
      Nat.testBit_two_pow_mul_add _ hlt, if_neg (by omega),
      ← testBit_six _ (Accumulator.payload_lt last)]
    congr 1
    omega
  have hweight := one_shiftLeft_seven_mul_succ init.length
  rw [numeral, hsign, hdigits, hlength, hweight, lastDigit]
  simp only [decide_eq_true_eq]
  generalize 1 <<< (7 * init.length) = weight
  split
  · rw [Int.sub_mul]
    push_cast
    omega
  · push_cast
    omega

namespace Accumulator

variable {a a' : Accumulator} {signed : Bool} {bits : Nat} {bytes init rest : List UInt8}
  {last : UInt8}

/-! ## Byte by byte -/

/-- The answers to bytes that come one at a time, and what is known of a number behind them. -/
def feeds (a : Accumulator) :
    List UInt8 → List (Except StreamError (Option UInt64)) × Accumulator
  | [] => ([], a)
  | b :: bytes => ((a.feed b).1 :: ((a.feed b).2.feeds bytes).1, ((a.feed b).2.feeds bytes).2)

theorem feeds_append (a : Accumulator) (xs ys : List UInt8) : a.feeds (xs ++ ys) =
    ((a.feeds xs).1 ++ ((a.feeds xs).2.feeds ys).1, ((a.feeds xs).2.feeds ys).2) := by
  induction xs generalizing a with
  | nil => rfl
  | cons x xs ih => simp only [List.cons_append, feeds, ih]

/-- Digits that say that more follow add up, as long as more may follow. -/
theorem feeds_of_continues (hc : ∀ b ∈ bytes, continues b = true)
    (hroom : a.count + bytes.length < a.maxChunks) :
    a.feeds bytes = (List.replicate bytes.length (.ok none),
      ⟨a.bits, a.signed, a.value + digits bytes * a.weight, a.count + bytes.length⟩) := by
  induction bytes generalizing a with
  | nil => simp only [feeds, digits, Nat.zero_mul, List.length_nil, Nat.add_zero, List.replicate_zero]
  | cons b bytes ih =>
    rw [List.length_cons] at hroom
    have hfeed := feed_of_continues (hc b List.mem_cons_self) (a := a) (by omega)
    have hvalue : a.value + payload b * (1 <<< (7 * a.count)) +
        digits bytes * (1 <<< (7 * (a.count + 1))) =
          a.value + (payload b + 128 * digits bytes) * (1 <<< (7 * a.count)) := by
      rw [one_shiftLeft_seven_mul_succ, Nat.add_mul, Nat.mul_left_comm, Nat.mul_assoc, Nat.add_assoc]
    have hrest := ih (a := (a.feed b).2) (fun b hb => hc b (List.mem_cons_of_mem _ hb)) (by
      rw [hfeed]
      simp only [maxChunks] at hroom ⊢
      omega)
    simp only [hfeed, weight] at hrest
    simp only [feeds, hfeed, hrest, weight, hvalue, digits, List.length_cons, List.replicate_succ,
      Nat.add_assoc a.count, Nat.add_comm 1]

/-- A byte that does not leave a number unfinished leaves none. -/
theorem eq_reset_of_feed {b : UInt8} (h : (a.feed b).1 ≠ .ok none) : (a.feed b).2 = a.reset := by
  unfold feed at h ⊢
  split
  · rename_i hb
    rw [if_pos hb] at h
    split
    · rfl
    · rename_i hl
      rw [if_neg hl] at h
      exact absurd rfl h
  · split <;> rfl

/-- The last digit of a number. -/
theorem feed_of_last_digit (h : a.Fair) (hb : continues last = false) : a.feed last =
    (answer a.signed a.bits (a.value + lastDigit a.signed (payload last) * a.weight), a.reset) := by
  have hfits := fits_iff h (payload_lt last)
  rw [finish_eq] at hfits
  unfold answer
  by_cases hr : InRange a.signed a.bits (a.value + lastDigit a.signed (payload last) * a.weight)
  · rw [feed_of_last hb (hfits.2 hr), if_pos hr, finish_eq]
  · rw [feed, if_neg (by simp [hb]), if_neg (fun hf => hr (hfits.1 hf)), if_neg hr]

/-! ## From the start -/

/-- What comes of any bytes, from the start or once a number is finished, refused or forgotten. -/
inductive Reached (signed : Bool) (bits : Nat) : Accumulator → Prop
  | fresh : Reached signed bits (ofWidth signed bits)
  | feed {a : Accumulator} (h : Reached signed bits a) (b : UInt8) : Reached signed bits (a.feed b).2
  | reset {a : Accumulator} (h : Reached signed bits a) : Reached signed bits a.reset

/-- An accumulator that has taken nothing yet, or has just forgotten, finished or refused a number. -/
inductive Idle (signed : Bool) (bits : Nat) : Accumulator → Prop
  | fresh : Idle signed bits (ofWidth signed bits)
  | reset {a : Accumulator} (h : Reached signed bits a) : Idle signed bits a.reset
  | completed {a a' : Accumulator} {b : UInt8} {w : UInt64} (h : Reached signed bits a)
    (hf : a.feed b = (.ok (some w), a')) : Idle signed bits a'
  | failed {a a' : Accumulator} {b : UInt8} {x : StreamError} (h : Reached signed bits a)
    (hf : a.feed b = (.error x, a')) : Idle signed bits a'

/-- Whatever comes of an accumulator, what it forgets leaves it as it was in the beginning. -/
theorem Reached.reset_eq (h : Reached signed bits a) : a.reset = ofWidth signed bits := by
  induction h with
  | fresh => rfl
  | @feed a h b ih =>
    obtain ⟨hbits, hsigned⟩ := a.bits_of_feed b
    rw [← ih, Accumulator.reset, Accumulator.reset, hbits, hsigned]
  | reset h ih => exact ih

theorem Idle.eq_ofWidth (h : Idle signed bits a) : a = ofWidth signed bits := by
  cases h with
  | fresh => rfl
  | reset h => exact h.reset_eq
  | @completed a₀ _ b w h hf =>
    have hreset := eq_reset_of_feed (a := a₀) (b := b) (by simp [hf])
    rw [hf] at hreset
    exact hreset.trans h.reset_eq
  | @failed a₀ _ b x h hf =>
    have hreset := eq_reset_of_feed (a := a₀) (b := b) (by simp [hf])
    rw [hf] at hreset
    exact hreset.trans h.reset_eq

section FromTheStart

variable (h1 : 1 ≤ bits) (h64 : bits ≤ 64)
include h1 h64

theorem bits_ofWidth : (ofWidth signed bits).bits = bits := by
  simp only [ofWidth]
  omega

theorem maxChunks_ofWidth : (ofWidth signed bits).maxChunks = chunksInWord bits := by
  rw [maxChunks, bits_ofWidth h1 h64]

/-- A part of a numeral is kept and not answered. -/
theorem feeds_part (hc : ∀ b ∈ init, continues b = true) (hl : init.length < chunksInWord bits) :
    (ofWidth signed bits).feeds init =
      (List.replicate init.length (.ok none), ⟨bits, signed, digits init, init.length⟩) := by
  have hroom : (ofWidth signed bits).count + init.length < (ofWidth signed bits).maxChunks := by
    rw [maxChunks_ofWidth h1 h64]
    simpa only [ofWidth, Nat.zero_add] using hl
  have hweight : (ofWidth signed bits).weight = 1 := rfl
  rw [feeds_of_continues hc hroom, hweight, bits_ofWidth h1 h64]
  simp only [ofWidth, Nat.zero_add, Nat.mul_one]

/-- A whole numeral is answered with its last digit, and nothing is left of it. -/
theorem feeds_numeral (hc : ∀ b ∈ init, continues b = true) (hlast : continues last = false)
    (hl : init.length < chunksInWord bits) : (ofWidth signed bits).feeds (init ++ [last]) =
      (List.replicate init.length (.ok none) ++
        [answer signed bits (numeral signed (init ++ [last]))], ofWidth signed bits) := by
  have hfair : Fair ⟨bits, signed, digits init, init.length⟩ := ⟨hl, digits_lt init⟩
  have hfeed := feed_of_last_digit hfair hlast
  have hreset : Accumulator.reset ⟨bits, signed, digits init, init.length⟩ = ofWidth signed bits := by
    rw [Accumulator.reset, ofWidth, Nat.min_eq_left h64, Nat.max_eq_right h1]
  rw [feeds_append, feeds_part h1 h64 hc hl, numeral_append]
  simp only [feeds, hfeed, hreset]
  rfl

/-- What has not ended with the last chunk that the width allows, is refused with it. -/
theorem feeds_endless (hc : ∀ b ∈ bytes, continues b = true)
    (hl : bytes.length = chunksInWord bits) : (ofWidth signed bits).feeds bytes =
      (List.replicate (chunksInWord bits - 1) (.ok none) ++
        [.error (.varintTooLong (chunksInWord bits))], ofWidth signed bits) := by
  have hne : bytes ≠ [] := by
    rintro rfl
    simp only [List.length_nil, chunksInWord] at hl
    omega
  have hsplit := List.dropLast_concat_getLast hne
  have hlength : bytes.dropLast.length = chunksInWord bits - 1 := by
    rw [List.length_dropLast, hl]
  have hpart : (ofWidth signed bits).feeds bytes.dropLast = (List.replicate bytes.dropLast.length
      (.ok none), ⟨bits, signed, digits bytes.dropLast, bytes.dropLast.length⟩) :=
    feeds_part h1 h64 (fun b hb => hc b (List.dropLast_subset _ hb))
      (by rw [hlength]; unfold chunksInWord; omega)
  have hfeed : feed ⟨bits, signed, digits bytes.dropLast, bytes.dropLast.length⟩ (bytes.getLast hne) =
      (.error (.varintTooLong (chunksInWord bits)), ofWidth signed bits) := by
    rw [feed, if_pos (hc _ (List.getLast_mem hne)), if_pos (by
      simp only [maxChunks, hlength]
      omega)]
    rw [Accumulator.reset, ofWidth, Nat.min_eq_left h64, Nat.max_eq_right h1]
    rfl
  rw [← hsplit, feeds_append, hpart]
  simp only [feeds, hfeed]
  rw [hlength]

end FromTheStart

end Accumulator

/-- The answers to bytes that come one at a time, in machine words. -/
def Registers.feeds? (r : Registers) :
    List UInt8 → Option (List (Except StreamError (Option UInt64)) × Registers)
  | [] => some ([], r)
  | b :: bytes => (r.feed? b).bind fun first =>
    (first.2.feeds? bytes).map fun others => (first.1 :: others.1, others.2)

theorem Registers.feeds?_eq {a : Accumulator} (h : Held a) (bytes : List UInt8) :
    (ofAccumulator a).feeds? bytes = some ((a.feeds bytes).1, ofAccumulator (a.feeds bytes).2) := by
  induction bytes generalizing a with
  | nil => rfl
  | cons b bytes ih =>
    rw [feeds?, feed?_eq h, Option.bind_some, ih (h.feed b)]
    rfl

theorem Registers.held_ofWidth (signed : Bool) (bits : Nat) : Held (.ofWidth signed bits) := by
  refine ⟨Accumulator.fair_ofWidth signed bits, ?_⟩
  simp only [Accumulator.ofWidth]
  omega

/-- The number that a word is, with or without a sign. -/
def number (signed : Bool) (w : UInt64) : Int := if signed then w.toInt64.toInt else w.toNat

/-- More bits have room for the numbers of fewer bits. -/
theorem InRange.widen {signed : Bool} {bits bits' : Nat} {n : Int} (hle : bits ≤ bits')
    (h : InRange signed bits n) : InRange signed bits' n := by
  have hall := one_shiftLeft_le hle
  have hhalf := one_shiftLeft_le (Nat.sub_le_sub_right hle 1)
  unfold InRange at h ⊢
  split
  · rw [if_pos ‹_›] at h
    omega
  · rw [if_neg ‹_›] at h
    omega

theorem number_ofInt {signed : Bool} {n : Int} (h : InRange signed 64 n) :
    number signed (.ofInt n) = n := by
  have hall : 1 <<< 64 = UInt64.size := rfl
  have hhalf : 1 <<< (64 - 1) = 9223372036854775808 := rfl
  unfold InRange at h
  unfold number
  rw [toInt_toInt64, toNat_ofInt]
  simp only [hall, hhalf, UInt64.size] at h ⊢
  split
  · rw [if_pos ‹_›] at h
    split <;> omega
  · rw [if_neg ‹_›] at h
    omega

/-- An accumulator that has taken nothing yet, or has just finished, refused or forgotten a number,
is as it was in the beginning. Then it takes exactly the numerals of its width, and begins anew
behind each: it answers with the last digit, with the number if its width can say that, and with the
last chunk that the width allows, if that is not the last digit. In machine words it does the same,
and nothing is shifted too far or falls below zero. -/
theorem Accumulator.feeds_idle {signed : Bool} {bits : Nat} (h1 : 1 ≤ bits) (h64 : bits ≤ 64)
    {a : Accumulator} (h : Idle signed bits a) :
    a = ofWidth signed bits ∧
    (∀ init last rest, (∀ b ∈ init, continues b = true) → continues last = false →
      init.length < chunksInWord bits → a.feeds (init ++ last :: rest) =
        (List.replicate init.length (.ok none) ++
          answer signed bits (numeral signed (init ++ [last])) :: (a.feeds rest).1,
          (a.feeds rest).2)) ∧
    (∀ n, InRange signed bits n → number signed (.ofInt n) = n) ∧
    (∀ endless rest, (∀ b ∈ endless, continues b = true) → endless.length = chunksInWord bits →
      a.feeds (endless ++ rest) = (List.replicate (chunksInWord bits - 1) (.ok none) ++
        .error (.varintTooLong (chunksInWord bits)) :: (a.feeds rest).1, (a.feeds rest).2)) ∧
    (∀ part, (∀ b ∈ part, continues b = true) → part.length < chunksInWord bits →
      (a.feeds part).1 = List.replicate part.length (.ok none)) ∧
    ∀ bytes, (Registers.ofAccumulator a).feeds? bytes =
      some ((a.feeds bytes).1, .ofAccumulator (a.feeds bytes).2) := by
  obtain rfl := h.eq_ofWidth
  refine ⟨rfl, ?_, ?_, ?_, ?_, ?_⟩
  · intro init last rest hc hlast hl
    rw [List.append_cons, feeds_append, feeds_numeral h1 h64 hc hlast hl, List.append_assoc]
    rfl
  · exact fun n hn => number_ofInt (hn.widen h64)
  · intro endless rest hc hl
    rw [feeds_append, feeds_endless h1 h64 hc hl, List.append_assoc]
    rfl
  · intro part hc hl
    rw [feeds_part h1 h64 hc hl]
  · exact Registers.feeds?_eq (Registers.held_ofWidth signed bits)

/-- A signed accumulator of eight bits that has refused -8192 takes -128, and then refuses two chunks
that go on. -/
theorem Accumulator.feeds_idle_signed :
    Idle true 8 (((ofWidth true 8).feed 0x80).2.feed 0x40).2 ∧
    ((((ofWidth true 8).feed 0x80).2.feed 0x40).2.feeds [0x80, 0x7F, 0xFF, 0x80]).1 =
      [.ok none, .ok (some (.ofInt (-128))), .ok none, .error (.varintTooLong 2)] := by
  have hidle : Idle true 8 (((ofWidth true 8).feed 0x80).2.feed 0x40).2 :=
    .failed (b := 0x40) (x := .varintOverflow 8) (.feed .fresh 0x80) (by rfl)
  refine ⟨hidle, ?_⟩
  obtain ⟨-, whole, -, endless, -⟩ := feeds_idle (by decide) (by decide) hidle
  have hnumeral : numeral true ([0x80] ++ [0x7F]) = -128 := by decide
  have hanswer : answer true 8 (-128) = .ok (some (.ofInt (-128))) := if_pos (by decide)
  have hone : ∀ b ∈ ([0x80] : List UInt8), continues b = true := List.all_eq_true.1 rfl
  have htwo : ∀ b ∈ ([0xFF, 0x80] : List UInt8), continues b = true := List.all_eq_true.1 rfl
  have h := whole [0x80] 0x7F [0xFF, 0x80] hone (by decide) (by decide)
  have h' := endless [0xFF, 0x80] [] htwo (by decide)
  rw [List.append_nil] at h'
  rw [h', hnumeral, hanswer] at h
  exact congrArg Prod.fst h

end Transcoder.Leb128

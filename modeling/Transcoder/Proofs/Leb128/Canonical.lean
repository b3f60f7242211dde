import Transcoder.Proofs.Cursor.Writing
import Transcoder.Proofs.Leb128.Emission
import Transcoder.Proofs.Leb128.Numerals

/-!
# Shortest numerals

Many numerals say the same number, as it may be padded with zeros or with its sign. A decoder takes
all of them, and an encoder writes the one that no other is shorter than. Of the same length there is
no other one.

Results:
* `decodeFrom_numeral`, `numeral_of_decodeFrom`: what is decoded are numerals, and the number is what
  they say.
* `IsNumeral.eq`: numerals of one length and one number are one.
* `length_shortest_le`: no numeral is shorter than the one that is written.
* `encoders_canonical`: the encoders and the decoders, for every word, width and sign.
-/
namespace Transcoder.Leb128

open Accumulator

variable {signed : Bool} {bits : Nat} {bytes bytes' : List UInt8} {b : UInt8} {w : UInt64} {n : Int}

/-! ## Numerals -/

/-- Digits that say that more follow, and a last one. -/
inductive IsNumeral : List UInt8 → Prop
  | last {b : UInt8} (h : continues b = false) : IsNumeral [b]
  | more {b : UInt8} {bytes : List UInt8} (h : continues b = true) (k : IsNumeral bytes) :
    IsNumeral (b :: bytes)

theorem IsNumeral.length_pos (h : IsNumeral bytes) : 0 < bytes.length := by
  cases h <;> exact Nat.succ_pos _

theorem numeral_singleton (signed : Bool) (b : UInt8) :
    numeral signed [b] = lastDigit signed (payload b) := by
  have h := numeral_append signed [] b
  rw [List.nil_append, digits, List.length_nil] at h
  rw [h]
  show 0 + lastDigit signed (payload b) * 1 = _
  omega

/-- The first digit is the lowest one. -/
theorem numeral_cons (signed : Bool) (b : UInt8) (h : 0 < bytes.length) :
    numeral signed (b :: bytes) = payload b + 128 * numeral signed bytes := by
  have hp := payload_lt b
  have htop : (digits (b :: bytes)).testBit (7 * (b :: bytes).length - 1) =
      (digits bytes).testBit (7 * bytes.length - 1) := by
    rw [digits, Nat.add_comm, show 128 = 2 ^ 7 by rfl, Nat.testBit_two_pow_mul_add _ hp,
      List.length_cons, if_neg (by omega)]
    exact congrArg _ (by omega)
  rw [numeral, numeral, htop, digits, List.length_cons, one_shiftLeft_seven_mul_succ]
  split <;> push_cast <;> omega

/-- So many digits say no more than numbers of so many bits. -/
theorem IsNumeral.inRange (h : IsNumeral bytes) :
    InRange signed (7 * bytes.length) (numeral signed bytes) := by
  induction h with
  | @last b hb =>
    have hp := payload_lt b
    have hall : 1 <<< (7 * [b].length) = 128 := rfl
    have hhalf : 1 <<< (7 * [b].length - 1) = 64 := rfl
    rw [numeral_singleton, InRange, lastDigit, hall, hhalf]
    cases signed
    · simp only [Bool.false_eq_true, false_and, if_false]
      omega
    · simp only [true_and, if_true]
      split <;> omega
  | @more b bytes hb k ih =>
    have hp := payload_lt b
    have hpos := k.length_pos
    have hall := one_shiftLeft_seven_mul_succ bytes.length
    have hhalf : 1 <<< (7 * (bytes.length + 1) - 1) = 128 * (1 <<< (7 * bytes.length - 1)) := by
      rw [show 7 * (bytes.length + 1) - 1 = 7 + (7 * bytes.length - 1) by omega, one_shiftLeft_add]
      rfl
    unfold InRange at ih ⊢
    rw [numeral_cons signed b hpos, List.length_cons, hall, hhalf]
    split
    · rw [if_pos ‹_›] at ih
      omega
    · rw [if_neg ‹_›] at ih
      omega

/-- A byte is its digit and whether more follow. -/
theorem eq_of_payload {b c : UInt8} (hc : continues b = continues c) (hp : payload b = payload c) :
    b = c := by
  apply UInt8.toNat_inj.1
  have hb := b.toNat_lt
  have hb' := c.toNat_lt
  simp only [continues, payload, decide_eq_decide] at hc hp
  omega

/-- Numerals of one length that say one number are one. -/
theorem IsNumeral.eq (h : IsNumeral bytes) (h' : IsNumeral bytes')
    (hl : bytes.length = bytes'.length) (hn : numeral signed bytes = numeral signed bytes') :
    bytes = bytes' := by
  induction h generalizing bytes' with
  | @last b hb =>
    cases h' with
    | @last c hc =>
      have hp := payload_lt b
      have hp' := payload_lt c
      rw [numeral_singleton, numeral_singleton, lastDigit, lastDigit] at hn
      rw [eq_of_payload (hb.trans hc.symm) (by split at hn <;> split at hn <;> omega)]
    | more _ k =>
      have := k.length_pos
      simp only [List.length_cons, List.length_nil] at hl
      omega
  | @more b bytes hb k ih =>
    cases h' with
    | last =>
      have := k.length_pos
      simp only [List.length_cons, List.length_nil] at hl
      omega
    | @more c bytes' hc k' =>
      have hp := payload_lt b
      have hp' := payload_lt c
      rw [numeral_cons signed b k.length_pos, numeral_cons signed c k'.length_pos] at hn
      rw [eq_of_payload (hb.trans hc.symm) (by omega), ih k' (Nat.succ.inj hl) (by omega)]

/-! ## Decoding -/

/-- The number of a numeral, behind what was read of it before. -/
def total (a : Accumulator) (bytes : List UInt8) : Int := a.value + numeral a.signed bytes * a.weight

theorem total_singleton (a : Accumulator) (b : UInt8) :
    total a [b] = a.value + lastDigit a.signed (payload b) * a.weight := by
  rw [total, numeral_singleton]

/-- A digit that says that more follow. It does not matter how much was read before. -/
theorem goes_on {a : Accumulator} (hf : a.Fair) (hb : continues b = true)
    (hc : a.count + 1 < a.maxChunks) : ∃ a', a.feed b = (.ok none, a') ∧ a'.Fair ∧
      a'.bits = a.bits ∧ a'.signed = a.signed ∧ a'.count = a.count + 1 ∧
        ∀ bytes, 0 < bytes.length → total a' bytes = total a (b :: bytes) := by
  have hweight : 1 <<< (7 * (a.count + 1)) = 128 * a.weight := one_shiftLeft_seven_mul_succ a.count
  have hfeed := feed_of_continues hb hc
  have hfair := hf.feed b
  rw [hfeed] at hfair
  refine ⟨_, hfeed, hfair, rfl, rfl, rfl, fun bytes h => ?_⟩
  rw [total, total, numeral_cons _ _ h]
  simp only [weight] at hweight ⊢
  rw [hweight, Int.add_mul, Int.natCast_add, Int.natCast_mul, Int.natCast_mul, Int.mul_assoc 128,
    Int.mul_left_comm, Int.add_assoc]
  rfl

/-- A numeral that the width can say is decoded to its number. -/
theorem decodeFrom_numeral {a : Accumulator} (h : IsNumeral bytes) (hf : a.Fair)
    (hroom : a.count + bytes.length ≤ a.maxChunks) (hr : InRange a.signed a.bits (total a bytes))
    (seen : Nat) (suffix : List UInt8) : decodeFrom a seen (bytes ++ suffix) =
      .ok (.ofInt (total a bytes), seen + bytes.length) := by
  induction h generalizing a seen with
  | @last b hb =>
    have hfeed := feed_of_last_digit hf hb
    rw [total_singleton] at hr ⊢
    rw [answer, if_pos hr] at hfeed
    rw [List.singleton_append, decodeFrom, hfeed]
    rfl
  | @more b bytes hb k ih =>
    rw [List.length_cons] at hroom
    have hpos := k.length_pos
    obtain ⟨a', hfeed, hf', hbits, hsigned, hcount, htotal⟩ := goes_on hf hb (by omega)
    have hmax : a'.maxChunks = a.maxChunks := by rw [maxChunks, maxChunks, hbits]
    have hrest := ih hf' (by omega) (by rwa [hbits, hsigned, htotal bytes hpos]) (seen + 1)
    rw [htotal bytes hpos, Nat.add_assoc, Nat.add_comm 1] at hrest
    rw [List.cons_append, decodeFrom, List.length_cons, ← hrest, hfeed]

/-- Bytes that are decoded, all of them, are a numeral that the width can say. -/
theorem numeral_of_decodeFrom {a : Accumulator} (hf : a.Fair) {seen : Nat}
    (h : decodeFrom a seen bytes = .ok (w, seen + bytes.length)) : IsNumeral bytes ∧
      a.count + bytes.length ≤ a.maxChunks ∧ InRange a.signed a.bits (total a bytes) ∧
        w = .ofInt (total a bytes) := by
  induction bytes generalizing a seen with
  | nil => cases h
  | cons b bytes ih =>
    rw [decodeFrom] at h
    by_cases hb : continues b = true
    · by_cases hc : a.count + 1 < a.maxChunks
      · obtain ⟨a', hfeed, hf', hbits, hsigned, hcount, htotal⟩ := goes_on hf hb hc
        rw [hfeed, List.length_cons, Nat.add_comm bytes.length, ← Nat.add_assoc] at h
        obtain ⟨k, hroom, hr, hw⟩ := ih hf' h
        rw [hbits, hsigned, htotal bytes k.length_pos] at hr
        rw [htotal bytes k.length_pos] at hw
        have hmax : a'.maxChunks = a.maxChunks := by rw [maxChunks, maxChunks, hbits]
        exact ⟨.more hb k, by rw [List.length_cons]; omega, hr, hw⟩
      · rw [feed, if_pos hb, if_pos (by omega)] at h
        cases h
    · have hb : continues b = false := by simpa using hb
      have hfeed := feed_of_last_digit hf hb
      rw [← total_singleton, answer] at hfeed
      split at hfeed
      · rw [hfeed] at h
        simp only [Except.ok.injEq, Prod.mk.injEq, List.length_cons] at h
        obtain rfl : bytes = [] := List.length_eq_zero_iff.1 (by omega)
        exact ⟨.last hb, hf.count_lt, ‹_›, h.1.symm⟩
      · rw [hfeed] at h
        cases h

/-! ## Encoding -/

theorem isNumeral_unsigned (v : Nat) : IsNumeral (unsigned v) ∧ numeral false (unsigned v) = v := by
  fun_induction unsigned v with
  | case1 v hv =>
    obtain ⟨hb, hp⟩ := last_spec hv
    refine ⟨.last hb, ?_⟩
    rw [numeral_singleton, hp, lastDigit, if_neg (by simp)]
  | case2 v hv ih =>
    obtain ⟨hb, hp⟩ := continued_spec v
    refine ⟨.more hb ih.1, ?_⟩
    rw [numeral_cons _ _ ih.1.length_pos, ih.2, hp]
    omega

theorem isNumeral_signed (n : Int) :
    IsNumeral (Leb128.signed n) ∧ numeral true (Leb128.signed n) = n := by
  fun_induction Leb128.signed n with
  | case1 n hn =>
    obtain ⟨hb, hp⟩ := last_spec (v := (n % 128).toNat) (by omega)
    refine ⟨.last hb, ?_⟩
    rw [numeral_singleton, hp]
    simp only [lastDigit, true_and]
    split <;> omega
  | case2 n hn ih =>
    obtain ⟨hb, hp⟩ := continued_spec (n % 128).toNat
    refine ⟨.more hb ih.1, ?_⟩
    rw [numeral_cons _ _ ih.1.length_pos, ih.2, hp]
    omega

theorem isNumeral_padded {n v : Nat} (hn : 0 < n) (hv : v < 1 <<< (7 * n)) :
    IsNumeral (padded n v) ∧ numeral false (padded n v) = v := by
  fun_induction padded n v with
  | case1 v => omega
  | case2 v =>
    have hv : v < 128 := hv
    obtain ⟨hb, hp⟩ := last_spec hv
    rw [Nat.mod_eq_of_lt hv]
    refine ⟨.last hb, ?_⟩
    rw [numeral_singleton, hp, lastDigit, if_neg (by simp)]
  | case3 n v ih =>
    rw [one_shiftLeft_seven_mul_succ] at hv
    obtain ⟨hb, hp⟩ := continued_spec v
    obtain ⟨k, hk⟩ := ih (Nat.succ_pos n) (by omega)
    refine ⟨.more hb k, ?_⟩
    rw [numeral_cons _ _ k.length_pos, hk, hp]
    omega

/-- So many chunks hold so many bits, the sign among them. -/
theorem length_signed_le {k : Nat} (hk : 0 < k) (h : InRange true (7 * k) n) :
    (Leb128.signed n).length ≤ k := by
  induction k generalizing n with
  | zero => omega
  | succ k ih =>
    by_cases hn : -64 ≤ n ∧ n < 64
    · rw [signed_of_small hn, List.length_singleton]
      omega
    · rw [signed_of_large hn, List.length_cons]
      cases k with
      | zero => exact absurd h hn
      | succ k =>
        have hhalf : 1 <<< (7 * (k + 1 + 1) - 1) = 128 * (1 <<< (7 * (k + 1) - 1)) := by
          rw [show 7 * (k + 1 + 1) - 1 = 7 + (7 * (k + 1) - 1) by omega, one_shiftLeft_add]
          rfl
        rw [InRange, if_pos rfl, hhalf] at h
        have := ih (Nat.succ_pos k) (n := n / 128) (by
          rw [InRange, if_pos rfl]
          omega)
        omega

/-- The shortest form with or without a sign. -/
def Form.shortest (signed : Bool) : Form := if signed then .signed else .unsigned

/-- The test that ends the loop for it. -/
def Ending.shortest (signed : Bool) (w : UInt64) : Ending := if signed then forSigned w else unsigned

/-- What is written for a word is a numeral of its number. -/
theorem isNumeral_shortest (signed : Bool) (w : UInt64) :
    IsNumeral ((Form.shortest signed).bytes w) ∧
      numeral signed ((Form.shortest signed).bytes w) = number signed w := by
  cases signed with
  | false => exact isNumeral_unsigned w.toNat
  | true => exact isNumeral_signed w.toInt64.toInt

theorem length_shortest_le {k : Nat} (hk : 0 < k) (h : InRange signed (7 * k) (number signed w)) :
    ((Form.shortest signed).bytes w).length ≤ k := by
  cases signed with
  | false => exact length_unsigned_le hk (inRange_natCast.1 h)
  | true => exact length_signed_le hk h

/-- Every word is a number of 64 bits. -/
theorem inRange_number (signed : Bool) (w : UInt64) : InRange signed 64 (number signed w) := by
  have hw : w.toNat < UInt64.size := w.toNat_lt
  have hall : 1 <<< 64 = UInt64.size := rfl
  have hhalf : 1 <<< (64 - 1) = 9223372036854775808 := rfl
  rw [InRange, number, toInt_toInt64, hall, hhalf]
  simp only [UInt64.size] at hw ⊢
  cases signed
  · simp only [Bool.false_eq_true, if_false]
    omega
  · simp only [if_true]
    split <;> omega

theorem ofInt_number (signed : Bool) (w : UInt64) : UInt64.ofInt (number signed w) = w := by
  cases signed with
  | false => exact (ofInt_natCast w.toNat).trans (UInt64.ofNat_toNat)
  | true => exact ofInt_toInt w

/-- A buffer with room takes all bytes. -/
theorem forM_putWithin {room : Nat} {buf : Array UInt8} (h : buf.size + bytes.length ≤ room) :
    bytes.forM (putWithin room) buf = .ok () (buf ++ bytes.toArray) := by
  induction bytes generalizing buf with
  | nil => rw [Array.append_empty]; rfl
  | cons b bytes ih =>
    rw [List.length_cons] at h
    have hput : putWithin room b buf = .ok () (buf.push b) := if_pos (by omega)
    have hstep : (b :: bytes).forM (putWithin room) buf =
        (putWithin room b >>= fun _ => bytes.forM (putWithin room)) buf := rfl
    rw [hstep, bind_of_ok hput, ih (by rw [Array.size_push]; omega), Array.push_eq_append,
      Array.append_assoc, ← List.toArray_cons]

theorem encodeWithin_eq {room : Nat} (form : Form) (h : (form.bytes w).length ≤ room) :
    encodeWithin room form w = .ok () (form.bytes w).toArray := by
  rw [encodeWithin, emit_eq, forM_putWithin (by simpa using h), Array.empty_append]

/-- A numeral of a word is decoded to the word, by an accumulator that can say its number. -/
theorem decodeFrom_ofWidth (h1 : 1 ≤ bits) (h64 : bits ≤ 64) (h : IsNumeral bytes)
    (hn : numeral signed bytes = number signed w) (hl : bytes.length ≤ chunksInWord bits)
    (hr : InRange signed bits (number signed w)) (suffix : List UInt8) :
    decodeFrom (.ofWidth signed bits) 0 (bytes ++ suffix) = .ok (w, bytes.length) := by
  have htotal : total (.ofWidth signed bits) bytes = number signed w := by
    rw [← hn, total]
    show 0 + numeral signed bytes * 1 = _
    omega
  have hroom : (ofWidth signed bits).count + bytes.length ≤ (ofWidth signed bits).maxChunks := by
    rw [maxChunks_ofWidth h1 h64]
    simpa only [ofWidth, Nat.zero_add] using hl
  have hrange : InRange (ofWidth signed bits).signed (ofWidth signed bits).bits
      (total (.ofWidth signed bits) bytes) := by
    rw [bits_ofWidth h1 h64, htotal]
    exact hr
  rw [decodeFrom_numeral h (fair_ofWidth signed bits) hroom hrange, htotal, ofInt_number,
    Nat.zero_add]

/-- What is decoded to a word, all of it, is a numeral of its number. -/
theorem numeral_of_decode (h : decode signed bytes = .ok (w, bytes.length)) :
    IsNumeral bytes ∧ numeral signed bytes = number signed w := by
  have h0 : decodeFrom (.ofWidth signed 64) 0 bytes = .ok (w, 0 + bytes.length) := by
    rw [Nat.zero_add]
    exact h
  obtain ⟨k, -, hr, hw⟩ := numeral_of_decodeFrom (fair_ofWidth signed 64) h0
  have htotal : total (.ofWidth signed 64) bytes = numeral signed bytes := by
    rw [total]
    show 0 + numeral signed bytes * 1 = _
    omega
  rw [htotal] at hr hw
  have hr : InRange signed 64 (numeral signed bytes) := hr
  exact ⟨k, by rw [hw, number_ofInt hr]⟩

/-- The bytes of a word in its shortest form. -/
structure Canonical (signed : Bool) (w : UInt64) (bytes : List UInt8) : Prop where
  /-- Ten bytes of room suffice. -/
  encoded : encodeWithin 10 (.shortest signed) w = .ok () bytes.toArray
  /-- The loop comes to an end, and that is behind them. -/
  emitted : ∀ emitted, (Ending.shortest signed w).Emits w 0 emitted ↔ emitted = bytes
  /-- Whatever stands behind them, they are decoded to the word. -/
  decoded : ∀ suffix, decode signed (bytes ++ suffix) = .ok (w, bytes.length)
  /-- No others that are decoded to the word are shorter, and none are as long. -/
  least : ∀ others, decode signed others = .ok (w, others.length) →
    bytes.length ≤ others.length ∧ (others.length = bytes.length → others = bytes)
  /-- Of a number of fewer bits they are no more chunks than these bits need, and an accumulator of
  these bits takes them. -/
  narrow : ∀ bits, 1 ≤ bits → bits ≤ 64 → InRange signed bits (number signed w) →
    bytes.length ≤ chunksInWord bits ∧
      ∀ suffix, decodeFrom (.ofWidth signed bits) 0 (bytes ++ suffix) = .ok (w, bytes.length)

/-- The bytes of a word in the chunks that so many bits need. -/
structure Padded (bits : Nat) (w : UInt64) (bytes : List UInt8) : Prop where
  encoded : encodeWithin 10 (.padded (chunksInWord bits)) w = .ok () bytes.toArray
  emitted : ∀ emitted, (Ending.fixed (chunksInWord bits)).Emits w 0 emitted ↔ emitted = bytes
  length : bytes.length = chunksInWord bits
  /-- If the number has no more bits, they are decoded to the word. -/
  decoded : w.toNat < 1 <<< bits →
    ∀ suffix, decodeFrom (.ofWidth false bits) 0 (bytes ++ suffix) = .ok (w, bytes.length)

/-- The chunks that so many bits need have room for the numbers of so many bits. -/
theorem InRange.chunks (h : InRange signed bits n) : InRange signed (7 * chunksInWord bits) n :=
  h.widen (by unfold chunksInWord; omega)

theorem chunksInWord_pos (h1 : 1 ≤ bits) : 0 < chunksInWord bits := by
  unfold chunksInWord
  omega

theorem canonical_shortest (signed : Bool) (w : UInt64) :
    Canonical signed w ((Form.shortest signed).bytes w) := by
  obtain ⟨h, hn⟩ := isNumeral_shortest signed w
  have hr := inRange_number signed w
  have hlen : ((Form.shortest signed).bytes w).length ≤ 10 :=
    length_shortest_le (by decide) hr.chunks
  refine ⟨encodeWithin_eq _ hlen, ?_, ?_, fun others ho => ?_, fun bits h1 h64 hb => ?_⟩
  · cases signed with
    | false => exact fun _ => (Ending.emits_unsigned w 0).iff
    | true => exact fun _ => (Ending.emits_signed w 0).iff
  · exact decodeFrom_ofWidth (by decide) (by decide) h hn hlen hr
  · obtain ⟨h', hn'⟩ := numeral_of_decode ho
    refine ⟨length_shortest_le h'.length_pos (hn' ▸ h'.inRange), fun hl => ?_⟩
    exact h'.eq h hl (hn'.trans hn.symm)
  · have hle := length_shortest_le (chunksInWord_pos h1) hb.chunks
    exact ⟨hle, decodeFrom_ofWidth h1 h64 h hn hle hb⟩

theorem padded_chunks (h1 : 1 ≤ bits) (h64 : bits ≤ 64) (w : UInt64) :
    Padded bits w (padded (chunksInWord bits) w.toNat) := by
  have hpos := chunksInWord_pos h1
  have hlen := length_padded_of_pos hpos w.toNat
  refine ⟨?_, fun _ => (Ending.emits_fixed _ w 0).iff, hlen, fun hw => ?_⟩
  · refine encodeWithin_eq (.padded (chunksInWord bits)) ?_
    rw [Form.bytes, hlen]
    unfold chunksInWord
    omega
  · have hr : InRange false bits (number false w) := inRange_natCast.2 hw
    obtain ⟨h, hn⟩ := isNumeral_padded hpos (inRange_natCast.1 hr.chunks)
    exact decodeFrom_ofWidth h1 h64 h hn (Nat.le_of_eq hlen) hr

/-- What is written for a word, with or without a sign, is the one shortest encoding of it, and is
decoded to it by every accumulator that can say it. In the chunks that some bits need, a word of no
more bits is decoded to itself too. In machine words the one loop behind both ends for every word. -/
theorem encoders_canonical (signed : Bool) (w : UInt64) {bits : Nat} (h1 : 1 ≤ bits)
    (h64 : bits ≤ 64) : Canonical signed w ((Form.shortest signed).bytes w) ∧
      Padded bits w (padded (chunksInWord bits) w.toNat) :=
  ⟨canonical_shortest signed w, padded_chunks h1 h64 w⟩

/-- -65 takes two bytes, and so does 65 in twelve bits. -/
theorem encoders_canonical_two : decode true [0xBF, 0x7F] = .ok (.ofInt (-65), 2) ∧
    encodeWithin 10 (.padded (chunksInWord 12)) 65 = .ok () #[0xC1, 0x00] ∧
    decodeFrom (.ofWidth false 12) 0 [0xC1, 0x00, 0xFF] = .ok (65, 2) := by
  obtain ⟨h, -⟩ := encoders_canonical true (.ofInt (-65)) (show 1 ≤ 12 by decide) (by decide)
  obtain ⟨-, h'⟩ := encoders_canonical false 65 (show 1 ≤ 12 by decide) (by decide)
  have hbytes : (Form.shortest true).bytes (.ofInt (-65)) = [0xBF, 0x7F] := by decide +kernel
  have hbytes' : padded (chunksInWord 12) (UInt64.toNat 65) = [0xC1, 0x00] := by decide +kernel
  rw [hbytes] at h
  rw [hbytes'] at h'
  exact ⟨h.decoded [], h'.encoded, h'.decoded (by decide) [0xFF]⟩

end Transcoder.Leb128

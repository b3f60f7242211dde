import Transcoder.Proofs.Leb128.Ranges
import Transcoder.Proofs.Machine.Source

/-!
# Values and their bytes

`Completes p bytes w` says that `bytes`, taken one by one, make the value `w` of what was read so
far, and that the last of them is what completes it. What a kind writes completes a value of the
kind, and nothing else does than bytes of a value that the kind can say.

Results:
* `IntKind.completes_bytes`: the bytes of a value say the value.
* `PartialValue.Completes.fits`, `PartialValue.Completes.length_le`: what completes a value is no
  longer than its kind allows and says a word that fits it.
* `Leb128.completes_padded`, `Leb128.le_length_of_completes`: a padded number is read to its last
  chunk, if it is read at all.
* `Source.read_of_completes`, `Source.completes_of_read`, `Source.stuck_of_read`: reading a value, in
  terms of the bytes that lie ahead.
-/
namespace Transcoder

/-! ## Words -/

theorem toNat_ofInt (n : Int) : (UInt64.ofInt n).toNat = (n % UInt64.size).toNat := by
  rw [UInt64.ofInt, UInt64.toNat_ofNat']
  simp only [UInt64.size]
  omega

theorem ofInt_natCast (n : Nat) : UInt64.ofInt n = .ofNat n := by
  apply UInt64.toNat_inj.1
  rw [toNat_ofInt, UInt64.toNat_ofNat']
  simp only [UInt64.size]
  omega

theorem toInt_toInt64 (w : UInt64) :
    w.toInt64.toInt = if 2 * w.toNat < UInt64.size then (w.toNat : Int) else w.toNat - UInt64.size :=
  BitVec.toInt_eq_toNat_cond w.toBitVec

theorem ofInt_toInt (w : UInt64) : .ofInt w.toInt64.toInt = w := by
  have hw : w.toNat < UInt64.size := w.toNat_lt
  apply UInt64.toNat_inj.1
  rw [toNat_ofInt, toInt_toInt64]
  simp only [UInt64.size] at hw ⊢
  split <;> omega

/-- The number that a word is, for a kind with or without a sign. -/
def IntKind.number (kind : IntKind) (w : UInt64) : Int :=
  if kind.signed then w.toInt64.toInt else w.toNat

namespace IntKind

variable {kind : IntKind} {w : UInt64}

theorem fits_iff : kind.fits w = true ↔ Leb128.InRange kind.signed kind.width (kind.number w) := by
  unfold fits Leb128.InRange number
  cases kind.signed
  · simp only [Bool.false_eq_true, if_false, decide_eq_true_eq]
    omega
  · simp only [if_true, decide_eq_true_eq]

theorem word_of_inRange {n : Int} (h : Leb128.InRange kind.signed kind.width n) :
    if kind.signed then -(UInt64.size : Int) ≤ 2 * n ∧ 2 * n < UInt64.size
    else 0 ≤ n ∧ n < UInt64.size := by
  have h31 : (1 <<< 31 : Nat) = 2147483648 := rfl
  have h63 : (1 <<< 63 : Nat) = 9223372036854775808 := rfl
  have h8 : (1 <<< 8 : Nat) = 256 := rfl
  have h32 : (1 <<< 32 : Nat) = 4294967296 := rfl
  have h64 : (1 <<< 64 : Nat) = 18446744073709551616 := rfl
  cases kind <;> simp only [Leb128.InRange, signed, width, Bool.false_eq_true, if_false, if_true,
    Nat.reduceSub, UInt64.size] at h ⊢ <;> omega

/-- The word of a number that the kind can say is that number. -/
theorem number_ofInt {n : Int} (h : Leb128.InRange kind.signed kind.width n) :
    kind.number (.ofInt n) = n := by
  have hw := word_of_inRange h
  rw [number, toInt_toInt64, toNat_ofInt]
  simp only [UInt64.size] at hw ⊢
  split
  · rw [if_pos ‹_›] at hw
    split <;> omega
  · rw [if_neg ‹_›] at hw
    omega

theorem fits_ofInt {n : Int} (h : Leb128.InRange kind.signed kind.width n) :
    kind.fits (.ofInt n) = true := by
  rw [fits_iff, number_ofInt h]
  exact h

end IntKind

/-! ## Completing a value -/

namespace PartialValue

/-- The bytes, taken one by one, complete the value with the last of them. -/
inductive Completes : PartialValue → List UInt8 → UInt64 → Prop
  | last {p q : PartialValue} {b : UInt8} {w : UInt64} (h : p.feed b = (.ok (some w), q)) :
    Completes p [b] w
  | more {p q : PartialValue} {b : UInt8} {bytes : List UInt8} {w : UInt64}
    (h : p.feed b = (.ok none, q)) (k : Completes q bytes w) : Completes p (b :: bytes) w

variable {p p' : PartialValue} {b : UInt8} {bytes : List UInt8} {w : UInt64}

/-- A value in the making: more bytes are left for it, and it says no more than those so far. -/
def Fair : PartialValue → Prop
  | fixed kind value count =>
    kind.leb128 = false ∧ count < kind.maxLength ∧ value < 1 <<< (8 * count)
  | leb128 kind acc => acc.bits = kind.width ∧ acc.signed = kind.signed ∧ acc.Fair

theorem kind_start (kind : IntKind) : (start kind).kind = kind := by
  unfold start
  split <;> rfl

theorem kind_of_feed (p : PartialValue) (b : UInt8) : (p.feed b).2.kind = p.kind := by
  cases p with
  | fixed kind value count =>
    simp only [feed]
    split <;> rfl
  | leb128 => rfl

theorem fair_start (kind : IntKind) : (start kind).Fair := by
  unfold start
  cases hl : kind.leb128 with
  | true =>
    refine ⟨?_, rfl, Leb128.Accumulator.fair_ofWidth _ _⟩
    cases kind <;> rfl
  | false => exact ⟨hl, kind.maxLength_pos, Nat.one_pos⟩

theorem Fair.remaining_pos (h : p.Fair) : 0 < p.remaining := by
  cases p with
  | fixed kind value count => exact Nat.sub_pos_of_lt h.2.1
  | leb128 kind acc => exact Nat.sub_pos_of_lt h.2.2.count_lt

theorem one_shiftLeft_eight_mul_succ (n : Nat) : 1 <<< (8 * (n + 1)) = 256 * (1 <<< (8 * n)) := by
  rw [Nat.mul_add, Leb128.one_shiftLeft_add, Nat.mul_comm]
  rfl

/-- One more byte of a fixed width. -/
theorem fixed_lt {value count : Nat} (h : value < 1 <<< (8 * count)) (b : UInt8) :
    value + b.toNat <<< (8 * count) < 1 <<< (8 * (count + 1)) := by
  have hb : b.toNat < 256 := b.toNat_lt
  have hm := Nat.mul_le_mul_right (1 <<< (8 * count)) (Nat.le_of_lt_succ hb)
  rw [Leb128.shiftLeft_eq_mul, one_shiftLeft_eight_mul_succ]
  omega

/-- A byte leaves a value in the making, or none. -/
theorem Fair.feed (h : p.Fair) (b : UInt8) : (p.feed b).2.Fair := by
  cases p with
  | fixed kind value count =>
    simp only [PartialValue.feed]
    split
    · exact ⟨h.1, ‹_›, fixed_lt h.2.2 b⟩
    · exact ⟨h.1, kind.maxLength_pos, Nat.one_pos⟩
  | leb128 kind acc =>
    obtain ⟨hb, hs⟩ := acc.bits_of_feed b
    exact ⟨hb.trans h.1, hs.trans h.2.1, h.2.2.feed b⟩

/-- A value that a byte completes fits its kind. -/
theorem Fair.fits (h : p.Fair) (hf : p.feed b = (.ok (some w), p')) : p.kind.fits w = true := by
  cases p with
  | fixed kind value count =>
    obtain ⟨hk, hc, hv⟩ := h
    simp only [PartialValue.feed] at hf
    split at hf
    · simp at hf
    · simp only [Prod.mk.injEq, Except.ok.injEq, Option.some.injEq] at hf
      obtain ⟨rfl, -⟩ := hf
      have hlt := fixed_lt hv b
      have hw : 8 * (count + 1) = kind.width ∧ kind.signed = false := by
        have hlast : count + 1 = kind.maxLength := by omega
        cases kind <;> simp_all [IntKind.maxLength, IntKind.leb128, IntKind.width, IntKind.signed]
      rw [← ofInt_natCast]
      refine @IntKind.fits_ofInt kind _ ?_
      rw [hw.2, Leb128.inRange_natCast, ← hw.1]
      exact hlt
  | leb128 kind acc =>
    simp only [PartialValue.feed, Prod.mk.injEq] at hf
    obtain ⟨n, hn, rfl⟩ := h.2.2.finish (Prod.ext hf.1 rfl)
    rw [h.1, h.2.1] at hn
    exact IntKind.fits_ofInt hn

namespace Completes

theorem ne_nil (h : Completes p bytes w) : bytes ≠ [] := by
  cases h <;> simp

/-- What completes a value says a word that fits its kind. -/
theorem fits (h : Completes p bytes w) (hp : p.Fair) : p.kind.fits w = true := by
  induction h with
  | last h => exact hp.fits h
  | @more p p' b bytes w h k ih =>
    have hp' := hp.feed b
    have hk := p.kind_of_feed b
    rw [h] at hp' hk
    exact hk ▸ ih hp'

/-- What completes a value takes no more bytes than are left for it. -/
theorem length_le (h : Completes p bytes w) (hp : p.Fair) : bytes.length ≤ p.remaining := by
  induction h with
  | last h => exact hp.remaining_pos
  | @more p p' b bytes w h k ih =>
    have hp' := hp.feed b
    rw [h] at hp'
    exact Nat.lt_of_le_of_lt (ih hp') (remaining_lt_of_feed h)

end Completes

end PartialValue

/-! ## Spoiling a value -/

theorem Leb128.Accumulator.malformed_of_feed {a a' : Accumulator} {b : UInt8} {x : StreamError}
    (h : a.feed b = (.error x, a')) : x.malformed = true := by
  unfold feed at h
  split at h
  · split at h
    · simp only [Prod.mk.injEq, Except.error.injEq] at h
      rw [← h.1]
      rfl
    · simp at h
  · split at h
    · simp at h
    · simp only [Prod.mk.injEq, Except.error.injEq] at h
      rw [← h.1]
      rfl

/-- A byte that spoils a value is malformed. -/
theorem PartialValue.malformed_of_feed {p p' : PartialValue} {b : UInt8} {x : StreamError}
    (h : p.feed b = (.error x, p')) : x.malformed = true := by
  cases p with
  | fixed kind value count =>
    simp only [feed] at h
    split at h <;> simp at h
  | leb128 kind acc =>
    simp only [feed, Prod.mk.injEq] at h
    exact Leb128.Accumulator.malformed_of_feed (Prod.ext h.1 rfl)

/-- And no matter of more input. -/
theorem StreamError.suspends_of_malformed {x : StreamError} (h : x.malformed = true) :
    x.suspends = false := by
  cases x <;> first | rfl | simp [malformed] at h

/-! ## What a kind writes -/

namespace Leb128

open PartialValue Accumulator

variable {kind : IntKind} {a : Accumulator}

/-- The byte that carries a chunk and goes on. -/
theorem continued_spec (v : Nat) : continues (continued v) = true ∧ payload (continued v) = v % 128 := by
  have hb : (continued v).toNat = 128 + v % 128 := by
    rw [continued, UInt8.toNat_ofNat']
    omega
  rw [continues, payload, hb]
  exact ⟨by simp, by omega⟩

/-- The byte that carries a chunk and ends a number. -/
theorem last_spec {v : Nat} (h : v < 128) :
    continues (UInt8.ofNat v) = false ∧ payload (UInt8.ofNat v) = v := by
  have hb : (UInt8.ofNat v).toNat = v := by
    rw [UInt8.toNat_ofNat']
    omega
  rw [continues, payload, hb]
  exact ⟨by simpa using h, by omega⟩

/-- A chunk goes on. -/
theorem completes_continued {v : Nat} {rest : List UInt8} {w : UInt64} (h : a.Fair)
    (hc : a.count + 1 < a.maxChunks)
    (hrest : ∀ a' : Accumulator, a'.Fair → a'.bits = a.bits → a'.signed = a.signed →
      a'.count = a.count + 1 → a'.value = a.value + v % 128 * a.weight →
        Completes (.leb128 kind a') rest w) :
    Completes (.leb128 kind a) (continued v :: rest) w := by
  obtain ⟨hb, hp⟩ := continued_spec v
  have hfeed := feed_of_continues hb hc
  have hfair := h.feed (continued v)
  rw [hfeed] at hfair
  refine .more (q := .leb128 kind _) ?_ (hrest _ hfair rfl rfl rfl (by rw [hp]))
  rw [PartialValue.feed, hfeed]

/-- A last chunk completes a number that the width can say. -/
theorem completes_last {v : Nat} (h : a.Fair) (hv : v < 128)
    (hr : InRange a.signed a.bits (a.finish v)) :
    Completes (.leb128 kind a) [UInt8.ofNat v] (.ofInt (a.finish v)) := by
  obtain ⟨hb, hp⟩ := last_spec hv
  have hfeed := feed_of_last hb (hp.symm ▸ (fits_iff h hv).2 hr)
  rw [hp] at hfeed
  refine .last (q := .leb128 kind a.reset) ?_
  rw [PartialValue.feed, hfeed]

theorem weight_succ {a' : Accumulator} (h : a'.count = a.count + 1) :
    a'.weight = 128 * a.weight := by
  rw [weight, h, one_shiftLeft_seven_mul_succ, weight]

/-- The chunks of a number without a sign, behind those that were read. -/
theorem completes_padded {n v : Nat} (h : a.Fair) (hs : a.signed = false) (hn : 0 < n)
    (hc : a.count + n ≤ a.maxChunks) (hv : v < 1 <<< (7 * n))
    (hr : a.value + v * a.weight < 1 <<< a.bits) :
    Completes (.leb128 kind a) (padded n v) (.ofNat (a.value + v * a.weight)) := by
  fun_induction padded n v generalizing a with
  | case1 v => omega
  | case2 v =>
    have hv : v < 128 := hv
    have hfin : a.finish v = (a.value + v * a.weight : Nat) := by
      rw [finish_eq, lastDigit, hs]
      push_cast
      simp
    rw [Nat.mod_eq_of_lt hv, ← ofInt_natCast, ← hfin]
    refine completes_last h hv ?_
    rw [hfin, hs, inRange_natCast]
    exact hr
  | case3 n v ih =>
    rw [one_shiftLeft_seven_mul_succ] at hv
    refine completes_continued h (by omega) fun a' h' hb' hs' hc' hv' => ?_
    have hsum : a'.value + v / 128 * a'.weight = a.value + v * a.weight := by
      rw [hv', weight_succ hc', ← Nat.mul_assoc, Nat.add_assoc, ← Nat.add_mul]
      congr 2
      omega
    rw [← hsum] at hr ⊢
    refine ih h' (hs'.trans hs) (Nat.succ_pos n) ?_ (by omega) (hb' ▸ hr)
    rw [hc', maxChunks, hb']
    exact Nat.le_trans (by omega) hc

/-- The chunks of a number with a sign, behind those that were read. -/
theorem completes_signed {v : Int} (h : a.Fair) (hs : a.signed = true)
    (hr : InRange true a.bits (a.value + v * a.weight)) :
    Completes (.leb128 kind a) (signed v) (.ofInt (a.value + v * a.weight)) := by
  fun_induction signed v generalizing a with
  | case1 v hsmall =>
    have hdigit : lastDigit true (v % 128).toNat = v := by
      simp only [lastDigit, true_and]
      split <;> omega
    have hfin : a.finish (v % 128).toNat = a.value + v * a.weight := by
      rw [finish_eq, hs, hdigit]
    rw [← hfin] at hr ⊢
    exact completes_last h (by omega) (hs.symm ▸ hr)
  | case2 v hlarge ih =>
    -- a number that needs another chunk has bits left for it
    have hmore : a.count + 1 < a.maxChunks := by
      apply Classical.byContradiction
      intro hlast
      have hbits : a.bits - 1 ≤ 6 + 7 * a.count := by
        unfold maxChunks chunksInWord at hlast
        omega
      have hle : 1 <<< (a.bits - 1) ≤ 64 * a.weight := by
        have := one_shiftLeft_le hbits
        rwa [one_shiftLeft_add] at this
      obtain ⟨hlo, hhi⟩ := hr
      have h1 := (scaled_lt (s := v) (h := 64) h.value_lt).1 (by omega)
      have h2 := (le_scaled (s := v) (h := -64) h.value_lt).1 (by omega)
      omega
    refine completes_continued h hmore fun a' h' hb' hs' hc' hv' => ?_
    have hsum : (a'.value : Int) + v / 128 * a'.weight = a.value + v * a.weight := by
      have hdigits : v = v / 128 * 128 + v % 128 := by omega
      have hchunk : (((v % 128).toNat % 128 : Nat) : Int) = v % 128 := by omega
      rw [hv', weight_succ hc', Int.natCast_add, Int.natCast_mul, Int.natCast_mul, hchunk,
        Int.add_assoc, ← Int.mul_assoc, ← Int.add_mul, Int.add_comm (v % 128)]
      exact congrArg (fun d : Int => a.value + d * a.weight) hdigits.symm
    rw [← hsum] at hr ⊢
    exact ih h' (hs'.trans hs) (hb' ▸ hr)

/-- The shortest form is a padded one. -/
theorem unsigned_eq_padded (v : Nat) : unsigned v = padded (unsigned v).length v := by
  fun_induction unsigned v with
  | case1 v hv =>
    show _ = [UInt8.ofNat (v % 128)]
    rw [Nat.mod_eq_of_lt hv]
  | case2 v hv ih =>
    obtain ⟨n, hn⟩ : ∃ n, (unsigned (v / 128)).length = n + 1 := by
      rw [ih, length_padded]
      exact ⟨_, (Nat.sub_add_cancel (Nat.le_max_right _ 1)).symm⟩
    rw [List.length_cons, hn, padded, ← hn, ← ih]

/-- The chunks of the shortest form say the number. -/
theorem lt_of_length_unsigned (v : Nat) : v < 1 <<< (7 * (unsigned v).length) := by
  fun_induction unsigned v with
  | case1 v hv => exact hv
  | case2 v hv ih =>
    rw [List.length_cons, one_shiftLeft_seven_mul_succ]
    omega

theorem length_unsigned_pos (v : Nat) : 0 < (unsigned v).length := by
  rw [unsigned]
  split <;> exact Nat.succ_pos _

/-- A number is not complete before the last of its padded chunks. -/
theorem le_length_of_completes {n v : Nat} {bytes rest : List UInt8} {w : UInt64}
    (h : Completes (.leb128 kind a) bytes w) (hp : bytes <+: padded n v ++ rest) :
    n ≤ bytes.length := by
  fun_induction padded n v generalizing a bytes with
  | case1 v => exact Nat.zero_le _
  | case2 v => exact List.length_pos_iff.2 h.ne_nil
  | case3 n v ih =>
    have hcont := (continued_spec v).1
    cases h with
    | @last _ _ b _ hf =>
      obtain ⟨rfl, -⟩ := List.cons_prefix_cons.1 hp
      simp only [PartialValue.feed, Prod.mk.injEq] at hf
      have := continues_of_feed (Prod.ext hf.1 rfl)
      simp [hcont] at this
    | @more _ p' b bytes _ hf k =>
      rw [List.cons_append, List.cons_prefix_cons] at hp
      simp only [PartialValue.feed, Prod.mk.injEq] at hf
      rw [← hf.2] at k
      exact Nat.succ_le_succ (ih k hp.2)

end Leb128

namespace PartialValue

/-- The bytes of a fixed width, behind those that were read. -/
theorem completes_littleEndian {kind : IntKind} {n v : Nat} (value count : Nat) (hn : 0 < n)
    (hc : count + n = kind.maxLength) (hv : v < 1 <<< (8 * n)) :
    Completes (.fixed kind value count) (littleEndian n v)
      (.ofNat (value + v * (1 <<< (8 * count)))) := by
  induction n generalizing v value count with
  | zero => omega
  | succ n ih =>
    have hb : (UInt8.ofNat (v % 256)).toNat = v % 256 := by
      rw [UInt8.toNat_ofNat']
      omega
    rw [littleEndian]
    cases n with
    | zero =>
      have hv : v < 256 := hv
      refine .last (q := .fixed kind 0 0) ?_
      rw [PartialValue.feed, if_neg (by omega), hb, Leb128.shiftLeft_eq_mul, Nat.mod_eq_of_lt hv]
    | succ n =>
      rw [one_shiftLeft_eight_mul_succ] at hv
      have hsum : value + (v % 256) <<< (8 * count) + v / 256 * (1 <<< (8 * (count + 1))) =
          value + v * (1 <<< (8 * count)) := by
        rw [one_shiftLeft_eight_mul_succ, Leb128.shiftLeft_eq_mul, ← Nat.mul_assoc, Nat.add_assoc,
          ← Nat.add_mul]
        congr 2
        omega
      rw [← hsum]
      refine .more (q := .fixed kind (value + (v % 256) <<< (8 * count)) (count + 1)) ?_
        (ih _ _ (Nat.succ_pos n) (by omega) (by omega))
      rw [PartialValue.feed, if_pos (by omega), hb]

theorem completes_fixed {kind : IntKind} {w : UInt64} (hk : kind.leb128 = false)
    (h : w.toNat < 1 <<< (8 * kind.maxLength)) :
    Completes (start kind) (littleEndian kind.maxLength w.toNat) w := by
  have hc := completes_littleEndian 0 0 kind.maxLength_pos (Nat.zero_add _) h
  rw [Nat.zero_add, Nat.mul_zero, Nat.shiftLeft_zero, Nat.mul_one, UInt64.ofNat_toNat] at hc
  rwa [start, hk, if_neg Bool.false_ne_true]

end PartialValue

namespace Leb128

variable {kind : IntKind} {bits : Nat} {w : UInt64}

theorem le_chunksInWord (bits : Nat) : bits ≤ 7 * chunksInWord bits := by
  unfold chunksInWord
  omega

/-- A number that its chunks and its width can say is read from its padded form. -/
theorem completes_padded_fresh {n v : Nat} (hb : 0 < bits) (hb' : bits ≤ 64) (hn : 0 < n)
    (hc : n ≤ chunksInWord bits) (hv : v < 1 <<< (7 * n)) (hr : v < 1 <<< bits)
    (hw : .ofNat v = w) :
    PartialValue.Completes (.leb128 kind (.ofWidth false bits)) (padded n v) w := by
  have hbits : (Accumulator.ofWidth false bits).bits = bits := by
    simp only [Accumulator.ofWidth]
    omega
  have hmax : (Accumulator.ofWidth false bits).maxChunks = chunksInWord bits := by
    rw [Accumulator.maxChunks, hbits]
  have hsum : (Accumulator.ofWidth false bits).value +
      v * (Accumulator.ofWidth false bits).weight = v := by
    show 0 + v * 1 = v
    omega
  have h := @completes_padded kind (.ofWidth false bits) n v
    (Accumulator.fair_ofWidth _ _) rfl hn (by rw [hmax]; exact (Nat.zero_add n).symm ▸ hc) hv
    (by rw [hsum, hbits]; exact hr)
  rwa [hsum, hw] at h

/-- A number that its width can say is read from its shortest form. -/
theorem completes_unsigned {v : Nat} (hb : 0 < bits) (hb' : bits ≤ 64) (hr : v < 1 <<< bits)
    (hw : .ofNat v = w) :
    PartialValue.Completes (.leb128 kind (.ofWidth false bits)) (unsigned v) w := by
  have hpos : 0 < chunksInWord bits := by
    unfold chunksInWord
    omega
  have hle := one_shiftLeft_le (le_chunksInWord bits)
  rw [unsigned_eq_padded]
  exact completes_padded_fresh hb hb' (length_unsigned_pos v)
    (length_unsigned_le hpos (Nat.lt_of_lt_of_le hr hle)) (lt_of_length_unsigned v) hr
    hw

/-- A number that its width can say is read from its shortest form with a sign. -/
theorem completes_signed_fresh {v : Int} (hb : 0 < bits) (hb' : bits ≤ 64)
    (hr : InRange true bits v) (hw : .ofInt v = w) :
    PartialValue.Completes (.leb128 kind (.ofWidth true bits)) (signed v) w := by
  have hbits : (Accumulator.ofWidth true bits).bits = bits := by
    simp only [Accumulator.ofWidth]
    omega
  have hsum : ((Accumulator.ofWidth true bits).value : Int) +
      v * (Accumulator.ofWidth true bits).weight = v := by
    show (0 : Nat) + v * (1 : Nat) = v
    omega
  have h := @completes_signed kind (.ofWidth true bits) v
    (Accumulator.fair_ofWidth _ _) rfl (by rw [hsum, hbits]; exact hr)
  rwa [hsum, hw] at h

end Leb128

/-- The bytes of a value say the value. -/
theorem IntKind.completes_bytes {kind : IntKind} {w : UInt64} (h : kind.fits w = true) :
    (PartialValue.start kind).Completes (kind.bytes w) w := by
  have hr := fits_iff.1 h
  cases kind
  case uint8 | uint32 | uint64 =>
    exact PartialValue.completes_fixed rfl (Leb128.inRange_natCast.1 hr)
  case varint32 | varint64 =>
    exact Leb128.completes_signed_fresh (by decide) (by decide) hr (ofInt_toInt w)
  case varuint32 | varuint64 =>
    exact Leb128.completes_unsigned (by decide) (by decide) (Leb128.inRange_natCast.1 hr)
      UInt64.ofNat_toNat
  case fixedVaruint32 | fixedVaruint64 =>
    have hv := Leb128.inRange_natCast.1 hr
    exact Leb128.completes_padded_fresh (by decide) (by decide) (by decide) (Nat.le_refl _)
      (Nat.lt_of_lt_of_le hv (Leb128.one_shiftLeft_le (Leb128.le_chunksInWord _))) hv
      UInt64.ofNat_toNat

theorem PartialValue.remaining_start (kind : IntKind) : (start kind).remaining = kind.maxLength := by
  cases kind <;> rfl

/-- A value takes no more bytes than its kind allows. -/
theorem IntKind.length_bytes_le {kind : IntKind} {w : UInt64} (h : kind.fits w = true) :
    (kind.bytes w).length ≤ kind.maxLength := by
  rw [← PartialValue.remaining_start]
  exact (completes_bytes h).length_le (PartialValue.fair_start kind)

/-! ## Reading values -/

namespace Source

variable {src : Source} {bounds : List Position} {a a' : Nat} {b : UInt8} {bytes : List UInt8}
  {p : PartialValue} {w : UInt64}

theorem get_eq_ok : src.get bounds a = .ok b ↔ a < (src.stop bounds).byte ∧ src.bytes[a]? = some b := by
  unfold get
  split
  · rename_i h
    rw [and_iff_right h]
    cases src.bytes[a]? <;> simp
  · rename_i h
    simp [h]

/-- The bytes lie ahead of `a`, before the innermost end. -/
def Offers (src : Source) (bounds : List Position) (a : Nat) (bytes : List UInt8) : Prop :=
  ∀ k b, bytes[k]? = some b → src.get bounds (a + k) = .ok b

theorem offers_cons : src.Offers bounds a (b :: bytes) ↔
    src.get bounds a = .ok b ∧ src.Offers bounds (a + 1) bytes := by
  constructor
  · intro h
    refine ⟨h 0 b rfl, fun k b' hk => ?_⟩
    rw [Nat.add_right_comm]
    exact h (k + 1) b' (by simpa using hk)
  · rintro ⟨h0, h⟩ k b' hk
    cases k with
    | zero =>
      simp only [List.getElem?_cons_zero, Option.some.injEq] at hk
      exact hk ▸ h0
    | succ k =>
      have := h k b' (by simpa using hk)
      rwa [Nat.add_right_comm] at this

theorem Offers.isPrefix (h : src.Offers bounds a bytes) : bytes <+: src.bytes.drop a := by
  refine List.prefix_iff_getElem?.2 fun k hk => ?_
  rw [List.getElem?_drop]
  exact (get_eq_ok.1 (h k bytes[k] (List.getElem?_eq_getElem hk))).2

theorem offers_of_isPrefix (hp : bytes <+: src.bytes.drop a)
    (hs : a + bytes.length ≤ (src.stop bounds).byte) : src.Offers bounds a bytes := by
  intro k b hk
  obtain ⟨hlt, rfl⟩ := List.getElem?_eq_some_iff.1 hk
  refine get_eq_ok.2 ⟨by omega, ?_⟩
  rw [← List.getElem?_drop]
  exact List.prefix_iff_getElem?.1 hp k hlt

/-- What has bytes ahead of it ends at the last of them. -/
theorem Offers.le (h : src.Offers bounds a bytes) (hn : bytes ≠ []) :
    a + bytes.length ≤ src.bytes.length ∧ .ofByte (a + bytes.length) ≤ src.stop bounds := by
  have hpos := List.length_pos_iff.2 hn
  have hlast := h (bytes.length - 1) _ (List.getElem?_eq_getElem (by omega))
  obtain ⟨hs, hb⟩ := get_eq_ok.1 hlast
  have hlt := (List.getElem?_eq_some_iff.1 hb).1
  refine ⟨by omega, ?_⟩
  have := (src.stop bounds).bits_eq
  simp only [Position.le_def, Position.ofByte]
  omega

theorem offers_append {more : List UInt8} : src.Offers bounds a (bytes ++ more) ↔
    src.Offers bounds a bytes ∧ src.Offers bounds (a + bytes.length) more := by
  induction bytes generalizing a with
  | nil =>
    rw [List.nil_append, List.length_nil, Nat.add_zero, iff_and_self]
    exact fun _ k b hk => by simp at hk
  | cons b bytes ih =>
    rw [List.cons_append, offers_cons, offers_cons, ih, and_assoc, List.length_cons, Nat.add_assoc,
      Nat.add_comm 1]

/-- Bytes lie ahead in a block that they do not leave. -/
theorem Offers.inside {last : Position} {outer : List Position} (h : src.Offers bounds a bytes)
    (hs : a + bytes.length ≤ last.byte) : src.Offers (last :: outer) a bytes := by
  intro k b hk
  have hlt := (List.getElem?_eq_some_iff.1 hk).1
  have hstop : a + k < (src.stop (last :: outer)).byte := by
    rw [stop, List.headD_cons]
    omega
  exact get_eq_ok.2 ⟨hstop, (get_eq_ok.1 (h k b hk)).2⟩

/-- A value is read when bytes that complete it lie ahead. -/
theorem read_of_completes (h : p.Completes bytes w) (ho : src.Offers bounds a bytes) :
    ∃ p', src.read bounds a p = (.ok w, a + bytes.length, p') := by
  induction h generalizing a with
  | last h =>
    rw [read_eq, (offers_cons.1 ho).1]
    simp only [h]
    exact ⟨_, rfl⟩
  | @more p p' b bytes w h k ih =>
    obtain ⟨hb, ho⟩ := offers_cons.1 ho
    obtain ⟨q, hq⟩ := ih ho
    rw [read_eq, hb]
    simp only [h]
    exact ⟨q, by rw [hq, List.length_cons, Nat.add_assoc, Nat.add_comm 1]⟩

/-- Only bytes that complete a value are read as one. -/
theorem completes_of_read {a : Nat} {p p' : PartialValue}
    (h : src.read bounds a p = (.ok w, a', p')) :
    ∃ bytes, p.Completes bytes w ∧ src.Offers bounds a bytes ∧ a' = a + bytes.length := by
  rw [read_eq] at h
  cases hb : src.get bounds a with
  | error x => simp [hb] at h
  | ok b =>
    rw [hb] at h
    have hnil : src.Offers bounds (a + 1) [] := fun k b hk => by simp at hk
    match hf : p.feed b with
    | (.error x, q) => simp [hf] at h
    | (.ok (some v), q) =>
      simp only [hf, Prod.mk.injEq, Except.ok.injEq] at h
      exact ⟨[b], .last (h.1 ▸ hf), offers_cons.2 ⟨hb, hnil⟩, h.2.1.symm⟩
    | (.ok none, q) =>
      have := PartialValue.remaining_lt_of_feed hf
      simp only [hf] at h
      obtain ⟨bytes, hc, ho, rfl⟩ := completes_of_read h
      exact ⟨b :: bytes, .more hf hc, offers_cons.2 ⟨hb, ho⟩, by rw [List.length_cons]; omega⟩
termination_by p.remaining

/-- A value cannot be read on: the next byte is not to be had, or the last one has spoilt it. -/
inductive Stuck (src : Source) (bounds : List Position) (x : StreamError) (a : Nat)
    (p : PartialValue) : Prop
  | missing (h : src.get bounds a = .error x)
  | spoilt {q : PartialValue} {b : UInt8} (h : q.feed b = (.error x, p))

/-- A read that fails is stuck, and what it has is still a value in the making. -/
theorem stuck_of_read {a : Nat} {p p' : PartialValue} {x : StreamError}
    (h : src.read bounds a p = (.error x, a', p')) :
    src.Stuck bounds x a' p' ∧ (p.Fair → p'.Fair) := by
  rw [read_eq] at h
  cases hb : src.get bounds a with
  | error y =>
    simp only [hb, Prod.mk.injEq, Except.error.injEq] at h
    obtain ⟨rfl, rfl, rfl⟩ := h
    exact ⟨.missing hb, id⟩
  | ok b =>
    rw [hb] at h
    have hfair := fun hp : p.Fair => hp.feed b
    match hf : p.feed b with
    | (.error y, q) =>
      simp only [hf, Prod.mk.injEq, Except.error.injEq] at h hfair
      obtain ⟨rfl, rfl, rfl⟩ := h
      exact ⟨.spoilt hf, hfair⟩
    | (.ok (some v), q) => simp [hf] at h
    | (.ok none, q) =>
      have := PartialValue.remaining_lt_of_feed hf
      simp only [hf] at h hfair
      obtain ⟨hs, hq⟩ := stuck_of_read h
      exact ⟨hs, fun hp => hq (hfair hp)⟩
termination_by p.remaining

end Source

end Transcoder

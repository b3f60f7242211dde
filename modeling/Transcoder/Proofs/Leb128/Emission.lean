import Transcoder.Proofs.Leb128.Registers

/-!
# One loop for all forms

On a machine every form is emitted by one loop: take the low seven bits, shift the word, and stop or
go on. The forms differ in the shift, which keeps the sign or does not, and in the test for the last
chunk. A form is a run of this loop that comes to an end.

Results:
* `emits_unsigned`, `emits_signed`, `emits_fixed`: for every word the loop ends, behind the bytes of
  the form.
* `Ending.Emits.unique`: and it does nothing else.
-/
namespace Transcoder.Leb128

/-- The test that ends the loop. -/
inductive Ending where
  | unsigned
  | signedPositive
  | signedNegative
  | fixed (chunks : Nat)
  deriving DecidableEq, Repr

namespace Ending

/-- The test for the sign of a word. -/
def forSigned (w : UInt64) : Ending := if w.toInt64.toInt < 0 then signedNegative else signedPositive

/-- What is left of a word when its low chunk is gone. With a sign, copies of it come in. -/
def shift : Ending → UInt64 → UInt64
  | signedPositive, w | signedNegative, w => (w.toInt64 >>> 7).toUInt64
  | unsigned, w | fixed _, w => w >>> 7

/-- Whether a chunk is the last one, from what is left, the chunk and how many there were. -/
def isLast : Ending → (left : UInt64) → (chunk : UInt8) → (emitted : Nat) → Bool
  | unsigned, left, _, _ => left == 0
  | signedPositive, left, chunk, _ => left == 0 && chunk &&& 0x40 == 0
  | signedNegative, left, chunk, _ => left == .ofNat (UInt64.size - 1) && chunk &&& 0x40 != 0
  | fixed chunks, _, _, emitted => chunks ≤ emitted

/-- The low seven bits. -/
def chunk (w : UInt64) : UInt8 := w.toUInt8 &&& 0x7F

/-- The loop, behind so many chunks, emits these bytes of a word and ends. -/
inductive Emits (e : Ending) : UInt64 → Nat → List UInt8 → Prop
  | last {w : UInt64} {emitted : Nat} (h : e.isLast (e.shift w) (chunk w) (emitted + 1) = true) :
    Emits e w emitted [chunk w]
  | more {w : UInt64} {emitted : Nat} {bytes : List UInt8}
    (h : e.isLast (e.shift w) (chunk w) (emitted + 1) = false)
    (k : Emits e (e.shift w) (emitted + 1) bytes) : Emits e w emitted ((chunk w ||| 0x80) :: bytes)

/-- The loop does one thing. -/
theorem Emits.unique {e : Ending} {w : UInt64} {emitted : Nat} {bytes bytes' : List UInt8}
    (h : e.Emits w emitted bytes) (h' : e.Emits w emitted bytes') : bytes = bytes' := by
  induction h generalizing bytes' with
  | last hl =>
    cases h' with
    | last => rfl
    | more hm => simp [hl] at hm
  | more hm k ih =>
    cases h' with
    | last hl => simp [hm] at hl
    | more _ k' => rw [ih k']

theorem Emits.iff {e : Ending} {w : UInt64} {emitted : Nat} {bytes bytes' : List UInt8}
    (h : e.Emits w emitted bytes) : e.Emits w emitted bytes' ↔ bytes' = bytes :=
  ⟨fun h' => h'.unique h, fun he => he ▸ h⟩

variable {w : UInt64} {emitted : Nat}

/-! ## Chunks -/

theorem toNat_chunk (w : UInt64) : (chunk w).toNat = w.toNat % 128 := by
  rw [chunk, UInt8.toNat_and, UInt64.toNat_toUInt8]
  refine (Nat.and_two_pow_sub_one_eq_mod _ 7).trans ?_
  omega

theorem or_128 : ∀ n < 128, n ||| 128 = 128 + n := by decide +kernel

theorem chunk_continued (w : UInt64) : chunk w ||| 0x80 = continued w.toNat := by
  apply UInt8.toNat_inj.1
  rw [UInt8.toNat_or, toNat_chunk, continued, UInt8.toNat_ofNat']
  refine (or_128 _ (Nat.mod_lt _ (by decide))).trans ?_
  omega

theorem toNat_shift_unsigned (w : UInt64) : (w >>> 7).toNat = w.toNat / 128 := by
  rw [UInt64.toNat_shiftRight]
  exact Nat.shiftRight_eq_div_pow _ 7

theorem toInt_shift_signed (w : UInt64) :
    (w.toInt64 >>> 7).toUInt64.toInt64.toInt = w.toInt64.toInt / 128 := by
  have hseven : (7 : Int64).toBitVec.smod 64 = 7 := by decide
  rw [Int64.toInt64_toUInt64, ← Int64.toInt_toBitVec, Int64.toBitVec_shiftRight, hseven,
    BitVec.sshiftRight_eq', BitVec.toInt_sshiftRight]
  exact Int.shiftRight_eq_div_pow _ 7

/-! ## Forms -/

theorem emits_unsigned (w : UInt64) (emitted : Nat) :
    Ending.unsigned.Emits w emitted (Leb128.unsigned w.toNat) := by
  obtain ⟨v, hv⟩ : ∃ v, w.toNat = v := ⟨_, rfl⟩
  induction v using Nat.strongRecOn generalizing w emitted with
  | ind v ih =>
    have hleft : (w >>> 7 == 0) = decide (v < 128) := by
      rw [Bool.eq_iff_iff, beq_iff_eq, decide_eq_true_iff, ← UInt64.toNat_inj,
        toNat_shift_unsigned, hv]
      show v / 128 = 0 ↔ _
      omega
    by_cases hlast : v < 128
    · have hchunk : chunk w = UInt8.ofNat v := by
        apply UInt8.toNat_inj.1
        rw [toNat_chunk, UInt8.toNat_ofNat', hv]
        omega
      rw [hv, unsigned_of_lt hlast, ← hchunk]
      exact .last (hleft.trans (decide_eq_true hlast))
    · rw [unsigned_of_le (by omega), ← chunk_continued, ← toNat_shift_unsigned]
      refine .more (hleft.trans (decide_eq_false hlast)) (ih _ ?_ (w >>> 7) _ rfl)
      rw [toNat_shift_unsigned]
      omega

theorem toInt_inj {w w' : UInt64} : w = w' ↔ w.toInt64.toInt = w'.toInt64.toInt :=
  ⟨fun h => by rw [h], fun h => by rw [← ofInt_toInt w, h, ofInt_toInt]⟩

/-- The chunk of a number with a sign. -/
theorem toNat_chunk_signed (w : UInt64) : ((chunk w).toNat : Int) = w.toInt64.toInt % 128 := by
  rw [toNat_chunk, toInt_toInt64]
  simp only [UInt64.size]
  split <;> omega

/-- With the test for its sign, the last chunk of a number is the one that shows the sign. -/
theorem isLast_forSigned (w : UInt64) (emitted : Nat) :
    (forSigned w).isLast ((forSigned w).shift w) (chunk w) emitted =
      decide (-64 ≤ w.toInt64.toInt ∧ w.toInt64.toInt < 64) := by
  have hleft := toInt_shift_signed w
  have hchunk := toNat_chunk_signed w
  have hlt : (chunk w).toNat < 128 := by
    rw [toNat_chunk]
    exact Nat.mod_lt _ (by decide)
  have hsign := sign_iff hlt
  have hzero : (0 : UInt64).toInt64.toInt = 0 := by decide
  have hones : (UInt64.ofNat (UInt64.size - 1)).toInt64.toInt = -1 := by decide
  rw [Bool.eq_iff_iff, decide_eq_true_iff, forSigned]
  split
  · rw [isLast, shift, Bool.and_eq_true, beq_iff_eq, bne_iff_ne, hsign, toInt_inj, hleft, hones]
    omega
  · have hclear : chunk w &&& 0x40 = 0 ↔ (chunk w).toNat < 64 := by
      rw [← Nat.not_le, ← hsign, Decidable.not_not]
    rw [isLast, shift, Bool.and_eq_true, beq_iff_eq, beq_iff_eq, hclear, toInt_inj, hleft, hzero]
    omega

theorem toInt_shift_forSigned (w : UInt64) :
    ((forSigned w).shift w).toInt64.toInt = w.toInt64.toInt / 128 := by
  rw [forSigned]
  split <;> exact toInt_shift_signed w

/-- What is left of a number has its sign. -/
theorem forSigned_of_toInt {w left : UInt64} (h : left.toInt64.toInt = w.toInt64.toInt / 128) :
    forSigned left = forSigned w := by
  rw [forSigned, forSigned, h]
  split <;> split <;> first | rfl | omega

theorem emits_signed (w : UInt64) (emitted : Nat) :
    (forSigned w).Emits w emitted (Leb128.signed w.toInt64.toInt) := by
  obtain ⟨n, hn⟩ : ∃ n, w.toInt64.toInt.natAbs = n := ⟨_, rfl⟩
  induction n using Nat.strongRecOn generalizing w emitted with
  | ind n ih =>
    have hlast := isLast_forSigned w (emitted + 1)
    have hchunk := toNat_chunk_signed w
    by_cases hsmall : -64 ≤ w.toInt64.toInt ∧ w.toInt64.toInt < 64
    · have hbyte : UInt8.ofNat (w.toInt64.toInt % 128).toNat = chunk w := by
        apply UInt8.toNat_inj.1
        rw [UInt8.toNat_ofNat']
        omega
      rw [signed_of_small hsmall, hbyte]
      exact .last (hlast.trans (decide_eq_true hsmall))
    · have hbyte : continued (w.toInt64.toInt % 128).toNat = chunk w ||| 0x80 := by
        rw [chunk_continued, continued, continued, ← toNat_chunk]
        congr 2
        omega
      have hleft := toInt_shift_forSigned w
      rw [signed_of_large hsmall, hbyte, ← hleft]
      refine .more (hlast.trans (decide_eq_false hsmall)) ?_
      have hrest := ih _ (by omega) ((forSigned w).shift w) (emitted + 1) rfl
      rwa [forSigned_of_toInt hleft] at hrest

theorem emits_last_chunk {chunks : Nat} (h : chunks ≤ emitted + 1) :
    (fixed chunks).Emits w emitted [UInt8.ofNat (w.toNat % 128)] := by
  have hbyte : UInt8.ofNat (w.toNat % 128) = chunk w := by
    apply UInt8.toNat_inj.1
    rw [UInt8.toNat_ofNat', toNat_chunk]
    omega
  exact hbyte ▸ .last (decide_eq_true h)

/-- A padded form ends behind its last chunk, whatever is left. -/
theorem emits_fixed (chunks : Nat) (w : UInt64) (emitted : Nat) :
    (fixed chunks).Emits w emitted (padded (chunks - emitted) w.toNat) := by
  obtain ⟨n, hn⟩ : ∃ n, chunks - emitted = n := ⟨_, rfl⟩
  rw [hn]
  induction n generalizing w emitted with
  | zero => exact emits_last_chunk (by omega)
  | succ n ih =>
    cases n with
    | zero => exact emits_last_chunk (by omega)
    | succ n =>
      rw [padded, ← chunk_continued, ← toNat_shift_unsigned]
      exact .more (decide_eq_false (by omega)) (ih (w >>> 7) (emitted + 1) (by omega))

end Ending

end Transcoder.Leb128

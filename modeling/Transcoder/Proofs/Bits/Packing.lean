import Transcoder.Bits

/-!
# Bits packed into bytes

`Bits.ofBytes` is what a stream of bytes says bit by bit, `Bits.toBytes` packs bits into bytes, the
last of them filled up with zeros.

Results:
* `toNat_ofNat`: of a number written in so many bits, the low ones are left.
* `ofByte_toByte`, `toByte_ofByte`: a byte is its eight bits.
* `toBytes_ofBytes_append`: whole bytes stay whole bytes whatever bits stand behind them.
-/
namespace Transcoder.Bits

/-! ## Numbers -/

theorem foldl_eq (bs : List Bool) (n : Nat) :
    bs.foldl (fun n b => 2 * n + b.toNat) n = n * (1 <<< bs.length) + toNat bs := by
  induction bs generalizing n with
  | nil => exact (Nat.mul_one n).symm
  | cons b bs ih =>
    have hshift : 1 <<< (bs.length + 1) = 2 * 1 <<< bs.length := Nat.shiftLeft_succ ..
    rw [toNat, List.foldl_cons, ih (2 * n + b.toNat), List.foldl_cons, ih (2 * 0 + b.toNat),
      List.length_cons, hshift, Nat.mul_zero, Nat.zero_add, Nat.add_mul, Nat.add_assoc,
      Nat.mul_comm 2 n, Nat.mul_assoc]

theorem toNat_cons (b : Bool) (bs : List Bool) :
    toNat (b :: bs) = b.toNat * (1 <<< bs.length) + toNat bs := by
  rw [toNat, List.foldl_cons, foldl_eq, Nat.mul_zero, Nat.zero_add]

theorem toNat_lt (bs : List Bool) : toNat bs < 1 <<< bs.length := by
  induction bs with
  | nil => exact Nat.one_pos
  | cons b bs ih =>
    have hshift : 1 <<< (bs.length + 1) = 2 * 1 <<< bs.length := Nat.shiftLeft_succ ..
    rw [toNat_cons, List.length_cons, hshift]
    cases b <;> simp only [Bool.toNat_false, Bool.toNat_true] <;> omega

/-- As many bits that write the same number are the same. -/
theorem toNat_inj {bs cs : List Bool} (hl : bs.length = cs.length) (h : toNat bs = toNat cs) :
    bs = cs := by
  induction bs generalizing cs with
  | nil => exact (List.length_eq_zero_iff.1 hl.symm).symm
  | cons b bs ih =>
    cases cs with
    | nil => cases hl
    | cons c cs =>
      have hlen : bs.length = cs.length := Nat.succ.inj hl
      have hb := toNat_lt bs
      have hc := toNat_lt cs
      rw [toNat_cons, toNat_cons, hlen] at h
      rw [hlen] at hb
      have hbit : b = c := by
        cases b <;> cases c <;> simp only [Bool.toNat_false, Bool.toNat_true] at h <;>
          first | rfl | omega
      subst hbit
      rw [ih hlen (by omega)]

/-- Writing a number in `w` bits keeps its low `w` bits. -/
theorem toNat_ofNat (w n : Nat) : toNat (ofNat w n) = n % (1 <<< w) := by
  induction w with
  | zero => exact (Nat.mod_one n).symm
  | succ w ih =>
    have hbit : (n.testBit w).toNat = n / 2 ^ w % 2 := by
      rw [Nat.testBit_eq_decide_div_mod_eq]
      by_cases h : n / 2 ^ w % 2 = 1
      · rw [decide_eq_true h, h]
        rfl
      · rw [decide_eq_false h, Bool.toNat_false]
        omega
    rw [ofNat, toNat_cons, ih, length_ofNat, hbit, Nat.one_shiftLeft, Nat.one_shiftLeft,
      Nat.mod_pow_succ, Nat.mul_comm, Nat.add_comm]

/-- A number of bits that a word holds, and not none. -/
structure Width where
  count : Nat
  pos : 0 < count
  le : count ≤ 64

/-- Bits are the number that they write, in as many bits. -/
theorem ofNat_toNat (bs : List Bool) : ofNat bs.length (toNat bs) = bs := by
  apply toNat_inj (length_ofNat ..)
  rw [toNat_ofNat, Nat.mod_eq_of_lt (toNat_lt bs)]

/-! ## Bytes -/

/-- The bits of a byte that was made of fewer than eight are those bits and zeros. -/
theorem ofByte_toByte {bs : List Bool} (h : bs.length ≤ 8) :
    ofByte (toByte bs) = bs ++ List.replicate (8 - bs.length) false := by
  have hl : (bs ++ List.replicate (8 - bs.length) false).length = 8 := by
    rw [List.length_append, List.length_replicate]
    omega
  have hlt := toNat_lt (bs ++ List.replicate (8 - bs.length) false)
  have hbits := ofNat_toNat (bs ++ List.replicate (8 - bs.length) false)
  rw [hl] at hlt hbits
  rw [Nat.one_shiftLeft] at hlt
  rw [ofByte, toByte, UInt8.toNat_ofNat', Nat.mod_eq_of_lt hlt]
  exact hbits

theorem toByte_ofByte (b : UInt8) : toByte (ofByte b) = b := by
  have hlt : b.toNat < 1 <<< 8 := b.toNat_lt
  rw [toByte, length_ofByte, Nat.sub_self, List.replicate_zero, List.append_nil, ofByte,
    toNat_ofNat, Nat.mod_eq_of_lt hlt, UInt8.ofNat_toNat]

/-- The bits of bytes, one byte after the other. -/
def ofBytes (bytes : List UInt8) : List Bool := bytes.flatMap ofByte

@[simp] theorem ofBytes_nil : ofBytes [] = [] := rfl

@[simp] theorem ofBytes_cons (b : UInt8) (bytes : List UInt8) :
    ofBytes (b :: bytes) = ofByte b ++ ofBytes bytes := List.flatMap_cons ..

@[simp] theorem ofBytes_append (xs ys : List UInt8) :
    ofBytes (xs ++ ys) = ofBytes xs ++ ofBytes ys := List.flatMap_append ..

@[simp] theorem length_ofBytes (bytes : List UInt8) :
    (ofBytes bytes).length = 8 * bytes.length := by
  induction bytes with
  | nil => rfl
  | cons b rest ih =>
    rw [ofBytes_cons, List.length_append, length_ofByte, ih, List.length_cons]
    omega

/-- Bits packed into bytes, most significant first; the last byte is filled up with zeros. -/
def toBytes (bs : List Bool) : List UInt8 :=
  if bs = [] then [] else toByte (bs.take 8) :: toBytes (bs.drop 8)
termination_by bs.length
decreasing_by
  have := List.length_pos_iff.2 ‹_›
  rw [List.length_drop]
  omega

theorem toBytes_nil : toBytes [] = [] := by
  rw [toBytes, if_pos rfl]

/-- Up to eight bits make one byte. -/
theorem toBytes_of_length_le {bs : List Bool} (h : bs.length ≤ 8) (hn : bs ≠ []) :
    toBytes bs = [toByte bs] := by
  rw [toBytes, if_neg hn, List.take_of_length_le h, List.drop_of_length_le h, toBytes_nil]

/-- Whole bytes stay whole bytes whatever bits stand behind them. -/
theorem toBytes_ofBytes_append (bytes : List UInt8) (bs : List Bool) :
    toBytes (ofBytes bytes ++ bs) = bytes ++ toBytes bs := by
  induction bytes with
  | nil => rfl
  | cons b rest ih =>
    have hn : ofBytes (b :: rest) ++ bs ≠ [] := by
      apply List.ne_nil_of_length_pos
      rw [List.length_append, length_ofBytes, List.length_cons]
      omega
    rw [toBytes, if_neg hn, ofBytes_cons, List.append_assoc, List.take_left' (length_ofByte b),
      List.drop_left' (length_ofByte b), toByte_ofByte, ih]
    rfl

/-- Unpacked again, the bits come back with fewer than eight zeros behind them. -/
theorem ofBytes_toBytes (bs : List Bool) :
    ∃ n, n < 8 ∧ ofBytes (toBytes bs) = bs ++ List.replicate n false := by
  fun_induction toBytes bs with
  | case1 => exact ⟨0, by decide, rfl⟩
  | case2 bs hn ih =>
    obtain ⟨n, hlt, ih⟩ := ih
    by_cases hl : bs.length ≤ 8
    · refine ⟨8 - bs.length, ?_, ?_⟩
      · have := List.length_pos_iff.2 hn
        omega
      · rw [List.take_of_length_le hl, List.drop_of_length_le hl, toBytes_nil, ofBytes_cons,
          ofBytes_nil, List.append_nil, ofByte_toByte hl]
    · have htake : (bs.take 8).length = 8 := List.length_take_of_le (Nat.le_of_not_le hl)
      refine ⟨n, hlt, ?_⟩
      rw [ofBytes_cons, ih, ← List.append_assoc, ofByte_toByte (Nat.le_of_eq htake), htake,
        Nat.sub_self, List.replicate_zero, List.append_nil, List.take_append_drop]

/-- Eight bits, packed and unpacked. -/
theorem ofBytes_toByte {bs : List Bool} (h : bs.length = 8) : ofBytes [toByte bs] = bs := by
  rw [ofBytes_cons, ofBytes_nil, List.append_nil, ofByte_toByte (Nat.le_of_eq h), h]
  exact List.append_nil bs

end Transcoder.Bits

import Transcoder.Value.Write

/-!
# Encodings as lists of bytes

Numbers, values and sizes are written byte by byte through some `put`. Here is the list of the bytes
that each of them puts.

Results:
* `emit_eq`, `stageValue_eq`: a number or a value puts the bytes of its list, in order.
* `length_unsigned_le_of_headerLimit`: a size that fits a header of some chunks has a shortest form
  of no more chunks.
-/
namespace Transcoder

namespace Leb128

/-- `v` in exactly `chunks` chunks, and one where `chunks` is 0. -/
def padded : (chunks v : Nat) → List UInt8
  | 0, v | 1, v => [UInt8.ofNat (v % 128)]
  | n + 2, v => continued v :: padded (n + 1) (v / 128)

/-- The bytes of a 64-bit word in some form. -/
def Form.bytes : Form → UInt64 → List UInt8
  | .unsigned, w => Leb128.unsigned w.toNat
  | .signed, w => Leb128.signed w.toInt64.toInt
  | .padded chunks, w => Leb128.padded chunks w.toNat

section Emit

variable {m : Type → Type} [Monad m] [LawfulMonad m] (put : UInt8 → m Unit)

theorem emitPadded_eq (chunks v : Nat) : emitPadded put chunks v = (padded chunks v).forM put := by
  fun_induction padded chunks v with
  | case1 v => simp [emitPadded]
  | case2 v => simp [emitPadded]
  | case3 n v ih => simp [emitPadded, ih]

theorem emit_eq (form : Form) (w : UInt64) : emit put form w = (form.bytes w).forM put := by
  cases form with
  | unsigned => rfl
  | signed => rfl
  | padded chunks => exact emitPadded_eq put chunks w.toNat

end Emit

@[simp] theorem length_padded (chunks v : Nat) : (padded chunks v).length = max chunks 1 := by
  fun_induction padded chunks v with
  | case1 v => rfl
  | case2 v => rfl
  | case3 n v ih =>
    rw [List.length_cons, ih]
    omega

theorem length_padded_of_pos {chunks : Nat} (h : 0 < chunks) (v : Nat) :
    (padded chunks v).length = chunks := by
  rw [length_padded]
  omega

theorem one_shiftLeft_seven_mul_succ (n : Nat) : 1 <<< (7 * (n + 1)) = 128 * (1 <<< (7 * n)) := by
  rw [Nat.mul_add, Nat.shiftLeft_add, Nat.shiftLeft_eq _ (7 * 1), Nat.mul_comm]

/-- `n` chunks hold seven bits each. -/
theorem length_unsigned_le {n v : Nat} (hn : 0 < n) (h : v < 1 <<< (7 * n)) :
    (unsigned v).length ≤ n := by
  induction n generalizing v with
  | zero => omega
  | succ n ih =>
    by_cases hv : v < 128
    · rw [unsigned_of_lt hv, List.length_singleton]
      omega
    · rw [unsigned_of_le (by omega), List.length_cons]
      rw [one_shiftLeft_seven_mul_succ] at h
      cases n with
      | zero => exact absurd h (by simpa using hv)
      | succ n =>
        have := ih (Nat.succ_pos n) (v := v / 128) (by omega)
        omega

end Leb128

/-- The shortest form of a size is no longer than any header that can say it. -/
theorem length_unsigned_le_of_headerLimit {size reserved : Nat} (hr : 0 < reserved)
    (h : size ≤ headerLimit reserved) : (Leb128.unsigned size).length ≤ reserved := by
  unfold headerLimit at h
  split at h
  · have h10 : size < 1 <<< (7 * 10) := Nat.lt_of_le_of_lt h (by decide)
    have := Leb128.length_unsigned_le (by decide) h10
    omega
  · rename_i hlt
    apply Leb128.length_unsigned_le hr
    have : 0 < 1 <<< (7 * reserved) := by
      rw [Nat.one_shiftLeft]
      exact Nat.two_pow_pos _
    omega

/-- The bytes of a value of some kind. -/
def IntKind.bytes (kind : IntKind) (w : UInt64) : List UInt8 :=
  match kind.form? with
  | none => littleEndian kind.maxLength w.toNat
  | some form => form.bytes w

theorem Cursor.stageValue_eq (kind : IntKind) (w : UInt64) :
    stageValue kind w = (kind.bytes w).forM writeByte := by
  unfold stageValue IntKind.bytes
  cases kind.form? with
  | none => rfl
  | some form => exact Leb128.emit_eq writeByte form w

end Transcoder

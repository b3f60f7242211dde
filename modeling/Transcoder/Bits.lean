/-!
# Bytes as lists of bits

Bits run from the most significant to the least, the order in which a bit cursor meets them.
-/
namespace Transcoder.Bits

/-- The number that `bs` writes, most significant bit first. -/
def toNat (bs : List Bool) : Nat := bs.foldl (fun n b => 2 * n + b.toNat) 0

/-- The low `width` bits of `n`, most significant first. -/
def ofNat : (width n : Nat) → List Bool
  | 0, _ => []
  | w + 1, n => n.testBit w :: ofNat w n

/-- The eight bits of a byte. -/
def ofByte (b : UInt8) : List Bool := ofNat 8 b.toNat

/-- The byte that starts with `bs`, filled up with zero bits. -/
def toByte (bs : List Bool) : UInt8 :=
  UInt8.ofNat (toNat (bs ++ List.replicate (8 - bs.length) false))

@[simp] theorem length_ofNat (w n : Nat) : (ofNat w n).length = w := by
  induction w with
  | zero => rfl
  | succ w ih => simp [ofNat, ih]

@[simp] theorem length_ofByte (b : UInt8) : (ofByte b).length = 8 := length_ofNat ..

end Transcoder.Bits

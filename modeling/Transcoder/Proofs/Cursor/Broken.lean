import Transcoder.Proofs.Cursor.Actions

/-!
# Cursors on a broken tape

Only where a whole byte is taken from a tape, or put on it, is it asked whether the tape is broken.
A bit cursor does without that as long as the byte at hand lasts: what is left of it is read, and
what does not fill it up is written, as if nothing had happened. Everything else fails, and leaves
the cursor where it stands.

Results:
* `readByte_of_broken`, `readBits_of_broken`, `readBits_inHand`: the reads.
* `writeByte_of_broken`, `writeBitList_of_broken`, `writeBitList_inHand`: the writes.
-/
namespace Transcoder.Cursor

variable {t : Tape}

/-- A bit cursor before the innermost end may go on by a bit. -/
theorem checkBit_of_lt {role : Role} {c : Cursor role} (hg : c.grain = .bit)
    (h : c.position.bits < (c.stop t).bits) : c.checkBit t = .ok () := by
  rw [checkBit, if_neg (fun hne => hne hg), if_pos (show c.position < c.stop t from h)]

/-- A cursor that stands inside a byte is a bit cursor, and so is one whose block ends in one. -/
theorem Tidy.grain_of_not_whole {role : Role} {c : Cursor role} (h : c.Tidy)
    (hw : ¬(c.aligned && !c.stopsWithin t) = true) : c.grain = .bit := by
  cases hg : c.grain with
  | bit => rfl
  | byte =>
    have haligned : c.aligned = true := List.isEmpty_iff.2 (h.whole hg)
    have hstops : c.stopsWithin t = false := by simp [stopsWithin, hg]
    rw [haligned, hstops] at hw
    exact absurd rfl hw

/-! ## Reading -/

section

variable {c : Reader}

theorem fetch_of_broken (hb : t.broken = true) (c : Reader) :
    c.fetch t = .error (.brokenCursor c.address) := by
  have hf : ¬c.fast t = true := by simp [fast, hb]
  rw [fetch, if_neg hf, fetchSlow, checkFetch, if_pos hb]

/-- One bit less in hand is one bit further on, at most. -/
theorem position_le_of_bits {bit : Bool} {rest : List Bool} (h : c.bits = bit :: rest) :
    ({ c with bits := rest } : Reader).position.bits ≤ c.position.bits + 1 := by
  simp only [position, h, List.length_cons]
  omega

theorem readBit_inHand {bit : Bool} {rest : List Bool} (hg : c.grain = .bit)
    (hs : c.position.bits < (c.stop t).bits) (h : c.bits = bit :: rest) :
    c.readBit t = .ok (bit, { c with bits := rest }) := by
  simp only [readBit, checkBit_of_lt hg hs, bind, Except.bind, h]
  rfl

theorem readBit_of_broken (hb : t.broken = true) (hg : c.grain = .bit)
    (hs : c.position.bits < (c.stop t).bits) (h : c.bits = []) :
    c.readBit t = .error (.brokenCursor c.address) := by
  simp only [readBit, checkBit_of_lt hg hs, bind, Except.bind, h, fetch_of_broken hb]

/-- Bits in hand are read, one after the other. -/
theorem readBitsUntil_inHand {n : Nat} (acc : List Bool) (hg : c.grain = .bit)
    (hs : c.position.bits + n ≤ (c.stop t).bits) (hn : n ≤ c.bits.length) :
    readBitsUntil t n c acc = (.ok (acc ++ c.bits.take n), { c with bits := c.bits.drop n }) := by
  induction n generalizing c acc with
  | zero => rw [readBitsUntil, List.take_zero, List.append_nil, List.drop_zero]
  | succ n ih =>
    cases hbits : c.bits with
    | nil =>
      rw [hbits] at hn
      cases hn
    | cons bit rest =>
      have hle := position_le_of_bits hbits
      have hstop : ({ c with bits := rest } : Reader).stop t = c.stop t := rfl
      rw [hbits, List.length_cons] at hn
      have hrest := ih (c := { c with bits := rest }) (acc ++ [bit]) hg (by rw [hstop]; omega)
        (Nat.le_of_succ_le_succ hn)
      rw [readBitsUntil, readBit_inHand hg (by omega) hbits]
      simp only
      rw [hrest, List.append_assoc]
      rfl

/-- The next bit needs a byte that a broken tape does not give. -/
theorem readBitsUntil_of_broken {n : Nat} (acc : List Bool) (hb : t.broken = true)
    (hg : c.grain = .bit) (hs : c.position.bits + n ≤ (c.stop t).bits)
    (hn : c.bits.length < n) :
    ∃ c', readBitsUntil t n c acc = (.error (.brokenCursor c.address), c') := by
  induction n generalizing c acc with
  | zero => cases hn
  | succ n ih =>
    cases hbits : c.bits with
    | nil =>
      rw [readBitsUntil, readBit_of_broken hb hg (by omega) hbits]
      exact ⟨c, rfl⟩
    | cons bit rest =>
      have hle := position_le_of_bits hbits
      rw [readBitsUntil, readBit_inHand hg (by omega) hbits]
      rw [hbits, List.length_cons] at hn
      have hstop : ({ c with bits := rest } : Reader).stop t = c.stop t := rfl
      exact ih _ hg (by rw [hstop]; omega) (Nat.lt_of_succ_lt_succ hn)

theorem readBitList_of_broken {n : Nat} (hb : t.broken = true) (hg : c.grain = .bit)
    (hs : c.position.bits + n ≤ (c.stop t).bits) (hn : c.bits.length < n) :
    ∃ c', c.readBitList t n = (.error (.brokenCursor c.address), c') ∧
      c'.position = c.position := by
  obtain ⟨c', hc'⟩ := readBitsUntil_of_broken [] hb hg hs hn
  rw [readBitList, hc']
  exact ⟨c'.restore c t, rfl, rfl⟩

theorem readBits_inHand {count : Nat} (hg : c.grain = .bit)
    (hs : c.position.bits + min count 64 ≤ (c.stop t).bits) (hn : min count 64 ≤ c.bits.length) :
    ∃ w c', c.readBits t count = (.ok w, c') := by
  rw [readBits, readBitList, readBitsUntil_inHand [] hg hs hn]
  exact ⟨_, _, rfl⟩

theorem readBits_of_broken {count : Nat} (hb : t.broken = true) (hg : c.grain = .bit)
    (hs : c.position.bits + min count 64 ≤ (c.stop t).bits) (hn : c.bits.length < min count 64) :
    ∃ c', c.readBits t count = (.error (.brokenCursor c.address), c') ∧
      c'.position = c.position := by
  obtain ⟨c', hc', hp⟩ := readBitList_of_broken hb hg hs hn
  rw [readBits, hc']
  exact ⟨c', rfl, hp⟩

theorem readByte_of_broken (hb : t.broken = true) (h : c.Tidy)
    (hs : c.position.bits + 8 ≤ (c.stop t).bits) :
    ∃ c', c.readByte t = (.error (.brokenCursor c.address), c') ∧ c'.position = c.position := by
  rw [readByte]
  by_cases hw : (c.aligned && !c.stopsWithin t) = true
  · rw [if_pos hw, fetch_of_broken hb]
    exact ⟨c, rfl, rfl⟩
  · rw [if_neg hw]
    obtain ⟨c', hc', hp⟩ := readBitList_of_broken hb (h.grain_of_not_whole hw) hs h.short
    rw [hc']
    exact ⟨c', rfl, hp⟩

end

/-! ## Writing -/

section

variable {w : Writer}

theorem store_of_broken (hb : t.broken = true) (b : UInt8) (w : Writer) :
    store b (t, w) = .error (.brokenCursor w.address) (t, w) := by
  have hf : ¬w.fast t = true := by simp [fast, hb]
  rw [store, if_neg hf, storeSlow, if_pos hb]

theorem writeBit_inHand {bit : Bool} (hg : w.grain = .bit)
    (hs : w.position.bits < (w.stop t).bits) (hn : w.bits.length ≠ 7) :
    writeBit bit (t, w) = .ok () (t, { w with bits := w.bits ++ [bit] }) := by
  rw [writeBit, checkBit_of_lt hg hs]
  simp only
  rw [if_neg hn]

theorem writeBit_of_broken {bit : Bool} (hb : t.broken = true) (hg : w.grain = .bit)
    (hs : w.position.bits < (w.stop t).bits) (hn : w.bits.length = 7) :
    writeBit bit (t, w) = .error (.brokenCursor w.address) (t, w) := by
  rw [writeBit, checkBit_of_lt hg hs]
  simp only
  rw [if_pos hn, store_of_broken hb]

theorem position_append (w : Writer) (bit : Bool) :
    ({ w with bits := w.bits ++ [bit] } : Writer).position.bits = w.position.bits + 1 := by
  rw [position_eq, position_eq, List.length_append]
  rfl

/-- Bits are taken up until they fill the byte. -/
theorem forM_writeBit_inHand {bits : List Bool} (hg : w.grain = .bit)
    (hs : w.position.bits + bits.length ≤ (w.stop t).bits) (hn : w.bits.length + bits.length < 8) :
    bits.forM writeBit (t, w) = .ok () (t, { w with bits := w.bits ++ bits }) := by
  induction bits generalizing w with
  | nil => rw [List.append_nil]; rfl
  | cons bit rest ih =>
    rw [List.length_cons] at hs hn
    have hlength : (w.bits ++ [bit]).length = w.bits.length + 1 := List.length_append
    have hposition := w.position_append bit
    have hstop : ({ w with bits := w.bits ++ [bit] } : Writer).stop t = w.stop t := rfl
    have hrest := ih (w := { w with bits := w.bits ++ [bit] }) hg
      (by rw [hposition, hstop]; omega) (by rw [hlength]; omega)
    rw [List.append_assoc] at hrest
    show (writeBit bit >>= fun _ => rest.forM writeBit) (t, w) = _
    rw [bind_of_ok (writeBit_inHand hg (by omega) (by omega))]
    exact hrest

theorem writeBitList_inHand {bits : List Bool} (hg : w.grain = .bit)
    (hs : w.position.bits + bits.length ≤ (w.stop t).bits) (hn : w.bits.length + bits.length < 8) :
    writeBitList bits (t, w) = .ok () (t, { w with bits := w.bits ++ bits }) := by
  rw [writeBitList, forM_writeBit_inHand hg hs hn, wholly]

theorem forM_writeBit_of_broken {bits : List Bool} (hb : t.broken = true) (hg : w.grain = .bit)
    (hs : w.position.bits + bits.length ≤ (w.stop t).bits) (hshort : w.bits.length < 8)
    (hn : 8 ≤ w.bits.length + bits.length) :
    ∃ w', bits.forM writeBit (t, w) = .error (.brokenCursor w.address) (t, w') := by
  induction bits generalizing w with
  | nil => exact absurd hshort (Nat.not_lt.2 hn)
  | cons bit rest ih =>
    rw [List.length_cons] at hs hn
    show ∃ w', (writeBit bit >>= fun _ => rest.forM writeBit) (t, w) = _
    by_cases h7 : w.bits.length = 7
    · rw [bind_of_error (writeBit_of_broken hb hg (by omega) h7)]
      exact ⟨w, rfl⟩
    · have hlength : (w.bits ++ [bit]).length = w.bits.length + 1 := List.length_append
      have hposition := w.position_append bit
      have hstop : ({ w with bits := w.bits ++ [bit] } : Writer).stop t = w.stop t := rfl
      rw [bind_of_ok (writeBit_inHand hg (by omega) h7)]
      exact ih hg (by rw [hposition, hstop]; omega) (by rw [hlength]; omega)
        (by rw [hlength]; omega)

theorem writeBitList_of_broken {bits : List Bool} (hb : t.broken = true) (hg : w.grain = .bit)
    (hs : w.position.bits + bits.length ≤ (w.stop t).bits) (hshort : w.bits.length < 8)
    (hn : 8 ≤ w.bits.length + bits.length) :
    ∃ w', writeBitList bits (t, w) = .error (.brokenCursor w.address) (t, w') ∧
      w'.position = w.position := by
  obtain ⟨w', hw'⟩ := forM_writeBit_of_broken hb hg hs hshort hn
  rw [writeBitList, hw', wholly, if_neg (Nat.lt_irrefl _)]
  exact ⟨w'.restore w t, rfl, rfl⟩

theorem writeByte_of_broken (hb : t.broken = true) (h : w.Tidy)
    (hs : w.position.bits + 8 ≤ (w.stop t).bits) (b : UInt8) :
    ∃ w', writeByte b (t, w) = .error (.brokenCursor w.address) (t, w') ∧
      w'.position = w.position := by
  rw [writeByte]
  by_cases hw : (w.aligned && !w.stopsWithin t) = true
  · rw [if_pos hw, store_of_broken hb]
    exact ⟨w, rfl, rfl⟩
  · rw [if_neg hw]
    have hlength := Bits.length_ofByte b
    refine writeBitList_of_broken hb (h.grain_of_not_whole hw) ?_ h.short ?_
    · rwa [hlength]
    · rw [hlength]
      exact Nat.le_add_left 8 _

end

end Transcoder.Cursor

import Transcoder.Block.Read

/-!
# How far a reader can go

`room` bounds the bits that a reader can still take from a tape as it stands. Every read that
succeeds takes from it and nothing else adds to it, so reading ends.
-/
namespace Transcoder.Cursor

/-- Bits from the reader to the fill address, or to the end of its cached span if that is later. -/
def room (c : Reader) (t : Tape) : Nat := 8 * (max t.fill c.span - c.address) + c.bits.length

theorem span_refresh_le (c : Reader) (t : Tape) : (c.refresh t).span ≤ t.fill := by
  simp only [refresh]
  split
  · exact Nat.zero_le _
  · split
    · exact Nat.min_le_right ..
    · exact Nat.zero_le _

theorem room_refresh_le (c : Reader) (t : Tape) : (c.refresh t).room t ≤ c.room t := by
  have h := span_refresh_le c t
  simp only [room]
  have ha : (c.refresh t).address = c.address := rfl
  have hb : (c.refresh t).bits = c.bits := rfl
  rw [ha, hb]
  omega

theorem eq_of_load {c c' : Reader} {t : Tape} {b : UInt8} (h : c.load t = .ok (b, c')) :
    c' = { c with address := c.address + 1 } := by
  unfold load at h
  split at h
  · simp only [Except.ok.injEq, Prod.mk.injEq] at h
    exact h.2.symm
  · simp at h

theorem lt_fill_of_checkFetch {c : Reader} {t : Tape} (h : c.checkFetch t = .ok ()) :
    c.address < t.fill := by
  unfold checkFetch at h
  split at h
  · simp at h
  · rename_i hb
    simp only [bind, Except.bind] at h
    split at h
    · simp at h
    · split at h
      · simp at h
      · rename_i hr
        unfold Tape.checkReadable at hr
        rw [if_neg hb] at hr
        split at hr
        · assumption
        · split at hr <;> simp at hr

/-- A byte that was fetched lay before the fill address or inside the span. -/
theorem room_of_fetch {c c' : Reader} {t : Tape} {b : UInt8} (h : c.fetch t = .ok (b, c')) :
    c'.bits = c.bits ∧ c'.room t + 8 ≤ c.room t := by
  unfold fetch at h
  split at h
  · rename_i hf
    obtain rfl := eq_of_load h
    simp only [fast, Bool.and_eq_true, decide_eq_true_eq] at hf
    refine ⟨rfl, ?_⟩
    simp only [room]
    omega
  · unfold fetchSlow at h
    split at h
    · rename_i hc
      have hlt := lt_fill_of_checkFetch hc
      obtain rfl := eq_of_load h
      refine ⟨rfl, ?_⟩
      have hs := span_refresh_le { c with page := some (t.pageOf c.address) } t
      simp only [room, refresh] at hs ⊢
      omega
    · simp at h

theorem room_lt_of_readBit {c c' : Reader} {t : Tape} {bit : Bool}
    (h : c.readBit t = .ok (bit, c')) : c'.room t < c.room t := by
  simp only [readBit, bind, Except.bind] at h
  split at h
  · simp at h
  · split at h
    · rename_i hbits
      simp only [pure, Except.pure, Except.ok.injEq, Prod.mk.injEq] at h
      obtain ⟨-, rfl⟩ := h
      simp [room, hbits]
    · split at h
      · simp at h
      · rename_i hbits _ p hf
        obtain ⟨b, d⟩ := p
        simp only [pure, Except.pure, Except.ok.injEq, Prod.mk.injEq] at h
        obtain ⟨-, rfl⟩ := h
        obtain ⟨hb, hr⟩ := room_of_fetch hf
        simp only [room, hb, hbits, List.length_nil, List.length_tail, Bits.length_ofByte] at hr ⊢
        omega

theorem room_of_readBitsUntil {t : Tape} {n : Nat} {c c' : Reader} {acc bits : List Bool}
    (h : readBitsUntil t n c acc = (.ok bits, c')) :
    c'.room t + n ≤ c.room t := by
  induction n generalizing c acc with
  | zero =>
    simp only [readBitsUntil, Prod.mk.injEq] at h
    simp [h.2]
  | succ n ih =>
    simp only [readBitsUntil] at h
    split at h
    · simp at h
    · rename_i hb
      have := room_lt_of_readBit hb
      have := ih h
      omega

theorem room_of_readByte {c c' : Reader} {t : Tape} {b : UInt8}
    (h : c.readByte t = (.ok b, c')) : c'.room t + 8 ≤ c.room t := by
  unfold readByte at h
  split at h
  · split at h
    · rename_i hf
      simp only [Prod.mk.injEq] at h
      obtain ⟨-, rfl⟩ := h
      exact (room_of_fetch hf).2
    · simp at h
  · split at h
    · rename_i bits d hl
      simp only [Prod.mk.injEq] at h
      obtain ⟨-, rfl⟩ := h
      unfold readBitList at hl
      split at hl
      · rename_i hu
        simp only [Prod.mk.injEq] at hl
        obtain ⟨-, rfl⟩ := hl
        exact room_of_readBitsUntil hu
      · simp at hl
    · simp at h

theorem room_lt_of_readByte {c c' : Reader} {t : Tape} {b : UInt8}
    (h : c.readByte t = (.ok b, c')) : c'.room t < c.room t := by
  have := room_of_readByte h
  omega

/-- A value takes at least one byte. -/
theorem room_lt_of_resume {t : Tape} {c c' : Reader} {p p' : PartialValue} {w : UInt64}
    (h : c.resume t p = (.ok w, c', p')) : c'.room t < c.room t := by
  fun_induction resume t c p generalizing c' p' with
  | case1 => simp at h
  | case2 => simp at h
  | case3 c p c₁ b hb w₁ p₁ hf =>
    simp only [Prod.mk.injEq] at h
    obtain ⟨-, rfl, -⟩ := h
    exact room_lt_of_readByte hb
  | case4 c p c₁ b hb p₁ hf _ ih =>
    have := room_lt_of_readByte hb
    have := ih h
    omega

theorem room_le_of_pushBound {c c' : Reader} {t : Tape} {p : Position}
    (h : c.pushBound t p = .ok c') : c'.room t ≤ c.room t := by
  unfold pushBound at h
  split at h
  · simp only [Except.ok.injEq] at h
    subst h
    exact room_refresh_le { c with bounds := p :: c.bounds } t
  · simp at h

theorem room_le_of_enterSized {c c' : Reader} {t : Tape} {size : Nat} {e : Extent}
    (h : c.enterSized t size = .ok (e, c')) : c'.room t ≤ c.room t := by
  simp only [enterSized] at h
  split at h
  · rename_i hp
    simp only [Except.ok.injEq, Prod.mk.injEq] at h
    obtain ⟨-, rfl⟩ := h
    exact room_le_of_pushBound hp
  · simp at h

/-- Leaving a block moves nothing but the innermost end. -/
theorem room_of_leave {c c' : Reader} {t : Tape} {e : Extent} (h : c.leave t e = .ok c') :
    c'.room t ≤ c.room t ∧ c'.position = c.position := by
  unfold leave at h
  split at h
  · unfold popBound at h
    split at h
    · rename_i hp
      split at hp
      · simp at hp
      · rename_i outer _
        simp only [Except.ok.injEq] at hp h
        subst hp h
        exact ⟨room_refresh_le { c with bounds := outer } t, rfl⟩
    · simp at h
  · simp at h

end Transcoder.Cursor

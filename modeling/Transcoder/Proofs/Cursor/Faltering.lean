import Transcoder.Block.Write
import Transcoder.Proofs.Cursor.Attempts

/-!
# Writes that go byte by byte

The fields that frame a block, and the bytes that are moved up to a shorter header, go one by one.
Where one of them is refused, those before it stay. So such a write, at the end of its stream, is
all or nothing only where it is refused at its very first byte.

Results:
* `Kept.writeByte_iff`: which bytes are taken.
* `faltersUnless_writePaddedSize` and others: when a refused write leaves stream and writer alone.
-/
namespace Transcoder

namespace Cursor

variable {t t' : Tape} {w w' : Writer}

/-! ## Bytes that are taken -/

theorem writeBit_of_checkBit_error {e : StreamError} (h : w.checkBit t = .error e) (bit : Bool) :
    writeBit bit (t, w) = .error e (t, w) := by
  rw [writeBit, h]

theorem lt_of_checkBit (hg : w.grain = .bit) (h : ¬w.position.bits < (w.stop t).bits) :
    ∃ e, w.checkBit t = .error e := by
  rw [checkBit, if_neg (fun hne => hne hg), if_neg (show ¬w.position < w.stop t from h)]
  exact ⟨_, rfl⟩

/-- A bit that completes a byte which may not be stored. -/
theorem writeBit_of_checkStore_error {e : StreamError} (hg : w.grain = .bit)
    (hpos : w.position.bits < (w.stop t).bits) (h7 : w.bits.length = 7)
    (hc : w.checkStore t = .error e) (bit : Bool) : writeBit bit (t, w) = .error e (t, w) := by
  rw [writeBit, checkBit_of_lt hg hpos]
  simp only [if_pos h7, store_of_error hc]

/-- A bit that completes a byte has it stored. -/
theorem Kept.writeBit_of_checkStore (hk : w.Kept t) (hg : w.grain = .bit)
    (hpos : w.position.bits < (w.stop t).bits) (h7 : w.bits.length = 7)
    (hc : w.checkStore t = .ok ()) (bit : Bool) :
    writeBit bit (t, w) =
      .ok () (((w.paged t).put w.address (Bits.toByte (w.bits ++ [bit]))).noteWritten
        (w.address + 1), { w.onPage t with address := w.address + 1, bits := [] }) := by
  rw [writeBit, checkBit_of_lt hg hpos]
  simp only [if_pos h7, hk.store_of_ok hc]

/-- The bits at hand have no say in whether a byte may be stored. -/
theorem checkStore_withBits (w : Writer) (t : Tape) (bits : List Bool) :
    ({ w with bits } : Writer).checkStore t = .ok () ↔ w.checkStore t = .ok () := by
  rw [checkStore_eq_ok, checkStore_eq_ok, checkByte_eq_ok, checkByte_eq_ok]
  rfl

/-- Bits that do not fill the byte at hand are taken where they lie before the innermost end. -/
theorem forM_writeBit_inHand_iff (bits : List Bool) (hg : w.grain = .bit)
    (hn : w.bits.length + bits.length < 8) (hs : w.position.bits ≤ (w.stop t).bits) :
    (∃ s, bits.forM writeBit (t, w) = .ok () s) ↔
      w.position.bits + bits.length ≤ (w.stop t).bits := by
  refine ⟨fun h => ?_, fun h => ⟨_, forM_writeBit_inHand hg h hn⟩⟩
  induction bits generalizing w with
  | nil => exact hs
  | cons bit rest ih =>
    have h : ∃ s, (writeBit bit >>= fun _ => rest.forM writeBit) (t, w) = .ok () s := h
    rw [List.length_cons] at hn ⊢
    by_cases hpos : w.position.bits < (w.stop t).bits
    · rw [bind_of_ok (writeBit_inHand hg hpos (by omega))] at h
      have hstop : ({ w with bits := w.bits ++ [bit] } : Writer).stop t = w.stop t := rfl
      have hrest := ih (w := { w with bits := w.bits ++ [bit] }) hg
        (by simp only [List.length_append, List.length_singleton]; omega)
        (by rw [position_append, hstop]; exact hpos) h
      rw [position_append, hstop] at hrest
      omega
    · obtain ⟨e, hcheck⟩ := lt_of_checkBit hg hpos
      rw [bind_of_error (writeBit_of_checkBit_error hcheck bit)] at h
      obtain ⟨s, h⟩ := h
      cases h

/-- Bits that fill the byte at hand, but not another one, are taken where a byte may be stored and
they lie before the innermost end. -/
theorem Kept.forM_writeBit_iff (bits : List Bool) (hk : w.Kept t) (hg : w.grain = .bit)
    (hshort : w.bits.length < 8) (hfull : 8 ≤ w.bits.length + bits.length)
    (hlength : bits.length ≤ 8) : (∃ s, bits.forM writeBit (t, w) = .ok () s) ↔
      w.checkStore t = .ok () ∧ w.position.bits + bits.length ≤ (w.stop t).bits := by
  induction bits generalizing w with
  | nil => exact absurd hshort (Nat.not_lt.2 hfull)
  | cons bit rest ih =>
    show (∃ s, (writeBit bit >>= fun _ => rest.forM writeBit) (t, w) = .ok () s) ↔ _
    rw [List.length_cons] at hfull hlength ⊢
    by_cases hpos : w.position.bits < (w.stop t).bits
    · by_cases h7 : w.bits.length = 7
      · -- the byte is stored, and the other bits do not fill the next one
        cases hc : w.checkStore t with
        | error e =>
          rw [bind_of_error (writeBit_of_checkStore_error hg hpos h7 hc bit)]
          simp
        | ok u =>
          rw [bind_of_ok (hk.writeBit_of_checkStore hg hpos h7 hc bit), and_iff_right rfl]
          have hstop : ({ w.onPage t with address := w.address + 1, bits := [] } : Writer).stop
              (((w.paged t).put w.address (Bits.toByte (w.bits ++ [bit]))).noteWritten
                (w.address + 1)) = w.stop t := by
            rw [stop, stop, (hk.stored_grows hc _).endPosition, bounds_onPage]
          have hnext := forM_writeBit_inHand_iff rest
            (t := ((w.paged t).put w.address (Bits.toByte (w.bits ++ [bit]))).noteWritten
              (w.address + 1)) (w := { w.onPage t with address := w.address + 1, bits := [] })
            ((grain_onPage w t).trans hg) (by simp only [List.length_nil]; omega)
            (by
              rw [position_eq] at hpos
              simp only [hstop, position_eq, List.length_nil]
              omega)
          rw [hstop, position_eq] at hnext
          rw [position_eq]
          simp only [List.length_nil] at hnext
          refine hnext.trans ?_
          omega
      · have hstep := ih (w := { w with bits := w.bits ++ [bit] }) ⟨hk.page, hk.span⟩ hg
          (by simp only [List.length_append, List.length_singleton]; omega)
          (by simp only [List.length_append, List.length_singleton]; omega) (by omega)
        have hstop : ({ w with bits := w.bits ++ [bit] } : Writer).stop t = w.stop t := rfl
        rw [checkStore_withBits, position_append, hstop, Nat.add_assoc, Nat.add_comm 1] at hstep
        rw [bind_of_ok (writeBit_inHand hg hpos h7)]
        exact hstep
    · obtain ⟨e, hcheck⟩ := lt_of_checkBit hg hpos
      rw [bind_of_error (writeBit_of_checkBit_error hcheck bit)]
      refine iff_of_false (by simp) fun h => ?_
      have := h.2
      omega

/-- The writer takes a byte where it stands: it may store one and, if the byte goes bit by bit, its
eight bits lie before the innermost end. -/
def Takes (w : Writer) (t : Tape) : Prop :=
  w.checkStore t = .ok () ∧
    ((w.aligned && !w.stopsWithin t) = true ∨ w.position.bits + 8 ≤ (w.stop t).bits)

theorem Kept.writeByte_iff (hk : w.Kept t) (htidy : w.Tidy) (b : UInt8) :
    (∃ s, writeByte b (t, w) = .ok () s) ↔ w.Takes t := by
  rw [Takes, writeByte]
  by_cases hwhole : (w.aligned && !w.stopsWithin t) = true
  · rw [if_pos hwhole, and_iff_left (.inl hwhole)]
    cases hc : w.checkStore t with
    | error e =>
      rw [store_of_error hc]
      simp
    | ok u =>
      rw [hk.store_of_ok hc]
      exact iff_of_true ⟨_, rfl⟩ rfl
  · have hshort := htidy.short
    have hlength := Bits.length_ofByte b
    have hbits := hk.forM_writeBit_iff (Bits.ofByte b) (htidy.grain_of_not_whole hwhole)
      hshort (by omega) (by omega)
    rw [hlength] at hbits
    have hlike := resembles_writeBitList (Bits.ofByte b) (t, w)
    rw [if_neg hwhole, or_iff_right hwhole, ← hbits]
    generalize (Bits.ofByte b).forM writeBit (t, w) = r at hlike
    generalize writeBitList (Bits.ofByte b) (t, w) = r' at hlike
    cases hlike with
    | ok s => exact .rfl
    | error => exact iff_of_false (by simp) (by simp)

/-! ## Bytes, one after the other -/

/-- A refused byte at the end of the stream leaves no trace. -/
theorem Regular.of_writeByte_error {b : UInt8} {e : StreamError} (h : w.Regular t)
    (hend : w.address = t.fill) (hr : writeByte b (t, w) = .error e (t', w')) :
    (t'.fill = t.fill ∧ w'.position = w.position) ∧ ¬w.Takes t := by
  obtain ⟨haddress, hbits, -⟩ := (takesBack_writeByte b).back h.toKept hr
  refine ⟨⟨(takesBack_writeByte b).fill_of_atEnd h.toKept hend hr, ?_⟩, fun htakes => ?_⟩
  · simp only [position, haddress, hbits]
  · obtain ⟨s, hok⟩ := (h.toKept.writeByte_iff h.tidy b).2 htakes
    rw [hr] at hok
    cases hok

/-- A byte that was taken is never taken back by what follows. -/
theorem Regular.of_writeByte_ok {b : UInt8} (h : w.Regular t)
    (hr : writeByte b (t, w) = .ok () (t', w')) {s : Tape × Writer} (hs : Stores (t', w') s) :
    s.2.position ≠ w.position ∧ w.Takes t := by
  have hy := putsWhole_writeByte b h.toKept
  rw [hr] at hy
  refine ⟨fun hp => ?_, (h.toKept.writeByte_iff h.tidy b).1 ⟨_, hr⟩⟩
  cases hy with
  | ok hstores hposition =>
    have hshort := h.tidy.short
    have hshort' := (hstores.regular h).tidy.short
    have hahead := hs.ahead.1
    have hbits : s.2.position.bits = w.position.bits := congrArg Position.bits hp
    rw [position_eq, position_eq] at hposition hbits
    simp only at hahead hposition hshort'
    omega

end Cursor

namespace Writing

open Cursor

/-- At the end of the stream, an action that is refused leaves the stream as long as it was and the
writer in place where `P` says so, and not elsewhere. -/
def FaltersUnless {ε α : Type} (P : Tape → Writer → Prop) (act : Writing ε α) : Prop :=
  ∀ ⦃t w e t' w'⦄, w.Regular t → w.address = t.fill → act (t, w) = .error e (t', w') →
    (t'.fill = t.fill ∧ w'.position = w.position ↔ P t w)

variable {ε ε' α : Type} {P : Tape → Writer → Prop} {act : Writing ε α}

theorem FaltersUnless.mapError (h : FaltersUnless P act) (f : ε → ε') :
    FaltersUnless P (act.mapError f) := by
  intro t w e t' w' hw hend hr
  obtain ⟨e, hr⟩ := error_of_mapError hr
  exact h hw hend hr

/-- A byte, and then something else. -/
theorem faltersUnless_bind {b : UInt8} {next : Writing StreamError Unit} (hnext : Series next) :
    FaltersUnless (fun t w => ¬w.Takes t) (do writeByte b; next : Writing StreamError Unit) := by
  intro t w e t' w' hw hend hr
  cases hb : writeByte b (t, w) with
  | error e₁ s =>
    rw [bind_of_error hb] at hr
    cases hr
    obtain ⟨hsame, hnot⟩ := hw.of_writeByte_error hend hb
    exact iff_of_true hsame hnot
  | ok u s =>
    obtain ⟨t₁, w₁⟩ := s
    rw [bind_of_ok hb] at hr
    have hstored := (PutsWhole.puts (putsWhole_writeByte b)).series hw.toKept
    rw [hb] at hstored
    cases hstored with
    | ok hs _ =>
      have hy := hnext (hs.keeps hw.toKept).1
      rw [hr] at hy
      cases hy with
      | error hrest _ =>
        obtain ⟨hmoved, htakes⟩ := hw.of_writeByte_ok hb hrest
        exact iff_of_false (fun h => hmoved h.2) (not_not_intro htakes)

theorem faltersUnless_bytes {bytes : List UInt8} (hne : bytes ≠ []) :
    FaltersUnless (fun t w => ¬w.Takes t) (bytes.forM writeByte) := by
  obtain ⟨b, rest, rfl⟩ := List.exists_cons_of_ne_nil hne
  exact faltersUnless_bind (puts_writeBytes rest).series

end Writing

namespace Cursor

open Writing

theorem faltersUnless_writePaddedSize (size reserved : Nat) :
    FaltersUnless (fun t w => headerLimit reserved < size ∨ ¬w.Takes t)
      (writePaddedSize size reserved) := by
  rw [writePaddedSize]
  by_cases hlimit : headerLimit reserved < size
  · rw [if_pos hlimit]
    intro t w e t' w' _ _ hr
    cases hr
    exact iff_of_true ⟨rfl, rfl⟩ (.inl hlimit)
  · rw [if_neg hlimit, Leb128.emitPadded_eq]
    simp only [hlimit, false_or]
    refine (faltersUnless_bytes (List.ne_nil_of_length_pos ?_)).mapError _
    rw [Leb128.length_padded]
    exact Nat.le_max_right ..

theorem faltersUnless_writeSize (size : Nat) :
    FaltersUnless (fun t w => ¬w.Takes t) (writeSize size) := by
  refine (faltersUnless_bytes ?_).mapError _
  rw [Leb128.unsigned]
  split <;> exact List.cons_ne_nil _ _

theorem faltersUnless_moveBlock (start size : Nat) : FaltersUnless
    (fun t w => (∃ e c, (readerOver w start).readByte t = (.error e, c)) ∨ ¬w.Takes t)
    (moveBlock start size) := by
  intro t w e t' w' hw hend hr
  obtain ⟨e, hr⟩ : ∃ e, copyFrom size (readerOver w start) (t, w) = .error e (t', w') :=
    error_of_mapError hr
  cases size with
  | zero => cases hr
  | succ n =>
    simp only [copyFrom] at hr
    cases hread : (readerOver w start).readByte t with
    | mk result source =>
      rw [hread] at hr
      cases result with
      | error e₁ =>
        cases hr
        exact iff_of_true ⟨rfl, rfl⟩ (.inl ⟨_, _, hread⟩)
      | ok b =>
        have hok : ¬∃ e c, (readerOver w start).readByte t = (.error e, c) := by
          rintro ⟨_, _, h⟩
          rw [hread] at h
          cases h
        refine Iff.trans ?_ (or_iff_right hok).symm
        refine faltersUnless_bind (b := b) (puts_copyFrom n source).series hw hend (e := e) ?_
        cases hb : writeByte b (t, w) with
        | error e₁ s =>
          rw [bind_of_error hb]
          simpa only [hb] using hr
        | ok u s =>
          rw [bind_of_ok hb]
          simpa only [hb] using hr

/-- The header of a block is refused as a size is. -/
theorem faltersUnless_beginBlock (f : Framing) :
    FaltersUnless (fun t w => ¬w.Takes t) f.beginBlock := by
  intro t w e t' w' hw hend hr
  rw [Framing.beginBlock] at hr
  split at hr
  · cases hr
  · cases hr
    have h := faltersUnless_writePaddedSize 0 f.reserved hw hend ‹_›
    exact h.trans (or_iff_right (Nat.not_lt_zero _))

end Cursor

end Transcoder

import Transcoder.Proofs.Bits.Packing
import Transcoder.Proofs.Cursor.Storing
import Transcoder.Proofs.Leb128.Bytes

/-!
# Writing bit by bit at the end of a stream

A writer at the end of the stream spells a list of bits: those of the bytes that the tape carries
and those of the byte that was begun. `Added` says that an action has put bits behind them and has
changed nothing else that can be seen; a refused action is one that has put no bits there.

Results:
* `Spells.writeBitList`, `Spells.writeBitList_refused`: bits are written up to the innermost end,
  all of them or none.
* `Spells.writeByte`, `Spells.writeByte_refused`: a byte is its eight bits, on either path.
* `Spells.alignWriter`: the bits come out as bytes.
-/
namespace Transcoder

/-- The writer stands at the end of the stream `out` on its tape, and no end of it is fixed. -/
structure Spells (w : Writer) (t : Tape) (out : List UInt8) : Prop where
  trusted : w.Trusted t
  carries : t.Carries out
  eof : t.eof = none
  start_le : t.start ≤ out.length
  atEnd : w.address = out.length
  short : w.bits.length < 8
  bytewise : w.grain = .byte → w.bits = []

/-- `w'` on `t'` spells what `w` did on `t`, and `bs` behind it. -/
structure Added (bs : List Bool) (w : Writer) (t : Tape) (out : List UInt8) (w' : Writer)
    (t' : Tape) (out' : List UInt8) : Prop where
  spells : Spells w' t' out'
  bits : Bits.ofBytes out' ++ w'.bits = Bits.ofBytes out ++ w.bits ++ bs
  starts : out <+: out'
  bounds : w'.bounds = w.bounds
  grain : w'.grain = w.grain
  grows : t.Grows t'

section

variable {w w' w'' : Writer} {t t' t'' : Tape} {out out' out'' : List UInt8} {bs cs : List Bool}

theorem Spells.position (h : Spells w t out) :
    w.position.bits = (Bits.ofBytes out ++ w.bits).length := by
  rw [List.length_append, Bits.length_ofBytes, ← h.atEnd]
  rfl

theorem Spells.added_nil (h : Spells w t out) : Added [] w t out w t out :=
  ⟨h, (List.append_nil _).symm, List.prefix_refl _, rfl, rfl, .refl t⟩

namespace Added

theorem trans (h : Added bs w t out w' t' out') (k : Added cs w' t' out' w'' t'' out'') :
    Added (bs ++ cs) w t out w'' t'' out'' := by
  refine ⟨k.spells, ?_, h.starts.trans k.starts, k.bounds.trans h.bounds, k.grain.trans h.grain,
    h.grows.trans k.grows⟩
  rw [k.bits, h.bits, List.append_assoc]

theorem stop (h : Added bs w t out w' t' out') : w'.stop t' = w.stop t := by
  rw [Cursor.stop, Cursor.stop, h.bounds, h.grows.endPosition]

theorem position (h : Added bs w t out w' t' out') (hw : Spells w t out) :
    w'.position.bits = w.position.bits + bs.length := by
  rw [h.spells.position, h.bits, List.length_append, hw.position]

theorem boundaryError (h : Added bs w t out w' t' out') (p : Position) :
    w'.boundaryError t' p = w.boundaryError t p := by
  simp only [Cursor.boundaryError, h.bounds, h.grows.endPosition]
  cases w.bounds <;> rfl

end Added

end

namespace Spells

/-- Nothing is written on a blank tape. -/
theorem blank (pageSize : Nat) (grain : Grain) :
    Spells (Cursor.writerOn (Tape.blank pageSize) grain) (Tape.blank pageSize) [] := by
  have hcarries : (Tape.blank pageSize).Carries [] :=
    ⟨rfl, Nat.dvd_zero _, rfl, fun a _ ha => absurd ha (Nat.not_lt_zero a)⟩
  have hstart : (Tape.blank pageSize).start = 0 := Nat.zero_mul _
  exact ⟨Cursor.trusted_fresh rfl rfl _, hcarries, rfl, Nat.le_of_eq hstart, rfl,
    Nat.zero_lt_succ _, fun _ => rfl⟩

variable {w : Writer} {t : Tape} {out : List UInt8}

/-! ## Bytes and bits -/

/-- Before the innermost end a byte may be stored. -/
theorem checkStore (h : Spells w t out) (hs : w.address < (w.stop t).byte) :
    w.checkStore t = .ok () := by
  apply Cursor.checkStore_eq_ok.2
  have hcheck : w.checkByte t = .ok () := by
    rw [Cursor.checkByte, decide_eq_true hs, Bool.true_or, if_pos rfl]
  have hpage : ¬t.pageOf w.address < t.firstPage := by
    have hstart := h.start_le
    rw [← h.atEnd, ← Tape.firstPage_le_pageOf] at hstart
    omega
  have hwritable : t.checkWritable w.address = .ok () := by
    rw [Tape.checkWritable, h.carries.whole, if_neg Bool.false_ne_true, h.eof, Option.filter_none]
    exact if_neg hpage
  exact .inr ⟨h.carries.whole, hcheck, .inr hwritable⟩

/-- At the innermost end, if it lies between two bytes, none may. -/
theorem checkStore_refused (h : Spells w t out) (hs : (w.stop t).byte ≤ w.address)
    (hw : w.stopsWithin t = false) :
    w.checkStore t = .error (w.boundaryError t (.ofByte w.address)) := by
  have hfast : ¬w.fast t = true := by
    intro hf
    simp only [Cursor.fast, Bool.and_eq_true, decide_eq_true_eq] at hf
    have := (h.trusted.before w.address (Nat.le_refl _) hf.1.1).1
    omega
  have hcheck : w.checkByte t = .error (w.boundaryError t (.ofByte w.address)) := by
    rw [Cursor.checkByte, hw, decide_eq_false (Nat.not_lt.2 hs), Bool.or_false,
      if_neg Bool.false_ne_true]
  rw [Cursor.checkStore, if_neg hfast, h.carries.whole, if_neg Bool.false_ne_true, hcheck]
  rfl

/-- A byte is stored, and the writer stands behind it with no bits left over. -/
theorem store (h : Spells w t out) (hs : w.address < (w.stop t).byte) (b : UInt8) :
    ∃ t' w', Cursor.store b (t, w) = .ok () (t', w') ∧ w'.bits = w.bits ∧ w'.bounds = w.bounds ∧
      w'.grain = w.grain ∧ Spells { w' with bits := [] } t' (out ++ [b]) ∧ t.Grows t' := by
  have hc := h.checkStore hs
  have hkept := h.trusted.toKept
  have hg := hkept.stored_grows hc b
  have hpaged := w.paged_grows t
  have hstart : (w.paged t).start ≤ w.address := by
    rw [hpaged.start, h.atEnd]
    exact h.start_le
  have hcarries : (w.paged t).Carries out := by
    unfold Cursor.paged
    split
    · exact h.carries
    · exact ⟨h.carries.whole, Tape.paged_grow h.carries.paged _, h.carries.fill,
        h.carries.shows.grow _⟩
  have hstored := hcarries.store hstart (Nat.le_of_eq h.atEnd) (hkept.resident hc).2 b
  rw [h.atEnd, overwrite_length, ← h.atEnd] at hstored
  refine ⟨_, _, hkept.store_of_ok hc, Cursor.bits_onPage .., Cursor.bounds_onPage ..,
    Cursor.grain_onPage .., ⟨h.trusted.stored hc [], hstored, hg.eof.trans h.eof, ?_, ?_,
      Nat.zero_lt_succ _, fun _ => rfl⟩, hg⟩
  · rw [hg.start, List.length_append]
    exact Nat.le_add_right_of_le h.start_le
  · rw [List.length_append, ← h.atEnd]
    rfl

/-- A bit is written before the innermost end. -/
theorem writeBit (h : Spells w t out) (hg : w.grain = .bit)
    (hs : w.position.bits < (w.stop t).bits) (bit : Bool) :
    ∃ t' w' out', Cursor.writeBit bit (t, w) = .ok () (t', w') ∧
      Added [bit] w t out w' t' out' := by
  have hcheck : w.checkBit t = .ok () := by
    rw [Cursor.checkBit, if_neg (not_not_intro hg)]
    exact if_pos hs
  rw [Cursor.writeBit, hcheck]
  simp only
  by_cases h7 : w.bits.length = 7
  · -- the eighth bit of a byte: the byte is stored
    have hbyte : w.address < (w.stop t).byte := by
      have hpos : w.position.bits = 8 * w.address + w.bits.length := rfl
      simp only [Position.byte]
      omega
    have hlen : (w.bits ++ [bit]).length = 8 := by
      rw [List.length_append, h7]
      rfl
    obtain ⟨t', w', he, -, hbounds, hgrain, hspells, hgrows⟩ :=
      h.store hbyte (Bits.toByte (w.bits ++ [bit]))
    refine ⟨t', { w' with bits := [] }, _, ?_, hspells, ?_, List.prefix_append .., hbounds, hgrain,
      hgrows⟩
    · rw [if_pos h7, he]
    · rw [Bits.ofBytes_append, Bits.ofBytes_toByte hlen, List.append_nil, List.append_assoc]
  · have hshort : (w.bits ++ [bit]).length < 8 := by
      have := h.short
      rw [List.length_append, List.length_singleton]
      omega
    have hbytewise : w.grain = .byte → w.bits ++ [bit] = [] := by
      intro hbyte
      cases hg.symm.trans hbyte
    refine ⟨t, { w with bits := w.bits ++ [bit] }, out, ?_,
      ⟨h.trusted.withBits _, h.carries, h.eof, h.start_le, h.atEnd, hshort, hbytewise⟩,
      (List.append_assoc ..).symm, List.prefix_refl _, rfl, rfl, .refl t⟩
    rw [if_neg h7]

/-- At the innermost end no bit is written. -/
theorem writeBit_refused (hg : w.grain = .bit) (hs : (w.stop t).bits ≤ w.position.bits)
    (bit : Bool) : Cursor.writeBit bit (t, w) = .error (w.boundaryError t w.position) (t, w) := by
  have hcheck : w.checkBit t = .error (w.boundaryError t w.position) := by
    rw [Cursor.checkBit, if_neg (not_not_intro hg)]
    exact if_neg (Nat.not_lt.2 hs)
  rw [Cursor.writeBit, hcheck]

/-! ## Lists of bits -/

/-- Where writing is refused: at the innermost end, or at once if the writer stands behind it. -/
def refusedAt (w : Writer) (t : Tape) : Position := ⟨max w.position.bits (w.stop t).bits⟩

/-- Bits are written one after the other. -/
theorem all {bs : List Bool} (h : Spells w t out) (hg : w.grain = .bit)
    (hl : w.position.bits + bs.length ≤ (w.stop t).bits) :
    ∃ t' w' out', bs.forM Cursor.writeBit (t, w) = .ok () (t', w') ∧
      Added bs w t out w' t' out' := by
  induction bs generalizing w t out with
  | nil => exact ⟨t, w, out, rfl, h.added_nil⟩
  | cons bit rest ih =>
    rw [List.length_cons] at hl
    obtain ⟨t₁, w₁, out₁, he₁, h₁⟩ := h.writeBit hg (by omega) bit
    have hp := h₁.position h
    rw [List.length_singleton] at hp
    obtain ⟨t', w', out', he, h'⟩ := ih h₁.spells (h₁.grain.trans hg) (by
      rw [h₁.stop, hp]
      omega)
    refine ⟨t', w', out', ?_, h₁.trans h'⟩
    simp only [List.forM_eq_forM, List.forM_cons, bind, EStateM.bind, he₁]
    exact he

/-- Bits that do not fit are written up to the innermost end. -/
theorem all_refused {bs : List Bool} (h : Spells w t out) (hg : w.grain = .bit) (hn : bs ≠ [])
    (hl : (w.stop t).bits < w.position.bits + bs.length) :
    ∃ t' w' out', bs.forM Cursor.writeBit (t, w) =
        .error (w.boundaryError t (refusedAt w t)) (t', w') ∧
      ∃ part, Added part w t out w' t' out' := by
  induction bs generalizing w t out with
  | nil => exact absurd rfl hn
  | cons bit rest ih =>
    rw [List.length_cons] at hl
    simp only [List.forM_eq_forM, List.forM_cons, bind, EStateM.bind]
    by_cases hs : w.position.bits < (w.stop t).bits
    · obtain ⟨t₁, w₁, out₁, he₁, h₁⟩ := h.writeBit hg hs bit
      have hp := h₁.position h
      rw [List.length_singleton] at hp
      have hrest : rest ≠ [] := by
        rintro rfl
        rw [List.length_nil] at hl
        omega
      obtain ⟨t', w', out', he, part, h'⟩ := ih h₁.spells (h₁.grain.trans hg) hrest (by
        rw [h₁.stop, hp]
        omega)
      have hat : refusedAt w₁ t₁ = refusedAt w t := by
        rw [refusedAt, refusedAt, h₁.stop, hp]
        congr 1
        omega
      rw [h₁.boundaryError, hat] at he
      refine ⟨t', w', out', ?_, [bit] ++ part, h₁.trans h'⟩
      rw [he₁]
      exact he
    · have hat : refusedAt w t = w.position := by
        rw [refusedAt, Nat.max_eq_left (by omega)]
      refine ⟨t, w, out, ?_, [], h.added_nil⟩
      rw [writeBit_refused hg (by omega), hat]

/-- All bits are written where they fit. -/
theorem writeBitList {bs : List Bool} (h : Spells w t out) (hg : w.grain = .bit)
    (hl : w.position.bits + bs.length ≤ (w.stop t).bits) :
    ∃ t' w' out', Cursor.writeBitList bs (t, w) = .ok () (t', w') ∧
      Added bs w t out w' t' out' := by
  obtain ⟨t', w', out', he, h'⟩ := h.all hg hl
  refine ⟨t', w', out', ?_, h'⟩
  rw [Cursor.writeBitList, he]
  rfl

/-- What reached the tape is dropped again, and the writer goes back. -/
theorem restore {part : List Bool} {w' : Writer} {t' : Tape} {out' : List UInt8}
    (h : Spells w t out) (h' : Added part w t out w' t' out') (e : StreamError) :
    ∃ t'' w'', Cursor.wholly t.fill (fun t c' => c'.restore w t) (.error e (t', w')) =
        .error e (t'', w'') ∧ Added [] w t out w'' t'' out ∧ w''.bits = w.bits := by
  have htrusted : (w'.restore w t').Trusted t' :=
    Cursor.trusted_refresh fun p hp => h'.spells.trusted.page p hp
  have heof : t'.eof = none := h'.grows.eof.trans h.eof
  have hstart : t'.start ≤ out.length := by
    rw [h'.grows.start]
    exact h.start_le
  have hbytewise : (w'.restore w t').grain = .byte → (w'.restore w t').bits = [] := by
    intro hb
    exact h.bytewise (h'.grain.symm.trans hb)
  have hbits : Bits.ofBytes out ++ w.bits = Bits.ofBytes out ++ w.bits ++ [] :=
    (List.append_nil _).symm
  rw [Cursor.wholly]
  by_cases hlt : t.fill < t'.fill
  · -- whole bytes were stored and are cut off again
    obtain ⟨hcut, hcarries⟩ := h'.spells.carries.truncate (a := t.fill) (by
      rw [h.carries.fill]
      exact hstart)
    have htake : out'.take t.fill = out := by
      rw [h.carries.fill]
      exact (List.prefix_iff_eq_take.1 h'.starts).symm
    rw [htake] at hcarries
    have hg := t'.refill_grows (min t'.fill t.fill)
    refine ⟨_, w'.restore w t', ?_, ⟨⟨htrusted.grows hg (by simp), hcarries, heof, hstart, h.atEnd,
      h.short, hbytewise⟩, hbits, List.prefix_refl _, h'.bounds, h'.grain, h'.grows.trans hg⟩, rfl⟩
    rw [if_pos hlt, hcut]
  · have hout : out' = out := by
      have hlen := h'.spells.carries.fill
      rw [h.carries.fill] at hlt
      exact (h'.starts.eq_of_length_le (by omega)).symm
    have hcarries := h'.spells.carries
    rw [hout] at hcarries
    refine ⟨t', w'.restore w t', ?_, ⟨⟨htrusted, hcarries, heof, hstart, h.atEnd, h.short,
      hbytewise⟩, hbits, List.prefix_refl _, h'.bounds, h'.grain, h'.grows⟩, rfl⟩
    rw [if_neg hlt]

/-- Bits that do not fit are not written. -/
theorem writeBitList_refused {bs : List Bool} (h : Spells w t out) (hg : w.grain = .bit)
    (hn : bs ≠ []) (hl : (w.stop t).bits < w.position.bits + bs.length) :
    ∃ t' w', Cursor.writeBitList bs (t, w) =
        .error (w.boundaryError t (refusedAt w t)) (t', w') ∧
      Added [] w t out w' t' out ∧ w'.bits = w.bits := by
  obtain ⟨t', w', out', he, part, h'⟩ := h.all_refused hg hn hl
  rw [Cursor.writeBitList, he]
  exact h.restore h' _

/-! ## Whole bytes -/

/-- A byte is written where its eight bits fit. -/
theorem writeByte (h : Spells w t out) (b : UInt8)
    (hl : w.position.bits + 8 ≤ (w.stop t).bits) :
    ∃ t' w' out', Cursor.writeByte b (t, w) = .ok () (t', w') ∧
      Added (Bits.ofByte b) w t out w' t' out' := by
  have hpos : w.position.bits = 8 * w.address + w.bits.length := rfl
  rw [Cursor.writeByte]
  by_cases hwhole : (w.aligned && !w.stopsWithin t) = true
  · have hbits : w.bits = [] := List.isEmpty_iff.1 (Bool.and_eq_true .. ▸ hwhole).1
    have hbyte : w.address < (w.stop t).byte := by
      simp only [Position.byte]
      omega
    obtain ⟨t', w', he, hb, hbounds, hgrain, hspells, hgrows⟩ := h.store hbyte b
    have hw' : ({ w' with bits := [] } : Writer) = w' := by rw [← hbits, ← hb]
    rw [hw'] at hspells
    refine ⟨t', w', _, ?_, hspells, ?_, List.prefix_append .., hbounds, hgrain, hgrows⟩
    · rw [if_pos hwhole, he]
    · rw [hb, hbits, Bits.ofBytes_append, Bits.ofBytes_cons, Bits.ofBytes_nil, List.append_nil,
        List.append_nil, List.append_nil]
  · have hg : w.grain = .bit := by
      cases hgrain : w.grain with
      | bit => rfl
      | byte =>
        rw [Cursor.aligned, h.bytewise hgrain, Cursor.stopsWithin, hgrain] at hwhole
        exact absurd rfl hwhole
    rw [if_neg hwhole]
    exact h.writeBitList hg (by rwa [Bits.length_ofByte])

/-- A byte whose bits do not fit is not written, whichever path it takes. -/
theorem writeByte_refused (h : Spells w t out) (hg : w.grain = .bit) (b : UInt8)
    (hl : (w.stop t).bits < w.position.bits + 8) :
    ∃ t' w', Cursor.writeByte b (t, w) = .error (w.boundaryError t (refusedAt w t)) (t', w') ∧
      Added [] w t out w' t' out ∧ w'.bits = w.bits := by
  have hpos : w.position.bits = 8 * w.address + w.bits.length := rfl
  rw [Cursor.writeByte]
  by_cases hwhole : (w.aligned && !w.stopsWithin t) = true
  · have hbits : w.bits = [] := List.isEmpty_iff.1 (Bool.and_eq_true .. ▸ hwhole).1
    have hwithin : w.stopsWithin t = false := by
      have := (Bool.and_eq_true .. ▸ hwhole).2
      rwa [Bool.not_eq_true'] at this
    -- an end inside the byte would have sent the byte the other way
    have hstop : (w.stop t).bits ≤ w.position.bits := by
      simp only [Cursor.stopsWithin, hg, Position.byte, Position.bit, beq_self_eq_true,
        Bool.true_and, Bool.and_eq_false_iff, beq_eq_false_iff_ne, bne_eq_false_iff_eq] at hwithin
      rw [hbits, List.length_nil] at hpos
      omega
    have hbyte : (w.stop t).byte ≤ w.address := by
      rw [hbits, List.length_nil] at hpos
      simp only [Position.byte]
      omega
    have hat : refusedAt w t = .ofByte w.address := by
      rw [refusedAt, Nat.max_eq_left hstop, hpos, hbits]
      rfl
    rw [if_pos hwhole, Cursor.store_of_error (h.checkStore_refused hbyte hwithin), hat]
    exact ⟨t, w, rfl, h.added_nil, rfl⟩
  · rw [if_neg hwhole]
    exact h.writeBitList_refused hg (List.ne_nil_of_length_pos (by simp)) (by
      rwa [Bits.length_ofByte])

/-- Bytes are written one after the other. -/
theorem writeBytes {bytes : List UInt8} (h : Spells w t out)
    (hl : w.position.bits + 8 * bytes.length ≤ (w.stop t).bits) :
    ∃ t' w' out', bytes.forM Cursor.writeByte (t, w) = .ok () (t', w') ∧
      Added (Bits.ofBytes bytes) w t out w' t' out' := by
  induction bytes generalizing w t out with
  | nil => exact ⟨t, w, out, rfl, h.added_nil⟩
  | cons b rest ih =>
    rw [List.length_cons] at hl
    obtain ⟨t₁, w₁, out₁, he₁, h₁⟩ := h.writeByte b (by omega)
    have hp := h₁.position h
    rw [Bits.length_ofByte] at hp
    obtain ⟨t', w', out', he, h'⟩ := ih h₁.spells (by
      rw [h₁.stop, hp]
      omega)
    refine ⟨t', w', out', ?_, ?_⟩
    · simp only [List.forM_eq_forM, List.forM_cons, bind, EStateM.bind, he₁]
      exact he
    · rw [Bits.ofBytes_cons]
      exact h₁.trans h'

/-- A byte that does not fit is refused on byte cursors as well. -/
theorem writeByte_error (h : Spells w t out) (b : UInt8)
    (hl : (w.stop t).bits < w.position.bits + 8) :
    ∃ e s, Cursor.writeByte b (t, w) = .error e s := by
  cases hg : w.grain with
  | bit =>
    obtain ⟨t', w', he, -⟩ := h.writeByte_refused hg b hl
    exact ⟨_, _, he⟩
  | byte =>
    have hbits := h.bytewise hg
    have hwithin : w.stopsWithin t = false := by rw [Cursor.stopsWithin, hg]; rfl
    have hwhole : (w.aligned && !w.stopsWithin t) = true := by
      rw [hwithin, Cursor.aligned, hbits]
      rfl
    have hbyte : (w.stop t).byte ≤ w.address := by
      have hpos : w.position.bits = 8 * w.address + w.bits.length := rfl
      rw [hbits, List.length_nil] at hpos
      simp only [Position.byte]
      omega
    refine ⟨w.boundaryError t (.ofByte w.address), (t, w), ?_⟩
    rw [Cursor.writeByte, if_pos hwhole]
    exact Cursor.store_of_error (h.checkStore_refused hbyte hwithin)

/-- Bytes that do not all fit are refused. -/
theorem writeBytes_error {bytes : List UInt8} (h : Spells w t out)
    (hle : w.position.bits ≤ (w.stop t).bits)
    (hl : (w.stop t).bits < w.position.bits + 8 * bytes.length) :
    ∃ e s, bytes.forM Cursor.writeByte (t, w) = .error e s := by
  induction bytes generalizing w t out with
  | nil =>
    rw [List.length_nil] at hl
    omega
  | cons b rest ih =>
    rw [List.length_cons] at hl
    simp only [List.forM_eq_forM, List.forM_cons, bind, EStateM.bind]
    by_cases hfit : w.position.bits + 8 ≤ (w.stop t).bits
    · obtain ⟨t₁, w₁, out₁, he₁, h₁⟩ := h.writeByte b hfit
      have hp := h₁.position h
      have hs := h₁.stop
      rw [Bits.length_ofByte] at hp
      rw [he₁]
      exact ih h₁.spells (by rw [hs, hp]; exact hfit) (by rw [hs, hp]; omega)
    · obtain ⟨e, s, he⟩ := h.writeByte_error b (Nat.lt_of_not_le hfit)
      exact ⟨e, s, by rw [he]⟩

/-! ## The end -/

/-- The byte that was begun is stored with zeros behind its bits. -/
theorem alignWriter (h : Spells w t out)
    (hs : w.bits ≠ [] → w.position.bits < (w.stop t).bits ∧ (w.stop t).aligned = true) :
    ∃ t' w', Cursor.alignWriter (t, w) = .ok () (t', w') ∧
      Spells w' t' (Bits.toBytes (Bits.ofBytes out ++ w.bits)) ∧ t.Grows t' := by
  rw [Cursor.alignWriter, Bits.toBytes_ofBytes_append]
  by_cases hbits : w.bits = []
  · refine ⟨t, w, ?_, ?_, .refl t⟩
    · rw [if_pos (by rw [Cursor.aligned, hbits]; rfl)]
    · rwa [hbits, Bits.toBytes_nil, List.append_nil]
  · have hpos : w.position.bits = 8 * w.address + w.bits.length := rfl
    have hn := List.length_pos_iff.2 hbits
    obtain ⟨hlt, haligned⟩ := hs hbits
    have hbyte : w.address < (w.stop t).byte := by
      simp only [Position.aligned, Position.bit, beq_iff_eq] at haligned
      simp only [Position.byte]
      omega
    obtain ⟨t', w', he, -, -, -, hspells, hgrows⟩ := h.store hbyte (Bits.toByte w.bits)
    refine ⟨t', { w' with bits := [] }, ?_, ?_, hgrows⟩
    · have haligned : ¬w.aligned = true := fun ha => hbits (List.isEmpty_iff.1 ha)
      rw [if_neg haligned, he]
    · rwa [Bits.toBytes_of_length_le (Nat.le_of_lt h.short) hbits]

end Spells

end Transcoder

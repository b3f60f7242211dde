import Transcoder.Proofs.Session.Pinning

/-!
# Moving bytes towards the front

The bytes of a block are moved one by one: a reader goes ahead and the writer follows, on the same
pages, each with a span of its own. The writer may overwrite what the reader has read, but never
gets past it, so what is still to be read is as it was.

Results:
* `Cursor.Free.copyFrom`: what moving leaves on the tape (`Tape.Shifted`).
* `Session.moveBlock_spec`: in whatever way a session came about, the bytes of a stream can be moved
  towards the front, and nothing else changes.
-/
namespace Transcoder

/-! ## Bytes that are moved -/

namespace Tape

variable {t t' t₁ : Tape} {source target n a : Nat}

/-- On the second tape, the `n` bytes from `source` on stand at `target` as well; everything else is
as it was. -/
structure Shifted (t : Tape) (source target n : Nat) (t' : Tape) : Prop where
  grows : t.Grows t'
  fill : t'.fill = t.fill
  moved : ∀ a < n, t'.byteAt (target + a) = t.byteAt (source + a)
  others : ∀ a, a < target ∨ target + n ≤ a → t'.byteAt a = t.byteAt a

theorem shifted_zero (t : Tape) (source target : Nat) : t.Shifted source target 0 t :=
  ⟨.refl t, rfl, fun _ h => absurd h (Nat.not_lt_zero _), fun _ _ => rfl⟩

/-- The first byte is moved, then the others, which the first has not gone over. -/
theorem Shifted.cons (h : t.Shifted source target 1 t₁)
    (k : t₁.Shifted (source + 1) (target + 1) n t') (hle : target ≤ source) :
    t.Shifted source target (n + 1) t' := by
  refine ⟨h.grows.trans k.grows, k.fill.trans h.fill, fun a ha => ?_, fun a ha => ?_⟩
  · cases a with
    | zero => exact (k.others target (by omega)).trans (h.moved 0 Nat.one_pos)
    | succ a =>
      have hrest := k.moved a (by omega)
      rw [h.others _ (by omega)] at hrest
      rwa [Nat.add_right_comm target, Nat.add_right_comm source] at hrest
  · rw [k.others a (by omega), h.others a (by omega)]

end Tape

/-! ## Bytes that can be had -/

/-- The tape goes on without an end, and its addresses are those of a word. -/
structure Tape.Open (t : Tape) : Prop extends t.Firm where
  eof : t.eof = none
  room : t.fill ≤ addressLimit

namespace Cursor

variable {role : Role} {t t' : Tape} {source target n : Nat}

/-- A byte cursor outside all blocks. -/
structure Free (c : Cursor role) (t : Tape) : Prop extends c.Regular t where
  grain : c.grain = .byte
  bounds : c.bounds = []

namespace Free

variable {c : Cursor role}

theorem aligned (h : c.Free t) : c.bits = [] := h.tidy.whole h.grain

theorem grows (h : c.Free t) (g : t.Grows t') : c.Free t' :=
  ⟨h.toRegular.grows g, h.grain, h.bounds⟩

theorem not_stopsWithin (h : c.Free t) : c.stopsWithin t = false := by
  rw [stopsWithin, h.grain]
  rfl

/-- Nothing ends before the fill address. -/
theorem checkByte (h : c.Free t) (ht : t.Open) (hlt : c.address < t.fill) :
    c.checkByte t = .ok () := by
  have hstop : c.stop t = .unbounded := by
    rw [stop, h.bounds, List.headD_nil, Tape.endPosition, ht.eof]
  have hroom : c.address < (c.stop t).byte := by
    rw [hstop, Position.byte_unbounded]
    exact Nat.lt_of_lt_of_le hlt ht.room
  rw [Cursor.checkByte, decide_eq_true hroom, Bool.true_or, if_pos rfl]

end Free

/-- A byte of the stream is read. -/
theorem Free.readByte {c : Reader} (h : c.Free t) (ht : t.Open) (hs : t.start ≤ c.address)
    (hlt : c.address < t.fill) :
    ∃ c', c.readByte t = (.ok (t.byteAt c.address), c') ∧ c'.Free t ∧
      c'.address = c.address + 1 := by
  have hcheck : c.checkFetch t = .ok () := by
    have hread : t.checkReadable c.address = .ok () := by
      rw [Tape.checkReadable, ht.whole, if_neg Bool.false_ne_true, if_pos hlt]
    rw [checkFetch, ht.whole, if_neg Bool.false_ne_true, h.checkByte ht hlt, hread,
      ht.backed.resident hs hlt, Bool.or_true]
    rfl
  have hfetch := h.toKept.fetch_eq
  rw [hcheck, ite_self] at hfetch
  have hloads := (Loads.nil c).load hfetch
  refine ⟨_, ?_, ⟨hloads.regular h.toRegular, hloads.grain.trans h.grain, ?_⟩, rfl⟩
  · rw [Cursor.readByte, Cursor.aligned, h.aligned, h.not_stopsWithin, hfetch]
    rfl
  · exact (bounds_onLoad c t).trans h.bounds

/-- A byte of the stream is overwritten. -/
theorem Free.writeByte {w : Writer} (h : w.Free t) (ht : t.Open) (hs : t.start ≤ w.address)
    (hlt : w.address < t.fill) (b : UInt8) :
    ∃ t' w', Cursor.writeByte b (t, w) = .ok () (t', w') ∧ w'.Free t' ∧
      w'.address = w.address + 1 ∧ t.Grows t' ∧ t'.fill = t.fill ∧ t'.byteAt w.address = b ∧
      ∀ a, a ≠ w.address → t'.byteAt a = t.byteAt a := by
  have hcheck : w.checkStore t = .ok () := by
    have hwrite : t.checkWritable w.address = .ok () := by
      rw [Tape.checkWritable, ht.whole, ht.eof, if_neg Bool.false_ne_true]
      exact if_neg (Nat.not_lt.2 (Tape.firstPage_le_pageOf.2 hs))
    exact checkStore_eq_ok.2 (.inr ⟨ht.whole, h.checkByte ht hlt, .inr hwrite⟩)
  have hstores := (Stores.nil (t, w)).store hcheck b
  have hpaged := w.paged_grows t
  refine ⟨_, _, h.toKept.writeByte_of_ok h.aligned h.not_stopsWithin hcheck b,
    ⟨hstores.regular h.toRegular, hstores.bounds.2.trans h.grain, hstores.bounds.1.trans h.bounds⟩,
    rfl, h.toKept.stored_grows hcheck b, ?_, ?_, fun a ha => ?_⟩
  · show max ((w.paged t).put w.address b).fill (w.address + 1) = t.fill
    rw [Tape.fill_put, fill_paged, Nat.max_eq_left hlt]
  · rw [Tape.byteAt_noteWritten]
    exact Tape.byteAt_put (hpaged.start.symm ▸ hs) (h.toKept.resident hcheck).2 b
  · rw [Tape.byteAt_noteWritten, Tape.byteAt_put_of_ne ha, byteAt_paged]

/-- Bytes are moved towards the front, even over those that are still to be moved. -/
theorem Free.copyFrom {c : Reader} {w : Writer} (hc : c.Free t) (hw : w.Free t) (ht : t.Open)
    (hs : t.start ≤ w.address) (hle : w.address ≤ c.address) (hn : c.address + n ≤ t.fill) :
    ∃ t' w', Cursor.copyFrom n c (t, w) = .ok () (t', w') ∧ w'.Free t' ∧
      w'.address = w.address + n ∧ t.Shifted c.address w.address n t' := by
  induction n generalizing t c w with
  | zero => exact ⟨t, w, rfl, hw, rfl, t.shifted_zero _ _⟩
  | succ n ih =>
    obtain ⟨c₁, hread, hc₁, hac⟩ := hc.readByte ht (by omega) (by omega)
    obtain ⟨t₁, w₁, hwrite, hw₁, haw, hg, hfill, hbyte, hothers⟩ :=
      hw.writeByte ht hs (by omega) (t.byteAt c.address)
    have hone : t.Shifted c.address w.address 1 t₁ := by
      refine ⟨hg, hfill, fun a ha => ?_, fun a ha => hothers a (by omega)⟩
      obtain rfl : a = 0 := by omega
      exact hbyte
    have ht₁ : t₁.Open :=
      ⟨ht.toFirm.retains (hg.retains (Nat.le_of_eq hfill) fun h => hfill.symm ▸ h),
        hg.eof.trans ht.eof, hfill.symm ▸ ht.room⟩
    obtain ⟨t', w', hrest, hw', haddress, hshifted⟩ :=
      ih (hc₁.grows hg) hw₁ ht₁ (by rw [hg.start]; omega) (by omega) (by omega)
    rw [hac, haw] at hshifted
    refine ⟨t', w', ?_, hw', by omega, hone.cons hshifted hle⟩
    simp only [Cursor.copyFrom, hread, hwrite]
    exact hrest

end Cursor

namespace Session

variable {s : Session} {name : String} {w : Writer} {start n : Nat}

/-- In whatever way a session came about, a byte writer outside all blocks can move bytes of the
stream to where it stands, which is not behind them. Then they stand there, even if some of them
were written over, the writer stands behind them, and nothing else has changed. -/
theorem moveBlock_spec (pageSize : Nat) (framing : Framing) (cmds : List Command)
    (hafter : s = after { tape := Tape.blank pageSize, framing } cmds)
    (hget : s.cursors.get? name = some (.writer w)) (hgrain : w.grain = .byte)
    (hbounds : w.bounds = []) (hwhole : s.tape.broken = false) (heof : s.tape.eof = none)
    (hfront : s.tape.start ≤ w.address) (hle : w.address ≤ start)
    (hn : start + n ≤ s.tape.fill) (hword : s.tape.fill < UInt64.size) :
    ∃ t w', s.step (.writer name (.moveBlock start n)) =
        (.done, { s with tape := t }.putCursor name (.writer w')) ∧
      (∀ a < n, ∃ b, s.tape.byte? (start + a) = some b ∧ t.byte? (w.address + a) = some b) ∧
      (∀ a, a < s.tape.fill → a < w.address ∨ w.address + n ≤ a → t.byte? a = s.tape.byte? a) ∧
      t.fill = s.tape.fill ∧ w'.position = .ofByte (w.address + n) := by
  have hopen : s.tape.Open :=
    ⟨⟨hwhole, by omega, hafter ▸ backed_after pageSize framing cmds⟩, heof, Nat.le_pred_of_lt hword⟩
  have hw : w.Free s.tape :=
    ⟨(hafter ▸ regular_after pageSize framing cmds : s.Regular).writer hget, hgrain, hbounds⟩
  have hc : (w.readerOver start).Free s.tape :=
    ⟨Cursor.regular_fresh s.tape w.grain w.bounds start, hgrain, hbounds⟩
  obtain ⟨t, w', hcopy, hw', haddress, hshifted⟩ := hc.copyFrom hw hopen hfront hle hn
  have hbacked : t.Backed := (hshifted.grows.retains (Nat.le_of_eq hshifted.fill)
    fun h => hshifted.fill.symm ▸ h).backed hopen.backed
  have hbyte (a : Nat) (ha : s.tape.start ≤ a) (hlt : a < s.tape.fill) :
      t.byte? a = some (t.byteAt a) :=
    hbacked.byte?_eq (hshifted.grows.start.symm ▸ ha) (hshifted.fill.symm ▸ hlt)
  refine ⟨t, w', ?_, fun a ha => ?_, fun a hlt ha => ?_, hshifted.fill, ?_⟩
  · rw [step, stepWriter, onWriter, onCursor_of_some hget]
    simp only [Cursor.moveBlock, Writing.mapError, hcopy]
  · refine ⟨_, hopen.backed.byte?_eq (by omega) (by omega), ?_⟩
    rw [hbyte _ (by omega) (by omega), hshifted.moved a ha]
    rfl
  · by_cases hs : s.tape.start ≤ a
    · rw [hbyte a hs hlt, hopen.backed.byte?_eq hs hlt, hshifted.others a ha]
    · rw [Tape.byte?, Tape.byte?, hshifted.grows.start, if_neg hs, if_neg hs]
  · rw [Cursor.position, haddress, hw'.aligned]
    rfl

/-- A stream on pages of two bytes, and a writer inside the first of them. -/
def onPagesOfTwo : Session :=
  after { tape := Tape.blank 2, framing := {} } [.tape (.append [1, 2, 3, 4, 5]),
    .cursor "w" (.makeWriter .byte (some 0)), .writer "w" (.writeByte 0)]

/-- Three bytes move by one place, over themselves and over the ends of pages. -/
theorem moveBlock_onPagesOfTwo :
    ∃ t w', onPagesOfTwo.step (.writer "w" (.moveBlock 2 3)) =
        (.done, { onPagesOfTwo with tape := t }.putCursor "w" (.writer w')) ∧
      (∀ a < 3, ∃ b, onPagesOfTwo.tape.byte? (2 + a) = some b ∧ t.byte? (1 + a) = some b) ∧
      (∀ a, a < onPagesOfTwo.tape.fill → a < 1 ∨ 1 + 3 ≤ a →
        t.byte? a = onPagesOfTwo.tape.byte? a) ∧
      t.fill = onPagesOfTwo.tape.fill ∧ w'.position = .ofByte (1 + 3) :=
  have hget : onPagesOfTwo.cursors.get? "w" =
      some (.writer { grain := .byte, address := 1, page := some 0, span := 2 }) := by rfl
  have hfill : onPagesOfTwo.tape.fill = 5 := by rfl
  moveBlock_spec 2 {} _ rfl hget rfl rfl (by rfl) (by rfl) (Nat.zero_le _) (by decide)
    (Nat.le_of_eq hfill.symm) (Nat.lt_of_le_of_lt (Nat.le_of_eq hfill) (by decide))

example : (onPagesOfTwo.step (.writer "w" (.moveBlock 2 3))).2.tape.cells =
    #[0, 3, 4, 5, 5, 0] := by
  decide +kernel

end Session

end Transcoder

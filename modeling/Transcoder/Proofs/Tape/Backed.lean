import Transcoder.Proofs.Tape.Appending

/-!
# A page for every byte

Pages are made as bytes are written, so the stream ends on the last page that was made, or on an
earlier one: an append that is refused half-way leaves pages that no byte of the stream is on, and
so does cutting the stream off.

Results:
* `Backed.byte?_eq`: every byte of the stream that was not given up is there.
* `Backed.append`, `Retains`: what appending and other changes keep.
-/
namespace Transcoder.Tape

/-- A page was made for every byte of the stream. -/
def Backed (t : Tape) : Prop := t.fill ≤ t.pageStart t.endPage

/-- The tape is whole, and the fill address does not lie before the pages that are there. -/
structure Firm (t : Tape) : Prop where
  whole : t.broken = false
  start_le : t.start ≤ t.fill
  backed : t.Backed

/-- Pages may have been made and the stream may have been cut off, but no page was given up and the
tape was not broken. -/
structure Retains (t t' : Tape) : Prop where
  start : t'.start = t.start
  broken : t'.broken = t.broken
  start_le : t.start ≤ t.fill → t.start ≤ t'.fill
  backed : t.Backed → t'.Backed

variable {t t' t'' : Tape} {a : Nat}

theorem Retains.trans (h : t.Retains t') (k : t'.Retains t'') : t.Retains t'' :=
  ⟨k.start.trans h.start, k.broken.trans h.broken,
    fun hle => h.start ▸ k.start_le (h.start.symm ▸ h.start_le hle),
    fun hb => k.backed (h.backed hb)⟩

theorem Firm.retains (h : t.Firm) (hr : t.Retains t') : t'.Firm :=
  ⟨hr.broken.trans h.whole, hr.start ▸ hr.start_le h.start_le, hr.backed h.backed⟩

theorem Grows.pages_le (h : t.Grows t') : t.pageStart t.endPage ≤ t'.pageStart t'.endPage := by
  rw [pageStart, pageStart, h.pageSize]
  exact Nat.mul_le_mul_right _ h.endPage

/-- More pages for a stream that is no longer than before. -/
theorem Grows.retains (h : t.Grows t') (hle : t'.fill ≤ t.fill)
    (hs : t.start ≤ t.fill → t.start ≤ t'.fill) : t.Retains t' :=
  ⟨h.start, h.broken, hs, fun hb => Nat.le_trans hle (Nat.le_trans hb h.pages_le)⟩

theorem retains_cut (ha : t.start ≤ a) : t.Retains { t with fill := min t.fill a } :=
  (t.refill_grows _).retains (Nat.min_le_left ..) fun hle => Nat.le_min.2 ⟨hle, ha⟩

theorem retains_fixEnd (h : t.fixEnd a = .ok t') : t.Retains t' := by
  obtain ⟨rfl, -⟩ := of_fixEnd h
  exact ⟨rfl, rfl, id, id⟩

/-- The page of a byte of the stream is there. -/
theorem Backed.resident (h : t.Backed) (hs : t.start ≤ a) (hlt : a < t.fill) :
    t.resident (t.pageOf a) = true := by
  simp only [Tape.resident, Bool.and_eq_true, decide_eq_true_eq]
  exact ⟨firstPage_le_pageOf.2 hs, pageOf_lt.2 (Nat.lt_of_lt_of_le hlt h)⟩

/-- Every byte of the stream that was not given up is there. -/
theorem Backed.byte?_eq (h : t.Backed) (hs : t.start ≤ a) (hlt : a < t.fill) :
    t.byte? a = some (t.byteAt a) :=
  byte?_of_resident (h.resident hs hlt)

/-! ## Appended bytes -/

/-- Bytes that are stored have their pages made; `onPage` says that the page of the first of them
was. -/
theorem backed_storeFrom {bytes : List UInt8} {onPage : Bool} {n : Nat}
    (ha : a ≤ t.pageStart t.endPage) (hon : onPage = true → a < t.pageStart t.endPage)
    (h : (t.storeFrom a onPage bytes).1 = .ok n) :
    n ≤ (t.storeFrom a onPage bytes).2.pageStart (t.storeFrom a onPage bytes).2.endPage := by
  induction bytes generalizing t a onPage with
  | nil =>
    cases h
    exact ha
  | cons b rest ih =>
    have hg := (t.storedFrom_laid a onPage b).toGrows
    have hlt : a < (t.laid a onPage b).pageStart (t.laid a onPage b).endPage := by
      cases onPage with
      | true => exact Nat.lt_of_lt_of_le (hon rfl) hg.pages_le
      | false =>
        have hmade := ((t.grow (t.pageOf a)).storedFrom_put a b).toGrows.pages_le
        exact Nat.lt_of_lt_of_le (pageOf_lt.1 (t.lt_endPage_grow (t.pageOf a))) hmade
    rw [storeFrom_cons] at h ⊢
    split at h
    · cases h
    · rw [← hg.pageSize] at h ⊢
      refine ih hlt (fun hon => ?_) h
      -- no page begins at the next address, so its page is that of the byte
      refine Nat.lt_of_le_of_ne hlt fun heq => ?_
      rw [heq, pageStart, Nat.mul_mod_left] at hon
      cases hon

theorem Backed.append (h : t.Backed) (bytes : List UInt8) : (t.append bytes).2.Backed := by
  cases ha : t.append bytes with
  | mk r t' =>
    cases r with
    | ok n =>
      have hstored := backed_storeFrom h (by simp) (ok_of_append_ok ha)
      obtain ⟨-, -, rfl⟩ := of_append_ok ha
      exact hstored
    | error e =>
      have hstored := of_append_error ha
      exact (hstored.toGrows.retains (Nat.le_of_eq hstored.fill)
        fun hle => hstored.fill.symm ▸ hle).backed h

end Transcoder.Tape

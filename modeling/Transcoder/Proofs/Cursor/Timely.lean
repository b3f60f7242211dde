import Transcoder.Proofs.Cursor.Loading
import Transcoder.Proofs.Cursor.Tight

/-!
# Spans that are not out of date

A cursor caches how far it gets without a test, and only what the cursor does itself sets this span
anew. Meanwhile the stream may be cut off, or its end be fixed. `Timely` says that the span is at
most what it would come to if it was set anew now.

Results:
* `Timely.of_span`: what it takes to stay timely on another tape; `Timely.grows` and
  `Timely.fixEnd` are the cases that matter.
* `Loads.timely`, `Stores.timely`, `timely_of_moves`: nothing that a cursor does makes its own span
  too long, and a timely reader takes only bytes that were written.
-/
namespace Transcoder

namespace Cursor

variable {role : Role} {c c' : Cursor role} {t t' : Tape}

/-- The span is at most what it would come to if it was set anew. -/
def Timely (c : Cursor role) (t : Tape) : Prop := c.span ≤ (c.refresh t).span

/-- What the span lets through once it is set anew, and nothing else. -/
theorem lt_span_refresh {a : Nat} : a < (c.refresh t).span ↔
    ∃ page, c.page = some page ∧ t.pageStart page ≤ c.address ∧ a < t.pageEnd page ∧
      a < (c.stop t).byte ∧ (role = .reader → a < t.fill) := by
  refine ⟨of_lt_span_refresh, ?_⟩
  rintro ⟨page, hpage, hstart, hend, hstop, hfill⟩
  simp only [refresh, hpage, if_pos hstart]
  cases role with
  | reader =>
    have := hfill rfl
    simp only
    omega
  | writer =>
    simp only
    omega

theorem timely_iff : c.Timely t ↔ ∀ a < c.span,
    ∃ page, c.page = some page ∧ t.pageStart page ≤ c.address ∧ a < t.pageEnd page ∧
      a < (c.stop t).byte ∧ (role = .reader → a < t.fill) := by
  refine ⟨fun h a ha => lt_span_refresh.1 (Nat.lt_of_lt_of_le ha h), fun h => ?_⟩
  refine Nat.le_of_not_lt fun hlt => ?_
  exact Nat.lt_irrefl _ (lt_span_refresh.2 (h _ hlt))

theorem timely_refresh (c : Cursor role) (t : Tape) : (c.refresh t).Timely t :=
  timely_iff.2 fun _ => lt_span_refresh.1

theorem Timely.le_stop (h : c.Timely t) : c.span ≤ (c.stop t).byte := by
  refine Nat.le_of_not_lt fun hlt => ?_
  obtain ⟨-, -, -, -, hstop, -⟩ := timely_iff.1 h _ hlt
  exact Nat.lt_irrefl _ hstop

theorem Timely.le_fill (h : c.Timely t) (hr : role = .reader) : c.span ≤ t.fill := by
  refine Nat.le_of_not_lt fun hlt => ?_
  obtain ⟨-, -, -, -, -, hfill⟩ := timely_iff.1 h _ hlt
  exact Nat.lt_irrefl _ (hfill hr)

/-! ## On another tape -/

/-- Pages stay where they are, so only the ends count. -/
theorem Timely.of_span (h : c.Timely t) (hp : t'.pageSize = t.pageSize)
    (hstop : c.span ≤ (c.stop t').byte) (hfill : role = .reader → c.span ≤ t'.fill) :
    c.Timely t' := by
  refine timely_iff.2 fun a ha => ?_
  obtain ⟨page, hpage, hstart, hend, -⟩ := timely_iff.1 h a ha
  refine ⟨page, hpage, ?_, ?_, Nat.lt_of_lt_of_le ha hstop, fun hr => ?_⟩
  · rwa [Tape.pageStart, hp]
  · rwa [Tape.pageEnd, hp]
  · exact Nat.lt_of_lt_of_le ha (hfill hr)

/-- Where the end of the stream is left as it is, only readers can be harmed. -/
theorem Timely.of_eof (h : c.Timely t) (hp : t'.pageSize = t.pageSize) (he : t'.eof = t.eof)
    (hfill : role = .reader → c.span ≤ t'.fill) : c.Timely t' := by
  refine h.of_span hp ?_ hfill
  have hstop : c.stop t' = c.stop t := by rw [stop, stop, Tape.endPosition, Tape.endPosition, he]
  rw [hstop]
  exact h.le_stop

theorem Timely.grows (h : c.Timely t) (hg : t.Grows t') (hf : t.fill ≤ t'.fill) : c.Timely t' :=
  h.of_eof hg.pageSize hg.eof fun hr => Nat.le_trans (h.le_fill hr) hf

/-- The fill address is nothing to a writer. -/
theorem Timely.grows_writer {w : Writer} (h : w.Timely t) (hg : t.Grows t') : w.Timely t' :=
  h.of_eof hg.pageSize hg.eof nofun

/-- The end is fixed behind all that was written, so only writers outside all blocks can be
harmed. -/
theorem Timely.fixEnd {address : Nat} (h : c.Timely t) (he : t.fixEnd address = .ok t')
    (hw : role = .writer → c.bounds = [] → ∀ e ∈ t'.eof, c.span ≤ e) : c.Timely t' := by
  obtain ⟨rfl, hfill, -⟩ := Tape.of_fixEnd he
  refine h.of_span rfl ?_ h.le_fill
  cases hb : c.bounds with
  | cons p outer =>
    have hstop := h.le_stop
    rw [stop, hb, List.headD_cons] at hstop ⊢
    exact hstop
  | nil =>
    rw [stop, hb, List.headD_nil, Tape.endPosition]
    simp only [Position.byte_ofByte]
    cases role with
    | reader => exact Nat.le_trans (h.le_fill rfl) hfill
    | writer => exact hw rfl hb address rfl

/-! ## What a cursor does itself -/

/-- Moving on by a byte keeps the span. -/
theorem Timely.next (h : c.Timely t) :
    Timely ({ c with address := c.address + 1 } : Cursor role) t := by
  refine timely_iff.2 fun a ha => ?_
  obtain ⟨page, hpage, hstart, hrest⟩ := timely_iff.1 h a ha
  exact ⟨page, hpage, Nat.le_succ_of_le hstart, hrest⟩

/-- A cursor that is moved has its span set anew, or none. -/
theorem timely_of_moves (hm : Moves t c c') : c'.Timely t := by
  cases hm with
  | push _ | pop _ | seek _ | refresh => exact timely_refresh _ t
  | close => exact Nat.zero_le _

end Cursor

variable {t : Tape} {c c' : Reader}

/-- A timely reader stays so, and takes no byte at the fill address or behind it. -/
theorem Loads.timely (h : Loads t c c') (hc : c.Timely t) :
    c'.Timely t ∧ c'.address ≤ max c.address t.fill := by
  induction h with
  | nil => exact ⟨hc, Nat.le_max_left ..⟩
  | bits _ _ _ _ ih => exact ih hc
  | @load c c' c'' b _ hf ih =>
    obtain ⟨hc', -⟩ := ih hc
    obtain ⟨rfl, hbyte⟩ := Cursor.of_fetch_ok hf
    refine ⟨?_, Nat.le_trans ?_ (Nat.le_max_right ..)⟩
    · have hpage : (c'.onLoad t).Timely t := by
        unfold Cursor.onLoad
        split
        · exact hc'
        · exact Cursor.timely_refresh _ t
      have hnext := hpage.next
      rwa [Cursor.address_onLoad] at hnext
    · rcases hbyte with ⟨hfast, -⟩ | hcheck
      · simp only [Cursor.fast, Bool.and_eq_true, decide_eq_true_eq] at hfast
        exact Nat.lt_of_lt_of_le hfast.1.1 (hc'.le_fill rfl)
      · exact Cursor.lt_fill_of_checkFetch hcheck
  | restore _ _ ih₀ _ => exact ⟨Cursor.timely_refresh _ t, (ih₀ hc).2⟩
  | bound _ _ ih => exact ⟨Cursor.timely_refresh _ t, (ih hc).2⟩

/-- A timely writer stays so. -/
theorem Stores.timely {s s' : Tape × Writer} (h : Stores s s') (hk : s.2.Kept s.1)
    (hw : s.2.Timely s.1) : s'.2.Timely s'.1 := by
  induction h with
  | nil => exact hw
  | bits _ _ _ ih => exact ih hk hw
  | @store _ t w h hc b ih =>
    have hw' : w.Timely t := ih hk hw
    have hpage : (w.onPage t).Timely (w.paged t) := by
      unfold Cursor.onPage
      split
      · exact hw'.grows_writer (w.paged_grows t)
      · exact Cursor.timely_refresh _ _
    have hnext := hpage.next
    rw [Cursor.address_onPage] at hnext
    -- the byte is on a page of the tape as it was
    have hg := (h.keeps hk).1.stored_grows hc b
    have hg' := w.paged_grows t
    exact hnext.of_eof (hg.pageSize.trans hg'.pageSize.symm) (hg.eof.trans hg'.eof.symm) nofun
  | restore _ _ _ _ => exact Cursor.timely_refresh _ _
  | reset h₀ h ih₀ _ =>
    have hk₀ := (h₀.keeps hk).1
    exact (ih₀ hk hw).grows_writer (h.keeps hk₀).2
  | @cut _ t₀ t _ _ h₀ _ ih₀ ih =>
    have hw₀ := ih₀ hk hw
    have hk₀ := (h₀.keeps hk).1
    exact (ih hk₀ hw₀).grows_writer (t.refill_grows (min t.fill t₀.fill))

end Transcoder

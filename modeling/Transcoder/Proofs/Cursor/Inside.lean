import Transcoder.Proofs.Cursor.Guards
import Transcoder.Proofs.Tape.Appending

/-!
# Accesses to the page at hand

A byte is taken from the page that the reader holds, or put on the page that the writer holds, and
the fast path does not ask which page that is: the span is trusted, though it may have been set long
ago. It is right to do so. As long as a cursor is in order, each of its accesses is to the page of
its byte, and the page is there.

Results:
* `guard_regular`: no access is to another page than that of its byte.
* `Regular.takesInside`, `Regular.putsInside`: what such an access finds and leaves.
-/
namespace Transcoder

/-- A byte was looked for on another page than its own. -/
inductive StreamError.Outside : StreamError → Prop
  | outsidePage (a : Nat) : Outside (.outsidePage a)

theorem StreamError.not_outside_of_ofPage {e : StreamError} (h : e.ofPage = false) :
    ¬e.Outside := by
  rintro ⟨⟩
  cases h

/-! ## Tapes -/

namespace Tape

variable {t : Tape} {a n : Nat} {e : StreamError}

theorem not_outside_of_checkReadable (h : t.checkReadable a = .error e) : ¬e.Outside := by
  rw [checkReadable] at h
  repeat' split at h
  all_goals
    cases h <;> rintro ⟨⟩

theorem not_outside_of_checkWritable (h : t.checkWritable a = .error e) : ¬e.Outside := by
  rw [checkWritable] at h
  repeat' split at h
  all_goals
    cases h <;> rintro ⟨⟩

theorem not_outside_of_truncate (h : t.truncate a = .error e) : ¬e.Outside := by
  rw [truncate] at h
  split at h
  · cases h
    rintro ⟨⟩
  · cases h

end Tape

/-! ## Cursors -/

namespace Cursor

variable {t : Tape} {e : StreamError}

theorem not_outside_of_checkFetch {c : Reader} (h : c.checkFetch t = .error e) : ¬e.Outside := by
  rw [checkFetch] at h
  split at h
  · cases h
    rintro ⟨⟩
  · simp only [bind, Except.bind] at h
    split at h
    · cases h
      exact StreamError.not_outside_of_ofPage (not_ofPage_of_checkByte ‹_›)
    · split at h
      · cases h
        exact Tape.not_outside_of_checkReadable ‹_›
      · split at h
        · cases h
        · cases h
          rintro ⟨⟩

theorem not_outside_of_checkStore {w : Writer} (h : w.checkStore t = .error e) : ¬e.Outside := by
  rw [checkStore] at h
  split at h
  · cases h
  · split at h
    · cases h
      rintro ⟨⟩
    · simp only [bind, Except.bind] at h
      split at h
      · cases h
        exact StreamError.not_outside_of_ofPage (not_ofPage_of_checkByte ‹_›)
      · split at h
        · cases h
        · exact Tape.not_outside_of_checkWritable h

/-- Cursors in order look for no byte on another page than its own. -/
theorem guard_regular : Guard Regular StreamError.Outside where
  ofPage := by
    rintro e ⟨⟩
    rfl
  kept h := h.toKept
  stores h hs := hs.regular h
  loads h hl := hl.regular h
  beside hw hc hs := hc.grows (hs.keeps hw.toKept).2
  ahead _ _ := regular_fresh _ _ _ _
  fetch h hf := not_outside_of_checkFetch (h.toKept.checkFetch_of_error hf)
  store _ hc := not_outside_of_checkStore hc
  cut _ _ hr := Tape.not_outside_of_truncate hr

/-- The next byte is taken from its page, which the reader holds then. Of a byte at hand some bits
were read, and it lies before the reader. -/
structure TakesInside (c : Reader) (t : Tape) : Prop where
  short : c.bits.length < 8
  placed : c.Placed
  refused : ∀ {e : StreamError}, c.fetch t = .error e → ¬e.Outside
  taken : ∀ {b : UInt8} {c' : Reader}, c.fetch t = .ok (b, c') →
    c'.page = some (t.pageOf c.address) ∧ t.resident (t.pageOf c.address) = true ∧
      t.byte? c.address = some b

/-- The next byte is put on its page, which the writer holds then. Of a byte at hand some bits are
still to be written. -/
structure PutsInside (w : Writer) (t : Tape) : Prop where
  short : w.bits.length < 8
  refused : ∀ {b : UInt8} {e : StreamError} {s : Tape × Writer}, store b (t, w) = .error e s →
    ¬e.Outside
  put : ∀ {b : UInt8} {t' : Tape} {w' : Writer}, store b (t, w) = .ok () (t', w') →
    w'.page = some (t'.pageOf w.address) ∧ t'.resident (t'.pageOf w.address) = true ∧
      t'.byte? w.address = some b

theorem Regular.takesInside {c : Reader} (h : c.Regular t) (hp : c.Placed) : c.TakesInside t := by
  refine ⟨h.tidy.short, hp, fun hf => guard_regular.fetch h hf, fun {b c'} hf => ?_⟩
  have hresident : t.resident (t.pageOf c.address) = true := by
    obtain ⟨hfirst, hend⟩ := h.toKept.resident_of_fetch hf
    rw [Tape.resident, decide_eq_true hfirst, decide_eq_true hend, Bool.and_self]
  have htaken : b = t.byteAt c.address ∧ c' = { c.onLoad t with address := c.address + 1 } := by
    rw [h.toKept.fetch_eq] at hf
    split at hf
    · cases hf
      exact ⟨rfl, rfl⟩
    · cases hc : c.checkFetch t with
      | error e =>
        rw [hc] at hf
        cases hf
      | ok u =>
        rw [hc] at hf
        cases hf
        exact ⟨rfl, rfl⟩
  obtain ⟨rfl, rfl⟩ := htaken
  exact ⟨h.toKept.page_onLoad, hresident, Tape.byte?_of_resident hresident⟩

theorem Regular.putsInside {w : Writer} (h : w.Regular t) : w.PutsInside t := by
  refine ⟨h.tidy.short, fun hr => guard_regular.safe_store _ h hr, fun {b t' w'} hr => ?_⟩
  cases hc : w.checkStore t with
  | error e =>
    rw [store_of_error hc] at hr
    cases hr
  | ok u =>
    have hg := h.toKept.stored_grows hc b
    obtain ⟨hs, hresident⟩ := h.toKept.resident hc
    rw [← (w.paged_grows t).start] at hs
    rw [h.toKept.store_of_ok hc] at hr
    cases hr
    have hpage := h.toKept.page_onPage
    rw [← hg.pageOf] at hpage
    refine ⟨hpage, ?_, ?_⟩
    · have hput := (w.paged t).storedFrom_put w.address b
      show ((w.paged t).put w.address b).resident (((w.paged t).put w.address b).pageOf _) = true
      rw [hput.toGrows.pageOf]
      exact hput.resident hresident
    · show ((w.paged t).put w.address b).byte? w.address = some b
      rw [Tape.byte?_put hs (Tape.lt_of_resident hresident), if_pos rfl]

end Cursor

end Transcoder

import Transcoder.Proofs.Tape.Content
import Transcoder.Cursor.Reader
import Transcoder.Cursor.Writer

/-!
# Cursors whose caches can be trusted

A byte cursor holds a page and a span, both from an earlier moment. `Cursor.Sound` says that they
are still right: the page is resident, and every address that the span lets through lies on the
page, before the innermost end and, for a reader, below the fill address. Whatever only adds to a
tape keeps that (`Sound.grows`); a writer stands even that bytes are dropped again (`Sound.keeps`).
-/
namespace Transcoder

/-- The address that no stream reaches. -/
def addressLimit : Nat := UInt64.size - 1

theorem Position.byte_unbounded : Position.unbounded.byte = addressLimit :=
  Position.byte_ofByte _

namespace Cursor

variable {role : Role}

structure Sound (c : Cursor role) (t : Tape) : Prop where
  grain : c.grain = .byte
  bits : c.bits = []
  page : ∀ p, c.page = some p → t.firstPage ≤ p ∧ p < t.endPage
  span : ∀ a, c.address ≤ a → a < c.span →
    c.page = some (t.pageOf a) ∧ a < (c.stop t).byte ∧ (role = .reader → a < t.fill)

/-- A cursor without a page is sound. -/
theorem sound_fresh (t : Tape) (bounds : List Position) (address : Nat) :
    Sound ({ grain := .byte, bounds, address } : Cursor role) t :=
  ⟨rfl, rfl, fun _ h => by simp at h, fun _ _ h => absurd h (Nat.not_lt_zero _)⟩

theorem Sound.grows {c : Cursor role} {t t' : Tape} (h : c.Sound t) (g : t.Grows t')
    (hf : role = .reader → t.fill ≤ t'.fill) : c.Sound t' := by
  refine ⟨h.grain, h.bits, fun p hp => ?_, fun a ha hs => ?_⟩
  · obtain ⟨h1, h2⟩ := h.page p hp
    exact ⟨g.firstPage ▸ h1, Nat.lt_of_lt_of_le h2 g.endPage⟩
  · obtain ⟨h1, h2, h3⟩ := h.span a ha hs
    refine ⟨by rw [g.pageOf, h1], ?_, fun hr => Nat.lt_of_lt_of_le (h3 hr) (hf hr)⟩
    rwa [stop, g.endPosition]

/-- The fill address is nothing to a writer. -/
theorem Sound.keeps {c : Writer} {t t' : Tape} (h : c.Sound t) (g : t.Grows t') : c.Sound t' :=
  h.grows g (by simp)

/-- Pages that are not held are given up. -/
theorem Sound.evict {c : Cursor role} {t : Tape} (h : c.Sound t) {held : List Nat}
    (hp : ∀ p ∈ c.page, p ∈ held) (mark : Nat) : c.Sound (t.evict held mark) := by
  refine ⟨h.grain, h.bits, fun p e => ?_, fun a ha hs => h.span a ha hs⟩
  obtain ⟨h1, h2⟩ := h.page p e
  exact ⟨Tape.evict_le_held held mark (hp p e) h1, (Tape.endPage_evict held mark).symm ▸ h2⟩

/-- What the span lets through once it is set anew. -/
theorem of_lt_span_refresh {c : Cursor role} {t : Tape} {a : Nat} (h : a < (c.refresh t).span) :
    ∃ page, c.page = some page ∧ t.pageStart page ≤ c.address ∧ a < t.pageEnd page ∧
      a < (c.stop t).byte ∧ (role = .reader → a < t.fill) := by
  simp only [refresh] at h
  split at h
  · exact absurd h (Nat.not_lt_zero _)
  · rename_i page hpage
    split at h
    · rename_i hstart
      refine ⟨page, hpage, hstart, ?_⟩
      cases role with
      | reader =>
        have h : a < min (min (t.pageEnd page) (c.stop t).byte) t.fill := h
        exact ⟨by omega, by omega, fun _ => by omega⟩
      | writer =>
        have h : a < min (t.pageEnd page) (c.stop t).byte := h
        exact ⟨by omega, by omega, by simp⟩
    · exact absurd h (Nat.not_lt_zero _)

/-- Setting the span anew makes it right. -/
theorem sound_refresh {c : Cursor role} {t : Tape} (hg : c.grain = .byte) (hb : c.bits = [])
    (hp : ∀ p, c.page = some p → t.firstPage ≤ p ∧ p < t.endPage) : (c.refresh t).Sound t := by
  refine ⟨hg, hb, hp, fun a ha hs => ?_⟩
  obtain ⟨page, hpage, hstart, hend, hstop, hfill⟩ := of_lt_span_refresh hs
  refine ⟨?_, hstop, hfill⟩
  rw [Tape.pageOf_eq (Nat.le_trans hstart ha) hend]
  exact hpage

/-- Moving on by a byte keeps the span. -/
theorem Sound.next {c : Cursor role} {t : Tape} (h : c.Sound t) :
    Sound ({ c with address := c.address + 1 } : Cursor role) t :=
  ⟨h.grain, h.bits, h.page, fun a ha hs => h.span a (Nat.le_of_succ_le ha) hs⟩

/-- A cursor that takes up another page. -/
theorem sound_refresh_page {c : Cursor role} {t : Tape} (h : c.Sound t) {page : Nat}
    (hp : t.firstPage ≤ page) (hp' : page < t.endPage) :
    (({ c with page := some page } : Cursor role).refresh t).Sound t :=
  sound_refresh h.grain h.bits fun p e => by
    simp only [Option.some.injEq] at e
    exact e ▸ ⟨hp, hp'⟩

theorem Sound.seek {c : Cursor role} {t : Tape} (h : c.Sound t) (address : Nat) :
    (c.seek t address).Sound t :=
  sound_refresh h.grain rfl fun p e => by
    split at e
    · exact h.page p e
    · simp at e

/-- A sound cursor works on whole bytes. -/
theorem Sound.stopsWithin {c : Cursor role} {t : Tape} (h : c.Sound t) :
    c.stopsWithin t = false := by
  simp [Cursor.stopsWithin, h.grain]

theorem Sound.aligned {c : Cursor role} {t : Tape} (h : c.Sound t) : c.aligned = true := by
  simp [Cursor.aligned, h.bits]

theorem Sound.checkByte {c : Cursor role} {t : Tape} (h : c.Sound t) :
    c.checkByte t = if c.address < (c.stop t).byte then .ok ()
      else .error (c.boundaryError t (.ofByte c.address)) := by
  simp [Cursor.checkByte, h.stopsWithin]

/-- What a fast access relies on. -/
theorem Sound.of_fast {c : Cursor role} {t : Tape} (h : c.Sound t) (hf : c.fast t = true) :
    c.holds t c.address = true ∧ c.address < (c.stop t).byte ∧
      (role = .reader → c.address < t.fill) := by
  simp only [fast, Bool.and_eq_true, decide_eq_true_eq] at hf
  obtain ⟨h1, h2, h3⟩ := h.span c.address (Nat.le_refl _) hf.1.1
  exact ⟨by simp [holds, h1], h2, h3⟩

end Cursor

end Transcoder

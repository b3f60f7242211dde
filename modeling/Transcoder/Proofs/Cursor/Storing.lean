import Transcoder.Proofs.Cursor.Sound

/-!
# What storing a byte comes to

Every write ends in `Cursor.store`, one byte at a time. Two paths lead through it, but they differ
only in the tests that they make: `checkStore` says whether a byte is refused, and what a byte does
that is not refused is said by `paged`, the tape with the page of the byte, and `onPage`, the writer
on that page.

A writer is `Kept` when it holds a resident page and its span stays on that page. It is `Trusted`
when the span stays before the innermost end as well: then the fast path lets nothing through that
the slow one would refuse.

Results:
* `Kept.store_of_ok`, `store_of_error`: a byte is stored, or nothing happens.
* `Kept.stored`, `Trusted.stored`: the caches stand the storing of a byte.
-/
namespace Transcoder.Cursor

variable {role : Role}

/-! ## Held pages and spans -/

/-- The page is resident, and the span stays on it. -/
structure Kept (c : Cursor role) (t : Tape) : Prop where
  page : ∀ p, c.page = some p → t.firstPage ≤ p ∧ p < t.endPage
  span : ∀ a, c.address ≤ a → a < c.span → c.page = some (t.pageOf a)

/-- The span stays before the innermost end as well, and a reader's before the fill address. -/
structure Trusted (c : Cursor role) (t : Tape) : Prop extends Kept c t where
  before : ∀ a, c.address ≤ a → a < c.span → a < (c.stop t).byte ∧ (role = .reader → a < t.fill)

/-- A cursor without a page can be trusted. -/
theorem trusted_fresh {c : Cursor role} (hp : c.page = none) (hs : c.span = 0) (t : Tape) :
    c.Trusted t := by
  refine ⟨⟨?_, ?_⟩, ?_⟩
  · intro p h
    rw [hp] at h
    cases h
  · intro a _ h
    omega
  · intro a _ h
    omega

/-- Setting the span anew is all that a cursor on a resident page needs. -/
theorem trusted_refresh {c : Cursor role} {t : Tape}
    (hp : ∀ p, c.page = some p → t.firstPage ≤ p ∧ p < t.endPage) : (c.refresh t).Trusted t := by
  refine ⟨⟨hp, ?_⟩, ?_⟩
  · intro a ha hs
    obtain ⟨page, hpage, hstart, hend, -⟩ := of_lt_span_refresh hs
    rw [Tape.pageOf_eq (Nat.le_trans hstart ha) hend]
    exact hpage
  · intro a _ hs
    obtain ⟨-, -, -, -, hstop, hfill⟩ := of_lt_span_refresh hs
    exact ⟨hstop, hfill⟩

namespace Kept

variable {c : Cursor role} {t t' : Tape}

theorem grows (h : c.Kept t) (g : t.Grows t') : c.Kept t' := by
  refine ⟨?_, ?_⟩
  · intro p hp
    obtain ⟨hfirst, hend⟩ := h.page p hp
    rw [g.firstPage]
    exact ⟨hfirst, Nat.lt_of_lt_of_le hend g.endPage⟩
  · intro a ha hs
    rw [g.pageOf]
    exact h.span a ha hs

/-- Moving on by a byte, with any bits in the byte. -/
theorem next (h : c.Kept t) (bits : List Bool) :
    ({ c with address := c.address + 1, bits } : Cursor role).Kept t :=
  ⟨h.page, fun a ha hs => h.span a (Nat.le_of_succ_le ha) hs⟩

theorem holds_of_fast (h : c.Kept t) (hf : c.fast t = true) : c.holds t c.address = true := by
  simp only [fast, Bool.and_eq_true, decide_eq_true_eq] at hf
  rw [holds, h.span c.address (Nat.le_refl _) hf.1.1, beq_self_eq_true]

end Kept

namespace Trusted

variable {c : Cursor role} {t t' : Tape}

theorem grows (h : c.Trusted t) (g : t.Grows t') (hf : role = .reader → t.fill ≤ t'.fill) :
    c.Trusted t' := by
  refine ⟨h.toKept.grows g, ?_⟩
  intro a ha hs
  obtain ⟨hstop, hfill⟩ := h.before a ha hs
  rw [stop, g.endPosition]
  exact ⟨hstop, fun hr => Nat.lt_of_lt_of_le (hfill hr) (hf hr)⟩

theorem next (h : c.Trusted t) (bits : List Bool) :
    ({ c with address := c.address + 1, bits } : Cursor role).Trusted t :=
  ⟨h.toKept.next bits, fun a ha hs => h.before a (Nat.le_of_succ_le ha) hs⟩

/-- The bits of the byte at hand are nothing to the caches. -/
theorem withBits (h : c.Trusted t) (bits : List Bool) :
    ({ c with bits } : Cursor role).Trusted t :=
  ⟨⟨h.page, h.span⟩, h.before⟩

end Trusted

/-! ## Storing -/

/-- A byte may be stored at the writer. -/
def checkStore (c : Writer) (t : Tape) : Except StreamError Unit :=
  if c.fast t then .ok ()
  else if t.broken then .error (.brokenCursor c.address)
  else do
    c.checkByte t
    if c.holds t c.address then .ok () else t.checkWritable c.address

/-- The tape with the page of the writer's byte. -/
def paged (c : Writer) (t : Tape) : Tape :=
  if c.holds t c.address then t else t.grow (t.pageOf c.address)

/-- The writer on the page of its byte; the span is set anew unless it lets the byte through. -/
def onPage (c : Writer) (t : Tape) : Writer :=
  if c.fast t then c else { c with page := some (t.pageOf c.address) }.refresh (c.paged t)

section

variable {c : Writer} {t : Tape}

theorem paged_grows (c : Writer) (t : Tape) : t.Grows (c.paged t) := by
  unfold paged
  split
  · exact .refl t
  · exact Tape.grow_grows _

theorem fill_paged (c : Writer) (t : Tape) : (c.paged t).fill = t.fill := by
  unfold paged
  split <;> rfl

@[simp] theorem address_onPage (c : Writer) (t : Tape) : (c.onPage t).address = c.address := by
  unfold onPage
  split <;> rfl

@[simp] theorem bits_onPage (c : Writer) (t : Tape) : (c.onPage t).bits = c.bits := by
  unfold onPage
  split <;> rfl

@[simp] theorem bounds_onPage (c : Writer) (t : Tape) : (c.onPage t).bounds = c.bounds := by
  unfold onPage
  split <;> rfl

@[simp] theorem grain_onPage (c : Writer) (t : Tape) : (c.onPage t).grain = c.grain := by
  unfold onPage
  split <;> rfl

theorem Kept.page_onPage (h : c.Kept t) : (c.onPage t).page = some (t.pageOf c.address) := by
  unfold onPage
  by_cases hf : c.fast t = true
  · rw [if_pos hf]
    exact eq_of_beq (h.holds_of_fast hf)
  · rw [if_neg hf]
    rfl

/-- The parts of the test for storing a byte. -/
theorem checkStore_eq_ok : c.checkStore t = .ok () ↔
    c.fast t = true ∨ t.broken = false ∧ c.checkByte t = .ok () ∧
      (c.holds t c.address = true ∨ t.checkWritable c.address = .ok ()) := by
  unfold checkStore
  by_cases hf : c.fast t = true
  · simp only [hf, if_true, true_or]
  · rw [if_neg hf, or_iff_right hf]
    cases t.broken with
    | true => simp only [if_true, reduceCtorEq, Bool.true_eq_false, false_and]
    | false =>
      cases c.checkByte t with
      | error e => simp [bind, Except.bind]
      | ok u => by_cases hh : c.holds t c.address = true <;> simp [hh, bind, Except.bind]

/-- A byte that may be stored finds its page, or a new one at the end. -/
theorem Kept.resident (h : c.Kept t) (hc : c.checkStore t = .ok ()) :
    t.start ≤ c.address ∧ (c.paged t).resident ((c.paged t).pageOf c.address) = true := by
  have hg := c.paged_grows t
  have hheld (hh : c.holds t c.address = true) :
      t.start ≤ c.address ∧ (c.paged t).resident ((c.paged t).pageOf c.address) = true := by
    obtain ⟨hfirst, hend⟩ := h.page _ (eq_of_beq hh)
    refine ⟨Tape.firstPage_le_pageOf.1 hfirst, ?_⟩
    simp only [Tape.resident, Bool.and_eq_true, decide_eq_true_eq, hg.pageOf, hg.firstPage]
    exact ⟨hfirst, Nat.lt_of_lt_of_le hend hg.endPage⟩
  rcases checkStore_eq_ok.1 hc with hf | ⟨hb, -, hh | hw⟩
  · exact hheld (h.holds_of_fast hf)
  · exact hheld hh
  · by_cases hh : c.holds t c.address = true
    · exact hheld hh
    · have hs : t.start ≤ c.address := by
        simp only [Tape.checkWritable, hb, Bool.false_eq_true, if_false] at hw
        split at hw
        · cases hw
        · split at hw
          · cases hw
          · exact Tape.firstPage_le_pageOf.1 (Nat.le_of_not_lt ‹_›)
      refine ⟨hs, ?_⟩
      rw [paged, if_neg hh]
      exact Tape.resident_grow hs

end

section

variable {c : Writer} {t : Tape} {b : UInt8}

/-- A byte that may not be stored changes nothing. -/
theorem store_of_error {e : StreamError} (hc : c.checkStore t = .error e) :
    store b (t, c) = .error e (t, c) := by
  unfold checkStore at hc
  rw [store]
  by_cases hf : c.fast t = true
  · rw [if_pos hf] at hc
    cases hc
  rw [if_neg hf] at hc ⊢
  rw [storeSlow]
  by_cases hb : t.broken = true
  · rw [if_pos hb] at hc ⊢
    cases hc
    rfl
  rw [if_neg hb] at hc ⊢
  cases hcheck : c.checkByte t with
  | error e' =>
    rw [hcheck] at hc
    cases hc
    rfl
  | ok u =>
    rw [hcheck] at hc
    simp only [bind, Except.bind] at hc ⊢
    by_cases hh : c.holds t c.address = true
    · rw [if_pos hh] at hc
      cases hc
    · rw [if_neg hh] at hc ⊢
      rw [hc]

/-- A byte that may be stored is put on its page. -/
theorem Kept.store_of_ok (h : c.Kept t) (hc : c.checkStore t = .ok ()) :
    store b (t, c) = .ok () (((c.paged t).put c.address b).noteWritten (c.address + 1),
      { c.onPage t with address := c.address + 1 }) := by
  have hplace : c.holds t c.address = true → ∀ w : Writer, w.page = c.page →
      w.address = c.address → place b (t, w) = .ok () ((t.put c.address b).noteWritten
        (c.address + 1), { w with address := c.address + 1 }) := by
    intro hh w hp ha
    have hw : w.holds t w.address = true := by rw [holds, hp, ha]; exact hh
    rw [place, if_pos hw, ha]
  rw [store]
  by_cases hf : c.fast t = true
  · have hh := h.holds_of_fast hf
    rw [if_pos hf, hplace hh c rfl rfl, paged, if_pos hh, onPage, if_pos hf]
  · obtain ⟨hb, hcheck, hw⟩ := (or_iff_right hf).1 (checkStore_eq_ok.1 hc)
    rw [if_neg hf, storeSlow, hb, if_neg Bool.false_ne_true, hcheck]
    by_cases hh : c.holds t c.address = true
    · have hpage : ({ c with page := some (t.pageOf c.address) } : Writer) = c := by
        rw [← eq_of_beq hh]
      simp only
      rw [if_pos hh, hplace hh (c.refresh t) rfl rfl, paged, if_pos hh, onPage, if_neg hf, hpage,
        paged, if_pos hh]
    · simp only
      rw [if_neg hh, (or_iff_right hh).1 hw, paged, if_neg hh, onPage, if_neg hf, paged, if_neg hh]
      simp only
      rw [place, if_pos]
      · rfl
      · simp only [holds, refresh, (Tape.grow_grows (t := t) (t.pageOf c.address)).pageOf,
          beq_self_eq_true]

end

section

variable {c : Writer} {t : Tape} {b : UInt8}

/-- Storing a byte adds pages at most. -/
theorem Kept.stored_grows (h : c.Kept t) (hc : c.checkStore t = .ok ()) (b : UInt8) :
    t.Grows (((c.paged t).put c.address b).noteWritten (c.address + 1)) := by
  have hg := c.paged_grows t
  have hs := (h.resident hc).1
  rw [← hg.start] at hs
  exact hg.trans (Tape.store_grows hs b)

theorem Kept.resident_onPage (h : c.Kept t) (hc : c.checkStore t = .ok ()) :
    ∀ p, (c.onPage t).page = some p → (c.paged t).firstPage ≤ p ∧ p < (c.paged t).endPage := by
  intro p hp
  have hr := (h.resident hc).2
  rw [h.page_onPage, Option.some.injEq] at hp
  simp only [Tape.resident, Bool.and_eq_true, decide_eq_true_eq, (c.paged_grows t).pageOf, hp] at hr
  exact hr

/-- The caches stand the storing of a byte. -/
theorem Kept.stored (h : c.Kept t) (hc : c.checkStore t = .ok ()) (bits : List Bool) :
    Kept ({ c.onPage t with address := c.address + 1, bits } : Writer)
      (((c.paged t).put c.address b).noteWritten (c.address + 1)) := by
  have hs := (h.resident hc).1
  rw [← (c.paged_grows t).start] at hs
  have hpage : (c.onPage t).Kept (c.paged t) := by
    have hr := h.resident_onPage hc
    unfold onPage at hr ⊢
    by_cases hf : c.fast t = true
    · rw [if_pos hf]
      exact h.grows (c.paged_grows t)
    · rw [if_neg hf] at hr ⊢
      exact (trusted_refresh hr).toKept
  have hnext := (hpage.next bits).grows (Tape.store_grows hs b)
  rwa [address_onPage] at hnext

/-- The span stays right when a byte is stored. -/
theorem Trusted.stored (h : c.Trusted t) (hc : c.checkStore t = .ok ()) (bits : List Bool) :
    Trusted ({ c.onPage t with address := c.address + 1, bits } : Writer)
      (((c.paged t).put c.address b).noteWritten (c.address + 1)) := by
  have hs := (h.toKept.resident hc).1
  rw [← (c.paged_grows t).start] at hs
  have hpage : (c.onPage t).Trusted (c.paged t) := by
    have hr := h.toKept.resident_onPage hc
    unfold onPage at hr ⊢
    by_cases hf : c.fast t = true
    · rw [if_pos hf]
      exact h.grows (c.paged_grows t) (by simp)
    · rw [if_neg hf] at hr ⊢
      exact trusted_refresh hr
  have hnext := (hpage.next bits).grows (Tape.store_grows hs b) (by simp)
  rwa [address_onPage] at hnext

end

end Transcoder.Cursor

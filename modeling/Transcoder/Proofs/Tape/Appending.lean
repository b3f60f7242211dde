import Transcoder.Proofs.Tape.Content

/-!
# Appending to any tape

Bytes are appended one after the other, but only for the first of them, and where a page begins, is
it asked whether they may be written. `Tape.Asks` names these addresses, and all that an append does
follows from them: it gets through if each of them may be written, and is refused by the first that
may not. Between two of them nothing is asked, so the end of a stream is met where a page begins at
it and is passed where none does.

Results:
* `append_of_writable`, `append_of_refused`: which appends get through, and what refuses the others.
* `of_append_error`: an append that is refused changes neither the fill address nor a byte below it.
-/
namespace Transcoder.Tape

/-- Storing bytes from `a` on asks whether `x` may be written; `onPage` says that the page of `a`
has passed. -/
def Asks (t : Tape) (a : Nat) (onPage : Bool) (x : Nat) : Prop :=
  x = a ∧ onPage = false ∨ a < x ∧ t.pageSize ∣ x

/-- The tape with the page of `a`, made unless it has passed, and a byte there. -/
def laid (t : Tape) (a : Nat) (onPage : Bool) (b : UInt8) : Tape :=
  (if onPage then t else t.grow (t.pageOf a)).put a b

/-- Some bytes were stored at `a` or behind it, and the pages for them made. -/
structure StoredFrom (a : Nat) (t t' : Tape) : Prop extends t.Grows t' where
  fill : t'.fill = t.fill
  paged : t.pageSize ∣ t.cells.size → t'.pageSize ∣ t'.cells.size
  bytes : ∀ x < a, ∀ b, t.byte? x = some b → t'.byte? x = some b

namespace StoredFrom

variable {a a' : Nat} {t t' t'' : Tape}

theorem refl (a : Nat) (t : Tape) : StoredFrom a t t := ⟨.refl t, rfl, id, fun _ _ _ h => h⟩

theorem trans (h : StoredFrom a t t') (k : StoredFrom a' t' t'') (ha : a ≤ a') :
    StoredFrom a t t'' :=
  ⟨h.toGrows.trans k.toGrows, k.fill.trans h.fill, fun hp => k.paged (h.paged hp),
    fun x hx b hb => k.bytes x (Nat.lt_of_lt_of_le hx ha) b (h.bytes x hx b hb)⟩

theorem resident (h : StoredFrom a t t') {page : Nat} (hr : t.resident page = true) :
    t'.resident page = true := by
  simp only [Tape.resident, Bool.and_eq_true, decide_eq_true_eq] at hr ⊢
  rw [h.firstPage]
  exact ⟨hr.1, Nat.lt_of_lt_of_le hr.2 h.endPage⟩

end StoredFrom

/-! ## One byte -/

/-- What may be written: on a whole tape the addresses before its end that were not given up. -/
theorem checkWritable_eq_ok {t : Tape} {a : Nat} :
    t.checkWritable a = .ok () ↔ t.broken = false ∧ (∀ e ∈ t.eof, a < e) ∧ t.start ≤ a := by
  unfold checkWritable
  by_cases hb : t.broken = true
  · simp [hb]
  rw [if_neg hb, and_iff_right (Bool.eq_false_iff.2 hb), ← firstPage_le_pageOf]
  cases he : t.eof with
  | none =>
    by_cases hp : t.pageOf a < t.firstPage
    · simp [hp]
    · simp [hp, Nat.le_of_not_lt hp]
  | some e =>
    rw [Option.filter_some]
    by_cases hle : e ≤ a
    · rw [if_pos (decide_eq_true hle)]
      simp [Nat.not_lt.2 hle]
    · rw [if_neg (by simpa using hle)]
      by_cases hp : t.pageOf a < t.firstPage
      · simp [hp]
      · simp [hp, Nat.le_of_not_lt hp, Nat.lt_of_not_le hle]

/-- What may be written was not given up. -/
theorem start_le_of_checkWritable {t : Tape} {a : Nat} (h : t.checkWritable a = .ok ()) :
    t.start ≤ a :=
  (checkWritable_eq_ok.1 h).2.2

/-- Pages that are made, and bytes, decide nothing about what may be written. -/
theorem Grows.checkWritable {t t' : Tape} (h : t.Grows t') (a : Nat) :
    t'.checkWritable a = t.checkWritable a := by
  rw [Tape.checkWritable, Tape.checkWritable, h.broken, h.eof, h.pageOf, h.firstPage]

theorem Grows.asks {t t' : Tape} (h : t.Grows t') (a : Nat) (onPage : Bool) (x : Nat) :
    t'.Asks a onPage x ↔ t.Asks a onPage x := by
  rw [Asks, Asks, h.pageSize]

/-- Behind the first byte only the pages count. -/
theorem asks_succ {t : Tape} {a x : Nat} :
    t.Asks (a + 1) ((a + 1) % t.pageSize != 0) x ↔ a < x ∧ t.pageSize ∣ x := by
  rw [Asks, bne_eq_false_iff_eq, ← Nat.dvd_iff_mod_eq_zero]
  constructor
  · rintro (⟨rfl, hd⟩ | ⟨hlt, hd⟩)
    · exact ⟨Nat.lt_succ_self a, hd⟩
    · exact ⟨Nat.lt_of_succ_lt hlt, hd⟩
  · rintro ⟨hlt, hd⟩
    rcases Nat.eq_or_lt_of_le (Nat.succ_le_of_lt hlt) with rfl | hlt
    · exact .inl ⟨rfl, hd⟩
    · exact .inr ⟨hlt, hd⟩

/-- One byte, if it may be written, and then the others. -/
theorem storeFrom_cons (t : Tape) (a : Nat) (onPage : Bool) (b : UInt8) (rest : List UInt8) :
    t.storeFrom a onPage (b :: rest) =
      match (if onPage then .ok () else t.checkWritable a) with
      | .error e => (.error e, t)
      | .ok () => (t.laid a onPage b).storeFrom (a + 1) ((a + 1) % t.pageSize != 0) rest := by
  rw [storeFrom]
  cases onPage with
  | true => rfl
  | false =>
    simp only [Bool.false_eq_true, if_false, writePage]
    cases t.checkWritable a with
    | error e => rfl
    | ok u => rfl

theorem storedFrom_put (t : Tape) (a : Nat) (b : UInt8) : StoredFrom a t (t.put a b) := by
  by_cases hs : t.start ≤ a
  · refine ⟨put_grows hs b, by rw [put_of_le hs], fun hp => paged_put hs hp b, ?_⟩
    intro x hx c hc
    rw [put_of_le hs]
    unfold byte? at hc ⊢
    split at hc
    · rename_i hsx
      have hstart : start { t with cells := t.cells.setIfInBounds (a - t.start) b } = t.start := rfl
      rw [hstart, if_pos hsx, Array.getElem?_setIfInBounds_ne (by omega)]
      exact hc
    · cases hc
  · rw [put, if_neg hs]
    exact .refl a t

theorem storedFrom_grow (t : Tape) (a page : Nat) : StoredFrom a t (t.grow page) :=
  ⟨grow_grows page, rfl, fun hp => paged_grow hp page, fun _ _ _ hb => byte?_grow hb⟩

theorem storedFrom_laid (t : Tape) (a : Nat) (onPage : Bool) (b : UInt8) :
    StoredFrom a t (t.laid a onPage b) := by
  unfold laid
  cases onPage with
  | true => exact t.storedFrom_put a b
  | false =>
    exact (t.storedFrom_grow a _).trans ((t.grow (t.pageOf a)).storedFrom_put a b) (Nat.le_refl a)

/-! ## All bytes -/

theorem storedFrom_storeFrom (bytes : List UInt8) (t : Tape) (a : Nat) (onPage : Bool) :
    StoredFrom a t (t.storeFrom a onPage bytes).2 := by
  induction bytes generalizing t a onPage with
  | nil => exact .refl a t
  | cons b rest ih =>
    rw [storeFrom_cons]
    split
    · exact .refl a t
    · exact (t.storedFrom_laid a onPage b).trans (ih ..) (Nat.le_succ a)

theorem storeFrom_of_writable {bytes : List UInt8} {t : Tape} {a : Nat} {onPage : Bool}
    (h : ∀ x < a + bytes.length, t.Asks a onPage x → t.checkWritable x = .ok ()) :
    (t.storeFrom a onPage bytes).1 = .ok (a + bytes.length) := by
  induction bytes generalizing t a onPage with
  | nil => rfl
  | cons b rest ih =>
    rw [List.length_cons, ← Nat.add_assoc] at h ⊢
    have hfirst : (if onPage then .ok () else t.checkWritable a) = .ok () := by
      cases onPage with
      | true => rfl
      | false => exact h a (Nat.lt_succ_of_le (Nat.le_add_right ..)) (.inl ⟨rfl, rfl⟩)
    have hg := (t.storedFrom_laid a onPage b).toGrows
    rw [storeFrom_cons, hfirst]
    simp only
    rw [← hg.pageSize, ih, Nat.add_right_comm]
    intro x hx hasks
    rw [hg.checkWritable]
    rw [asks_succ, hg.pageSize] at hasks
    exact h x (by omega) (.inr hasks)

theorem storeFrom_of_refused {bytes : List UInt8} {t : Tape} {a x : Nat} {onPage : Bool}
    {e : StreamError} (hx : x < a + bytes.length) (hasks : t.Asks a onPage x)
    (he : t.checkWritable x = .error e)
    (hbefore : ∀ y < x, t.Asks a onPage y → t.checkWritable y = .ok ()) :
    (t.storeFrom a onPage bytes).1 = .error e := by
  induction bytes generalizing t a onPage with
  | nil =>
    rcases hasks with ⟨rfl, -⟩ | ⟨hlt, -⟩
    · exact absurd hx (Nat.lt_irrefl _)
    · exact absurd (Nat.lt_trans hlt hx) (Nat.lt_irrefl _)
  | cons b rest ih =>
    rw [storeFrom_cons]
    by_cases hfirst : x = a ∧ onPage = false
    · obtain ⟨rfl, rfl⟩ := hfirst
      rw [if_neg Bool.false_ne_true, he]
    · have hlater := (or_iff_right hfirst).1 hasks
      have hok : (if onPage then .ok () else t.checkWritable a) = .ok () := by
        cases onPage with
        | true => rfl
        | false => exact hbefore a hlater.1 (.inl ⟨rfl, rfl⟩)
      have hg := (t.storedFrom_laid a onPage b).toGrows
      rw [hok]
      simp only
      rw [← hg.pageSize]
      apply ih
      · rw [List.length_cons] at hx
        omega
      · rwa [asks_succ, hg.pageSize]
      · rwa [hg.checkWritable]
      · intro y hy hyasks
        rw [hg.checkWritable]
        rw [asks_succ, hg.pageSize] at hyasks
        exact hbefore y hy (.inr hyasks)

/-- What was stored might be written. -/
theorem of_storeFrom_ok {bytes : List UInt8} {t : Tape} {a n : Nat} {onPage : Bool}
    (h : (t.storeFrom a onPage bytes).1 = .ok n) :
    n = a + bytes.length ∧ ∀ x < n, t.Asks a onPage x → t.checkWritable x = .ok () := by
  induction bytes generalizing t a onPage with
  | nil =>
    cases h
    refine ⟨rfl, fun x hx hasks => ?_⟩
    rcases hasks with ⟨rfl, -⟩ | ⟨hlt, -⟩
    · exact absurd hx (Nat.lt_irrefl _)
    · exact absurd (Nat.lt_trans hlt hx) (Nat.lt_irrefl _)
  | cons b rest ih =>
    have hg := (t.storedFrom_laid a onPage b).toGrows
    rw [storeFrom_cons] at h
    split at h
    · cases h
    · rename_i hfirst
      rw [← hg.pageSize] at h
      obtain ⟨hn, hrest⟩ := ih h
      refine ⟨by rw [hn, List.length_cons]; omega, fun x hx hasks => ?_⟩
      rcases hasks with ⟨rfl, rfl⟩ | hlater
      · simpa using hfirst
      · rw [← hg.checkWritable]
        refine hrest x hx ?_
        rwa [asks_succ, hg.pageSize]

/-! ## Appending -/

/-- Bytes are refused by the first address that is asked for and may not be written. -/
theorem append_of_refused {t : Tape} {bytes : List UInt8} {x : Nat} {e : StreamError}
    (hx : x < t.fill + bytes.length) (hasks : t.Asks t.fill false x)
    (he : t.checkWritable x = .error e)
    (hbefore : ∀ y < x, t.Asks t.fill false y → t.checkWritable y = .ok ()) :
    ∃ t', t.append bytes = (.error e, t') := by
  have h := storeFrom_of_refused hx hasks he hbefore
  rw [append]
  generalize t.storeFrom t.fill false bytes = r at h
  obtain ⟨r, t'⟩ := r
  cases h
  exact ⟨t', rfl⟩

/-- Bytes get through where each address that is asked for may be written. -/
theorem append_of_writable {t : Tape} {bytes : List UInt8}
    (h : ∀ x < t.fill + bytes.length, t.Asks t.fill false x → t.checkWritable x = .ok ()) :
    ∃ t', t.append bytes = (.ok (t.fill + bytes.length), t') := by
  have h := storeFrom_of_writable h
  rw [append]
  generalize t.storeFrom t.fill false bytes = r at h
  obtain ⟨r, t'⟩ := r
  cases h
  exact ⟨_, rfl⟩

/-- An append that gets through has stored every byte, and moves the fill address behind them. -/
theorem of_append_ok {t t' : Tape} {bytes : List UInt8} {n : Nat}
    (h : t.append bytes = (.ok n, t')) :
    n = t.fill + bytes.length ∧
      (∀ x < n, t.Asks t.fill false x → t.checkWritable x = .ok ()) ∧
      t' = { (t.storeFrom t.fill false bytes).2 with fill := n } := by
  have hok : (t.storeFrom t.fill false bytes).1 = .ok n → n = t.fill + bytes.length ∧
      ∀ x < n, t.Asks t.fill false x → t.checkWritable x = .ok () := of_storeFrom_ok
  rw [append] at h
  generalize t.storeFrom t.fill false bytes = r at h hok
  obtain ⟨r, t₁⟩ := r
  cases r with
  | ok n₁ =>
    cases h
    exact ⟨(hok rfl).1, (hok rfl).2, rfl⟩
  | error e => cases h

theorem ok_of_append_ok {t t' : Tape} {bytes : List UInt8} {n : Nat}
    (h : t.append bytes = (.ok n, t')) : (t.storeFrom t.fill false bytes).1 = .ok n := by
  rw [append] at h
  generalize t.storeFrom t.fill false bytes = r at h ⊢
  obtain ⟨r, t₁⟩ := r
  cases r with
  | ok n₁ =>
    cases h
    rfl
  | error e => cases h

/-- Which appends get through. -/
theorem exists_append_ok_iff {t : Tape} {bytes : List UInt8} {n : Nat} :
    (∃ t', t.append bytes = (.ok n, t')) ↔
      n = t.fill + bytes.length ∧ ∀ x < n, t.Asks t.fill false x → t.checkWritable x = .ok () := by
  constructor
  · rintro ⟨t', h⟩
    obtain ⟨hn, hwritable, -⟩ := of_append_ok h
    exact ⟨hn, hwritable⟩
  · rintro ⟨rfl, hwritable⟩
    exact append_of_writable hwritable

/-- An append that is refused leaves the fill address and all bytes below it, though it may have
stored some bytes behind them. -/
theorem of_append_error {t t' : Tape} {bytes : List UInt8} {e : StreamError}
    (h : t.append bytes = (.error e, t')) : StoredFrom t.fill t t' := by
  have hstored := storedFrom_storeFrom bytes t t.fill false
  rw [append] at h
  generalize t.storeFrom t.fill false bytes = r at h hstored
  obtain ⟨r, t₁⟩ := r
  cases r with
  | ok n => cases h
  | error e' =>
    cases h
    exact hstored

/-- Whatever comes of it, an append makes pages at most. -/
theorem append_grows (t : Tape) (bytes : List UInt8) : t.Grows (t.append bytes).2 := by
  cases h : t.append bytes with
  | mk r t' =>
    cases r with
    | ok n =>
      obtain ⟨-, -, rfl⟩ := of_append_ok h
      have hg := (storedFrom_storeFrom bytes t t.fill false).toGrows
      exact ⟨hg.pageSize, hg.firstPage, hg.endPage, hg.eof, hg.broken⟩
    | error e => exact (of_append_error h).toGrows

end Transcoder.Tape

import Transcoder.Tape

/-!
# The stream that a tape carries

Pages and their release are bookkeeping: what counts is the list of bytes written so far. `Carries`
says that a tape holds such a list, of which the front may have been given up.

Results:
* `Carries.append`, `Carries.evict`, `Carries.truncate`, `Carries.store`: what each operation on a
  tape is on the list.
* `Carries.copyOut`: bytes that are not given up come out as they stand in the list.
-/
namespace Transcoder

/-- `s` with `bytes` put over what stands from address `a` on. -/
def overwrite (s : List UInt8) (a : Nat) (bytes : List UInt8) : List UInt8 :=
  s.take a ++ bytes ++ s.drop (a + bytes.length)

theorem getElem?_overwrite {s : List UInt8} {a : Nat} (h : a ≤ s.length) (bytes : List UInt8)
    (x : Nat) : (overwrite s a bytes)[x]? =
      if x < a then s[x]? else if x < a + bytes.length then bytes[x - a]? else s[x]? := by
  unfold overwrite
  rw [List.append_assoc, List.getElem?_append, List.length_take, Nat.min_eq_left h]
  by_cases h1 : x < a
  · rw [if_pos h1, if_pos h1, List.getElem?_take_of_lt h1]
  · rw [if_neg h1, if_neg h1, List.getElem?_append]
    by_cases h2 : x < a + bytes.length
    · rw [if_pos h2, if_pos (by omega)]
    · rw [if_neg h2, if_neg (by omega), List.getElem?_drop]
      congr 1
      omega

theorem length_overwrite {s : List UInt8} {a : Nat} (h : a ≤ s.length) (bytes : List UInt8) :
    (overwrite s a bytes).length = max s.length (a + bytes.length) := by
  simp only [overwrite, List.length_append, List.length_take, List.length_drop]
  omega

@[simp] theorem overwrite_nil (s : List UInt8) (a : Nat) : overwrite s a [] = s := by
  simp [overwrite]

theorem overwrite_length (s bytes : List UInt8) : overwrite s s.length bytes = s ++ bytes := by
  simp [overwrite, List.drop_of_length_le]

theorem drop_overwrite {s bytes : List UInt8} {a b : Nat} (h : a ≤ s.length)
    (hb : a + bytes.length ≤ b) : (overwrite s a bytes).drop b = s.drop b := by
  apply List.ext_getElem?
  intro i
  rw [List.getElem?_drop, List.getElem?_drop, getElem?_overwrite h, if_neg (by omega),
    if_neg (by omega)]

theorem take_overwrite {s bytes : List UInt8} {a b : Nat} (h : a ≤ s.length) (hb : b ≤ a) :
    (overwrite s a bytes).take b = s.take b := by
  rw [overwrite, List.append_assoc, List.take_append_of_le_length (by rw [List.length_take]; omega),
    List.take_take, Nat.min_eq_left hb]

theorem overwrite_overwrite {s : List UInt8} {a : Nat} (h : a ≤ s.length)
    (xs ys : List UInt8) :
    overwrite (overwrite s a xs) (a + xs.length) ys = overwrite s a (xs ++ ys) := by
  have hl : a + xs.length ≤ (overwrite s a xs).length := by rw [length_overwrite h]; omega
  apply List.ext_getElem?
  intro x
  rw [getElem?_overwrite hl, getElem?_overwrite h, getElem?_overwrite h, List.length_append,
    List.getElem?_append]
  by_cases h1 : x < a
  · rw [if_pos (by omega), if_pos h1, if_pos h1]
  · by_cases h2 : x < a + xs.length
    · rw [if_pos h2, if_neg h1, if_pos h2, if_neg h1, if_pos (by omega), if_pos (by omega)]
    · by_cases h3 : x < a + (xs.length + ys.length)
      · rw [if_neg h2, if_pos (by omega), if_neg h1, if_pos h3, if_neg (by omega)]
        congr 1
        omega
      · rw [if_neg h2, if_neg (by omega), if_neg h1, if_neg h2, if_neg h1, if_neg h3]

theorem overwrite_cons {s : List UInt8} {a : Nat} (h : a ≤ s.length) (b : UInt8)
    (ys : List UInt8) : overwrite (overwrite s a [b]) (a + 1) ys = overwrite s a (b :: ys) :=
  overwrite_overwrite h [b] ys

namespace Tape

/-! ## Pages and addresses -/

theorem firstPage_le_pageOf {t : Tape} {a : Nat} : t.firstPage ≤ t.pageOf a ↔ t.start ≤ a :=
  Nat.le_div_iff_mul_le t.pageSize_pos

theorem pageOf_lt {t : Tape} {a page : Nat} : t.pageOf a < page ↔ a < page * t.pageSize :=
  Nat.div_lt_iff_lt_mul t.pageSize_pos

theorem pageStart_le (t : Tape) (a : Nat) : t.pageStart (t.pageOf a) ≤ a :=
  Nat.div_mul_le_self ..

theorem lt_pageEnd (t : Tape) (a : Nat) : a < t.pageEnd (t.pageOf a) :=
  pageOf_lt.1 (Nat.lt_succ_self _)

/-- An address between the two ends of a page is on it. -/
theorem pageOf_eq {t : Tape} {a page : Nat} (h : t.pageStart page ≤ a) (k : a < t.pageEnd page) :
    t.pageOf a = page := by
  have h1 := (Nat.le_div_iff_mul_le t.pageSize_pos).2 h
  have h2 := pageOf_lt.2 k
  unfold pageOf at *
  omega

/-- The next address is on the same page, unless a page begins there. -/
theorem pageOf_succ {t : Tape} {a : Nat} (h : (a + 1) % t.pageSize ≠ 0) :
    t.pageOf (a + 1) = t.pageOf a := by
  apply pageOf_eq
  · exact Nat.le_succ_of_le (t.pageStart_le a)
  · have h1 := t.lt_pageEnd a
    have h2 : a + 1 ≠ t.pageEnd (t.pageOf a) := by
      intro e
      rw [e, pageEnd, Nat.mul_mod_left] at h
      exact h rfl
    omega

/-- The resident addresses end where the cells do. -/
theorem endPage_mul {t : Tape} (h : t.pageSize ∣ t.cells.size) :
    t.endPage * t.pageSize = t.start + t.cells.size := by
  rw [endPage, Nat.add_mul, pageCount, Nat.div_mul_cancel h]
  rfl

theorem byte?_of_le {t : Tape} {a : Nat} (h : t.start ≤ a) : t.byte? a = t.cells[a - t.start]? := by
  rw [byte?, if_pos h]

/-! ## Growing -/

/-- `t'` has the pages of `t`, and maybe more behind them, and ends where `t` does. -/
structure Grows (t t' : Tape) : Prop where
  pageSize : t'.pageSize = t.pageSize
  firstPage : t'.firstPage = t.firstPage
  endPage : t.endPage ≤ t'.endPage
  eof : t'.eof = t.eof
  broken : t'.broken = t.broken

namespace Grows

theorem refl (t : Tape) : Grows t t := ⟨rfl, rfl, Nat.le_refl _, rfl, rfl⟩

theorem trans {t t' t'' : Tape} (h : Grows t t') (k : Grows t' t'') : Grows t t'' :=
  ⟨k.pageSize.trans h.pageSize, k.firstPage.trans h.firstPage, Nat.le_trans h.endPage k.endPage,
    k.eof.trans h.eof, k.broken.trans h.broken⟩

variable {t t' : Tape} (h : Grows t t')
include h

theorem start : t'.start = t.start := by
  simp only [Tape.start, pageStart, h.pageSize, h.firstPage]

theorem pageOf (a : Nat) : t'.pageOf a = t.pageOf a := by simp only [Tape.pageOf, h.pageSize]

theorem endPosition : t'.endPosition = t.endPosition := by simp only [Tape.endPosition, h.eof]

end Grows

theorem grow_grows {t : Tape} (page : Nat) : Grows t (t.grow page) := by
  refine ⟨rfl, rfl, ?_, rfl, rfl⟩
  simp only [endPage, pageCount, grow, Array.size_append]
  exact Nat.add_le_add_left (Nat.div_le_div_right (Nat.le_add_right ..)) _

theorem paged_grow {t : Tape} (h : t.pageSize ∣ t.cells.size) (page : Nat) :
    (t.grow page).pageSize ∣ (t.grow page).cells.size := by
  simp only [grow, Array.size_append, Array.size_replicate]
  exact Nat.dvd_add h (Nat.dvd_mul_left ..)

/-- After growing, the page is resident unless it was given up. -/
theorem lt_endPage_grow (t : Tape) (page : Nat) :
    page < (t.grow page).endPage := by
  have hc : (t.grow page).pageCount = t.pageCount + (page + 1 - t.endPage) := by
    simp only [pageCount, grow, Array.size_append, Array.size_replicate]
    rw [Nat.add_mul_div_right _ _ t.pageSize_pos]
  have hf : (t.grow page).firstPage = t.firstPage := rfl
  unfold endPage at *
  omega

theorem byte?_grow {t : Tape} {page a : Nat} {b : UInt8} (h : t.byte? a = some b) :
    (t.grow page).byte? a = some b := by
  simp only [byte?] at h ⊢
  split at h
  · rename_i hs
    have hs' : (t.grow page).start ≤ a := hs
    have hlt := (Array.getElem?_eq_some_iff.1 h).1
    rw [if_pos hs']
    show (t.cells ++ _)[a - t.start]? = some b
    rw [Array.getElem?_append_left hlt, h]
  · simp at h

/-! ## Putting a byte -/

theorem put_of_le {t : Tape} {a : Nat} (h : t.start ≤ a) (b : UInt8) :
    t.put a b = { t with cells := t.cells.setIfInBounds (a - t.start) b } := by
  rw [put, if_pos h]

theorem put_grows {t : Tape} {a : Nat} (h : t.start ≤ a) (b : UInt8) : Grows t (t.put a b) := by
  rw [put_of_le h]
  refine ⟨rfl, rfl, ?_, rfl, rfl⟩
  simp [endPage, pageCount]

theorem byte?_put {t : Tape} {a : Nat} (h : t.start ≤ a) (k : a < t.start + t.cells.size)
    (b : UInt8) (x : Nat) : (t.put a b).byte? x = if x = a then some b else t.byte? x := by
  rw [put_of_le h]
  simp only [byte?]
  by_cases hx : t.start ≤ x
  · have e : Tape.start { t with cells := t.cells.setIfInBounds (a - t.start) b } = t.start := rfl
    rw [e, if_pos hx, if_pos hx, Array.getElem?_setIfInBounds]
    by_cases hxa : x = a
    · rw [if_pos hxa, if_pos (by omega), if_pos (by omega)]
    · rw [if_neg hxa, if_neg (by omega)]
  · have e : Tape.start { t with cells := t.cells.setIfInBounds (a - t.start) b } = t.start := rfl
    rw [e, if_neg hx, if_neg hx, if_neg (by omega)]

/-! ## What is shown -/

/-- The bytes of `s` stand at their addresses, as far as these were not given up. -/
def Shows (t : Tape) (s : List UInt8) : Prop :=
  ∀ a, t.start ≤ a → a < s.length → t.byte? a = s[a]?

/-- The stream so far is `s`: the tape is whole, its pages are, and its resident bytes show `s`. -/
structure Carries (t : Tape) (s : List UInt8) : Prop where
  whole : t.broken = false
  paged : t.pageSize ∣ t.cells.size
  fill : t.fill = s.length
  shows : t.Shows s

theorem Shows.lt {t : Tape} {s : List UInt8} (h : t.Shows s) {a : Nat} (hs : t.start ≤ a)
    (ha : a < s.length) : a < t.start + t.cells.size := by
  have := h a hs ha
  rw [byte?_of_le hs, List.getElem?_eq_getElem ha] at this
  have := (Array.getElem?_eq_some_iff.1 this).1
  omega

/-- What is shown is on resident pages. -/
theorem Shows.resident {t : Tape} {s : List UInt8} (h : t.Shows s)
    (hp : t.pageSize ∣ t.cells.size) {a : Nat} (hs : t.start ≤ a) (ha : a < s.length) :
    t.firstPage ≤ t.pageOf a ∧ t.pageOf a < t.endPage := by
  refine ⟨firstPage_le_pageOf.2 hs, ?_⟩
  rw [pageOf_lt, endPage_mul hp]
  exact h.lt hs ha

theorem Shows.byteAt {t : Tape} {s : List UInt8} (h : t.Shows s) {a : Nat} (hs : t.start ≤ a)
    {b : UInt8} (hb : s[a]? = some b) : t.byteAt a = b := by
  have ha := (List.getElem?_eq_some_iff.1 hb).1
  rw [Tape.byteAt, h a hs ha, hb, Option.getD_some]

theorem Shows.grow {t : Tape} {s : List UInt8} (h : t.Shows s) (page : Nat) :
    (t.grow page).Shows s := by
  intro a hs ha
  have := h a hs ha
  rw [List.getElem?_eq_getElem ha] at this ⊢
  exact byte?_grow this

theorem Shows.put {t : Tape} {s : List UInt8} (h : t.Shows s) {a : Nat} (hs : t.start ≤ a)
    (ha : a ≤ s.length) (hc : a < t.start + t.cells.size) (b : UInt8) :
    (t.put a b).Shows (overwrite s a [b]) := by
  intro x hx hxl
  rw [(put_grows hs b).start] at hx
  rw [length_overwrite ha, List.length_singleton] at hxl
  rw [byte?_put hs hc, getElem?_overwrite ha, List.length_singleton]
  by_cases hxa : x = a
  · subst hxa
    simp
  · rw [if_neg hxa, h x hx (by omega)]
    split
    · rfl
    · rw [if_neg (by omega)]

theorem Shows.take {t : Tape} {s : List UInt8} (h : t.Shows s) (a : Nat) :
    t.Shows (s.take a) := by
  intro x hx hxl
  rw [List.length_take] at hxl
  rw [h x hx (by omega), List.getElem?_take_of_lt (by omega)]

/-! ## Storing -/

/-- A byte can be put at an address whose page is resident. -/
theorem lt_of_resident {t : Tape} {a : Nat} (hr : t.resident (t.pageOf a) = true) :
    a < t.start + t.cells.size := by
  have hcells : t.pageCount * t.pageSize ≤ t.cells.size := Nat.div_mul_le_self ..
  simp only [resident, Bool.and_eq_true, decide_eq_true_eq] at hr
  have hend := pageOf_lt.1 hr.2
  rw [endPage, Nat.add_mul] at hend
  exact Nat.lt_of_lt_of_le hend (Nat.add_le_add_left hcells _)

theorem start_le_of_resident {t : Tape} {a : Nat} (hr : t.resident (t.pageOf a) = true) :
    t.start ≤ a := by
  simp only [resident, Bool.and_eq_true, decide_eq_true_eq] at hr
  exact firstPage_le_pageOf.1 hr.1

theorem byte?_of_resident {t : Tape} {a : Nat} (hr : t.resident (t.pageOf a) = true) :
    t.byte? a = some (t.byteAt a) := by
  have hs := start_le_of_resident hr
  have hlt := lt_of_resident hr
  rw [byteAt, byte?_of_le hs, Array.getElem?_eq_getElem (by omega), Option.getD_some]

theorem resident_grow {t : Tape} {a : Nat} (h : t.start ≤ a) :
    (t.grow (t.pageOf a)).resident ((t.grow (t.pageOf a)).pageOf a) = true := by
  have hg := grow_grows (t := t) (t.pageOf a)
  simp only [resident, Bool.and_eq_true, decide_eq_true_eq]
  rw [hg.pageOf, hg.firstPage]
  exact ⟨firstPage_le_pageOf.2 h, t.lt_endPage_grow _⟩

/-- A tape without an end takes a byte wherever pages were not given up. -/
theorem writePage_eq {t : Tape} {a : Nat} (hb : t.broken = false) (he : t.eof = none)
    (h : t.start ≤ a) : t.writePage a = .ok (t.grow (t.pageOf a)) := by
  have hp := firstPage_le_pageOf.2 h
  simp only [writePage, checkWritable, hb, he, Option.filter_none, Bool.false_eq_true, if_false]
  rw [if_neg (by omega)]
  rfl

/-- One byte behind what is shown, on a resident page. -/
theorem Shows.push {t : Tape} {s : List UInt8} (h : t.Shows s) (hs : t.start ≤ s.length)
    (hr : t.resident (t.pageOf s.length) = true) (b : UInt8) :
    (t.put s.length b).Shows (s ++ [b]) := by
  have := h.put hs (Nat.le_refl _) (lt_of_resident hr) b
  rwa [overwrite_length] at this

theorem paged_put {t : Tape} {a : Nat} (h : t.start ≤ a) (hp : t.pageSize ∣ t.cells.size)
    (b : UInt8) : (t.put a b).pageSize ∣ (t.put a b).cells.size := by
  rw [put_of_le h]
  simpa using hp

theorem storeFrom_eq {s : List UInt8} (bytes : List UInt8) {t : Tape} (onPage : Bool)
    (hb : t.broken = false) (he : t.eof = none) (hp : t.pageSize ∣ t.cells.size) (h : t.Shows s)
    (hs : t.start ≤ s.length)
    (hon : onPage = true → t.resident (t.pageOf s.length) = true) :
    ∃ t', t.storeFrom s.length onPage bytes = (.ok (s.length + bytes.length), t') ∧ Grows t t' ∧
      t'.pageSize ∣ t'.cells.size ∧ t'.Shows (s ++ bytes) := by
  induction bytes generalizing t s onPage with
  | nil => exact ⟨t, rfl, .refl t, hp, by rwa [List.append_nil]⟩
  | cons b rest ih =>
    -- the page of the next byte, made if need be
    obtain ⟨t₁, ht₁, hg₁, hp₁, h₁, hr₁⟩ : ∃ t₁,
        (if onPage then .ok t else t.writePage s.length) = .ok t₁ ∧ Grows t t₁ ∧
          t₁.pageSize ∣ t₁.cells.size ∧ t₁.Shows s ∧ t₁.resident (t₁.pageOf s.length) = true := by
      cases onPage with
      | true => exact ⟨t, rfl, .refl t, hp, h, hon rfl⟩
      | false =>
        exact ⟨_, writePage_eq hb he hs, grow_grows _, paged_grow hp _, h.grow _, resident_grow hs⟩
    have hs₁ : t₁.start ≤ s.length := by rw [hg₁.start]; exact hs
    have hg₂ := put_grows hs₁ b
    obtain ⟨t', ht', hg', hp', h'⟩ := ih (t := t₁.put s.length b) (s := s ++ [b])
      ((s.length + 1) % t₁.pageSize != 0) (by rw [hg₂.broken, hg₁.broken, hb])
      (by rw [hg₂.eof, hg₁.eof, he]) (paged_put hs₁ hp₁ b) (h₁.push hs₁ hr₁ b)
      (by rw [hg₂.start, List.length_append]; exact Nat.le_add_right_of_le hs₁)
      (by
        intro hn
        simp only [bne_iff_ne] at hn
        simp only [List.length_append, List.length_singleton, hg₂.pageOf, pageOf_succ hn]
        simp only [resident, Bool.and_eq_true, decide_eq_true_eq] at hr₁ ⊢
        exact ⟨by rw [hg₂.firstPage]; exact hr₁.1, Nat.lt_of_lt_of_le hr₁.2 hg₂.endPage⟩)
    refine ⟨t', ?_, (hg₁.trans hg₂).trans hg', hp', by rwa [List.append_assoc] at h'⟩
    rw [storeFrom, ht₁]
    simp only [List.length_append, List.length_singleton] at ht'
    simp only
    rw [ht', List.length_cons, Nat.add_right_comm, ← Nat.add_assoc]

/-- Appending to a tape without an end adds the bytes to its stream. -/
theorem Carries.append {t : Tape} {s : List UInt8} (h : t.Carries s) (he : t.eof = none)
    (hs : t.start ≤ s.length) (bytes : List UInt8) :
    ∃ t', t.append bytes = (.ok (s.length + bytes.length), t') ∧ Grows t t' ∧
      t'.Carries (s ++ bytes) := by
  obtain ⟨t', ht', hg, hp, hsh⟩ := storeFrom_eq bytes false h.whole he
    h.paged h.shows hs (by simp)
  refine ⟨{ t' with fill := s.length + bytes.length }, ?_,
    ⟨hg.pageSize, hg.firstPage, hg.endPage, hg.eof, hg.broken⟩,
    ⟨hg.broken.trans h.whole, hp, by simp, hsh⟩⟩
  rw [Tape.append, h.fill, ht']

/-- Storing a byte at or before the fill address, on a resident page. -/
theorem Carries.store {t : Tape} {s : List UInt8} (h : t.Carries s) {a : Nat} (hs : t.start ≤ a)
    (ha : a ≤ s.length) (hr : t.resident (t.pageOf a) = true) (b : UInt8) :
    ((t.put a b).noteWritten (a + 1)).Carries (overwrite s a [b]) := by
  have hg := put_grows hs b
  refine ⟨hg.broken.trans h.whole, paged_put hs h.paged b, ?_,
    h.shows.put hs ha (lt_of_resident hr) b⟩
  have hf : (t.put a b).fill = t.fill := by rw [put_of_le hs]
  simp only [noteWritten, hf, h.fill, length_overwrite ha, List.length_singleton]

theorem store_grows {t : Tape} {a : Nat} (hs : t.start ≤ a) (b : UInt8) :
    Grows t ((t.put a b).noteWritten (a + 1)) :=
  have hg := put_grows hs b
  ⟨hg.pageSize, hg.firstPage, hg.endPage, hg.eof, hg.broken⟩

/-- Cutting a tape off. -/
theorem Carries.truncate {t : Tape} {s : List UInt8} (h : t.Carries s) {a : Nat}
    (hs : t.start ≤ a) :
    t.truncate a = .ok { t with fill := min t.fill a } ∧
      Carries { t with fill := min t.fill a } (s.take a) := by
  refine ⟨by rw [Tape.truncate, if_neg (by omega)], h.whole, h.paged, ?_, h.shows.take a⟩
  rw [List.length_take]
  show min t.fill a = min a s.length
  rw [h.fill, Nat.min_comm]

theorem refill_grows (t : Tape) (n : Nat) : Grows t { t with fill := n } :=
  ⟨rfl, rfl, Nat.le_refl _, rfl, rfl⟩

/-- The end of a stream is fixed behind all that was written, and once. -/
theorem of_fixEnd {t t' : Tape} {address : Nat} (h : t.fixEnd address = .ok t') :
    t' = { t with eof := some address } ∧ t.fill ≤ address ∧ ∀ e, t.eof = some e → e = address := by
  unfold fixEnd at h
  by_cases hfill : address < t.fill
  · rw [if_pos hfill] at h
    cases h
  rw [if_neg hfill] at h
  cases he : t.eof with
  | none =>
    rw [he] at h
    cases h
    exact ⟨rfl, Nat.le_of_not_lt hfill, fun e h => by cases h⟩
  | some e =>
    rw [he] at h
    by_cases hsame : e = address
    · simp only [if_pos hsame] at h
      cases h
      subst hsame
      refine ⟨?_, Nat.le_of_not_lt hfill, fun e' h => (Option.some.inj h).symm⟩
      rw [← he]
    · simp only [if_neg hsame] at h
      cases h

/-! ## Giving pages up -/

theorem evictable_le (t : Tape) (held : List Nat) (mark : Nat) :
    t.evictable held mark ≤ t.pageCount := by
  have := (List.takeWhile_prefix (l := List.range' t.firstPage t.pageCount)
    (p := fun page => t.pageEnd page ≤ mark && !held.contains page)).length_le
  rwa [List.length_range'] at this

/-- Each page that is given up ends at or before the mark and is not held. -/
theorem of_lt_evictable {t : Tape} {held : List Nat} {mark i : Nat}
    (h : i < t.evictable held mark) :
    t.pageEnd (t.firstPage + i) ≤ mark ∧ t.firstPage + i ∉ held := by
  have hlen := t.evictable_le held mark
  have hmem : t.firstPage + i ∈ (List.range' t.firstPage t.pageCount).takeWhile
      fun page => t.pageEnd page ≤ mark && !held.contains page := by
    have hp := List.takeWhile_prefix (l := List.range' t.firstPage t.pageCount)
      (p := fun page => t.pageEnd page ≤ mark && !held.contains page)
    have he := hp.getElem h
    rw [List.getElem_range'] at he
    have hm := List.getElem_mem h
    rw [he, Nat.one_mul] at hm
    exact hm
  have := List.all_eq_true.1 List.all_takeWhile _ hmem
  simpa using this

section Evict

variable {t : Tape} (held : List Nat) (mark : Nat)

theorem firstPage_le_evict : t.firstPage ≤ (t.evict held mark).firstPage := Nat.le_add_right ..

/-- A held page stays. -/
theorem evict_le_held {page : Nat} (hp : page ∈ held) (h : t.firstPage ≤ page) :
    (t.evict held mark).firstPage ≤ page := by
  simp only [evict]
  by_cases hlt : page - t.firstPage < t.evictable held mark
  · have := (of_lt_evictable hlt).2
    rw [show t.firstPage + (page - t.firstPage) = page by omega] at this
    exact absurd hp this
  · omega

/-- Nothing from the mark on is given up. -/
theorem start_evict_le {a : Nat} (h : t.start ≤ a) (ha : mark ≤ a) :
    (t.evict held mark).start ≤ a := by
  by_cases h0 : t.evictable held mark = 0
  · simpa only [Tape.start, pageStart, evict, h0, Nat.add_zero] using h
  · have := (of_lt_evictable (show t.evictable held mark - 1 < t.evictable held mark by omega)).1
    rw [pageEnd, show t.firstPage + (t.evictable held mark - 1) + 1 =
      t.firstPage + t.evictable held mark by omega] at this
    exact Nat.le_trans this ha

theorem start_le_evict : t.start ≤ (t.evict held mark).start :=
  Nat.mul_le_mul_right _ (firstPage_le_evict held mark)

theorem endPage_evict : (t.evict held mark).endPage = t.endPage := by
  have hle := t.evictable_le held mark
  simp only [endPage, pageCount, evict, Array.size_extract, Nat.min_self]
  rw [Nat.mul_comm, Nat.sub_mul_div, ← pageCount]
  omega

theorem Shows.evict {s : List UInt8} (h : t.Shows s) : (t.evict held mark).Shows s := by
  intro a hs ha
  have hs' := Nat.le_trans (start_le_evict held mark) hs
  rw [byte?_of_le hs, ← h a hs' ha, byte?_of_le hs']
  have e : (t.evict held mark).start = t.start + t.evictable held mark * t.pageSize :=
    Nat.add_mul ..
  have hlt := h.lt hs' ha
  rw [e] at hs ⊢
  simp only [Tape.evict, Array.getElem?_extract, Nat.min_self]
  rw [if_pos (by omega)]
  congr 1
  omega

theorem paged_evict (h : t.pageSize ∣ t.cells.size) :
    (t.evict held mark).pageSize ∣ (t.evict held mark).cells.size := by
  simp only [Tape.evict, Array.size_extract, Nat.min_self]
  exact Nat.dvd_sub h (Nat.dvd_mul_left ..)

theorem Carries.evict {s : List UInt8} (h : t.Carries s) : (t.evict held mark).Carries s :=
  ⟨h.whole, paged_evict held mark h.paged, h.fill, h.shows.evict held mark⟩

end Evict

/-! ## Copying out -/

theorem mapM_range' {f : Nat → Except StreamError UInt8} {s : List UInt8} {a n : Nat}
    (h : ∀ x, a ≤ x → x < a + n → ∃ b, s[x]? = some b ∧ f x = .ok b) :
    (List.range' a n).mapM f = .ok ((s.drop a).take n) := by
  induction n generalizing a with
  | zero => rfl
  | succ n ih =>
    obtain ⟨b, hb, hf⟩ := h a (Nat.le_refl _) (by omega)
    have hd : s.drop a = b :: s.drop (a + 1) := by
      obtain ⟨hl, rfl⟩ := List.getElem?_eq_some_iff.1 hb
      exact List.drop_eq_getElem_cons hl
    rw [List.range'_succ, List.mapM_cons, hf, ih (fun x h1 h2 => h x (by omega) (by omega)), hd]
    rfl

/-- Bytes that are not given up come out. -/
theorem Carries.copyOut {t : Tape} {s : List UInt8} (h : t.Carries s) {a n : Nat}
    (hs : t.start ≤ a) (hn : a + n ≤ s.length) : t.copyOut a n = .ok ((s.drop a).take n) := by
  rw [Tape.copyOut, h.whole, if_neg (by decide), h.fill, if_neg (by omega)]
  apply mapM_range'
  intro x h1 h2
  have hx : x < s.length := by omega
  refine ⟨s[x], List.getElem?_eq_getElem hx, ?_⟩
  rw [h.shows x (by omega) hx, List.getElem?_eq_getElem hx]

end Tape

end Transcoder

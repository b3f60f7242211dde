import Transcoder.Proofs.Tape.Backed

/-!
# Appending and copying page by page

Bytes that are appended are put on one page after the other: as many as are left, or as fit on the
page. Bytes that are copied out are taken from one page after the other. `Appends` and `Copies` are
these loops, with what has to hold at every turn: there is a byte to be put or taken, and all that
are put or taken have their place on the page, which is there.

Results:
* `appends_storeFrom`: appending is such a loop, on any tape.
* `Backed.copies_copyOut`: and so is copying, where there is a page for every byte.
-/
namespace Transcoder.Tape

/-- The `n` addresses from `a` on, of which there is one at least, are on one page, and the bytes at
them are there. -/
structure OnePage (t : Tape) (a n : Nat) : Prop where
  pos : 0 < n
  page : ∀ i < n, t.pageOf (a + i) = t.pageOf a
  byte : ∀ i < n, t.byte? (a + i) = some (t.byteAt (a + i))

/-- The bytes, put one behind the other from the address on. -/
def putAll : Tape → Nat → List UInt8 → Tape
  | t, _, [] => t
  | t, a, b :: rest => (t.put a b).putAll (a + 1) rest

/-- Storing bytes from an address on, page by page, comes to a result and leaves a tape. -/
inductive Appends : Tape → Nat → List UInt8 → Except StreamError Nat × Tape → Prop
  | done (t : Tape) (a : Nat) : Appends t a [] (.ok a, t)
  | refused {t : Tape} {a : Nat} {bytes : List UInt8} {e : StreamError} (hne : bytes ≠ [])
    (h : t.writePage a = .error e) : Appends t a bytes (.error e, t)
  /-- As many bytes are put as fit on the page, and then the others. -/
  | page {t t₁ : Tape} {a : Nat} {piece rest : List UInt8} {r : Except StreamError Nat × Tape}
    (h : t.writePage a = .ok t₁)
    (hlength : piece.length = min (piece ++ rest).length (t.pageEnd (t.pageOf a) - a))
    (hpage : t₁.OnePage a piece.length)
    (hrest : Appends (t₁.putAll a piece) (a + piece.length) rest r) :
    Appends t a (piece ++ rest) r

/-- Taking `n` bytes from an address on, page by page, comes to a result. -/
inductive Copies (t : Tape) : Nat → Nat → Except StreamError (List UInt8) → Prop
  | done (a : Nat) : Copies t a 0 (.ok [])
  | refused {a n : Nat} (hn : 0 < n) (h : t.resident (t.pageOf a) = false) :
    Copies t a n (.error (.brokenCursor a))
  /-- As many bytes are taken as there are on the page, and then the others. -/
  | page {a k n : Nat} {r : Except StreamError (List UInt8)}
    (hlength : k = min (k + n) (t.pageEnd (t.pageOf a) - a)) (hpage : t.OnePage a k)
    (hrest : Copies t (a + k) n r) :
    Copies t a (k + n) (r.map ((List.range' a k).map t.byteAt ++ ·))

variable {t t₁ : Tape} {a k n : Nat}

/-! ## One page -/

theorem pageOf_add {i : Nat} (hi : i < t.pageEnd (t.pageOf a) - a) :
    t.pageOf (a + i) = t.pageOf a :=
  pageOf_eq (Nat.le_trans (t.pageStart_le a) (Nat.le_add_right ..)) (by omega)

/-- Addresses up to the end of a page that is there. -/
theorem onePage (hr : t.resident (t.pageOf a) = true) (hpos : 0 < k)
    (hk : k ≤ t.pageEnd (t.pageOf a) - a) : t.OnePage a k := by
  have hpage (i : Nat) (hi : i < k) : t.pageOf (a + i) = t.pageOf a :=
    pageOf_add (Nat.lt_of_lt_of_le hi hk)
  refine ⟨hpos, hpage, fun i hi => byte?_of_resident ?_⟩
  rwa [hpage i hi]

/-- A page ends where the next one begins. -/
theorem pageEnd_mod (t : Tape) (page : Nat) : t.pageEnd page % t.pageSize = 0 :=
  Nat.mul_mod_left ..

/-- No page begins inside a page. -/
theorem mod_ne_zero_of_lt {x : Nat} (hlt : a < x) (hx : x < t.pageEnd (t.pageOf a)) :
    x % t.pageSize ≠ 0 := by
  intro hmod
  obtain ⟨page, rfl⟩ := Nat.dvd_of_mod_eq_zero hmod
  have hpage : t.pageOf (t.pageSize * page) = page := Nat.mul_div_cancel_left page t.pageSize_pos
  have hsame : t.pageOf (t.pageSize * page) = t.pageOf a :=
    pageOf_eq (Nat.le_trans (t.pageStart_le a) (Nat.le_of_lt hlt)) hx
  have hstart := t.pageStart_le a
  rw [hpage] at hsame
  rw [← hsame, pageStart, Nat.mul_comm] at hstart
  omega

/-! ## Appending -/

/-- On a page that has passed, bytes are only put. -/
theorem storeFrom_piece {piece rest : List UInt8} (hne : piece ≠ [])
    (hpiece : a + piece.length ≤ t.pageEnd (t.pageOf a)) :
    t.storeFrom a true (piece ++ rest) = (t.putAll a piece).storeFrom (a + piece.length)
      ((a + piece.length) % t.pageSize != 0) rest := by
  induction piece generalizing t a with
  | nil => exact absurd rfl hne
  | cons b more ih =>
    have hg := (t.storedFrom_put a b).toGrows
    have hcons : t.storeFrom a true (b :: (more ++ rest)) =
        (t.put a b).storeFrom (a + 1) ((a + 1) % t.pageSize != 0) (more ++ rest) := rfl
    rw [List.length_cons] at hpiece ⊢
    rw [List.cons_append, hcons, putAll]
    by_cases hmore : more = []
    · subst hmore
      rfl
    · have hlast : 0 < more.length := List.length_pos_iff.2 hmore
      have hnext : (a + 1) % t.pageSize ≠ 0 := mod_ne_zero_of_lt (Nat.lt_succ_self a) (by omega)
      have hpage : (t.put a b).pageOf (a + 1) = t.pageOf a :=
        (hg.pageOf _).trans (pageOf_succ hnext)
      have hpageEnd : (t.put a b).pageEnd (t.pageOf a) = t.pageEnd (t.pageOf a) := by
        rw [pageEnd, pageEnd, hg.pageSize]
      rw [bne_iff_ne.2 hnext, ih hmore (by rw [hpage, hpageEnd]; omega), hg.pageSize,
        Nat.add_assoc, Nat.add_comm 1]

theorem of_writePage (h : t.writePage a = .ok t₁) :
    t.Grows t₁ ∧ t₁.resident (t₁.pageOf a) = true := by
  rw [writePage] at h
  cases hc : t.checkWritable a with
  | error e =>
    rw [hc] at h
    cases h
  | ok u =>
    rw [hc] at h
    cases h
    exact ⟨grow_grows _, resident_grow (start_le_of_checkWritable hc)⟩

theorem storeFrom_of_ne_nil {bytes : List UInt8} (hne : bytes ≠ []) :
    t.storeFrom a false bytes = match t.writePage a with
      | .error e => (.error e, t)
      | .ok t₁ => t₁.storeFrom a true bytes := by
  obtain ⟨b, rest, rfl⟩ := List.exists_cons_of_ne_nil hne
  rfl

/-- A list begins with as many of its elements as there is room for. -/
theorem exists_piece (bytes : List UInt8) (room : Nat) :
    ∃ piece rest, bytes = piece ++ rest ∧ piece.length = min (piece ++ rest).length room := by
  refine ⟨bytes.take room, bytes.drop room, (List.take_append_drop room bytes).symm, ?_⟩
  rw [List.take_append_drop, List.length_take, Nat.min_comm]

/-- Appending puts bytes on one page after the other. -/
theorem appends_storeFrom (t : Tape) (a : Nat) (bytes : List UInt8) :
    Appends t a bytes (t.storeFrom a false bytes) := by
  -- each page takes a byte at least, so fewer are left
  generalize hn : bytes.length = n
  induction n using Nat.strongRecOn generalizing t a bytes with
  | ind n ih =>
    by_cases hne : bytes = []
    · subst hne
      exact .done t a
    rw [storeFrom_of_ne_nil hne]
    cases hwrite : t.writePage a with
    | error e => exact .refused hne hwrite
    | ok t₁ =>
      obtain ⟨hg, hr⟩ := of_writePage hwrite
      have hroom := t.lt_pageEnd a
      have hpageEnd : t₁.pageEnd (t₁.pageOf a) = t.pageEnd (t.pageOf a) := by
        rw [hg.pageOf, pageEnd, pageEnd, hg.pageSize]
      have hnonempty := List.length_pos_iff.2 hne
      obtain ⟨piece, rest, rfl, hlength⟩ := exists_piece bytes (t.pageEnd (t.pageOf a) - a)
      have hpos : 0 < piece.length := by omega
      have hpage : t₁.OnePage a piece.length := onePage hr hpos (by omega)
      rw [List.length_append] at hlength hn
      have hstored : t₁.storeFrom a true (piece ++ rest) =
          (t₁.putAll a piece).storeFrom (a + piece.length) false rest := by
        rw [storeFrom_piece (List.ne_nil_of_length_pos hpos) (by omega)]
        by_cases hrest : rest = []
        · subst hrest
          rfl
        · -- what is left begins with the next page
          have hend : a + piece.length = t₁.pageEnd (t₁.pageOf a) := by
            have := List.length_pos_iff.2 hrest
            omega
          rw [hend, t₁.pageEnd_mod, bne_self_eq_false]
      refine .page hwrite (by rw [List.length_append]; exact hlength) hpage ?_
      simp only [hstored]
      exact ih rest.length (by omega) _ _ _ rfl

/-! ## Copying -/

/-- The byte at an address, if it is there. -/
def take (t : Tape) (a : Nat) : Except StreamError UInt8 :=
  match t.byte? a with
  | some b => .ok b
  | none => .error (.brokenCursor a)

theorem OnePage.take (h : t.OnePage a k) :
    (List.range' a k).mapM t.take = .ok ((List.range' a k).map t.byteAt) := by
  have hall (xs : List Nat) (hxs : ∀ x ∈ xs, t.take x = .ok (t.byteAt x)) :
      xs.mapM t.take = .ok (xs.map t.byteAt) := by
    induction xs with
    | nil => rfl
    | cons x rest ih =>
      rw [List.mapM_cons, hxs x List.mem_cons_self,
        ih fun y hy => hxs y (List.mem_cons_of_mem x hy)]
      rfl
  refine hall _ fun x hx => ?_
  obtain ⟨i, hi, rfl⟩ := List.mem_range'.1 hx
  rw [Tape.take, Nat.one_mul, h.byte i hi]

/-- What is not on a page that is there has no byte, if a page for it was made. -/
theorem take_of_not_resident (hend : a < t.pageStart t.endPage)
    (hr : t.resident (t.pageOf a) = false) : t.take a = .error (.brokenCursor a) := by
  have hlt : t.pageOf a < t.endPage := pageOf_lt.2 hend
  have hs : ¬t.start ≤ a := by
    intro hs
    rw [resident, decide_eq_true (firstPage_le_pageOf.2 hs), decide_eq_true hlt] at hr
    cases hr
  rw [take, byte?, if_neg hs]

/-- Taking bytes goes from one page to the next. -/
theorem copies_take (hend : a + n ≤ t.pageStart t.endPage) :
    Copies t a n ((List.range' a n).mapM t.take) := by
  -- each page gives a byte at least, so fewer are left
  generalize hm : n = m
  induction m using Nat.strongRecOn generalizing a n with
  | ind m ih =>
    subst hm
    by_cases hzero : n = 0
    · subst hzero
      exact .done a
    by_cases hr : t.resident (t.pageOf a) = true
    · have hroom := t.lt_pageEnd a
      obtain ⟨k, rest, rfl, hlength⟩ :
          ∃ k rest, n = k + rest ∧ k = min (k + rest) (t.pageEnd (t.pageOf a) - a) :=
        ⟨min n (t.pageEnd (t.pageOf a) - a), n - min n (t.pageEnd (t.pageOf a) - a), by omega,
          by omega⟩
      have hpos : 0 < k := by omega
      have hpage : t.OnePage a k := onePage hr hpos (by omega)
      have hsplit : (List.range' a (k + rest)).mapM t.take =
          ((List.range' (a + k) rest).mapM t.take).map ((List.range' a k).map t.byteAt ++ ·) := by
        rw [← List.range'_append_1, List.mapM_append, hpage.take]
        cases (List.range' (a + k) rest).mapM t.take with
        | ok _ | error _ => rfl
      rw [hsplit]
      exact .page hlength hpage (ih rest (by omega) (by omega) rfl)
    · obtain ⟨rest, rfl⟩ := Nat.exists_eq_succ_of_ne_zero hzero
      have hr : t.resident (t.pageOf a) = false := Bool.eq_false_iff.2 hr
      rw [List.range'_succ, List.mapM_cons, take_of_not_resident (by omega) hr]
      exact .refused (Nat.succ_pos rest) hr

/-- Copying takes bytes from one page after the other. -/
theorem Backed.copies_copyOut (h : t.Backed) (hwhole : t.broken = false) (hn : a + n ≤ t.fill) :
    Copies t a n (t.copyOut a n) := by
  rw [copyOut, hwhole, if_neg Bool.false_ne_true, if_neg (Nat.not_lt.2 hn)]
  exact copies_take (Nat.le_trans hn h)

end Transcoder.Tape

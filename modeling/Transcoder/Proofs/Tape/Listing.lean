import Transcoder.Proofs.Tape.Appending

/-!
# Any tape as a list of bytes

`Tape.Lists` says of a tape, whole or broken, with an open end or a fixed one, which bytes have been
written on it and not cut off: as many as the fill address says, shown at their addresses as far as
their pages were not given up. Each operation of the tape is an operation on that list.

Results:
* `Lists.append`, `Lists.stored`, `Lists.truncate`, `Lists.evict`: what becomes of the list.
* `Lists.copyOut`: a part of the list comes out, or the cause why it does not.
-/
namespace Transcoder.Tape

structure Lists (t : Tape) (bytes : List UInt8) : Prop where
  paged : t.pageSize ∣ t.cells.size
  fill : t.fill = bytes.length
  start_le : t.start ≤ bytes.length
  shows : t.Shows bytes

variable {t t' : Tape} {bytes : List UInt8}

theorem lists_blank (pageSize : Nat) : (Tape.blank pageSize).Lists [] :=
  ⟨Nat.dvd_zero _, rfl, Nat.le_of_eq (Nat.zero_mul _), fun _ _ ha => absurd ha (Nat.not_lt_zero _)⟩

/-- The addresses that have a byte are those of the resident pages. -/
theorem Lists.isSome_byte? (h : t.Lists bytes) (a : Nat) :
    (t.byte? a).isSome = true ↔ t.start ≤ a ∧ a < t.start + t.pageCount * t.pageSize := by
  rw [pageCount, Nat.div_mul_cancel h.paged, byte?]
  by_cases hs : t.start ≤ a
  · rw [if_pos hs, isSome_getElem?]
    omega
  · rw [if_neg hs]
    simp [hs]

/-! ## Appending -/

/-- The next byte of a list, where it may be written. -/
theorem Shows.laid (h : t.Shows bytes) (hs : t.start ≤ bytes.length) {onPage : Bool}
    (hon : onPage = true → t.resident (t.pageOf bytes.length) = true) (b : UInt8) :
    (t.laid bytes.length onPage b).Shows (bytes ++ [b]) := by
  unfold Tape.laid
  cases onPage with
  | true => exact h.push hs (hon rfl) b
  | false => exact (h.grow _).push hs (resident_grow hs) b

/-- The page of a byte is resident when it was stored. -/
theorem resident_laid (hs : t.start ≤ bytes.length) {onPage : Bool}
    (hon : onPage = true → t.resident (t.pageOf bytes.length) = true) (b : UInt8) :
    (t.laid bytes.length onPage b).resident (t.pageOf bytes.length) = true := by
  unfold laid
  cases onPage with
  | true => exact (t.storedFrom_put _ b).resident (hon rfl)
  | false => exact ((t.grow _).storedFrom_put _ b).resident (resident_grow hs)

/-- What was stored as a whole is shown behind the bytes that were there. -/
theorem Shows.storeFrom {more : List UInt8} {onPage : Bool} {n : Nat} (h : t.Shows bytes)
    (hp : t.pageSize ∣ t.cells.size) (hs : t.start ≤ bytes.length)
    (hon : onPage = true → t.resident (t.pageOf bytes.length) = true)
    (hok : (t.storeFrom bytes.length onPage more).1 = .ok n) :
    (t.storeFrom bytes.length onPage more).2.Shows (bytes ++ more) := by
  induction more generalizing t bytes onPage with
  | nil => rwa [List.append_nil]
  | cons b rest ih =>
    rw [storeFrom_cons] at hok ⊢
    split at hok
    · cases hok
    · have hlaid := t.storedFrom_laid bytes.length onPage b
      have hlength : (bytes ++ [b]).length = bytes.length + 1 := List.length_append
      rw [← hlength, ← hlaid.pageSize] at hok ⊢
      have hrest := ih (h.laid hs hon b) (hlaid.paged hp) ?_ ?_ hok
      · rwa [List.append_assoc] at hrest
      · rw [hlaid.start, hlength]
        exact Nat.le_succ_of_le hs
      · -- the next byte is on the same page, unless a page begins there
        intro hnext
        rw [bne_iff_ne, hlaid.pageSize, hlength] at hnext
        rw [hlaid.pageOf, hlength, pageOf_succ hnext]
        exact resident_laid hs hon b

/-- Bytes that get through come behind the others. -/
theorem Lists.append (h : t.Lists bytes) {more : List UInt8} {n : Nat}
    (ha : t.append more = (.ok n, t')) :
    n = bytes.length + more.length ∧ t'.Lists (bytes ++ more) := by
  have hstored := storedFrom_storeFrom more t t.fill false
  have hok := ok_of_append_ok ha
  obtain ⟨hn, -, rfl⟩ := of_append_ok ha
  rw [h.fill] at hn hok hstored ⊢
  refine ⟨hn, hstored.paged h.paged, by rw [hn, List.length_append], ?_, ?_⟩
  · rw [List.length_append]
    exact Nat.le_trans (Nat.le_of_eq hstored.start) (Nat.le_add_right_of_le h.start_le)
  · exact h.shows.storeFrom h.paged h.start_le (fun hon => by cases hon) hok

/-- Bytes that are refused leave the list as it is. -/
theorem Lists.stored (h : t.Lists bytes) (hs : StoredFrom t.fill t t') : t'.Lists bytes := by
  refine ⟨hs.paged h.paged, hs.fill.trans h.fill, hs.start ▸ h.start_le, fun a ha hlt => ?_⟩
  have hb := h.shows a (hs.start ▸ ha) hlt
  rw [List.getElem?_eq_getElem hlt] at hb ⊢
  exact hs.bytes a (h.fill.symm ▸ hlt) _ hb

/-! ## Cutting off, giving up and looking up pages -/

theorem Lists.truncate (h : t.Lists bytes) {a : Nat} (ha : t.start ≤ a) :
    Lists { t with fill := min t.fill a } (bytes.take a) := by
  have hlength : (bytes.take a).length = min a bytes.length := List.length_take
  refine ⟨h.paged, ?_, ?_, h.shows.take a⟩
  · show min t.fill a = _
    rw [hlength, h.fill, Nat.min_comm]
  · rw [hlength]
    exact Nat.le_min.2 ⟨ha, h.start_le⟩

theorem Lists.evict (h : t.Lists bytes) (held : List Nat) {mark : Nat} (hm : mark ≤ bytes.length) :
    (t.evict held mark).Lists bytes := by
  have hstart := start_evict_le held mark h.start_le hm
  exact ⟨paged_evict held mark h.paged, h.fill, hstart, h.shows.evict held mark⟩

theorem Lists.grow (h : t.Lists bytes) (page : Nat) : (t.grow page).Lists bytes :=
  ⟨paged_grow h.paged page, h.fill, h.start_le, h.shows.grow page⟩

/-- The end and the soundness of a tape are nothing to its list. -/
theorem Lists.flagged (h : t.Lists bytes) (eof : Option Nat) (broken : Bool) :
    Lists { t with eof := eof, broken := broken } bytes :=
  ⟨h.paged, h.fill, h.start_le, h.shows⟩

/-! ## Copying out -/

/-- A part of the list comes out unless the tape is broken, the part is not all there, or its first
byte was given up. Where it is not all there and its end is no address, the program stops. -/
theorem Lists.copyOut (h : t.Lists bytes) (a n : Nat) :
    t.copyOut a n =
      if t.broken then .error (.brokenCursor a)
      else if bytes.length < a + n then
        if a + n < UInt64.size then .error (.notAvailable bytes.length)
        else .error (.outsidePage (a + n))
      else if n = 0 ∨ t.start ≤ a then .ok ((bytes.drop a).take n)
      else .error (.brokenCursor a) := by
  rw [Tape.copyOut, h.fill]
  by_cases hb : t.broken = true
  · rw [if_pos hb, if_pos hb]
  rw [if_neg hb, if_neg hb]
  by_cases hlong : bytes.length < a + n
  · rw [if_pos hlong, if_pos hlong]
  rw [if_neg hlong, if_neg hlong]
  by_cases hs : t.start ≤ a
  · rw [if_pos (.inr hs)]
    apply mapM_range'
    intro x h1 h2
    have hx : x < bytes.length := by omega
    refine ⟨bytes[x], List.getElem?_eq_getElem hx, ?_⟩
    rw [h.shows x (by omega) hx, List.getElem?_eq_getElem hx]
  · cases n with
    | zero => rw [if_pos (.inl rfl), List.take_zero]; rfl
    | succ n =>
      rw [if_neg (by simp [hs]), List.range'_succ, List.mapM_cons, byte?, if_neg hs]
      rfl

end Transcoder.Tape

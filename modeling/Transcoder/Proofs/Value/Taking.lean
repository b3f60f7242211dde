import Transcoder.Proofs.Machine.Whole
import Transcoder.Proofs.Tape.Listing

/-!
# What bytes make of a value, and how a reader comes by them

`PartialValue.takes` is what becomes of a value when bytes come for it, without any stream: they
complete it, spoil it or leave it open. Whatever comes behind the byte that settles a value makes no
difference to it (`takes_append`).

A reader finds some bytes ahead of it (`Cursor.usable`): those that have come, before the innermost
end. Behind them there is an obstacle, of which only one kind goes away (`Tape.obstacle`).

Results:
* `OnStream.readByte_of_cons`, `OnStream.readByte_of_nil`: a reader takes the next usable byte, and
  where there is none it is refused and does not move.
* `Tape.barrier_eq_obstacle`: what it is told there is the obstacle.
* `OnStream.resume`: so it reads what the usable bytes make of a value.
-/
namespace Transcoder

/-- What has become of a value for which bytes came. -/
structure Taken where
  /-- The value, or why there is none, once that is settled. -/
  verdict : Option (Except StreamError UInt64)
  /-- How many of the bytes were taken. -/
  count : Nat
  partialValue : PartialValue

/-- As many more bytes were taken before. -/
def Taken.after (r : Taken) (n : Nat) : Taken := { r with count := n + r.count }

namespace PartialValue

/-- Takes bytes until the value is settled or there are no more. -/
def takes (p : PartialValue) : List UInt8 → Taken
  | [] => ⟨none, 0, p⟩
  | b :: rest =>
    match p.feed b with
    | (.error e, q) => ⟨some (.error e), 1, q⟩
    | (.ok (some w), q) => ⟨some (.ok w), 1, q⟩
    | (.ok none, q) => (q.takes rest).after 1

variable {p q : PartialValue} {b : UInt8} {bytes : List UInt8}

theorem takes_of_error {e : StreamError} (h : p.feed b = (.error e, q)) (rest : List UInt8) :
    p.takes (b :: rest) = ⟨some (.error e), 1, q⟩ := by
  simp only [takes, h]

theorem takes_of_value {w : UInt64} (h : p.feed b = (.ok (some w), q)) (rest : List UInt8) :
    p.takes (b :: rest) = ⟨some (.ok w), 1, q⟩ := by
  simp only [takes, h]

theorem takes_of_none (h : p.feed b = (.ok none, q)) (rest : List UInt8) :
    p.takes (b :: rest) = (q.takes rest).after 1 := by
  simp only [takes, h]

/-- A value that is not settled has taken all the bytes. -/
theorem count_takes (h : (p.takes bytes).verdict = none) :
    (p.takes bytes).count = bytes.length := by
  induction bytes generalizing p with
  | nil => rfl
  | cons b rest ih =>
    match hf : p.feed b with
    | (.error e, q) =>
      rw [takes_of_error hf] at h
      cases h
    | (.ok (some w), q) =>
      rw [takes_of_value hf] at h
      cases h
    | (.ok none, q) =>
      rw [takes_of_none hf] at h ⊢
      rw [Taken.after, ih h, List.length_cons, Nat.add_comm]

/-- What comes behind the byte that settles a value is nothing to it. -/
theorem takes_append_of_settled (h : (p.takes bytes).verdict ≠ none) (more : List UInt8) :
    p.takes (bytes ++ more) = p.takes bytes := by
  induction bytes generalizing p with
  | nil => exact absurd rfl h
  | cons b rest ih =>
    rw [List.cons_append]
    match hf : p.feed b with
    | (.error e, q) => rw [takes_of_error hf, takes_of_error hf]
    | (.ok (some w), q) => rw [takes_of_value hf, takes_of_value hf]
    | (.ok none, q) =>
      rw [takes_of_none hf] at h
      rw [takes_of_none hf, takes_of_none hf, ih h]

/-- A value that was left open goes on with the bytes that come next. -/
theorem takes_append_of_open (h : (p.takes bytes).verdict = none) (more : List UInt8) :
    p.takes (bytes ++ more) =
      ((p.takes bytes).partialValue.takes more).after bytes.length := by
  induction bytes generalizing p with
  | nil =>
    show p.takes more = (p.takes more).after 0
    rw [Taken.after, Nat.zero_add]
  | cons b rest ih =>
    rw [List.cons_append]
    match hf : p.feed b with
    | (.error e, q) =>
      rw [takes_of_error hf] at h
      cases h
    | (.ok (some w), q) =>
      rw [takes_of_value hf] at h
      cases h
    | (.ok none, q) =>
      rw [takes_of_none hf] at h
      rw [takes_of_none hf, takes_of_none hf, ih h]
      simp only [Taken.after, List.length_cons]
      rw [← Nat.add_assoc, Nat.add_comm 1]

/-- A value is spoilt by malformed bytes only. -/
theorem malformed_of_takes {e : StreamError} (h : (p.takes bytes).verdict = some (.error e)) :
    e.malformed = true := by
  induction bytes generalizing p with
  | nil => cases h
  | cons b rest ih =>
    match hf : p.feed b with
    | (.error e', q) =>
      rw [takes_of_error hf] at h
      cases h
      exact malformed_of_feed hf
    | (.ok (some w), q) =>
      rw [takes_of_value hf] at h
      cases h
    | (.ok none, q) =>
      rw [takes_of_none hf] at h
      exact ih h

end PartialValue

/-! ## What is ahead of a reader -/

/-- Why a byte that has not come cannot be read: none comes any more, or it may still come. -/
def Tape.missing (t : Tape) (address : Nat) : StreamError :=
  if t.eof.isSome then .endOfStream address else .notAvailable address

/-- Why the byte at `address` cannot be used inside the block ends `bounds`: the innermost block has
ended, or the byte has not come. -/
def Tape.obstacle (t : Tape) (bounds : List Position) (address : Nat) : StreamError :=
  match bounds with
  | stop :: _ =>
    if stop.byte ≤ address then .pastBlockEnd (.ofByte address) stop else t.missing address
  | [] => t.missing address

/-- What a reader inside the block ends `bounds` is told at `address`, where it can use nothing. -/
def Tape.barrier (t : Tape) (bounds : List Position) (address : Nat) : StreamError :=
  if (bounds.headD t.endPosition).byte ≤ address then Source.boundaryError bounds address
  else t.missing address

/-- It is told the obstacle, outside all blocks at least where a stream can have a byte. -/
theorem Tape.barrier_eq_obstacle {t : Tape} {bounds : List Position} {address : Nat}
    (h : bounds = [] → t.eof = none → address < addressLimit) :
    t.barrier bounds address = t.obstacle bounds address := by
  rw [barrier]
  cases bounds with
  | cons stop outer => rfl
  | nil =>
    rw [List.headD_nil, endPosition]
    cases he : t.eof with
    | none =>
      have hlt : address < Position.unbounded.byte := Position.byte_unbounded ▸ h rfl he
      exact if_neg (Nat.not_le.2 hlt)
    | some e =>
      -- the end is met alike, whether the byte lies before it or not
      simp [obstacle, missing, Source.boundaryError, he]

/-- The bytes of the stream ahead of the reader that have come, up to the innermost end. -/
def Cursor.usable (c : Reader) (t : Tape) (stream : List UInt8) : List UInt8 :=
  (stream.take (c.stop t).byte).drop c.address

/-- A byte reader on the pages of a stream, whatever it has in its caches, behind the bytes that
were given up. -/
structure OnStream (c : Reader) (t : Tape) (stream : List UInt8) : Prop where
  whole : t.broken = false
  lists : t.Lists stream
  sound : c.Sound t
  start_le : t.start ≤ c.address

/-- A new reader is one. -/
theorem onStream_fresh {t : Tape} {stream : List UInt8} (hw : t.broken = false)
    (hl : t.Lists stream) (bounds : List Position) {address : Nat} (hs : t.start ≤ address) :
    OnStream { grain := .byte, bounds, address } t stream :=
  ⟨hw, hl, Cursor.sound_fresh t bounds address, hs⟩

theorem Cursor.usable_eq_cons {c : Reader} {t : Tape} {stream rest : List UInt8} {b : UInt8}
    (h : c.usable t stream = b :: rest) :
    c.address < (c.stop t).byte ∧ stream[c.address]? = some b ∧
      ∀ c' : Reader, c'.bounds = c.bounds → c'.address = c.address + 1 →
        c'.usable t stream = rest := by
  have hb : (stream.take (c.stop t).byte)[c.address]? = some b := by
    rw [← List.head?_drop, ← usable, h]
    rfl
  rw [List.getElem?_take] at hb
  by_cases hlt : c.address < (c.stop t).byte
  · rw [if_pos hlt] at hb
    refine ⟨hlt, hb, fun c' hbounds haddress => ?_⟩
    rw [usable, stop, hbounds, haddress, ← List.tail_drop, ← stop, ← usable, h]
    rfl
  · rw [if_neg hlt] at hb
    cases hb

theorem Cursor.usable_eq_nil {c : Reader} {t : Tape} {stream : List UInt8} :
    c.usable t stream = [] ↔ (c.stop t).byte ≤ c.address ∨ stream.length ≤ c.address := by
  rw [usable, List.drop_eq_nil_iff, List.length_take]
  omega

namespace OnStream

variable {c : Reader} {t : Tape} {stream rest : List UInt8} {b : UInt8}

/-- The tests before a byte is taken refuse it. -/
theorem checkFetch_of_nil (h : OnStream c t stream) (hu : c.usable t stream = []) :
    c.checkFetch t = .error (t.barrier c.bounds c.address) := by
  have hu := Cursor.usable_eq_nil.1 hu
  rw [Cursor.checkFetch, h.whole, if_neg Bool.false_ne_true, h.sound.checkByte, Tape.barrier,
    ← Cursor.stop]
  by_cases hlt : c.address < (c.stop t).byte
  · -- the byte has not come
    have hfill : ¬c.address < t.fill := by rw [h.lists.fill]; omega
    have hmissing : t.checkReadable c.address = .error (t.missing c.address) := by
      rw [Tape.checkReadable, h.whole, if_neg Bool.false_ne_true, if_neg hfill, Tape.missing]
      cases t.eof.isSome <;> rfl
    rw [if_pos hlt, if_neg (Nat.not_le.2 hlt)]
    show (t.checkReadable c.address >>= _) = _
    rw [hmissing]
    rfl
  · rw [if_neg hlt, if_pos (Nat.not_lt.1 hlt), Faces.boundaryError]
    rfl

/-- A byte that has come is on a resident page. -/
theorem resident (h : OnStream c t stream) (hlt : c.address < stream.length) :
    t.firstPage ≤ t.pageOf c.address ∧ t.pageOf c.address < t.endPage :=
  h.lists.shows.resident h.lists.paged h.start_le hlt

theorem byteAt (h : OnStream c t stream) (hb : stream[c.address]? = some b) :
    t.byteAt c.address = b :=
  h.lists.shows.byteAt h.start_le hb

theorem checkFetch_of_lt (h : OnStream c t stream) (hs : c.address < (c.stop t).byte)
    (hlt : c.address < stream.length) : c.checkFetch t = .ok () := by
  obtain ⟨h1, h2⟩ := h.resident hlt
  have hreadable : t.checkReadable c.address = .ok () := by
    rw [Tape.checkReadable, h.whole, if_neg Bool.false_ne_true, if_pos (h.lists.fill ▸ hlt)]
  have hpage : (c.holds t c.address || t.resident (t.pageOf c.address)) = true := by
    simp [Tape.resident, h1, h2]
  rw [Cursor.checkFetch, h.whole, if_neg Bool.false_ne_true, h.sound.checkByte, if_pos hs]
  show (t.checkReadable c.address >>= _) = _
  rw [hreadable]
  exact if_pos hpage

/-- A byte reader takes whole bytes. -/
theorem readByte_eq (h : OnStream c t stream) : c.readByte t =
    match c.fetch t with
    | .ok (b, c) => (.ok b, c)
    | .error e => (.error e, c) := by
  rw [Cursor.readByte, h.sound.aligned, h.sound.stopsWithin]
  rfl

/-- A reader that is refused does not move. -/
theorem readByte_of_nil (h : OnStream c t stream) (hu : c.usable t stream = []) :
    c.readByte t = (.error (t.barrier c.bounds c.address), c) := by
  have hslow : ¬c.fast t = true := by
    intro hf
    obtain ⟨-, hs, hfill⟩ := h.sound.of_fast hf
    have hlt := hfill rfl
    rw [h.lists.fill] at hlt
    rcases Cursor.usable_eq_nil.1 hu with hle | hle
    · exact Nat.not_lt.2 hle hs
    · exact Nat.not_lt.2 hle hlt
  rw [h.readByte_eq, Cursor.fetch, if_neg hslow, Cursor.fetchSlow, h.checkFetch_of_nil hu]

/-- A reader takes the next usable byte. -/
theorem readByte_of_cons (h : OnStream c t stream) (hu : c.usable t stream = b :: rest) :
    ∃ c', c.readByte t = (.ok b, c') ∧ OnStream c' t stream ∧ c'.bounds = c.bounds ∧
      c'.address = c.address + 1 := by
  obtain ⟨hs, hb, -⟩ := Cursor.usable_eq_cons hu
  have hlt := (List.getElem?_eq_some_iff.1 hb).1
  rw [h.readByte_eq, Cursor.fetch]
  by_cases hf : c.fast t = true
  · rw [if_pos hf, Cursor.load, if_pos (h.sound.of_fast hf).1, h.byteAt hb]
    exact ⟨_, rfl, ⟨h.whole, h.lists, h.sound.next, Nat.le_succ_of_le h.start_le⟩, rfl, rfl⟩
  · obtain ⟨h1, h2⟩ := h.resident hlt
    have hsound := Cursor.sound_refresh_page h.sound h1 h2
    have hload : ({ c with page := some (t.pageOf c.address) }.refresh t : Reader).load t =
        .ok (b, { ({ c with page := some (t.pageOf c.address) }.refresh t : Reader) with
          address := c.address + 1 }) := by
      rw [Cursor.load, if_pos (by simp [Cursor.holds, Cursor.refresh])]
      show Except.ok (t.byteAt c.address, _) = _
      rw [h.byteAt hb]
      rfl
    rw [if_neg hf, Cursor.fetchSlow, h.checkFetch_of_lt hs hlt]
    simp only
    rw [hload]
    exact ⟨_, rfl, ⟨h.whole, h.lists, hsound.next, Nat.le_succ_of_le h.start_le⟩, rfl, rfl⟩

end OnStream

/-! ## Values -/

/-- An attempt at the rest of a value comes to what the usable bytes make of it. -/
structure ComesTo (c : Reader) (t : Tape) (stream : List UInt8) (p : PartialValue)
    (r : Except StreamError UInt64 × Reader × PartialValue) : Prop where
  onStream : OnStream r.2.1 t stream
  bounds : r.2.1.bounds = c.bounds
  address : r.2.1.address = c.address + (p.takes (c.usable t stream)).count
  partialValue : r.2.2 = (p.takes (c.usable t stream)).partialValue
  /-- The first byte that cannot be used is refused. -/
  answer : r.1 = (p.takes (c.usable t stream)).verdict.getD
    (.error (t.barrier c.bounds (c.address + (p.takes (c.usable t stream)).count)))

/-- A reader reads on in a value as far as its bytes are usable. -/
theorem OnStream.resume {c : Reader} {t : Tape} {stream : List UInt8} (h : OnStream c t stream)
    (p : PartialValue) : ComesTo c t stream p (c.resume t p) := by
  obtain ⟨bytes, hu⟩ : ∃ bytes, c.usable t stream = bytes := ⟨_, rfl⟩
  -- one byte after the other, along the usable ones
  induction bytes generalizing c p with
  | nil =>
    rw [Cursor.resume_eq, h.readByte_of_nil hu]
    refine ⟨h, rfl, ?_, ?_, ?_⟩ <;> rw [hu] <;> rfl
  | cons b rest ih =>
    obtain ⟨c₁, hread, h₁, hbounds, haddress⟩ := h.readByte_of_cons hu
    have hu₁ : c₁.usable t stream = rest := (Cursor.usable_eq_cons hu).2.2 c₁ hbounds haddress
    rw [Cursor.resume_eq, hread]
    simp only
    match hf : p.feed b with
    | (.error e, q) =>
      have htakes := PartialValue.takes_of_error hf rest
      refine ⟨h₁, hbounds, ?_, ?_, ?_⟩ <;> rw [hu, htakes]
      · exact haddress
      · rfl
    | (.ok (some w), q) =>
      have htakes := PartialValue.takes_of_value hf rest
      refine ⟨h₁, hbounds, ?_, ?_, ?_⟩ <;> rw [hu, htakes]
      · exact haddress
      · rfl
    | (.ok none, q) =>
      have htakes := PartialValue.takes_of_none hf rest
      have hrest := ih h₁ q hu₁
      have hanswer := hrest.answer
      have hpartial := hrest.partialValue
      have haddress' := hrest.address
      rw [hu₁, haddress, Nat.add_assoc] at haddress'
      rw [hu₁, hbounds, haddress, Nat.add_assoc] at hanswer
      rw [hu₁] at hpartial
      refine ⟨hrest.onStream, hrest.bounds.trans hbounds, ?_, ?_, ?_⟩ <;> rw [hu, htakes]
      · exact haddress'
      · exact hpartial
      · exact hanswer

end Transcoder

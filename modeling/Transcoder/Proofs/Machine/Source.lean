import Transcoder.Proofs.Cursor.Sound
import Transcoder.Value.Read

/-!
# Input as a list of bytes

A `Source` is the input that has come so far and whether more may come. Reading from it knows no
pages: `get` is one byte inside nested block ends, `read` a value. A run that meets the end of its
input only behind everything else goes as one over `Source.whole`, whatever came when.

Results:
* `Faces.readByte`: a sound reader on a tape that carries the source reads what `get` says.
* `Faces.append`, `Faces.close`, `Faces.evict`: more bytes come, or their end, or pages go.
* `Stands.resume`: a reader that is not past the last byte reads what `read` says.
-/
namespace Transcoder

/-- The input so far. -/
structure Source where
  bytes : List UInt8
  closed : Bool := false
  /-- The end came to light behind all bytes, so no block was measured against it. -/
  late : Bool := false
  deriving DecidableEq

namespace Source

/-- The end of a closed input. -/
def eof (src : Source) : Option Nat := if src.closed then some src.bytes.length else none

/-- The input as a whole, its end at its last byte or at the last address. -/
def whole (bytes : List UInt8) : Source := { bytes, closed := true, late := true }

/-- The bound of the input outside all blocks. -/
def endPosition (src : Source) : Position :=
  if src.closed then
    .ofByte (if src.late then min src.bytes.length addressLimit else src.bytes.length)
  else .unbounded

/-- The innermost of the block ends `bounds`, else the bound of the input. -/
def stop (src : Source) (bounds : List Position) : Position := bounds.headD src.endPosition

/-- What the end of a block inside the block ends `bounds` is measured against. -/
def measure (src : Source) (bounds : List Position) : Position :=
  bounds.headD (if src.late then .unbounded else src.endPosition)

/-- Why nothing is read at or past the innermost end. -/
def boundaryError (bounds : List Position) (address : Nat) : StreamError :=
  match bounds with
  | stop :: _ => .pastBlockEnd (.ofByte address) stop
  | [] => .endOfStream address

/-- The byte at `address` inside the block ends `bounds`. -/
def get (src : Source) (bounds : List Position) (address : Nat) : Except StreamError UInt8 :=
  if address < (src.stop bounds).byte then
    match src.bytes[address]? with
    | some b => .ok b
    | none => .error (if src.closed then .endOfStream address else .notAvailable address)
  else .error (boundaryError bounds address)

/-- Reads on in the value `p` from `address` on. The result has the address behind the last byte
taken. -/
def read (src : Source) (bounds : List Position) (address : Nat) (p : PartialValue) :
    Except StreamError UInt64 × Nat × PartialValue :=
  match src.get bounds address with
  | .error e => (.error e, address, p)
  | .ok b =>
    match h : p.feed b with
    | (.error e, p) => (.error e, address + 1, p)
    | (.ok (some w), p) => (.ok w, address + 1, p)
    | (.ok none, p') =>
      have := PartialValue.remaining_lt_of_feed h
      read src bounds (address + 1) p'
termination_by p.remaining

end Source

/-! ## Readers on a tape -/

/-- The reader looks at a tape that carries the source, from anywhere behind the bytes that were
given up, be it past the last byte. -/
structure Faces (c : Reader) (t : Tape) (src : Source) : Prop where
  early : src.late = false
  sound : c.Sound t
  carries : t.Carries src.bytes
  eof : t.eof = src.eof
  start_le : t.start ≤ c.address

namespace Faces

variable {c : Reader} {t : Tape} {src : Source}

theorem endPosition (h : Faces c t src) : t.endPosition = src.endPosition := by
  rw [Tape.endPosition, h.eof, Source.eof, Source.endPosition, h.early]
  cases src.closed <;> rfl

theorem stop (h : Faces c t src) : c.stop t = src.stop c.bounds := by
  rw [Cursor.stop, Source.stop, h.endPosition]

theorem boundaryError (c : Reader) (t : Tape) (address : Nat) :
    c.boundaryError t (.ofByte address) = Source.boundaryError c.bounds address := by
  simp only [Cursor.boundaryError, Source.boundaryError]
  cases c.bounds with
  | nil => simp
  | cons => rfl

/-- A byte that has come and was not given up is on the tape. -/
theorem byteAt (h : Faces c t src) {b : UInt8} (hb : src.bytes[c.address]? = some b) :
    t.byteAt c.address = b :=
  h.carries.shows.byteAt h.start_le hb

theorem resident (h : Faces c t src) (hlt : c.address < src.bytes.length) :
    t.firstPage ≤ t.pageOf c.address ∧ t.pageOf c.address < t.endPage :=
  h.carries.shows.resident h.carries.paged h.start_le hlt

theorem checkFetch (h : Faces c t src) : c.checkFetch t = (src.get c.bounds c.address).map
    fun _ => () := by
  unfold Cursor.checkFetch Source.get
  rw [h.carries.whole, h.sound.checkByte, h.stop, boundaryError]
  simp only [Bool.false_eq_true, if_false]
  by_cases hs : c.address < (src.stop c.bounds).byte
  · rw [if_pos hs, if_pos hs, Tape.checkReadable, h.carries.whole, h.carries.fill, h.eof]
    simp only [Bool.false_eq_true, if_false]
    by_cases hf : c.address < src.bytes.length
    · obtain ⟨h1, h2⟩ := h.resident hf
      rw [if_pos hf, List.getElem?_eq_getElem hf]
      simp [bind, Except.bind, Tape.resident, h1, h2, Except.map, pure, Except.pure]
    · rw [if_neg hf, List.getElem?_eq_none (by omega)]
      cases hc : src.closed <;> simp [Source.eof, hc, bind, Except.bind, Except.map]
  · rw [if_neg hs, if_neg hs]
    rfl

/-- A sound reader takes the byte that is next, and nothing else happens to it. -/
theorem readByte (h : Faces c t src) :
    match src.get c.bounds c.address with
    | .error e => c.readByte t = (.error e, c)
    | .ok b => src.bytes[c.address]? = some b ∧ ∃ c', c.readByte t = (.ok b, c') ∧
        Faces c' t src ∧ c'.bounds = c.bounds ∧ c'.address = c.address + 1 := by
  have hwhole : (c.aligned && !c.stopsWithin t) = true := by
    rw [h.sound.aligned, h.sound.stopsWithin]
    rfl
  rw [Cursor.readByte, if_pos hwhole]
  unfold Cursor.fetch
  by_cases hf : c.fast t = true
  · obtain ⟨hp, hs, hfill⟩ := h.sound.of_fast hf
    have hlt : c.address < src.bytes.length := h.carries.fill ▸ hfill rfl
    rw [h.stop] at hs
    have hget : src.get c.bounds c.address = .ok src.bytes[c.address] := by
      rw [Source.get, if_pos hs, List.getElem?_eq_getElem hlt]
    have hb := List.getElem?_eq_getElem hlt
    rw [hget, if_pos hf, Cursor.load, if_pos hp, h.byteAt hb]
    exact ⟨hb, _, rfl, ⟨h.early, h.sound.next, h.carries, h.eof, Nat.le_succ_of_le h.start_le⟩, rfl,
      rfl⟩
  · rw [if_neg hf, Cursor.fetchSlow, h.checkFetch]
    cases hget : src.get c.bounds c.address with
    | error e => rfl
    | ok b =>
      have hb : src.bytes[c.address]? = some b := by
        unfold Source.get at hget
        split at hget
        · split at hget
          · rename_i hb
            rw [hb]
            simpa using hget
          · simp at hget
        · simp at hget
      obtain ⟨h1, h2⟩ := h.resident (List.getElem?_eq_some_iff.1 hb).1
      have hsound := Cursor.sound_refresh_page h.sound h1 h2
      have hnext := hsound.next
      simp only [Except.map, Cursor.load]
      rw [if_pos (by simp [Cursor.holds, Cursor.refresh])]
      refine ⟨hb, ?_⟩
      show ∃ c', (Except.ok (t.byteAt c.address), _) = _ ∧ _
      rw [h.byteAt hb]
      exact ⟨_, rfl, ⟨h.early, hnext, h.carries, h.eof, Nat.le_succ_of_le h.start_le⟩, rfl, rfl⟩

/-! ## More input -/

/-- Pages before the reader are given up, but not the one it holds. -/
theorem evict (h : Faces c t src) {held : List Nat} (hp : ∀ p ∈ c.page, p ∈ held) {mark : Nat}
    (hm : mark ≤ c.address) : Faces c (t.evict held mark) src :=
  { h with
    sound := h.sound.evict hp mark
    carries := h.carries.evict held mark
    start_le := Tape.start_evict_le held mark h.start_le hm }

/-- More bytes have come. -/
theorem append {t' : Tape} {bytes : List UInt8} (h : Faces c t src) (hg : t.Grows t')
    (hc : t'.Carries (src.bytes ++ bytes)) (ho : bytes ≠ [] → src.closed = false) :
    Faces c t' { src with bytes := src.bytes ++ bytes } := by
  refine ⟨h.early, h.sound.grows hg fun _ => ?_, hc, ?_, hg.start.symm ▸ h.start_le⟩
  · rw [h.carries.fill, hc.fill, List.length_append]
    exact Nat.le_add_right ..
  · rw [hg.eof, h.eof, Source.eof, Source.eof]
    by_cases hb : bytes = []
    · rw [hb, List.append_nil]
    · rw [ho hb]
      rfl

/-- No more bytes come. -/
theorem close (h : Faces c t src) :
    Faces c { t with eof := some t.fill } { src with closed := true } := by
  refine ⟨h.early, ⟨h.sound.grain, h.sound.bits, h.sound.page, fun a ha hs => ?_⟩,
    ⟨h.carries.whole, h.carries.paged, h.carries.fill, h.carries.shows⟩, ?_, h.start_le⟩
  · -- the span ends before the fill address, so the new end is behind it
    obtain ⟨h1, h2, h3⟩ := h.sound.span a ha hs
    refine ⟨h1, ?_, h3⟩
    cases hb : c.bounds with
    | nil =>
      simp only [Cursor.stop, hb, List.headD_nil, Tape.endPosition, Position.byte_ofByte]
      exact h3 rfl
    | cons p outer =>
      simp only [Cursor.stop, hb, List.headD_cons] at h2 ⊢
      exact h2
  · simp only [Source.eof, if_true, h.carries.fill]

end Faces

/-- Behind the end nothing comes. -/
theorem Tape.append_closed {t : Tape} (hw : t.broken = false) (he : t.eof = some t.fill)
    {bytes : List UInt8} (hb : bytes ≠ []) :
    t.append bytes = (.error (.writeAfterEnd t.fill t.fill), t) := by
  obtain ⟨b, rest, rfl⟩ := List.exists_cons_of_ne_nil hb
  have hw : t.writePage t.fill = .error (.writeAfterEnd t.fill t.fill) := by
    simp only [Tape.writePage, Tape.checkWritable, hw, he, Bool.false_eq_true, if_false,
      Option.filter, Nat.le_refl, decide_true, if_true, Except.map]
  simp only [Tape.append, Tape.storeFrom, hw, Bool.false_eq_true, if_false]

/-- The end can be fixed behind the last byte, once and again. -/
theorem Tape.fixEnd_fill {t : Tape} (he : t.eof = none ∨ t.eof = some t.fill) :
    t.fixEnd t.fill = .ok { t with eof := some t.fill } := by
  rw [Tape.fixEnd, if_neg (Nat.lt_irrefl _)]
  rcases he with he | he
  · rw [he]
  · have hsame : ({ t with eof := some t.fill } : Tape) = t := by rw [← he]
    rw [hsame, he]
    exact if_pos rfl

/-- The reader stands on a tape that carries the source, and what it has not read is there. -/
structure Stands (c : Reader) (t : Tape) (src : Source) : Prop where
  early : src.late = false
  sound : c.Sound t
  carries : t.Carries src.bytes
  eof : t.eof = src.eof
  start_le : t.start ≤ c.address
  le : c.address ≤ src.bytes.length

namespace Stands

variable {c : Reader} {t : Tape} {src : Source}

theorem faces (h : Stands c t src) : Faces c t src :=
  ⟨h.early, h.sound, h.carries, h.eof, h.start_le⟩

theorem of_faces (h : Faces c t src) (hle : c.address ≤ src.bytes.length) : Stands c t src :=
  ⟨h.early, h.sound, h.carries, h.eof, h.start_le, hle⟩

theorem measure (h : Stands c t src) : c.stop t = src.measure c.bounds := by
  rw [Cursor.stop, Source.measure, h.early, h.faces.endPosition]
  rfl

theorem stop (h : Stands c t src) : c.stop t = src.stop c.bounds := h.faces.stop

/-- A sound reader takes the byte that is next, and nothing else happens to it. -/
theorem readByte (h : Stands c t src) :
    match src.get c.bounds c.address with
    | .error e => c.readByte t = (.error e, c)
    | .ok b => ∃ c', c.readByte t = (.ok b, c') ∧ Stands c' t src ∧ c'.bounds = c.bounds ∧
        c'.address = c.address + 1 := by
  have hread := h.faces.readByte
  cases hget : src.get c.bounds c.address with
  | error e =>
    rw [hget] at hread
    exact hread
  | ok b =>
    rw [hget] at hread
    obtain ⟨hb, c', he, h', hbounds, ha⟩ := hread
    have hlt := (List.getElem?_eq_some_iff.1 hb).1
    exact ⟨c', he, of_faces h' (ha.symm ▸ hlt), hbounds, ha⟩

/-- Pages before the reader are given up, but not the one it holds. -/
theorem evict (h : Stands c t src) : Stands c (t.evict c.page.toList c.address) src :=
  of_faces (h.faces.evict (fun _ hp => Option.mem_toList.2 hp) (Nat.le_refl _)) h.le

/-- More bytes come. -/
theorem append (h : Stands c t src) (hc : src.closed = false) (bytes : List UInt8) :
    ∃ t', t.append bytes = (.ok (src.bytes.length + bytes.length), t') ∧
      Stands c t' { src with bytes := src.bytes ++ bytes } := by
  have he : t.eof = none := by rw [h.eof, Source.eof, hc]; rfl
  obtain ⟨t', ha, hg, hc'⟩ := h.carries.append he (Nat.le_trans h.start_le h.le) bytes
  refine ⟨t', ha, of_faces (h.faces.append hg hc' fun _ => hc) ?_⟩
  rw [List.length_append]
  exact Nat.le_add_right_of_le h.le

/-- Behind the end nothing comes. -/
theorem append_closed (h : Stands c t src) (hc : src.closed = true) {bytes : List UInt8}
    (hb : bytes ≠ []) : ∃ x, t.append bytes = (.error x, t) := by
  have he : t.eof = some t.fill := by rw [h.eof, Source.eof, hc, h.carries.fill]; rfl
  exact ⟨_, Tape.append_closed h.carries.whole he hb⟩

/-- No more bytes come. -/
theorem fixEnd (h : Stands c t src) :
    ∃ t', t.fixEnd t.fill = .ok t' ∧ Stands c t' { src with closed := true } := by
  have he : t.eof = none ∨ t.eof = some t.fill := by
    rw [h.eof, Source.eof, h.carries.fill]
    cases src.closed
    · exact .inl rfl
    · exact .inr rfl
  exact ⟨_, Tape.fixEnd_fill he, of_faces h.faces.close h.le⟩

/-- The reader enters or leaves blocks. -/
theorem rebound (h : Stands c t src) (bounds : List Position) :
    Stands ({ c with bounds }.refresh t) t src :=
  ⟨h.early, Cursor.sound_refresh h.sound.grain h.sound.bits h.sound.page, h.carries, h.eof,
    h.start_le, h.le⟩

end Stands

/-! ## Values -/

theorem Source.read_eq (src : Source) (bounds : List Position) (address : Nat) (p : PartialValue) :
    src.read bounds address p =
      match src.get bounds address with
      | .error e => (.error e, address, p)
      | .ok b =>
        match p.feed b with
        | (.error e, p) => (.error e, address + 1, p)
        | (.ok (some w), p) => (.ok w, address + 1, p)
        | (.ok none, p) => src.read bounds (address + 1) p := by
  rw [read]
  split <;> rename_i hb
  · rfl
  · split <;> rename_i h <;> simp only [h]

theorem Cursor.resume_eq (t : Tape) (c : Reader) (p : PartialValue) :
    c.resume t p =
      match c.readByte t with
      | (.error e, c) => (.error e, c, p)
      | (.ok b, c) =>
        match p.feed b with
        | (.error e, p) => (.error e, c, p)
        | (.ok (some w), p) => (.ok w, c, p)
        | (.ok none, p) => c.resume t p := by
  rw [resume]
  split <;> simp only [*]
  split <;> rename_i h <;> simp only [h]

/-- A sound reader reads on in a value as the source says. -/
theorem Stands.resume {c : Reader} {t : Tape} {src : Source} (h : Stands c t src)
    (p : PartialValue) :
    ∃ c', c.resume t p =
        ((src.read c.bounds c.address p).1, c', (src.read c.bounds c.address p).2.2) ∧
      Stands c' t src ∧ c'.bounds = c.bounds ∧
      c'.address = (src.read c.bounds c.address p).2.1 := by
  have hb := h.readByte
  rw [Cursor.resume_eq, Source.read_eq]
  cases hget : src.get c.bounds c.address with
  | error e =>
    rw [hget] at hb
    exact ⟨c, by rw [hb], h, rfl, rfl⟩
  | ok b =>
    rw [hget] at hb
    obtain ⟨c₁, hc₁, hs₁, hbounds, haddr⟩ := hb
    rw [hc₁]
    simp only
    match hfeed : p.feed b with
    | (.error e, p') => exact ⟨c₁, rfl, hs₁, hbounds, haddr⟩
    | (.ok (some w), p') => exact ⟨c₁, rfl, hs₁, hbounds, haddr⟩
    | (.ok none, p') =>
      have := PartialValue.remaining_lt_of_feed hfeed
      obtain ⟨c', hc', hs', hb', ha'⟩ := hs₁.resume p'
      rw [hbounds, haddr] at hc' ha'
      exact ⟨c', hc', hs', hb'.trans hbounds, ha'⟩
termination_by p.remaining

end Transcoder

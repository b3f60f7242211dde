import Transcoder.Proofs.Cursor.Loading
import Transcoder.Proofs.Machine.Source

/-!
# Bit cursors on whole bytes

A bit cursor can read and write whole bytes wherever it stands. Inside a byte it goes on bit by bit,
and its offset in the byte stays what it was. Between two bytes it does what a byte cursor does.

Results:
* `Placed.readByte`, `Placed.enter`: reading whole bytes moves a reader by multiples of eight bits.
* `Level.readByte`, `Level.enter`, `Level.leave`: between two bytes, readers of both grains agree.
* `Clear.writeByte`: and so do writers.
-/
namespace Transcoder.Cursor

variable {role : Role}

/-! ## Offsets inside a byte -/

theorem fetch_keeps {c c' : Reader} {t : Tape} {b : UInt8} (h : c.fetch t = .ok (b, c')) :
    c'.bits = c.bits ∧ c'.bounds = c.bounds ∧ c'.address = c.address + 1 := by
  unfold fetch at h
  split at h
  · obtain rfl := eq_of_load h
    exact ⟨rfl, rfl, rfl⟩
  · unfold fetchSlow at h
    split at h
    · obtain rfl := eq_of_load h
      exact ⟨rfl, rfl, rfl⟩
    · cases h

theorem enterSized_keeps {c c' : Reader} {t : Tape} {size : Nat} {extent : Extent}
    (h : c.enterSized t size = .ok (extent, c')) :
    c'.bits = c.bits ∧ c'.address = c.address ∧ c'.stop t = extent.stop ∧ extent.stop.bit = 0 := by
  simp only [enterSized, pushBound] at h
  split at h
  · rename_i hp
    split at hp
    · cases hp
      cases h
      exact ⟨rfl, rfl, rfl, Position.bit_ofByte _⟩
    · cases hp
  · cases h

/-- A block is entered once its size is read. -/
theorem of_enter {c c' : Reader} {t : Tape} {extent : Extent} (h : c.enter t = .ok (extent, c')) :
    ∃ word c₁ p, c.resume t (.start .varuint32) = (.ok word, c₁, p) ∧
      c₁.enterSized t word.toNat = .ok (extent, c') := by
  simp only [enter, readSize, readValue] at h
  rcases hr : c.resume t (.start .varuint32) with ⟨r, c₁, p⟩
  rw [hr] at h
  cases r with
  | error e => cases h
  | ok word => exact ⟨word, c₁, p, rfl, h⟩

/-- `c'` stands a number of whole bytes behind `c`. -/
structure Behind (c c' : Reader) : Prop where
  placed : c'.Placed
  offset : c'.position.bits % 8 = c.position.bits % 8

namespace Placed

variable {c c' : Reader} {t : Tape}

/-- A bit that is read moves the reader by one. -/
theorem readBit {bit : Bool} (p : c.Placed) (h : c.readBit t = .ok (bit, c')) :
    c'.Placed ∧ c'.position.bits = c.position.bits + 1 := by
  simp only [Cursor.readBit, bind, Except.bind] at h
  split at h
  · cases h
  · cases hbits : c.bits with
    | cons bit rest =>
      simp only [hbits, pure, Except.pure, Except.ok.injEq, Prod.mk.injEq] at h
      obtain ⟨-, rfl⟩ := h
      simp only [Placed, position, hbits, List.length_cons] at p ⊢
      omega
    | nil =>
      rw [hbits] at h
      simp only at h
      split at h
      · cases h
      · rename_i p hf
        simp only [pure, Except.pure, Except.ok.injEq, Prod.mk.injEq] at h
        obtain ⟨-, rfl⟩ := h
        obtain ⟨-, -, ha⟩ := fetch_keeps hf
        simp only [Placed, position, hbits, ha, List.length_tail, Bits.length_ofByte,
          List.length_nil]
        omega

theorem readBitsUntil {n : Nat} {acc bits : List Bool} (p : c.Placed)
    (h : readBitsUntil t n c acc = (.ok bits, c')) :
    c'.Placed ∧ c'.position.bits = c.position.bits + n := by
  induction n generalizing c acc with
  | zero =>
    simp only [Cursor.readBitsUntil, Prod.mk.injEq] at h
    exact h.2 ▸ ⟨p, rfl⟩
  | succ n ih =>
    simp only [Cursor.readBitsUntil] at h
    split at h
    · cases h
    · rename_i hb
      obtain ⟨p₁, h₁⟩ := p.readBit hb
      obtain ⟨p', h'⟩ := ih p₁ h
      exact ⟨p', by omega⟩

/-- Bits that are read move the reader by their number. -/
theorem readBitList {n : Nat} {bits : List Bool} (p : c.Placed)
    (h : c.readBitList t n = (.ok bits, c')) :
    c'.Placed ∧ c'.position.bits = c.position.bits + n := by
  unfold Cursor.readBitList at h
  split at h
  · rename_i hb
    simp only [Prod.mk.injEq, Except.ok.injEq] at h
    obtain ⟨rfl, rfl⟩ := h
    exact p.readBitsUntil hb
  · cases h

/-- A byte that is read moves the reader by eight bits. -/
theorem readByte {b : UInt8} (p : c.Placed) (h : c.readByte t = (.ok b, c')) :
    c'.Placed ∧ c'.position.bits = c.position.bits + 8 := by
  unfold Cursor.readByte at h
  split at h
  · split at h
    · rename_i hf
      simp only [Prod.mk.injEq, Except.ok.injEq] at h
      obtain ⟨rfl, rfl⟩ := h
      obtain ⟨hb, -, ha⟩ := fetch_keeps hf
      simp only [Placed, position, hb, ha] at p ⊢
      omega
    · cases h
  · split at h
    · rename_i hb
      simp only [Prod.mk.injEq, Except.ok.injEq] at h
      obtain ⟨rfl, rfl⟩ := h
      exact p.readBitList hb
    · cases h

/-- A value that is read moves the reader by whole bytes. -/
theorem resume {c c' : Reader} {p p' : PartialValue} {word : UInt64} (hc : c.Placed)
    (h : c.resume t p = (.ok word, c', p')) : c.Behind c' := by
  rw [resume_eq] at h
  match hb : c.readByte t with
  | (.error e, c₁) =>
    rw [hb] at h
    cases h
  | (.ok b, c₁) =>
    obtain ⟨hc₁, h₁⟩ := hc.readByte hb
    rw [hb] at h
    simp only at h
    match hf : p.feed b with
    | (.error e, q) =>
      rw [hf] at h
      cases h
    | (.ok (some w), q) =>
      rw [hf] at h
      cases h
      exact ⟨hc₁, by omega⟩
    | (.ok none, q) =>
      rw [hf] at h
      have := PartialValue.remaining_lt_of_feed hf
      obtain ⟨hc', ho⟩ := hc₁.resume h
      exact ⟨hc', by omega⟩
termination_by p.remaining

/-- Entering a block moves the reader by whole bytes, and the block ends between two bytes. -/
theorem enter {extent : Extent} (hc : c.Placed) (h : c.enter t = .ok (extent, c')) :
    c.Behind c' ∧ extent.stop.bit = 0 := by
  obtain ⟨word, c₁, p, hr, he⟩ := of_enter h
  obtain ⟨hp, ho⟩ := hc.resume hr
  obtain ⟨hbits, haddress, -, hstop⟩ := enterSized_keeps he
  refine ⟨⟨?_, ?_⟩, hstop⟩
  · rwa [Placed, hbits, haddress]
  · simp only [position, hbits, haddress] at ho ⊢
    exact ho

end Placed

/-- A block ends between two bytes, so a reader inside a byte does not leave it. -/
theorem leave_underrun {c : Reader} {t : Tape} {extent : Extent} (hs : extent.stop.bit = 0)
    (hc : c.position.bits % 8 ≠ 0) :
    c.leave t extent = .error (.blockUnderrun extent.stop c.position) := by
  rw [leave, if_neg]
  intro he
  exact hc (he ▸ hs)

/-! ## Readers between two bytes -/

/-- The byte cursor at the same place. -/
def bytewise (c : Cursor role) : Cursor role := { c with grain := .byte }

theorem stop_bytewise (c : Cursor role) (t : Tape) : c.bytewise.stop t = c.stop t := rfl

theorem boundaryError_bytewise (c : Cursor role) (t : Tape) (p : Position) :
    c.bytewise.boundaryError t p = c.boundaryError t p := by
  simp only [boundaryError, show c.bytewise.bounds = c.bounds from rfl]
  cases c.bounds with
  | nil => cases role <;> rfl
  | cons => rfl

theorem refresh_bytewise (c : Cursor role) (t : Tape) :
    c.bytewise.refresh t = (c.refresh t).bytewise := by
  cases role <;> rfl

theorem pushBound_bytewise (c : Cursor role) (t : Tape) (p : Position) :
    c.bytewise.pushBound t p = (c.pushBound t p).map bytewise := by
  unfold pushBound
  rw [stop_bytewise]
  by_cases hp : p ≤ c.stop t
  · rw [if_pos hp, if_pos hp]
    exact congrArg Except.ok (refresh_bytewise { c with bounds := p :: c.bounds } t)
  · rw [if_neg hp, if_neg hp]
    rfl

/-- The cursor stands between two bytes, and the innermost end lies between two bytes. -/
structure Level (c : Cursor role) (t : Tape) : Prop where
  bits : c.bits = []
  stop : (c.stop t).bit = 0

namespace Level

section

variable {c : Cursor role} {t : Tape} (h : c.Level t)
include h

theorem bytewise : c.bytewise.Level t := ⟨h.bits, h.stop⟩

theorem aligned : c.aligned = true := by simp [Cursor.aligned, h.bits]

theorem stopsWithin : c.stopsWithin t = false := by simp [Cursor.stopsWithin, h.stop]

theorem whole : (c.aligned && !c.stopsWithin t) = true := by rw [h.aligned, h.stopsWithin]; rfl

theorem checkByte : c.bytewise.checkByte t = c.checkByte t := by
  simp only [Cursor.checkByte, h.stopsWithin, h.bytewise.stopsWithin, stop_bytewise,
    boundaryError_bytewise]
  rfl

end

variable {c : Reader} {t : Tape}

theorem load_bytewise (c : Reader) (t : Tape) :
    c.bytewise.load t = (c.load t).map fun (b, c) => (b, c.bytewise) := by
  unfold load
  by_cases hh : c.holds t c.address = true
  · rw [if_pos hh, if_pos (show c.bytewise.holds t c.bytewise.address = true from hh)]
    rfl
  · rw [if_neg hh, if_neg (show ¬c.bytewise.holds t c.bytewise.address = true from hh)]
    rfl

theorem fetch (h : c.Level t) :
    c.bytewise.fetch t = (c.fetch t).map fun (b, c) => (b, c.bytewise) := by
  have hcheck : c.bytewise.checkFetch t = c.checkFetch t := by
    unfold checkFetch
    rw [h.checkByte]
    rfl
  unfold Cursor.fetch
  by_cases hf : c.fast t = true
  · rw [if_pos hf, if_pos (show c.bytewise.fast t = true from hf), load_bytewise]
  · rw [if_neg hf, if_neg (show ¬c.bytewise.fast t = true from hf), fetchSlow, fetchSlow, hcheck]
    cases c.checkFetch t with
    | error e => rfl
    | ok => exact load_bytewise (({ c with page := some (t.pageOf c.address) } : Reader).refresh t) t

/-- A byte is read alike. -/
theorem readByte (h : c.Level t) :
    c.bytewise.readByte t = ((c.readByte t).1, (c.readByte t).2.bytewise) ∧
      (c.readByte t).2.Level t ∧ (c.readByte t).2.bounds = c.bounds := by
  unfold Cursor.readByte
  rw [if_pos h.whole, if_pos h.bytewise.whole, h.fetch]
  cases hf : c.fetch t with
  | error e => exact ⟨rfl, h, rfl⟩
  | ok p =>
    obtain ⟨b, c'⟩ := p
    obtain ⟨hbits, hbounds, -⟩ := fetch_keeps hf
    refine ⟨rfl, ⟨hbits.trans h.bits, ?_⟩, hbounds⟩
    simp only [Cursor.stop, hbounds]
    exact h.stop

/-- A value is read alike. -/
theorem resume {c : Reader} (h : c.Level t) (p : PartialValue) :
    c.bytewise.resume t p =
        ((c.resume t p).1, (c.resume t p).2.1.bytewise, (c.resume t p).2.2) ∧
      (c.resume t p).2.1.Level t ∧ (c.resume t p).2.1.bounds = c.bounds := by
  obtain ⟨hb, h₁, hs⟩ := h.readByte
  rw [resume_eq, resume_eq t c, hb]
  match hr : c.readByte t with
  | (.error e, c₁) =>
    rw [hr] at h₁ hs
    exact ⟨rfl, h₁, hs⟩
  | (.ok b, c₁) =>
    rw [hr] at h₁ hs
    simp only
    match hf : p.feed b with
    | (.error e, q) => exact ⟨rfl, h₁, hs⟩
    | (.ok (some w), q) => exact ⟨rfl, h₁, hs⟩
    | (.ok none, q) =>
      have := PartialValue.remaining_lt_of_feed hf
      obtain ⟨he, h', hs'⟩ := h₁.resume q
      exact ⟨he, h', hs'.trans hs⟩
termination_by p.remaining

theorem enterSized_bytewise (c : Reader) (t : Tape) (size : Nat) :
    c.bytewise.enterSized t size =
      (c.enterSized t size).map fun (extent, c) => (extent, c.bytewise) := by
  simp only [enterSized, pushBound_bytewise, show c.bytewise.address = c.address from rfl]
  cases c.pushBound t (.ofByte (min (c.address + size) (UInt64.size - 1))) with
  | error e => rfl
  | ok c' => rfl

/-- A block is entered alike. -/
theorem enter (h : c.Level t) :
    c.bytewise.enter t = (c.enter t).map fun (extent, c) => (extent, c.bytewise) := by
  obtain ⟨hr, -, -⟩ := h.resume (.start .varuint32)
  simp only [Cursor.enter, readSize, readValue, hr]
  obtain ⟨r, c₁, p⟩ := c.resume t (.start .varuint32)
  cases r with
  | error e => rfl
  | ok word => exact enterSized_bytewise c₁ t word.toNat

/-- A block that was entered from between two bytes begins and ends there. -/
theorem of_enter {c' : Reader} {extent : Extent} (h : c.Level t)
    (he : c.enter t = .ok (extent, c')) : c'.Level t := by
  obtain ⟨word, c₁, p, hr, he⟩ := Cursor.of_enter he
  obtain ⟨-, h₁, -⟩ := h.resume (.start .varuint32)
  rw [hr] at h₁
  obtain ⟨hbits, -, hstop, hbit⟩ := enterSized_keeps he
  exact ⟨hbits.trans h₁.bits, hstop ▸ hbit⟩

/-- A block is left alike. -/
theorem leave (c : Reader) (t : Tape) (extent : Extent) :
    c.bytewise.leave t extent = (c.leave t extent).map Cursor.bytewise := by
  unfold Cursor.leave
  by_cases hp : c.position = extent.stop
  · rw [if_pos hp, if_pos (show c.bytewise.position = extent.stop from hp)]
    unfold popBound
    cases hb : c.bounds with
    | nil => rw [show c.bytewise.bounds = [] from hb]; rfl
    | cons p outer => rw [show c.bytewise.bounds = p :: outer from hb]; rfl
  · rw [if_neg hp, if_neg (show ¬c.bytewise.position = extent.stop from hp)]
    rfl

end Level

/-! ## Writers between two bytes -/

theorem level_of_unbounded {c : Cursor role} {t : Tape} (hbits : c.bits = [])
    (hbounds : c.bounds = []) (heof : t.eof = none) : c.Level t := by
  refine ⟨hbits, ?_⟩
  simp only [Cursor.stop, hbounds, List.headD_nil, Tape.endPosition, heof, Position.unbounded,
    Position.bit_ofByte]

/-- The writer stands between two bytes, and no end is set. -/
structure Clear (w : Writer) (t : Tape) : Prop where
  bits : w.bits = []
  bounds : w.bounds = []
  eof : t.eof = none

namespace Clear

theorem level {w : Writer} {t : Tape} (h : w.Clear t) : w.Level t :=
  level_of_unbounded h.bits h.bounds h.eof

variable {w w' : Writer} {t t' : Tape}

theorem place {b : UInt8} (h : w.Clear t) (he : Cursor.place b (t, w) = .ok () (t', w')) :
    Cursor.place b (t, w.bytewise) = .ok () (t', w'.bytewise) ∧ w'.Clear t' := by
  rw [Cursor.place] at he ⊢
  by_cases hh : w.holds t w.address = true
  · rw [if_pos hh] at he
    rw [if_pos (show w.bytewise.holds t w.bytewise.address = true from hh)]
    cases he
    refine ⟨rfl, h.bits, h.bounds, ?_⟩
    show (t.put w.address b).eof = none
    unfold Tape.put
    split <;> exact h.eof
  · rw [if_neg hh] at he
    cases he

/-- A byte is stored alike. -/
theorem store {b : UInt8} (h : w.Clear t) (he : Cursor.store b (t, w) = .ok () (t', w')) :
    Cursor.store b (t, w.bytewise) = .ok () (t', w'.bytewise) ∧ w'.Clear t' := by
  rw [Cursor.store] at he ⊢
  by_cases hf : w.fast t = true
  · rw [if_pos hf] at he
    rw [if_pos (show w.bytewise.fast t = true from hf)]
    exact h.place he
  rw [if_neg hf, storeSlow] at he
  rw [if_neg (show ¬w.bytewise.fast t = true from hf), storeSlow, h.level.checkByte]
  by_cases hbroken : t.broken = true
  · rw [if_pos hbroken] at he
    cases he
  rw [if_neg hbroken] at he ⊢
  cases hc : w.checkByte t with
  | error e =>
    rw [hc] at he
    cases he
  | ok =>
    rw [hc] at he
    simp only at he ⊢
    by_cases hh : w.holds t w.address = true
    · rw [if_pos hh] at he
      rw [if_pos (show w.bytewise.holds t w.bytewise.address = true from hh), refresh_bytewise]
      exact place (w := w.refresh t) ⟨h.bits, h.bounds, h.eof⟩ he
    · rw [if_neg hh] at he
      rw [if_neg (show ¬w.bytewise.holds t w.bytewise.address = true from hh)]
      cases hw : t.checkWritable w.address with
      | error e =>
        rw [hw] at he
        cases he
      | ok =>
        rw [hw] at he
        rw [show w.bytewise.address = w.address from rfl, hw]
        exact place (w := ({ w with page := some (t.pageOf w.address) } : Writer).refresh
          (t.grow (t.pageOf w.address))) ⟨h.bits, h.bounds, h.eof⟩ he

/-- A byte is written alike. -/
theorem writeByte {b : UInt8} (h : w.Clear t) (he : Cursor.writeByte b (t, w) = .ok () (t', w')) :
    Cursor.writeByte b (t, w.bytewise) = .ok () (t', w'.bytewise) ∧ w'.Clear t' := by
  rw [Cursor.writeByte, if_pos h.level.whole] at he
  rw [Cursor.writeByte, if_pos h.level.bytewise.whole]
  exact h.store he

/-- Bytes are written alike. -/
theorem writeBytes {bytes : List UInt8} (h : w.Clear t)
    (he : bytes.forM Cursor.writeByte (t, w) = .ok () (t', w')) :
    bytes.forM Cursor.writeByte (t, w.bytewise) = .ok () (t', w'.bytewise) ∧ w'.Clear t' := by
  induction bytes generalizing w t with
  | nil =>
    cases he
    exact ⟨rfl, h⟩
  | cons b rest ih =>
    rw [List.forM_eq_forM, List.forM_cons] at he
    obtain ⟨⟨⟩, ⟨t₁, w₁⟩, he₁, he⟩ := of_bind_ok he
    obtain ⟨hb, h₁⟩ := h.writeByte he₁
    obtain ⟨hr, h'⟩ := ih h₁ he
    refine ⟨?_, h'⟩
    rw [List.forM_eq_forM, List.forM_cons, bind_of_ok hb]
    exact hr

/-- Bytes are copied alike. -/
theorem copyFrom {n : Nat} {source : Reader} (h : w.Clear t) (hs : source.bits = [])
    (hb : source.bounds = []) (he : Cursor.copyFrom n source (t, w) = .ok () (t', w')) :
    Cursor.copyFrom n source.bytewise (t, w.bytewise) = .ok () (t', w'.bytewise) ∧
      w'.Clear t' := by
  induction n generalizing w t source with
  | zero =>
    cases he
    exact ⟨rfl, h⟩
  | succ n ih =>
    obtain ⟨hr, hl₁, hb₁⟩ := (level_of_unbounded hs hb h.eof).readByte
    simp only [Cursor.copyFrom] at he ⊢
    rw [hr]
    rcases hread : source.readByte t with ⟨r, source₁⟩
    rw [hread] at he hl₁ hb₁
    cases r with
    | error e => cases he
    | ok b =>
      simp only at he ⊢
      cases hw : Cursor.writeByte b (t, w) with
      | error e s =>
        rw [hw] at he
        cases he
      | ok u s =>
        obtain ⟨t₁, w₁⟩ := s
        rw [hw] at he
        obtain ⟨hb', h₁⟩ := h.writeByte hw
        rw [hb']
        exact ih h₁ hl₁.bits (hb₁.trans hb) he

end Clear

end Transcoder.Cursor

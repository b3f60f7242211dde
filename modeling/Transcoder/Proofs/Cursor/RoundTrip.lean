import Transcoder.Proofs.Cursor.Loading
import Transcoder.Proofs.Cursor.Spelling
import Transcoder.Proofs.Cursor.Writing
import Transcoder.Proofs.Value.Completing

/-!
# What one cursor writes another reads

A stream of data, values of some kind or fields of some bits, is written through one writer and
read back through one reader. On a bit cursor a datum may begin inside a byte, so nothing is said
about bytes here: the writer spells a list of bits, and the reader has a list of bits `Ahead`.

Results:
* `Ahead.readBitList`, `Ahead.readByte`, `Ahead.resume`: the bits ahead are what is read.
* `Spells.writeData`, `Ahead.readData`: data are written one behind the other, and read so.
* `data_roundTrip`: data that find room come back from the place that they were written at, and
  after each of them the reader stands where the writer stood.
-/
namespace Transcoder

/-! ## Reading bit by bit -/

/-- The bits that a reader outside all blocks has still to read of the stream `s`. -/
structure Ahead (c : Reader) (t : Tape) (s : List UInt8) (bs : List Bool) : Prop where
  trusted : c.Trusted t
  carries : t.Carries s
  start_le : t.start ≤ c.address
  le : c.address ≤ s.length
  bounds : c.bounds = []
  eof : t.eof = none
  room : s.length ≤ addressLimit
  placed : c.bits.length ≤ 8 * c.address
  bytewise : c.grain = .byte → c.bits = []
  bits : c.bits ++ Bits.ofBytes (s.drop c.address) = bs

namespace Ahead

variable {c : Reader} {t : Tape} {s : List UInt8} {bs rest : List Bool}

/-- Where the reader stands says how much is ahead. -/
theorem position (h : Ahead c t s bs) : c.position.bits + bs.length = 8 * s.length := by
  have hpos : c.position.bits = 8 * c.address - c.bits.length := rfl
  have hplaced := h.placed
  have hle := h.le
  rw [← h.bits, List.length_append, Bits.length_ofBytes, List.length_drop]
  omega

theorem stop (h : Ahead c t s bs) : c.stop t = .ofByte addressLimit := by
  rw [Cursor.stop, h.bounds, Tape.endPosition, h.eof]
  rfl

theorem stopsWithin (h : Ahead c t s bs) : c.stopsWithin t = false := by
  rw [Cursor.stopsWithin, h.stop, Position.bit_ofByte, bne_self_eq_false, Bool.and_false]

/-- The byte at the reader is on the tape. -/
theorem resident (h : Ahead c t s bs) (hlt : c.address < s.length) :
    t.byteAt c.address = s[c.address] ∧ t.firstPage ≤ t.pageOf c.address ∧
      t.pageOf c.address < t.endPage :=
  ⟨h.carries.shows.byteAt h.start_le (List.getElem?_eq_getElem hlt),
    h.carries.shows.resident h.carries.paged h.start_le hlt⟩

/-- Nothing speaks against taking it. -/
theorem checkFetch (h : Ahead c t s bs) (hlt : c.address < s.length) : c.checkFetch t = .ok () := by
  obtain ⟨-, hfirst, hend⟩ := h.resident hlt
  have hroom := h.room
  have hbefore : c.checkByte t = .ok () := by
    rw [Cursor.checkByte, h.stop, Position.byte_ofByte, decide_eq_true (by omega), Bool.true_or,
      if_pos rfl]
  have hreadable : t.checkReadable c.address = .ok () := by
    rw [Tape.checkReadable, h.carries.whole, if_neg Bool.false_ne_true, h.carries.fill, if_pos hlt]
  have hthere : (c.holds t c.address || t.resident (t.pageOf c.address)) = true := by
    rw [Tape.resident, decide_eq_true hfirst, decide_eq_true hend, Bool.and_self, Bool.or_true]
  rw [Cursor.checkFetch, h.carries.whole, if_neg Bool.false_ne_true, hbefore]
  simp only [bind, Except.bind, hreadable]
  rw [if_pos hthere]
  rfl

/-- Behind the byte, with some bits of it still to be read. -/
theorem behind {c' : Reader} (h : Ahead c t s bs) (hlt : c.address < s.length) (hc : c'.Trusted t)
    (ha : c'.address = c.address) (hb : c'.bounds = c.bounds) {bits : List Bool}
    (hl : bits.length ≤ 8) (hbits : c'.grain = .byte → bits = []) :
    Ahead { c' with address := c'.address + 1, bits } t s
      (bits ++ Bits.ofBytes (s.drop (c.address + 1))) := by
  refine ⟨hc.next bits, h.carries, ?_, ?_, hb.trans h.bounds, h.eof, h.room, ?_, hbits, ?_⟩
  · exact ha.symm ▸ Nat.le_succ_of_le h.start_le
  · exact ha.symm ▸ hlt
  · show bits.length ≤ 8 * (c'.address + 1)
    omega
  · show bits ++ Bits.ofBytes (s.drop (c'.address + 1)) = _
    rw [ha]

/-- The byte at the reader is taken, and the reader goes behind it. -/
theorem fetch (h : Ahead c t s bs) (hlt : c.address < s.length) :
    ∃ c', c.fetch t = .ok (s[c.address], c') ∧ c'.bits = c.bits ∧ c'.grain = c.grain ∧
      ∀ bits : List Bool, bits.length ≤ 8 → (c.grain = .byte → bits = []) →
        Ahead { c' with bits } t s (bits ++ Bits.ofBytes (s.drop (c.address + 1))) := by
  obtain ⟨hbyte, hresident⟩ := h.resident hlt
  have hfetch := h.trusted.toKept.fetch_eq
  rw [h.checkFetch hlt, ite_self, hbyte] at hfetch
  refine ⟨_, hfetch, Cursor.bits_onLoad c t, Cursor.grain_onLoad c t, fun bits hl hbits => ?_⟩
  have hbehind := h.behind hlt (h.trusted.onLoad hresident) (Cursor.address_onLoad c t)
    (Cursor.bounds_onLoad c t) hl fun hg => hbits ((Cursor.grain_onLoad c t).symm.trans hg)
  rwa [Cursor.address_onLoad] at hbehind

/-- Bits are ahead only where there is a byte for them. -/
theorem lt_of_bits (h : Ahead c t s bs) (hb : c.bits = []) (hn : bs ≠ []) :
    c.address < s.length := by
  apply Nat.lt_of_not_le
  intro hle
  apply hn
  rw [← h.bits, hb, List.drop_of_length_le hle]
  rfl

/-- The bit ahead is read. -/
theorem readBit {bit : Bool} (h : Ahead c t s (bit :: rest)) (hg : c.grain = .bit) :
    ∃ c', c.readBit t = .ok (bit, c') ∧ c'.grain = .bit ∧ Ahead c' t s rest := by
  have hnotByte {bits : List Bool} : c.grain = .byte → bits = [] := by
    intro hbyte
    cases hg.symm.trans hbyte
  have hpos := h.position
  have hroom := h.room
  have hcheck : c.checkBit t = .ok () := by
    rw [Cursor.checkBit, if_neg (not_not_intro hg), h.stop]
    apply if_pos
    show c.position.bits < 8 * addressLimit
    rw [List.length_cons] at hpos
    omega
  have hahead := h.bits
  cases hbits : c.bits with
  | cons bit' bits =>
    rw [hbits, List.cons_append] at hahead
    obtain ⟨rfl, hrest⟩ := List.cons.inj hahead
    refine ⟨{ c with bits }, ?_, hg, h.trusted.withBits bits, h.carries, h.start_le, h.le, h.bounds,
      h.eof, h.room, ?_, hnotByte, hrest⟩
    · simp only [Cursor.readBit, hcheck, hbits, bind, Except.bind, pure, Except.pure]
    · have hplaced := h.placed
      rw [hbits, List.length_cons] at hplaced
      exact Nat.le_of_succ_le hplaced
  | nil =>
    have hlt := h.lt_of_bits hbits (List.cons_ne_nil _ _)
    obtain ⟨c', hf, hb, hgrain, hc'⟩ := h.fetch hlt
    -- the first bit of the byte is taken, the others stay with the reader
    obtain ⟨first, tail, htail⟩ : ∃ first tail, Bits.ofByte s[c.address] = first :: tail :=
      ⟨_, _, rfl⟩
    have hlen : tail.length ≤ 8 := by
      have := Bits.length_ofByte s[c.address]
      rw [htail, List.length_cons] at this
      omega
    rw [hbits, List.nil_append, List.drop_eq_getElem_cons hlt, Bits.ofBytes_cons, htail,
      List.cons_append] at hahead
    obtain ⟨rfl, hrest⟩ := List.cons.inj hahead
    have hc' := hc' tail hlen hnotByte
    rw [hrest] at hc'
    refine ⟨{ c' with bits := tail }, ?_, hgrain.trans hg, hc'⟩
    simp only [Cursor.readBit, hcheck, hbits, hf, htail, bind, Except.bind, pure, Except.pure,
      List.headD_cons, List.tail_cons]

/-- The bits ahead are read one after the other. -/
theorem readBitsUntil (h : Ahead c t s (bs ++ rest)) (hg : c.grain = .bit) (acc : List Bool) :
    ∃ c', Cursor.readBitsUntil t bs.length c acc = (.ok (acc ++ bs), c') ∧ c'.grain = .bit ∧
      Ahead c' t s rest := by
  induction bs generalizing c acc with
  | nil => exact ⟨c, by rw [List.append_nil]; rfl, hg, h⟩
  | cons bit bs ih =>
    obtain ⟨c₁, he₁, hg₁, h₁⟩ := h.readBit hg
    obtain ⟨c', he, hg', h'⟩ := ih h₁ hg₁ (acc ++ [bit])
    refine ⟨c', ?_, hg', h'⟩
    rw [List.length_cons, Cursor.readBitsUntil, he₁]
    simp only
    rw [he, List.append_assoc, List.singleton_append]

/-- As many bits as are asked for are read. -/
theorem readBitList (h : Ahead c t s (bs ++ rest)) (hg : c.grain = .bit) :
    ∃ c', c.readBitList t bs.length = (.ok bs, c') ∧ c'.grain = .bit ∧ Ahead c' t s rest := by
  obtain ⟨c', he, hg', h'⟩ := h.readBitsUntil hg []
  refine ⟨c', ?_, hg', h'⟩
  rw [Cursor.readBitList, he]
  rfl

/-! ## Bytes and values -/

/-- Eight bits ahead are read as a byte. -/
theorem readByte {b : UInt8} (h : Ahead c t s (Bits.ofByte b ++ rest)) :
    ∃ c', c.readByte t = (.ok b, c') ∧ c'.grain = c.grain ∧ Ahead c' t s rest := by
  rw [Cursor.readByte, h.stopsWithin]
  by_cases hbits : c.bits = []
  · have hn : Bits.ofByte b ++ rest ≠ [] := List.cons_ne_nil _ _
    have hlt := h.lt_of_bits hbits hn
    have hahead := h.bits
    rw [hbits, List.nil_append, List.drop_eq_getElem_cons hlt, Bits.ofBytes_cons] at hahead
    have hsame := List.append_inj hahead (by rw [Bits.length_ofByte, Bits.length_ofByte])
    have hb : s[c.address] = b := by
      rw [← Bits.toByte_ofByte s[c.address], hsame.1, Bits.toByte_ofByte]
    obtain ⟨c', hf, hb', hgrain, hc'⟩ := h.fetch hlt
    have hc' := hc' [] (Nat.zero_le _) fun _ => rfl
    have hc : ({ c' with bits := [] } : Reader) = c' := by rw [← hbits, ← hb']
    rw [hc, List.nil_append, hsame.2] at hc'
    refine ⟨c', ?_, hgrain, hc'⟩
    have hwhole : (c.aligned && !false) = true := by rw [Cursor.aligned, hbits]; rfl
    rw [if_pos hwhole, hf, hb]
  · have hg : c.grain = .bit := by
      cases hgrain : c.grain with
      | bit => rfl
      | byte => exact absurd (h.bytewise hgrain) hbits
    have hwhole : ¬(c.aligned && !false) = true := by
      intro ha
      exact hbits (List.isEmpty_iff.1 (Bool.and_eq_true .. ▸ ha).1)
    obtain ⟨c', he, hg', h'⟩ := h.readBitList hg
    rw [Bits.length_ofByte] at he
    refine ⟨c', ?_, hg'.trans hg.symm, h'⟩
    rw [if_neg hwhole, he]
    simp only
    rw [Bits.toByte_ofByte]

/-- Bytes ahead that complete a value are read as that value. -/
theorem resume {p : PartialValue} {bytes : List UInt8} {w : UInt64} (hp : p.Completes bytes w)
    (h : Ahead c t s (Bits.ofBytes bytes ++ rest)) :
    ∃ c' p', c.resume t p = (.ok w, c', p') ∧ c'.grain = c.grain ∧ Ahead c' t s rest := by
  induction hp generalizing c with
  | @last p q b w hfeed =>
    obtain ⟨c', he, hg, h'⟩ := h.readByte (b := b)
    refine ⟨c', q, ?_, hg, h'⟩
    rw [Cursor.resume_eq, he]
    simp only [hfeed]
  | @more p q b bytes w hfeed _ ih =>
    rw [Bits.ofBytes_cons, List.append_assoc] at h
    obtain ⟨c₁, he₁, hg₁, h₁⟩ := h.readByte
    obtain ⟨c', p', he, hg, h'⟩ := ih h₁
    refine ⟨c', p', ?_, hg.trans hg₁, h'⟩
    rw [Cursor.resume_eq, he₁]
    simp only [hfeed]
    exact he

end Ahead

/-! ## Datums -/

/-- What is written in one go. -/
inductive Datum where
  | value (kind : IntKind) (w : UInt64)
  /-- The low bits of a word. -/
  | field (w : UInt64) (width : Bits.Width)

/-- What has to be known of a datum to read it. -/
inductive Shape where
  | value (kind : IntKind)
  | field (width : Bits.Width)

namespace Datum

/-- The datum can be written on a cursor of that grain. -/
def Proper (grain : Grain) : Datum → Prop
  | value kind w => kind.fits w = true
  | field _ _ => grain = .bit

instance (grain : Grain) (datum : Datum) : Decidable (datum.Proper grain) :=
  match datum with
  | value kind w => inferInstanceAs (Decidable (kind.fits w = true))
  | field _ _ => inferInstanceAs (Decidable (grain = .bit))

def shape : Datum → Shape
  | value kind _ => .value kind
  | field _ width => .field width

/-- The word that the datum says: of a field, the bits that are written. -/
def word : Datum → UInt64
  | value _ w => w
  | field w width => UInt64.ofNat (w.toNat % (1 <<< width.count))

/-- The bits that stand for the datum. -/
def bits : Datum → List Bool
  | value kind w => Bits.ofBytes (kind.bytes w)
  | field w width => Bits.ofNat width.count w.toNat

def write : Datum → Writing EncodeError Unit
  | value kind w => Cursor.writeValue kind w
  | field w width => (Cursor.writeBits w width.count).mapError .stream

end Datum

/-- Reads a datum of the shape. -/
def Shape.read (t : Tape) (c : Reader) : Shape → Except DecodeError (UInt64 × Reader)
  | value kind => c.readValue t kind
  | field width =>
    match c.readBits t width.count with
    | (.ok w, c) => .ok (w, c)
    | (.error e, _) => .error (.stream e)

/-- Writes data, and tells where the writer stands after each. -/
def Datum.writeAll : List Datum → Writing EncodeError (List Position)
  | [] => pure []
  | datum :: rest => do
    datum.write
    let (_, c) ← get
    let later ← writeAll rest
    return c.position :: later

/-- Reads data, and tells where the reader stands after each. -/
def Shape.readAll (t : Tape) :
    List Shape → Reader → Except DecodeError (List (UInt64 × Position) × Reader)
  | [], c => .ok ([], c)
  | shape :: rest, c => do
    let (w, c) ← shape.read t c
    let (later, c') ← readAll t rest c
    return ((w, c.position) :: later, c')

/-- Where data end when the first of them begins at bit `n`. -/
def marks : (n : Nat) → List Datum → List Position
  | _, [] => []
  | n, datum :: rest => ⟨n + datum.bits.length⟩ :: marks (n + datum.bits.length) rest

/-- A datum is written behind what there is. -/
theorem Spells.writeDatum {w : Writer} {t : Tape} {out : List UInt8} {datum : Datum}
    (h : Spells w t out) (hi : datum.Proper w.grain)
    (hl : w.position.bits + datum.bits.length ≤ (w.stop t).bits) :
    ∃ t' w' out', datum.write (t, w) = .ok () (t', w') ∧ Added datum.bits w t out w' t' out' := by
  cases datum with
  | value kind word =>
    rw [Datum.bits, Bits.length_ofBytes] at hl
    obtain ⟨t', w', out', he, h'⟩ := h.writeBytes hl
    have hfits : kind.fits word = true := hi
    refine ⟨t', w', out', ?_, h'⟩
    rw [Datum.write, Cursor.writeValue, if_pos hfits]
    simp only [Writing.mapError, Cursor.stageWhole, Cursor.stageValue_eq, he, Cursor.wholly]
  | field word width =>
    obtain ⟨t', w', out', he, h'⟩ := h.writeBitList hi hl
    rw [Datum.bits] at he
    refine ⟨t', w', out', ?_, h'⟩
    rw [Datum.write, Writing.mapError, Cursor.writeBits, Nat.min_eq_left width.le, he]

theorem Spells.writeData {w : Writer} {t : Tape} {out : List UInt8} {data : List Datum}
    (h : Spells w t out) (hi : ∀ datum ∈ data, datum.Proper w.grain)
    (hl : w.position.bits + (data.flatMap Datum.bits).length ≤ (w.stop t).bits) :
    ∃ t' w' out', Datum.writeAll data (t, w) = .ok (marks w.position.bits data) (t', w') ∧
      Added (data.flatMap Datum.bits) w t out w' t' out' := by
  induction data generalizing w t out with
  | nil => exact ⟨t, w, out, rfl, h.added_nil⟩
  | cons datum rest ih =>
    rw [List.flatMap_cons, List.length_append] at hl
    obtain ⟨t₁, w₁, out₁, he₁, h₁⟩ := h.writeDatum (hi datum List.mem_cons_self) (by omega)
    have hp := h₁.position h
    obtain ⟨t', w', out', he, h'⟩ := ih h₁.spells
      (fun i hm => h₁.grain.symm ▸ hi i (List.mem_cons_of_mem datum hm)) (by
        rw [h₁.stop, hp]
        omega)
    refine ⟨t', w', out', ?_, ?_⟩
    · have hmark : w₁.position = ⟨w.position.bits + datum.bits.length⟩ := by rw [← hp]
      rw [Datum.writeAll, bind_of_ok he₁, get_bind]
      simp only
      rw [bind_of_ok he, marks, hp, hmark]
      rfl
    · rw [List.flatMap_cons]
      exact h₁.trans h'

/-- A datum that does not fit is refused. -/
theorem Spells.writeDatum_error {w : Writer} {t : Tape} {out : List UInt8} {datum : Datum}
    (h : Spells w t out) (hi : datum.Proper w.grain) (hle : w.position.bits ≤ (w.stop t).bits)
    (hl : (w.stop t).bits < w.position.bits + datum.bits.length) :
    ∃ e s, datum.write (t, w) = .error e s := by
  cases datum with
  | value kind word =>
    have hfits : kind.fits word = true := hi
    rw [Datum.bits, Bits.length_ofBytes] at hl
    obtain ⟨e, ⟨t', w'⟩, he⟩ := h.writeBytes_error hle hl
    obtain ⟨e', s', hw⟩ : ∃ e' s', Cursor.stageWhole kind word (t, w) = .error e' s' := by
      rw [Cursor.stageWhole, Cursor.stageValue_eq, he, Cursor.wholly]
      split
      · split
        · exact ⟨_, _, rfl⟩
        · exact ⟨_, _, rfl⟩
      · exact ⟨_, _, rfl⟩
    refine ⟨.stream e', s', ?_⟩
    rw [Datum.write, Cursor.writeValue, if_pos hfits, Writing.mapError, hw]
  | field word width =>
    have hn : Bits.ofNat width.count word.toNat ≠ [] := by
      apply List.ne_nil_of_length_pos
      rw [Bits.length_ofNat]
      exact width.pos
    obtain ⟨t', w', he, -⟩ := h.writeBitList_refused hi hn hl
    refine ⟨.stream (w.boundaryError t (Spells.refusedAt w t)), (t', w'), ?_⟩
    rw [Datum.write, Writing.mapError, Cursor.writeBits, Nat.min_eq_left width.le, he]

theorem Spells.writeData_error {w : Writer} {t : Tape} {out : List UInt8} {data : List Datum}
    (h : Spells w t out) (hi : ∀ datum ∈ data, datum.Proper w.grain)
    (hle : w.position.bits ≤ (w.stop t).bits)
    (hl : (w.stop t).bits < w.position.bits + (data.flatMap Datum.bits).length) :
    ∃ e s, Datum.writeAll data (t, w) = .error e s := by
  induction data generalizing w t out with
  | nil => exact absurd hl (Nat.not_lt.2 hle)
  | cons datum rest ih =>
    rw [List.flatMap_cons, List.length_append] at hl
    have hpiece := hi datum List.mem_cons_self
    by_cases hfit : w.position.bits + datum.bits.length ≤ (w.stop t).bits
    · obtain ⟨t₁, w₁, out₁, he₁, h₁⟩ := h.writeDatum hpiece hfit
      have hp := h₁.position h
      have hs := h₁.stop
      obtain ⟨e, s, he⟩ := ih h₁.spells
        (fun i hm => h₁.grain.symm ▸ hi i (List.mem_cons_of_mem datum hm))
        (by rw [hs, hp]; exact hfit) (by rw [hs, hp]; omega)
      refine ⟨e, s, ?_⟩
      rw [Datum.writeAll, bind_of_ok he₁, get_bind]
      exact bind_of_error he
    · obtain ⟨e, s, he⟩ := h.writeDatum_error hpiece hle (Nat.lt_of_not_le hfit)
      exact ⟨e, s, bind_of_error he⟩

/-- A datum ahead is read. -/
theorem Ahead.readDatum {c : Reader} {t : Tape} {s : List UInt8} {rest : List Bool} {datum : Datum}
    (h : Ahead c t s (datum.bits ++ rest)) (hi : datum.Proper c.grain) :
    ∃ c', datum.shape.read t c = .ok (datum.word, c') ∧ c'.grain = c.grain ∧ Ahead c' t s rest := by
  cases datum with
  | value kind word =>
    obtain ⟨c', p', he, hg, h'⟩ := h.resume (IntKind.completes_bytes hi)
    refine ⟨c', ?_, hg, h'⟩
    rw [Datum.shape, Shape.read, Cursor.readValue, he]
    rfl
  | field word width =>
    obtain ⟨c', he, hg, h'⟩ := h.readBitList hi
    rw [Datum.bits, Bits.length_ofNat] at he
    refine ⟨c', ?_, hg.trans hi.symm, h'⟩
    rw [Datum.shape, Shape.read, Cursor.readBits, Nat.min_eq_left width.le, he]
    simp only
    rw [Bits.toNat_ofNat]
    rfl

theorem Ahead.readData {c : Reader} {t : Tape} {s : List UInt8} {rest : List Bool}
    {data : List Datum} (h : Ahead c t s (data.flatMap Datum.bits ++ rest))
    (hi : ∀ datum ∈ data, datum.Proper c.grain) :
    ∃ read c', Shape.readAll t (data.map Datum.shape) c = .ok (read, c') ∧
      read.map Prod.fst = data.map Datum.word ∧ read.map Prod.snd = marks c.position.bits data := by
  induction data generalizing c with
  | nil => exact ⟨[], c, rfl, rfl, rfl⟩
  | cons datum data ih =>
    rw [List.flatMap_cons, List.append_assoc] at h
    obtain ⟨c₁, he₁, hg₁, h₁⟩ := h.readDatum (hi datum List.mem_cons_self)
    obtain ⟨read, c', he, hwords, hmarks⟩ := ih h₁
      (fun i hm => hg₁.symm ▸ hi i (List.mem_cons_of_mem datum hm))
    -- what is ahead got shorter by the datum, so the reader has moved by its bits
    have hp : c₁.position.bits = c.position.bits + datum.bits.length := by
      have hbefore := h.position
      have hafter := h₁.position
      rw [List.length_append] at hbefore
      omega
    have hmark : c₁.position = ⟨c.position.bits + datum.bits.length⟩ := by rw [← hp]
    refine ⟨(datum.word, c₁.position) :: read, c', ?_, ?_, ?_⟩
    · rw [List.map_cons, Shape.readAll, he₁]
      simp only [bind, Except.bind, he]
      rfl
    · rw [List.map_cons, List.map_cons, hwords]
    · rw [List.map_cons, marks, hmarks, hp, hmark]

/-! ## There and back -/

/-- Writes bits to start from, data, and zeros up to the next byte. -/
def writeStream (start : List Bool) (data : List Datum) : Writing EncodeError (List Position) := do
  (Cursor.writeBitList start).mapError .stream
  let marks ← Datum.writeAll data
  Cursor.alignWriter.mapError .stream
  return marks

/-- The data come back, read from the bit that they were written from, and each of them ends where
it ended when it was written. -/
def RoundTrips (pageSize : Nat) (grain : Grain) (start : List Bool) (data : List Datum) : Prop :=
  ∃ marks t w, writeStream start data
      (Tape.blank pageSize, Cursor.writerOn (Tape.blank pageSize) grain) = .ok marks (t, w) ∧
    ∃ c, (Cursor.readerOn t grain).readBitList t start.length = (.ok start, c) ∧
      c.position = ⟨start.length⟩ ∧
      ∃ read c', Shape.readAll t (data.map Datum.shape) c = .ok (read, c') ∧
        read.map Prod.fst = data.map Datum.word ∧ read.map Prod.snd = marks

section

variable (pageSize : Nat) {grain : Grain} {start : List Bool} {data : List Datum}

/-- The writer on a blank tape, with the bits to start from. -/
theorem start_fits (hs : grain = .byte → start = []) (hl : start.length ≤ 8 * addressLimit) :
    ∃ t w out, (Cursor.writeBitList start).mapError EncodeError.stream
        (Tape.blank pageSize, Cursor.writerOn (Tape.blank pageSize) grain) = .ok () (t, w) ∧
      Spells w t out ∧ Bits.ofBytes out ++ w.bits = start ∧ w.position.bits = start.length ∧
      w.stop t = .ofByte addressLimit ∧ w.grain = grain ∧ t.start = 0 := by
  have h₀ := Spells.blank pageSize grain
  have hstop₀ : (Cursor.writerOn (Tape.blank pageSize) grain).stop (Tape.blank pageSize) =
    .ofByte addressLimit := rfl
  have hpos₀ : (Cursor.writerOn (Tape.blank pageSize) grain).position.bits = 0 := rfl
  obtain ⟨t, w, out, he, h⟩ : ∃ t w out, Cursor.writeBitList start
      (Tape.blank pageSize, Cursor.writerOn (Tape.blank pageSize) grain) = .ok () (t, w) ∧
      Added start (Cursor.writerOn (Tape.blank pageSize) grain) (Tape.blank pageSize) []
        w t out := by
    cases grain with
    | byte =>
      rw [hs rfl]
      exact ⟨_, _, _, rfl, h₀.added_nil⟩
    | bit =>
      apply h₀.writeBitList rfl
      rw [hstop₀, hpos₀, Nat.zero_add]
      exact hl
  have hpos := h.position h₀
  rw [hpos₀, Nat.zero_add] at hpos
  refine ⟨t, w, out, ?_, h.spells, h.bits, hpos, h.stop.trans hstop₀, h.grain, ?_⟩
  · rw [Writing.mapError, he]
  · rw [h.grows.start]
    exact Nat.zero_mul _

/-- Datums for which there is room are written, and packed into bytes. -/
theorem writeStream_ok (hs : grain = .byte → start = [])
    (hi : ∀ datum ∈ data, datum.Proper grain)
    (hl : start.length + (data.flatMap Datum.bits).length ≤ 8 * addressLimit) :
    ∃ t w, writeStream start data
        (Tape.blank pageSize, Cursor.writerOn (Tape.blank pageSize) grain) =
          .ok (marks start.length data) (t, w) ∧
      Spells w t (Bits.toBytes (start ++ data.flatMap Datum.bits)) ∧ t.start = 0 := by
  obtain ⟨t₁, w₁, out₁, he₁, h₁, hbits₁, hpos₁, hstop₁, hg₁, hstart₁⟩ :=
    start_fits pageSize hs (Nat.le_trans (Nat.le_add_right ..) hl)
  obtain ⟨t₂, w₂, out₂, he₂, h₂⟩ := h₁.writeData
    (fun datum hm => hg₁.symm ▸ hi datum hm) (by
      rw [hpos₁, hstop₁]
      exact hl)
  have hpos₂ := h₂.position h₁
  have hstop₂ := h₂.stop.trans hstop₁
  rw [hpos₁] at he₂ hpos₂
  have hroom : w₂.bits ≠ [] →
      w₂.position.bits < (w₂.stop t₂).bits ∧ (w₂.stop t₂).aligned = true := by
    intro hn
    -- room for the bits is room for the byte that the last of them begin
    have hpos : w₂.position.bits = 8 * w₂.address + w₂.bits.length := rfl
    have hlen := List.length_pos_iff.2 hn
    have hshort := h₂.spells.short
    rw [hstop₂]
    refine ⟨?_, ?_⟩
    · show w₂.position.bits < 8 * addressLimit
      omega
    · rw [Position.aligned, Position.bit_ofByte]
      rfl
  obtain ⟨t₃, w₃, he₃, h₃, hg₃⟩ := h₂.spells.alignWriter hroom
  have halign : Cursor.alignWriter.mapError EncodeError.stream (t₂, w₂) = .ok () (t₃, w₃) := by
    rw [Writing.mapError, he₃]
  refine ⟨t₃, w₃, ?_, ?_, ?_⟩
  · rw [writeStream, bind_of_ok he₁, bind_of_ok he₂, bind_of_ok halign]
    rfl
  · rwa [h₂.bits, hbits₁] at h₃
  · rw [hg₃.start, h₂.grows.start, hstart₁]

/-- Others are not written. -/
theorem writeStream_error (hs : grain = .byte → start = [])
    (hi : ∀ datum ∈ data, datum.Proper grain)
    (hl : 8 * addressLimit < start.length + (data.flatMap Datum.bits).length) :
    ∃ e s, writeStream start data
      (Tape.blank pageSize, Cursor.writerOn (Tape.blank pageSize) grain) = .error e s := by
  by_cases hfit : start.length ≤ 8 * addressLimit
  · obtain ⟨t, w, out, he, h, -, hpos, hstop, hg, -⟩ := start_fits pageSize hs hfit
    have hend : (w.stop t).bits = 8 * addressLimit := by rw [hstop]; rfl
    obtain ⟨e, s, hp⟩ := h.writeData_error (fun datum hm => hg.symm ▸ hi datum hm)
      (by omega) (by omega)
    refine ⟨e, s, ?_⟩
    rw [writeStream, bind_of_ok he]
    exact bind_of_error hp
  · cases grain with
    | byte =>
      rw [hs rfl] at hfit
      exact absurd (Nat.zero_le _) hfit
    | bit =>
      have hn : start ≠ [] := by
        rintro rfl
        exact hfit (Nat.zero_le _)
      have hend : 8 * addressLimit < 0 + start.length := by omega
      obtain ⟨t, w, he, -⟩ := (Spells.blank pageSize .bit).writeBitList_refused rfl hn hend
      obtain ⟨e, hstart⟩ : ∃ e, (Cursor.writeBitList start).mapError EncodeError.stream
          (Tape.blank pageSize, Cursor.writerOn (Tape.blank pageSize) .bit) = .error e (t, w) := by
        rw [Writing.mapError, he]
        exact ⟨_, rfl⟩
      exact ⟨e, _, bind_of_error hstart⟩

/-- What was written is read. -/
theorem roundTrips (hs : grain = .byte → start = []) (hi : ∀ datum ∈ data, datum.Proper grain)
    (hl : start.length + (data.flatMap Datum.bits).length ≤ 8 * addressLimit) :
    RoundTrips pageSize grain start data := by
  obtain ⟨t, w, he, hw, hstart⟩ := writeStream_ok pageSize hs hi hl
  obtain ⟨n, hn, hbytes⟩ := Bits.ofBytes_toBytes (start ++ data.flatMap Datum.bits)
  have hlen := congrArg List.length hbytes
  rw [Bits.length_ofBytes, List.length_append, List.length_append, List.length_replicate] at hlen
  generalize Bits.toBytes (start ++ data.flatMap Datum.bits) = bytes at hw hbytes hlen
  have h₀ : Ahead (Cursor.readerOn t grain) t bytes
      (start ++ (data.flatMap Datum.bits ++ List.replicate n false)) := by
    refine ⟨Cursor.trusted_fresh rfl rfl t, hw.carries, Nat.le_refl _, ?_, rfl, hw.eof, by omega,
      Nat.zero_le _, fun _ => rfl, ?_⟩
    · exact Nat.le_trans (Nat.le_of_eq hstart) (Nat.zero_le _)
    · rw [← List.append_assoc, ← hbytes]
      show Bits.ofBytes (bytes.drop t.start) = _
      rw [hstart, List.drop_zero]
  obtain ⟨c, hc, hgrain, h₁⟩ : ∃ c, (Cursor.readerOn t grain).readBitList t start.length =
      (.ok start, c) ∧ c.grain = grain ∧
        Ahead c t bytes (data.flatMap Datum.bits ++ List.replicate n false) := by
    cases grain with
    | byte =>
      rw [hs rfl] at h₀ ⊢
      exact ⟨_, rfl, rfl, h₀⟩
    | bit => exact h₀.readBitList rfl
  have hpos : c.position.bits = start.length := by
    have hbefore := h₀.position
    have hafter := h₁.position
    have hfirst : (Cursor.readerOn t grain).position.bits = 8 * t.start := rfl
    rw [hfirst, hstart, List.length_append] at hbefore
    omega
  obtain ⟨read, c', hread, hwords, hmarks⟩ := h₁.readData
    (fun datum hm => hgrain.symm ▸ hi datum hm)
  rw [hpos] at hmarks
  refine ⟨_, t, w, he, c, hc, ?_, read, c', hread, hwords, hmarks⟩
  rw [← hpos]

/-- Datums that are written come back as they were: whatever the page size, wherever in a byte the
first of them begins, and whether they are values or, on bit cursors, fields of some bits. They are
written unless the address space ends before they do. -/
theorem data_roundTrip (hs : grain = .byte → start = [])
    (hi : ∀ datum ∈ data, datum.Proper grain) :
    (RoundTrips pageSize grain start data ↔ ∃ marks s, writeStream start data
      (Tape.blank pageSize, Cursor.writerOn (Tape.blank pageSize) grain) = .ok marks s) ∧
    (RoundTrips pageSize grain start data ↔
      start.length + (data.flatMap Datum.bits).length ≤ 8 * addressLimit) := by
  have hroom : (∃ marks s, writeStream start data
      (Tape.blank pageSize, Cursor.writerOn (Tape.blank pageSize) grain) = .ok marks s) →
      start.length + (data.flatMap Datum.bits).length ≤ 8 * addressLimit := by
    rintro ⟨marks, s, hok⟩
    apply Nat.le_of_not_lt
    intro hl
    obtain ⟨e, s', herror⟩ := writeStream_error pageSize hs hi hl
    cases hok.symm.trans herror
  have hwritten : RoundTrips pageSize grain start data → ∃ marks s, writeStream start data
      (Tape.blank pageSize, Cursor.writerOn (Tape.blank pageSize) grain) = .ok marks s := by
    rintro ⟨marks, t, w, hok, -⟩
    exact ⟨marks, (t, w), hok⟩
  refine ⟨⟨hwritten, fun h => roundTrips pageSize hs hi (hroom h)⟩, fun h => hroom (hwritten h),
    roundTrips pageSize hs hi⟩

/-- Three of them on pages of one byte: two values, and a field of the five low bits of a word
between them, from bit three on. -/
theorem data_roundTrip_straddling :
    let data : List Datum := [.value .varint32 (-300), .field 0x1f7 ⟨5, by decide, by decide⟩,
      .value .uint32 0xdeadbeef]
    (∀ datum ∈ data, datum.Proper .bit) ∧ RoundTrips 1 .bit [true, false, true] data := by
  intro data
  have hproper : ∀ datum ∈ data, datum.Proper .bit := by decide
  have hstart : Grain.bit = .byte → [true, false, true] = [] := fun h => by cases h
  have hroom : [true, false, true].length + (data.flatMap Datum.bits).length ≤
      8 * addressLimit := by decide +kernel
  exact ⟨hproper, (data_roundTrip 1 hstart hproper).2.2 hroom⟩

end

end Transcoder

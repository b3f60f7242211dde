import Transcoder.Block.Read
import Transcoder.Proofs.Block.Framing
import Transcoder.Proofs.Value.Completing

/-!
# Writer and reader of a block

A size is written in as many chunks as its header has, and read as a `varuint32`. So the two agree
on every header that a `varuint32` can be: the shortest one, or a padded one of at most five chunks,
of a size below four gigabytes. A wider header is written without complaint, and no reader takes it.

Results:
* `Framing.completes_header`: the headers that are read back.
* `AtEnd.writeBlock_of_room`, `AtEnd.writeBlock`: which blocks are written, and what they leave on
  the tape.
* `Framing.enters_writeBlock_iff`: a reader enters a written block exactly under these conditions.
-/
namespace Transcoder

namespace Framing

/-- Writes a block with that body. -/
def writeBlock (f : Framing) (body : List UInt8) : Writing EncodeError Nat := do
  let header ← f.beginBlock
  Writing.mapError .stream (Cursor.writeBytes body)
  f.finishBlock header

/-- A header that a `varuint32` can be says its size. -/
theorem completes_header {f : Framing} {reserved size : Nat} (hr : 0 < reserved)
    (hl : size ≤ headerLimit reserved) (hs : size < UInt32.size)
    (hf : f.minimize = true ∨ reserved ≤ Leb128.chunksInWord 32) :
    (PartialValue.start .varuint32).Completes (f.header reserved size) (.ofNat size) := by
  unfold header
  split
  · exact Leb128.completes_unsigned (by decide) (by decide) hs rfl
  · rename_i hm
    have hle := hf.resolve_left hm
    have h5 : Leb128.chunksInWord 32 = 5 := rfl
    have hpos := Leb128.one_shiftLeft_pos (7 * reserved)
    rw [headerLimit, if_neg (by omega)] at hl
    exact Leb128.completes_padded_fresh (by decide) (by decide) hr hle (by omega) hs rfl

/-- A padded header is no number before its last chunk. -/
theorem le_of_completes_header {f : Framing} {reserved size : Nat} {bytes rest : List UInt8}
    {w : UInt64} (h : (PartialValue.start .varuint32).Completes bytes w)
    (hp : bytes <+: f.header reserved size ++ rest) :
    f.minimize = true ∨ reserved ≤ Leb128.chunksInWord 32 := by
  have hlen := h.length_le (PartialValue.fair_start .varuint32)
  unfold header at hp
  split at hp
  · exact .inl ‹_›
  · exact .inr (Nat.le_trans (Leb128.le_length_of_completes h hp) hlen)

end Framing

/-! ## Writing -/

namespace AtEnd

variable {f : Framing} {size : Nat} {w w' : Writer} {t t' : Tape} {out body : List UInt8}

/-- A block that there is room for, and whose size the reserved header can say, is written behind
what was written before. -/
theorem writeBlock_of_room (hw : AtEnd w t out) (hr : 0 < f.reserved)
    (hroom : out.length + f.reserved + body.length ≤ addressLimit)
    (hl : body.length ≤ headerLimit f.reserved) :
    ∃ t' w', f.writeBlock body (t, w) = .ok body.length (t', w') ∧
      AtEnd w' t' (out ++ (f.header f.reserved body.length ++ body)) ∧ t.Grows t' := by
  have hpl := Leb128.length_padded_of_pos hr 0
  obtain ⟨hs, hc⟩ := Framing.close_reserved (f := f) hr out body
  rw [← hw.atEnd] at hs hc
  obtain ⟨t₁, w₁, he₁, hw₁, hg₁⟩ := hw.beginBlock (f := f) (by omega)
  have hb : (out ++ Leb128.padded f.reserved 0).length + body.length ≤ addressLimit := by
    rw [List.length_append]
    omega
  obtain ⟨t₂, w₂, he₂, hw₂, hg₂⟩ := hw₁.all hb
  have hbody : Writing.mapError .stream (Cursor.writeBytes body) (t₁, w₁) =
      (.ok () (t₂, w₂) : EStateM.Result EncodeError _ _) := by
    simp only [Writing.mapError, Cursor.writeBytes, he₂]
  have hp : OpenHeader.Pinned ⟨w, f.reserved⟩ t₂ :=
    OpenHeader.Pinned.keeps ⟨hw.sound, hw.bounds, hw.start_le⟩ (hg₁.trans hg₂)
  obtain ⟨t₃, w₃, he₃, hw₃, hg₃⟩ := hw₂.finishBlock (f := f) hp hr
    (by
      simp only [OpenHeader.bodyStart, OpenHeader.start, hw.atEnd, List.length_append]
      omega)
    (hs.symm ▸ hl)
  simp only [OpenHeader.start, hs, hc] at he₃ hw₃
  refine ⟨t₃, w₃, ?_, hw₃, (hg₁.trans hg₂).trans hg₃⟩
  rw [Framing.writeBlock, bind_of_ok he₁, bind_of_ok hbody, he₃]

/-- No other block is written. -/
theorem room_of_writeBlock (hw : AtEnd w t out) (hr : 0 < f.reserved)
    (h : f.writeBlock body (t, w) = .ok size (t', w')) :
    out.length + f.reserved + body.length ≤ addressLimit ∧
      body.length ≤ headerLimit f.reserved := by
  have hpl := Leb128.length_padded_of_pos hr 0
  obtain ⟨hs, -⟩ := Framing.close_reserved (f := f) hr out body
  rw [← hw.atEnd] at hs
  unfold Framing.writeBlock at h
  by_cases hl : out.length + (Leb128.padded f.reserved 0).length ≤ addressLimit
  · obtain ⟨t₁, w₁, he₁, hw₁, -⟩ := hw.beginBlock (f := f) hl
    rw [bind_of_ok he₁] at h
    by_cases hb : (out ++ Leb128.padded f.reserved 0).length + body.length ≤ addressLimit
    · obtain ⟨t₂, w₂, he₂, hw₂, -⟩ := hw₁.all hb
      have hbody : Writing.mapError .stream (Cursor.writeBytes body) (t₁, w₁) =
          (.ok () (t₂, w₂) : EStateM.Result EncodeError _ _) := by
        simp only [Writing.mapError, Cursor.writeBytes, he₂]
      rw [bind_of_ok hbody] at h
      rw [List.length_append, hpl] at hb
      refine ⟨hb, Nat.le_of_not_lt fun hlim => ?_⟩
      rw [hw₂.finishBlock_tooLarge (hs.symm ▸ hlim)] at h
      simp at h
    · obtain ⟨t₂, w₂, he₂, -⟩ := hw₁.all_outOfSpace (Nat.lt_of_not_le hb)
      have hbody : Writing.mapError .stream (Cursor.writeBytes body) (t₁, w₁) =
          (.error (.stream outOfSpace) (t₂, w₂) : EStateM.Result EncodeError _ _) := by
        simp only [Writing.mapError, Cursor.writeBytes, he₂]
      rw [bind_of_error hbody] at h
      simp at h
  · obtain ⟨t₁, w₁, he₁, -⟩ := hw.beginBlock_outOfSpace (f := f) (by omega)
    rw [bind_of_error he₁] at h
    simp at h

/-- What a block that was written leaves on the tape. -/
theorem writeBlock (hw : AtEnd w t out) (hr : 0 < f.reserved)
    (h : f.writeBlock body (t, w) = .ok size (t', w')) :
    size = body.length ∧ size ≤ headerLimit f.reserved ∧
      AtEnd w' t' (out ++ (f.header f.reserved size ++ body)) ∧ t.Grows t' := by
  obtain ⟨hroom, hl⟩ := hw.room_of_writeBlock hr h
  obtain ⟨t₁, w₁, he, hw', hg⟩ := hw.writeBlock_of_room hr hroom hl
  rw [he] at h
  simp only [EStateM.Result.ok.injEq, Prod.mk.injEq] at h
  obtain ⟨rfl, rfl, rfl⟩ := h
  exact ⟨rfl, hl, hw', hg⟩

theorem blank (pageSize : Nat) :
    AtEnd (Cursor.writerOn (.blank pageSize) .byte) (.blank pageSize) [] := by
  have hc : (Tape.blank pageSize).Carries [] :=
    ⟨rfl, Nat.dvd_zero _, rfl, fun a _ ha => absurd ha (Nat.not_lt_zero a)⟩
  have h0 : (Tape.blank pageSize).start = 0 := Nat.zero_mul _
  exact ⟨⟨Cursor.sound_fresh _ [] _, rfl, hc, rfl, Nat.le_of_eq h0, Nat.le_refl _⟩, rfl,
    Nat.zero_le _⟩

end AtEnd

/-! ## Reading -/

section Enter

variable {c : Reader} {t : Tape} {src : Source} {a : Nat} {p : PartialValue}

/-- A block is entered once its size is read, if it ends where the reader may read. -/
theorem Stands.enter_within {w : UInt64} (h : Stands c t src)
    (hr : src.read c.bounds c.address (.start .varuint32) = (.ok w, a, p))
    (hs : .ofByte (min (a + w.toNat) addressLimit) ≤ src.stop c.bounds) :
    ∃ c', c.enter t = .ok (⟨a, .ofByte (min (a + w.toNat) addressLimit)⟩, c') ∧
      Stands c' t src ∧ c'.bounds = .ofByte (min (a + w.toNat) addressLimit) :: c.bounds ∧
      c'.address = a := by
  obtain ⟨c₁, he, h₁, hb₁, ha⟩ := h.resume (.start .varuint32)
  rw [hr] at he ha
  have hstop : Position.ofByte (min (c₁.address + w.toNat) (UInt64.size - 1)) ≤ c₁.stop t := by
    rw [h₁.stop, hb₁, ha]
    exact hs
  simp only [Cursor.enter, Cursor.readSize, Cursor.readValue, he, Except.map, bind, Except.bind,
    Cursor.enterSized, Cursor.pushBound, if_pos hstop]
  simp only at ha
  subst ha
  exact ⟨_, rfl, h₁.rebound _, congrArg _ hb₁, rfl⟩

/-- Outside all blocks and before the end of the input is known, any size will do. -/
theorem Stands.enter_of_ok {w : UInt64} (h : Stands c t src) (hb : c.bounds = [])
    (hc : src.closed = false)
    (hr : src.read [] c.address (.start .varuint32) = (.ok w, a, p)) :
    ∃ c', c.enter t = .ok (⟨a, .ofByte (min (a + w.toNat) addressLimit)⟩, c') ∧
      Stands c' t src ∧ c'.bounds = [.ofByte (min (a + w.toNat) addressLimit)] ∧
      c'.address = a := by
  have hs : .ofByte (min (a + w.toNat) addressLimit) ≤ src.stop c.bounds := by
    rw [hb, Source.stop, List.headD_nil, Source.endPosition, hc]
    exact Nat.mul_le_mul_left 8 (Nat.min_le_right ..)
  have he := h.enter_within (hb.symm ▸ hr) hs
  rwa [hb] at he

theorem Stands.enter_of_error {x : StreamError} (h : Stands c t src) (hb : c.bounds = [])
    (hr : src.read [] c.address (.start .varuint32) = (.error x, a, p)) :
    c.enter t = .error (.stream x) := by
  obtain ⟨c₁, he, -⟩ := h.resume (.start .varuint32)
  rw [hb, hr] at he
  simp only [Cursor.enter, Cursor.readSize, Cursor.readValue, he, Except.map, bind, Except.bind]

end Enter

/-- The reader enters a block, is told the length of `body`, and stands on the first byte of it. -/
def Cursor.Enters (c : Reader) (t : Tape) (body : List UInt8) : Prop :=
  ∃ extent c', c.enter t = .ok (extent, c') ∧ extent.size = body.length ∧
    c'.address = extent.bodyStart ∧ t.copyOut c'.address body.length = .ok body

section Written

variable {f : Framing} {size : Nat} {w w' : Writer} {t t' : Tape} {out body : List UInt8}

/-- A fresh reader on a block that was written. -/
theorem AtEnd.stands_writeBlock (hw : AtEnd w t out) (hr : 0 < f.reserved)
    (h : f.writeBlock body (t, w) = .ok size (t', w')) :
    Stands { grain := .byte, address := out.length } t'
      { bytes := out ++ (f.header f.reserved size ++ body) } := by
  obtain ⟨-, -, hw', hg⟩ := hw.writeBlock hr h
  refine ⟨rfl, Cursor.sound_fresh t' [] out.length, hw'.carries, hw'.eof, ?_, by simp⟩
  rw [hg.start]
  exact hw.atEnd ▸ hw.start_le

/-- A block whose size is read right has a header that a `varuint32` can be. -/
theorem AtEnd.of_enter {extent : Extent} {c : Reader} (hw : AtEnd w t out) (hr : 0 < f.reserved)
    (h : f.writeBlock body (t, w) = .ok size (t', w'))
    (he : Cursor.enter { grain := .byte, address := out.length } t' = .ok (extent, c))
    (hsize : extent.size = body.length) :
    body.length < UInt32.size ∧
      (f.minimize = true ∨ f.reserved ≤ Leb128.chunksInWord 32) := by
  have hs := hw.stands_writeBlock hr h
  match hread : Source.read { bytes := out ++ (f.header f.reserved size ++ body) } [] out.length
    (.start .varuint32) with
  | (.error x, a, p) =>
    rw [hs.enter_of_error rfl hread] at he
    simp at he
  | (.ok word, a, p) =>
    obtain ⟨c₁, he₁, -⟩ := hs.enter_of_ok rfl rfl hread
    rw [he₁] at he
    simp only [Except.ok.injEq, Prod.mk.injEq] at he
    obtain ⟨bytes, hc, ho, -⟩ := Source.completes_of_read hread
    have hp := ho.isPrefix
    rw [List.drop_left] at hp
    refine ⟨?_, Framing.le_of_completes_header hc hp⟩
    have hword := hc.fits (PartialValue.fair_start _)
    rw [IntKind.fits_iff] at hword
    have hword : word.toNat < UInt32.size := Leb128.inRange_natCast.1 hword
    rw [← hsize, ← he.1, Extent.size, Position.byte_ofByte]
    simp only
    omega

/-- A block that is entered has a header that a `varuint32` can be. -/
theorem AtEnd.of_enters (hw : AtEnd w t out) (hr : 0 < f.reserved)
    (h : f.writeBlock body (t, w) = .ok size (t', w'))
    (he : Cursor.Enters { grain := .byte, address := out.length } t' body) :
    body.length < UInt32.size ∧
      (f.minimize = true ∨ f.reserved ≤ Leb128.chunksInWord 32) := by
  obtain ⟨extent, c', he, hsize, -⟩ := he
  exact hw.of_enter hr h he hsize

/-- A fresh reader enters a block whose header a `varuint32` can be, and has the body before it. -/
theorem AtEnd.enter (hw : AtEnd w t out) (hr : 0 < f.reserved)
    (h : f.writeBlock body (t, w) = .ok size (t', w')) (hlt : body.length < UInt32.size)
    (hf : f.minimize = true ∨ f.reserved ≤ Leb128.chunksInWord 32) :
    ∃ a c, Cursor.enter { grain := .byte, address := out.length } t' =
        .ok (⟨a, .ofByte (a + body.length)⟩, c) ∧
      Stands c t' { bytes := out ++ (f.header f.reserved size ++ body) } ∧
      c.bounds = [.ofByte (a + body.length)] ∧ c.address = a ∧
      a = out.length + (f.header f.reserved size).length := by
  have hs := hw.stands_writeBlock hr h
  obtain ⟨rfl, hl, hw', -⟩ := hw.writeBlock hr h
  have hroom := hw'.room
  rw [List.length_append, List.length_append] at hroom
  have hc := Framing.completes_header hr hl hlt hf
  generalize f.header f.reserved body.length = header at hs hw' hroom hc
  have ho : Source.Offers { bytes := out ++ (header ++ body) } [] out.length header := by
    apply Source.offers_of_isPrefix
    · rw [List.drop_left]
      exact List.prefix_append ..
    · show _ ≤ Position.unbounded.byte
      rw [Position.byte_unbounded]
      omega
  obtain ⟨p, hread⟩ := Source.read_of_completes hc ho
  obtain ⟨c, he, hs', hb, ha⟩ := hs.enter_of_ok rfl rfl hread
  have hword : (UInt64.ofNat body.length).toNat = body.length := by
    rw [UInt64.toNat_ofNat']
    simp only [UInt32.size] at hlt
    omega
  rw [hword, Nat.min_eq_left (by omega)] at he hb
  exact ⟨_, c, he, hs', hb, ha, rfl⟩

/-- A block whose header a `varuint32` can be is entered. -/
theorem AtEnd.enters (hw : AtEnd w t out) (hr : 0 < f.reserved)
    (h : f.writeBlock body (t, w) = .ok size (t', w')) (hlt : body.length < UInt32.size)
    (hf : f.minimize = true ∨ f.reserved ≤ Leb128.chunksInWord 32) :
    Cursor.Enters { grain := .byte, address := out.length } t' body := by
  obtain ⟨a, c, he, hs, -, ha, hlen⟩ := hw.enter hr h hlt hf
  refine ⟨_, c, he, ?_, ha, ?_⟩
  · rw [Extent.size, Position.byte_ofByte, Nat.add_sub_cancel_left]
  · rw [hs.carries.copyOut hs.start_le (by simp only [List.length_append]; omega), ha, hlen,
      ← List.append_assoc, List.drop_left' (by rw [List.length_append]), List.take_length]

end Written

/-- A fresh reader enters a block that was written exactly when its header is the shortest one or
has at most five chunks, and the body is shorter than four gigabytes. -/
theorem Framing.enters_writeBlock_iff {f : Framing} {chunks size : Nat} {w w' : Writer}
    {t t' : Tape} {out body : List UInt8} (hw : AtEnd w t out)
    (h : (f.withReserved chunks).writeBlock body (t, w) = .ok size (t', w')) :
    Cursor.Enters { grain := .byte, address := out.length } t' body ↔
      body.length < UInt32.size ∧
        (f.minimize = true ∨ max chunks 1 ≤ Leb128.chunksInWord 32) := by
  have hr : 0 < max chunks 1 := Nat.lt_of_lt_of_le Nat.one_pos (Nat.le_max_right ..)
  constructor
  · exact hw.of_enters hr h
  · rintro ⟨hlt, hf⟩
    exact hw.enters hr h hlt hf

/-- Two chunks are reserved for the header of a body of one byte, and the block is entered. -/
theorem Framing.enters_writeBlock_iff_oneByte :
    ∃ t w, (Framing.withReserved {} 2).writeBlock [0xAA]
        (.blank 4, Cursor.writerOn (.blank 4) .byte) = .ok 1 (t, w) ∧
      Cursor.Enters { grain := .byte, address := 0 } t [0xAA] := by
  have hroom : ([] : List UInt8).length + 2 + [(0xAA : UInt8)].length ≤ addressLimit := by decide
  obtain ⟨t, w, h, -⟩ := (AtEnd.blank 4).writeBlock_of_room (f := Framing.withReserved {} 2)
    (by decide) hroom (by decide)
  exact ⟨t, w, h, (enters_writeBlock_iff (AtEnd.blank 4) h).2 ⟨by decide, .inr (by decide)⟩⟩

/-- Six chunks are reserved for the header of a body of one byte. The block is finished, and no
reader enters it. -/
theorem Framing.not_enters_six :
    ∃ t w, (Framing.withReserved {} 6).writeBlock [0xAA]
        (.blank 4, Cursor.writerOn (.blank 4) .byte) = .ok 1 (t, w) ∧
      ¬ Cursor.Enters { grain := .byte, address := 0 } t [0xAA] := by
  have hroom : ([] : List UInt8).length + 6 + [(0xAA : UInt8)].length ≤ addressLimit := by decide
  obtain ⟨t, w, h, -⟩ := (AtEnd.blank 4).writeBlock_of_room (f := Framing.withReserved {} 6)
    (by decide) hroom (by decide)
  refine ⟨t, w, h, fun he => ?_⟩
  have := ((AtEnd.blank 4).of_enters (by decide) h he).2
  exact absurd this (by decide)

end Transcoder

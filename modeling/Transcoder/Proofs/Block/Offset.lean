import Transcoder.Proofs.Block.Agreement
import Transcoder.Proofs.Cursor.Bitwise

/-!
# Blocks at bit offsets

Bit cursors frame blocks as well. The header, the end of the body and the place it is moved to are
byte addresses, so this is right where the block begins between two bytes, and nowhere else: a
reader inside a byte never stands where a block ends.

Results:
* `Cursor.Clear.writeBlock`: between two bytes, writers of both grains frame a block alike.
* `AtEnd.recovers`: a byte reader recovers what it is offered behind a header.
* `Framing.recovers_writeFilled_iff`: the blocks that a bit reader recovers.
-/
namespace Transcoder

/-! ## Writers of both grains -/

section

variable {ε ε' α : Type} {w w' : Writer} {t t' : Tape}

theorem of_mapError_ok {f : ε → ε'} {act : Writing ε α} {a : α} {s s' : Tape × Writer}
    (h : act.mapError f s = .ok a s') : act s = .ok a s' := by
  unfold Writing.mapError at h
  cases he : act s with
  | error e s => rw [he] at h; cases h
  | ok b s => rw [he] at h; cases h; rfl

theorem of_discard_ok {act : Writing ε α} {s s' : Tape × Writer}
    (h : (discard act : Writing ε PUnit) s = .ok () s') : ∃ a, act s = .ok a s' := by
  cases he : act s with
  | error e s => rw [discard_of_error he] at h; cases h
  | ok a s => rw [discard_of_ok he] at h; cases h; exact ⟨a, rfl⟩

theorem of_through_ok {act : Writing ε α} {c : Writer} {r : α × Writer}
    (h : Writing.through c act (t, w) = .ok r (t', w')) :
    act (t, c) = .ok r.1 (t', r.2) ∧ w' = w := by
  simp only [Writing.through] at h
  cases he : act (t, c) with
  | error e s => rw [he] at h; cases h
  | ok a s => rw [he] at h; cases h; exact ⟨rfl, rfl⟩

end

namespace Cursor.Clear

variable {f : Framing} {w w' : Writer} {t t' : Tape}

/-- Only the tape decides whether a writer outside all blocks may go on. -/
theorem moved (h : w.Clear t) (h' : w'.Clear t') : w.Clear t' := ⟨h.bits, h.bounds, h'.eof⟩

theorem writePaddedSize {size reserved : Nat} (h : w.Clear t)
    (he : Cursor.writePaddedSize size reserved (t, w) = .ok () (t', w')) :
    Cursor.writePaddedSize size reserved (t, w.bytewise) = .ok () (t', w'.bytewise) ∧
      w'.Clear t' := by
  by_cases hl : headerLimit reserved < size
  · rw [Cursor.writePaddedSize, if_pos hl] at he
    cases he
  · rw [AtEnd.writePaddedSize_eq (Nat.le_of_not_lt hl)] at he ⊢
    obtain ⟨hb, h'⟩ := h.writeBytes (of_mapError_ok he)
    exact ⟨by simp only [Writing.mapError, hb], h'⟩

theorem writeSize {size : Nat} (h : w.Clear t)
    (he : Cursor.writeSize size (t, w) = .ok () (t', w')) :
    Cursor.writeSize size (t, w.bytewise) = .ok () (t', w'.bytewise) ∧ w'.Clear t' := by
  obtain ⟨hb, h'⟩ := h.writeBytes (of_mapError_ok he)
  exact ⟨by simp only [Cursor.writeSize, Writing.mapError, hb], h'⟩

theorem moveBlock {start size : Nat} (h : w.Clear t)
    (he : Cursor.moveBlock start size (t, w) = .ok () (t', w')) :
    Cursor.moveBlock start size (t, w.bytewise) = .ok () (t', w'.bytewise) ∧ w'.Clear t' := by
  obtain ⟨hb, h'⟩ := h.copyFrom rfl h.bounds (of_mapError_ok he)
  refine ⟨?_, h'⟩
  simp only [Cursor.moveBlock, Writing.mapError]
  rw [show readerOver w.bytewise start = (readerOver w start).bytewise from rfl, hb]

theorem through {act : Writing EncodeError Unit} {c : Writer} {r : Unit × Writer}
    (hact : ∀ {t' w'}, act (t, c) = .ok () (t', w') →
      act (t, c.bytewise) = .ok () (t', w'.bytewise) ∧ w'.Clear t')
    (he : Writing.through c act (t, w) = .ok r (t', w')) :
    Writing.through c.bytewise act (t, w.bytewise) = .ok ((), r.2.bytewise) (t', w'.bytewise) ∧
      r.2.Clear t' ∧ w' = w := by
  obtain ⟨hc, rfl⟩ := of_through_ok he
  obtain ⟨hb, h'⟩ := hact hc
  exact ⟨by simp only [Writing.through, hb], h', rfl⟩

/-- A block is begun alike. -/
theorem beginBlock {header : OpenHeader} (h : w.Clear t)
    (he : f.beginBlock (t, w) = .ok header (t', w')) :
    header = ⟨w, f.reserved⟩ ∧
      f.beginBlock (t, w.bytewise) = .ok ⟨w.bytewise, f.reserved⟩ (t', w'.bytewise) ∧
      w'.Clear t' := by
  simp only [Framing.beginBlock] at he ⊢
  cases hw : Cursor.writePaddedSize 0 f.reserved (t, w) with
  | error e s => rw [hw] at he; cases he
  | ok u s =>
    rw [hw] at he
    cases he
    obtain ⟨hb, h'⟩ := h.writePaddedSize hw
    exact ⟨rfl, by rw [hb], h'⟩

/-- The end of the stream is cut off alike. -/
theorem cut {address : Nat} (h : w.Clear t) (he : (do
      Framing.truncateAt address
      Framing.seekTo address : Writing EncodeError Unit) (t, w) = .ok () (t', w')) :
    (do
      Framing.truncateAt address
      Framing.seekTo address : Writing EncodeError Unit) (t, w.bytewise) =
        .ok () (t', w'.bytewise) ∧ w'.Clear t' := by
  cases ht : t.truncate address with
  | error e =>
    have hcut : Framing.truncateAt address (t, w) = .error (.stream e) (t, w) := by
      simp only [Framing.truncateAt, ht]
    rw [bind_of_error hcut] at he
    cases he
  | ok t₁ =>
    have hcut (w : Writer) : Framing.truncateAt address (t, w) = .ok () (t₁, w) := by
      simp only [Framing.truncateAt, ht]
    rw [bind_of_ok (hcut w)] at he
    rw [bind_of_ok (hcut w.bytewise)]
    cases he
    refine ⟨rfl, rfl, h.bounds, ?_⟩
    unfold Tape.truncate at ht
    split at ht
    · cases ht
    · cases ht
      exact h.eof

/-- A header is made shorter alike. -/
theorem shorten {header : OpenHeader} {size : Nat} (h : w.Clear t) (hh : header.cursor.Clear t)
    (he : Framing.shorten header size (t, w) = .ok () (t', w')) :
    Framing.shorten ⟨header.cursor.bytewise, header.reserved⟩ size (t, w.bytewise) =
        .ok () (t', w'.bytewise) ∧ w'.Clear t' := by
  have hbody : OpenHeader.bodyStart ⟨header.cursor.bytewise, header.reserved⟩ =
      header.bodyStart := rfl
  rw [Framing.shorten] at he ⊢
  obtain ⟨⟨⟨⟩, c₁⟩, ⟨t₁, w₁⟩, hs, he₁⟩ := of_bind_ok he
  obtain ⟨hs', hc₁, rfl⟩ := through hh.writeSize hs
  rw [bind_of_ok hs', hbody]
  simp only at he₁ hc₁ ⊢
  have h₁ := h.moved hc₁
  by_cases hlt : c₁.address < header.bodyStart
  · rw [if_pos hlt] at he₁
    rw [if_pos (show c₁.bytewise.address < _ from hlt)]
    obtain ⟨⟨⟨⟩, c₂⟩, ⟨t₂, w₂⟩, hm, he₂⟩ := of_bind_ok he₁
    obtain ⟨hm', hc₂, rfl⟩ := through hc₁.moveBlock hm
    rw [bind_of_ok hm']
    exact (h₁.moved hc₂).cut he₂
  · rw [if_neg hlt] at he₁
    rw [if_neg (show ¬c₁.bytewise.address < _ from hlt)]
    cases he₁
    exact ⟨rfl, h₁⟩

end Cursor.Clear

/-- The steps of finishing a block. -/
theorem Framing.finishBlock_eq (f : Framing) (header : OpenHeader) (t : Tape) (w : Writer) :
    f.finishBlock header (t, w) = (do
      discard <| Writing.through header.cursor (Cursor.writePaddedSize
        (bodySize header.start w.address header.reserved) header.reserved)
      if f.minimize then
        Framing.shorten header (bodySize header.start w.address header.reserved)
      return bodySize header.start w.address header.reserved : Writing EncodeError Nat) (t, w) := by
  rw [Framing.finishBlock, get_bind]
  cases hm : f.minimize with
  | false => simp only [Bool.false_eq_true, if_false]
  | true =>
    simp only [if_true, Framing.shorten, bind_assoc]
    refine congrFun (congrArg (_ >>= ·) (funext fun _ => congrArg (_ >>= ·) (funext fun r => ?_))) _
    split <;> simp only [bind_assoc, pure_bind]

namespace Cursor.Clear

variable {f : Framing} {w w' : Writer} {t t' : Tape}

/-- A block is finished alike. -/
theorem finishBlock {header : OpenHeader} {size : Nat} (h : w.Clear t)
    (hh : header.cursor.Clear t) (he : f.finishBlock header (t, w) = .ok size (t', w')) :
    f.finishBlock ⟨header.cursor.bytewise, header.reserved⟩ (t, w.bytewise) =
        .ok size (t', w'.bytewise) ∧ w'.Clear t' := by
  have hsize : bodySize (OpenHeader.start ⟨header.cursor.bytewise, header.reserved⟩)
      w.bytewise.address header.reserved = bodySize header.start w.address header.reserved := rfl
  rw [Framing.finishBlock_eq] at he ⊢
  rw [hsize]
  obtain ⟨⟨⟩, ⟨t₁, w₁⟩, hp, he₁⟩ := of_bind_ok he
  obtain ⟨r, hp⟩ := of_discard_ok hp
  obtain ⟨hp', hc, rfl⟩ := through hh.writePaddedSize hp
  rw [bind_of_ok (discard_of_ok hp')]
  have h₁ := h.moved hc
  cases hm : f.minimize with
  | false =>
    rw [hm] at he₁
    cases he₁
    exact ⟨rfl, h₁⟩
  | true =>
    rw [hm] at he₁
    obtain ⟨⟨⟩, ⟨t₂, w₂⟩, hs, he₂⟩ := of_bind_ok he₁
    obtain ⟨hs', h₂⟩ := h₁.shorten (hh.moved hc) hs
    cases he₂
    exact ⟨bind_of_ok hs', h₂⟩

/-- A block is framed alike. -/
theorem writeBlock {body : List UInt8} {size : Nat} (h : w.Clear t)
    (he : f.writeBlock body (t, w) = .ok size (t', w')) :
    f.writeBlock body (t, w.bytewise) = .ok size (t', w'.bytewise) ∧ w'.Clear t' := by
  rw [Framing.writeBlock] at he ⊢
  obtain ⟨header, ⟨t₁, w₁⟩, hb, he₁⟩ := of_bind_ok he
  obtain ⟨rfl, hb', h₁⟩ := h.beginBlock hb
  obtain ⟨⟨⟩, ⟨t₂, w₂⟩, hw, he₂⟩ := of_bind_ok he₁
  obtain ⟨hw', h₂⟩ := h₁.writeBytes (of_mapError_ok hw)
  have hbody : Writing.mapError .stream (Cursor.writeBytes body) (t₁, w₁.bytewise) =
      (.ok () (t₂, w₂.bytewise) : EStateM.Result EncodeError _ _) := by
    simp only [Writing.mapError, Cursor.writeBytes, hw']
  rw [bind_of_ok hb', bind_of_ok hbody]
  have hheader : (OpenHeader.cursor ⟨w, f.reserved⟩).Clear t₂ := h.moved h₂
  have hfin := h₂.finishBlock hheader he₂
  exact hfin

end Cursor.Clear

/-! ## Reading a block back -/

/-- The reader takes these bytes one after the other and is then `c'`. -/
def Cursor.Reads (t : Tape) : Reader → List UInt8 → Reader → Prop
  | c, [], c' => c' = c
  | c, b :: rest, c' => ∃ c₁, c.readByte t = (.ok b, c₁) ∧ Reads t c₁ rest c'

/-- The reader enters a block, is told the length of `body`, reads those bytes, and leaves the
block. -/
def Cursor.Recovers (c : Reader) (t : Tape) (body : List UInt8) : Prop :=
  ∃ extent c₁ c₂ c₃, c.enter t = .ok (extent, c₁) ∧ extent.size = body.length ∧
    Reads t c₁ body c₂ ∧ c₂.leave t extent = .ok c₃

section

variable {c c' : Reader} {t : Tape} {src : Source} {bytes : List UInt8}

/-- A reader takes the bytes that it is offered. -/
theorem Stands.reads (h : Stands c t src) (ho : src.Offers c.bounds c.address bytes) :
    ∃ c', Cursor.Reads t c bytes c' ∧ Stands c' t src ∧ c'.bounds = c.bounds ∧
      c'.address = c.address + bytes.length := by
  induction bytes generalizing c with
  | nil => exact ⟨c, rfl, h, rfl, rfl⟩
  | cons b rest ih =>
    obtain ⟨hget, ho⟩ := Source.offers_cons.1 ho
    have hread := h.readByte
    rw [hget] at hread
    obtain ⟨c₁, hread, h₁, hb₁, ha₁⟩ := hread
    obtain ⟨c', hr, h', hb', ha'⟩ := ih h₁ (by rwa [hb₁, ha₁])
    refine ⟨c', ⟨c₁, hread, hr⟩, h', hb'.trans hb₁, ?_⟩
    rw [ha', ha₁, List.length_cons]
    omega

/-- A byte reader leaves a block behind its last byte. -/
theorem Stands.leave (extent : Extent) {outer : List Position} (h : Stands c t src)
    (hb : c.bounds = extent.stop :: outer) (ha : extent.stop = .ofByte c.address) :
    ∃ c', c.leave t extent = .ok c' ∧ Stands c' t src ∧ c'.bounds = outer ∧
      c'.address = c.address := by
  have hp : c.position = extent.stop := by
    simp only [Cursor.position, h.sound.bits, ha, List.length_nil, Nat.sub_zero, Position.ofByte]
  rw [Cursor.leave, if_pos hp, Cursor.popBound, hb]
  exact ⟨_, rfl, h.rebound outer, rfl, rfl⟩

theorem Cursor.Placed.reads (hc : c.Placed) (h : Reads t c bytes c') : c.Behind c' := by
  induction bytes generalizing c with
  | nil =>
    obtain rfl : c' = c := h
    exact ⟨hc, rfl⟩
  | cons b rest ih =>
    obtain ⟨c₁, hr, h⟩ := h
    obtain ⟨hc₁, h₁⟩ := hc.readByte hr
    obtain ⟨hc', h'⟩ := ih hc₁ h
    exact ⟨hc', by omega⟩

/-- Between two bytes, readers of both grains take the same bytes. -/
theorem Cursor.Level.reads {d : Reader} (hc : c.Level t) (h : Reads t c.bytewise bytes d) :
    ∃ c', Reads t c bytes c' ∧ d = c'.bytewise := by
  induction bytes generalizing c with
  | nil => exact ⟨c, rfl, h⟩
  | cons b rest ih =>
    obtain ⟨d₁, hr, h⟩ := h
    obtain ⟨hb, hc₁, -⟩ := hc.readByte
    rw [hr] at hb
    simp only [Prod.mk.injEq] at hb
    obtain ⟨hb, rfl⟩ := hb
    obtain ⟨c', hrest, rfl⟩ := ih hc₁ h
    exact ⟨c', ⟨_, Prod.ext hb.symm rfl, hrest⟩, rfl⟩

end

/-! ## Blocks that are recovered -/

/-- Between two bytes, what a byte reader recovers a bit reader recovers as well. -/
theorem Cursor.Level.recovers {c : Reader} {t : Tape} {body : List UInt8} (hc : c.Level t)
    (h : c.bytewise.Recovers t body) : c.Recovers t body := by
  obtain ⟨extent, d₁, d₂, d₃, he, hsize, hr, hl⟩ := h
  rw [hc.enter] at he
  match hce : c.enter t with
  | .error e =>
    rw [hce] at he
    cases he
  | .ok (extent', c₁) =>
    rw [hce] at he
    cases he
    obtain ⟨c₂, hread, rfl⟩ := (hc.of_enter hce).reads hr
    rw [leave] at hl
    cases hcl : c₂.leave t extent with
    | error e =>
      rw [hcl] at hl
      cases hl
    | ok c₃ => exact ⟨extent, c₁, c₂, c₃, hce, hsize, hread, hcl⟩

/-- Inside a byte no block is recovered. -/
theorem Cursor.Placed.not_recovers {c : Reader} {t : Tape} {body : List UInt8} (hc : c.Placed)
    (ho : c.position.bits % 8 ≠ 0) : ¬c.Recovers t body := by
  rintro ⟨extent, c₁, c₂, c₃, he, -, hr, hl⟩
  obtain ⟨⟨hc₁, ho₁⟩, hs⟩ := hc.enter he
  obtain ⟨-, ho₂⟩ := hc₁.reads hr
  rw [leave_underrun hs (by omega)] at hl
  cases hl

section

variable {f : Framing} {size : Nat} {w w' : Writer} {t t' : Tape} {out body : List UInt8}

/-- A byte reader recovers a block whose header a `varuint32` can be. -/
theorem AtEnd.recovers (hw : AtEnd w t out) (hr : 0 < f.reserved)
    (h : f.writeBlock body (t, w) = .ok size (t', w')) (hlt : body.length < UInt32.size)
    (hf : f.minimize = true ∨ f.reserved ≤ Leb128.chunksInWord 32) :
    Cursor.Recovers { grain := .byte, address := out.length } t' body := by
  obtain ⟨a, c₁, he, hs₁, hb₁, ha₁, hlen⟩ := hw.enter hr h hlt hf
  have ho : Source.Offers { bytes := out ++ (f.header f.reserved size ++ body) } c₁.bounds
      c₁.address body := by
    rw [hb₁, ha₁, hlen]
    apply Source.offers_of_isPrefix
    · simp only [← List.append_assoc, List.drop_left' List.length_append, List.prefix_rfl]
    · simp only [Source.stop, List.headD_cons, Position.byte_ofByte, Nat.le_refl]
  obtain ⟨c₂, hread, hs₂, hb₂, ha₂⟩ := hs₁.reads ho
  obtain ⟨c₃, hl, -⟩ := hs₂.leave ⟨a, .ofByte (a + body.length)⟩ (hb₂.trans hb₁)
    (by rw [ha₂, ha₁])
  refine ⟨_, c₁, c₂, c₃, he, ?_, hread, hl⟩
  rw [Extent.size, Position.byte_ofByte, Nat.add_sub_cancel_left]

end

/-- A bit writer where `w` is, with these bits in its byte. -/
def Cursor.inside (w : Writer) (bits : List Bool) : Writer := { w with grain := .bit, bits }

/-- Writes a block with that body and fills its last byte up. -/
def Framing.writeFilled (f : Framing) (body : List UInt8) : Writing EncodeError Nat := do
  let size ← f.writeBlock body
  Writing.mapError .stream Cursor.alignWriter
  return size

/-- Between two bytes there is nothing to fill up, and the byte writer frames the same block. -/
theorem AtEnd.of_writeFilled {f : Framing} {size : Nat} {w w' : Writer} {t t' : Tape}
    {out body : List UInt8} (hw : AtEnd w t out)
    (h : f.writeFilled body (t, w.inside []) = .ok size (t', w')) :
    t'.eof = none ∧ ∃ v, f.writeBlock body (t, w) = .ok size (t', v) := by
  have hclear : (w.inside []).Clear t := ⟨rfl, hw.bounds, hw.eof⟩
  have hbyte : (w.inside []).bytewise = w := by
    simp only [Cursor.inside, Cursor.bytewise, ← hw.sound.grain, ← hw.sound.bits]
  obtain ⟨size', ⟨t₁, w₁⟩, he, h⟩ := of_bind_ok h
  obtain ⟨hb, h₁⟩ := hclear.writeBlock he
  have halign : Writing.mapError .stream Cursor.alignWriter (t₁, w₁) =
      (.ok () (t₁, w₁) : EStateM.Result EncodeError _ _) := by
    simp only [Writing.mapError, Cursor.alignWriter, h₁.level.aligned, if_true]
  rw [bind_of_ok halign] at h
  cases h
  rw [hbyte] at hb
  exact ⟨h₁.eof, _, hb⟩

/-- A bit reader at the start of a byte. -/
def Cursor.bitReaderAt (address : Nat) : Reader := { grain := .bit, address }

/-- Reading a few bits puts a bit reader at that offset. -/
theorem Cursor.offset_of_readBits {address n : Nat} {t : Tape} {word : UInt64} {c : Reader}
    (hn : n < 8) (h : (bitReaderAt address).readBits t n = (.ok word, c)) :
    c.Placed ∧ c.position.bits % 8 = n := by
  have hp : (bitReaderAt address).Placed := Nat.zero_le _
  unfold readBits at h
  split at h
  · rename_i hbits
    cases h
    obtain ⟨hc, ho⟩ := hp.readBitList hbits
    refine ⟨hc, ?_⟩
    rw [ho]
    simp only [position, bitReaderAt, List.length_nil]
    omega
  · cases h

/-- A bit reader that stands where a block begins, at an offset of as many bits, recovers it exactly
when the offset is 0 and the body is shorter than four gigabytes. -/
theorem Framing.recovers_writeFilled_iff {f : Framing} {size : Nat} {w w' : Writer} {t t' : Tape}
    {out body : List UInt8} {bits : List Bool} {c : Reader} {word : UInt64} (hw : AtEnd w t out)
    (hk : bits.length < 8) (hr : 0 < f.reserved) (h5 : f.reserved ≤ Leb128.chunksInWord 32)
    (h : f.writeFilled body (t, w.inside bits) = .ok size (t', w'))
    (hc : (Cursor.bitReaderAt w.address).readBits t' bits.length = (.ok word, c)) :
    c.Recovers t' body ↔ bits = [] ∧ body.length < UInt32.size := by
  cases bits with
  | nil =>
    obtain ⟨heof, v, hb⟩ := hw.of_writeFilled h
    have hl : (Cursor.bitReaderAt w.address).Level t' := Cursor.level_of_unbounded rfl rfl heof
    have hbyte : (Cursor.bitReaderAt w.address).bytewise =
        { grain := .byte, address := out.length } := by
      rw [← hw.atEnd]
      rfl
    cases hc
    constructor
    · rintro ⟨extent, c₁, -, -, he, hsize, -⟩
      have hbe := hl.enter
      rw [he, hbyte] at hbe
      exact ⟨rfl, (hw.of_enter hr hb hbe hsize).1⟩
    · rintro ⟨-, hlt⟩
      have hrec := hw.recovers hr hb hlt (.inr h5)
      rw [← hbyte] at hrec
      exact hl.recovers hrec
  | cons bit rest =>
    obtain ⟨hp, ho⟩ := Cursor.offset_of_readBits hk hc
    rw [List.length_cons] at ho
    constructor
    · intro hrec
      exact absurd hrec (hp.not_recovers (by omega))
    · rintro ⟨hbits, -⟩
      cases hbits

/-- What an action that succeeds gives and leaves. -/
def Writing.outcome? {ε α : Type} (act : Writing ε α) (s : Tape × Writer) :
    Option (α × Tape × Writer) :=
  match act s with
  | .ok a s => some (a, s)
  | .error _ _ => none

theorem Writing.of_outcome? {ε α : Type} {act : Writing ε α} {s s' : Tape × Writer} {a : α}
    (h : act.outcome? s = some (a, s')) : act s = .ok a s' := by
  unfold Writing.outcome? at h
  split at h
  · rename_i he
    cases h
    exact he
  · cases h

/-- At offset 0 a body of one byte is recovered. -/
theorem Framing.recovers_writeFilled_iff_aligned :
    ∃ t w, Framing.writeFilled { reserved := 2 } [0xAA]
        (.blank 4, (Cursor.writerOn (.blank 4) .byte).inside []) = .ok 1 (t, w) ∧
      (Cursor.bitReaderAt 0).Recovers t [0xAA] := by
  have h : Framing.writeFilled { reserved := 2 } [0xAA]
      (.blank 4, (Cursor.writerOn (.blank 4) .byte).inside []) =
        .ok 1 ({ pageSize := 4, cells := #[129, 0, 170, 0], fill := 3 },
          { grain := .bit, address := 3, page := some 0, span := 4 }) :=
    Writing.of_outcome? (by decide +kernel)
  refine ⟨_, _, h, ?_⟩
  exact (recovers_writeFilled_iff (AtEnd.blank 4) (by decide) (by decide) (by decide) h rfl).2
    ⟨rfl, by decide⟩

/-- At offset 3 the same body cannot be left: the block ends at bit 56, and the reader stands at
bit 51. -/
theorem Framing.not_recovers_inside :
    ∃ t w c, Framing.writeFilled { reserved := 5 } [0xAA]
        (.blank 4, (Cursor.writerOn (.blank 4) .byte).inside [true, false, true]) =
          .ok 1 (t, w) ∧
      (Cursor.bitReaderAt 0).readBits t 3 = (.ok 5, c) ∧ ¬c.Recovers t [0xAA] := by
  have h : Framing.writeFilled { reserved := 5 } [0xAA]
      (.blank 4, (Cursor.writerOn (.blank 4) .byte).inside [true, false, true]) =
        .ok 1 ({ pageSize := 4, cells := #[176, 48, 16, 16, 0, 21, 64, 0], fill := 7 },
          { grain := .bit, address := 7, page := some 1, span := 8 }) :=
    Writing.of_outcome? (by decide +kernel)
  have hc : (Cursor.bitReaderAt 0).readBits
      { pageSize := 4, cells := #[176, 48, 16, 16, 0, 21, 64, 0], fill := 7 } 3 =
        (.ok 5, {
          grain := .bit
          address := 1
          page := some 0
          bits := [true, false, false, false, false]
          span := 4 }) := by
    rfl
  obtain ⟨hp, ho⟩ := Cursor.offset_of_readBits (by decide) hc
  exact ⟨_, _, _, h, hc, hp.not_recovers (by omega)⟩

end Transcoder

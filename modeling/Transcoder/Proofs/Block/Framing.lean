import Transcoder.Block.Write
import Transcoder.Proofs.Cursor.Writing
import Transcoder.Proofs.Machine.Source

/-!
# Framing a block over a stream

Finishing a block patches its header in place, or writes a shorter one, moves the body up to it and
cuts the rest off. On the stream both are one thing: the reserved header gives way to the final one
(`Framing.close`), and nothing before it changes.

Results:
* `moved`: moving bytes towards the front of a stream, where source and target may overlap.
* `AtEnd.beginBlock`, `AtEnd.finishBlock`, `AtEnd.finishBlock_tooLarge`: the operations on a block
  as operations on the stream.
-/
namespace Transcoder

namespace Framing

/-- The final header of a block. -/
def header (f : Framing) (reserved size : Nat) : List UInt8 :=
  if f.minimize then Leb128.unsigned size else Leb128.padded reserved size

/-- The stream once the block at its end, with `reserved` bytes of header at `start`, is
finished. -/
def close (f : Framing) (out : List UInt8) (start reserved : Nat) : List UInt8 :=
  out.take start ++ f.header reserved (bodySize start out.length reserved) ++
    out.drop (start + reserved)

/-- The reserved header gives way to the final one. -/
theorem close_reserved {f : Framing} {reserved : Nat} (hr : 0 < reserved) (out body : List UInt8) :
    bodySize out.length (out ++ Leb128.padded reserved 0 ++ body).length reserved = body.length ∧
      f.close (out ++ Leb128.padded reserved 0 ++ body) out.length reserved =
        out ++ (f.header reserved body.length ++ body) := by
  have hl := Leb128.length_padded_of_pos hr 0
  have hs : bodySize out.length (out ++ Leb128.padded reserved 0 ++ body).length reserved =
      body.length := by
    rw [bodySize, List.length_append, List.length_append, hl]
    omega
  refine ⟨hs, ?_⟩
  rw [close, hs, List.drop_left' (by rw [List.length_append, hl]), List.append_assoc out,
    List.take_left, List.append_assoc]

end Framing

/-! ## Moving -/

/-- What a reader over written bytes stands on. -/
theorem Writes.stands {w : Writer} {t : Tape} {out : List UInt8} (h : Writes w t out)
    (address : Nat) (hs : t.start ≤ address) (hl : address ≤ out.length) :
    Stands (Cursor.readerOver w address) t { bytes := out } := by
  have hg : (Cursor.readerOver w address) = { grain := .byte, bounds := [], address } := by
    rw [Cursor.readerOver, h.sound.grain, h.bounds]
  exact ⟨rfl, hg ▸ Cursor.sound_fresh t [] address, h.carries, h.eof, hs, hl⟩

/-- Bytes move towards the front, even over those that are still to be moved. -/
theorem moved {w : Writer} {t : Tape} {out : List UInt8} {source : Reader} {n : Nat}
    (h : Writes w t out) (hs : Stands source t { bytes := out }) (hb : source.bounds = [])
    (hle : w.address ≤ source.address) (hn : source.address + n ≤ out.length)
    (hl : out.length ≤ addressLimit) :
    ∃ t' w', Cursor.copyFrom n source (t, w) = .ok () (t', w') ∧
      Writes w' t' (overwrite out w.address ((out.drop source.address).take n)) ∧
      w'.address = w.address + n ∧ t.Grows t' := by
  induction n generalizing w t out source with
  | zero => exact ⟨t, w, rfl, by rwa [List.take_zero, overwrite_nil], rfl, .refl t⟩
  | succ n ih =>
    have hlt : source.address < out.length := by omega
    have hget : Source.get { bytes := out } source.bounds source.address =
        .ok out[source.address] := by
      rw [Source.get, hb]
      simp only [Source.stop, List.headD_nil, Source.endPosition, Bool.false_eq_true, if_false,
        Position.byte_unbounded, List.getElem?_eq_getElem hlt]
      rw [if_pos (by omega)]
    have hread := hs.readByte
    rw [hget] at hread
    obtain ⟨source₁, hread, hs₁, hb₁, ha₁⟩ := hread
    obtain ⟨t₁, w₁, hw, h₁, haw, hg⟩ := h.writeByte (by omega) out[source.address]
    have hlen : (overwrite out w.address [out[source.address]]).length = out.length := by
      rw [length_overwrite h.le, List.length_singleton]
      omega
    -- what is still to be moved has not been written over
    have hrest : (overwrite out w.address [out[source.address]]).drop (source.address + 1) =
        out.drop (source.address + 1) :=
      drop_overwrite h.le (by rw [List.length_singleton]; omega)
    have hfill : t.fill = t₁.fill := by rw [h.carries.fill, h₁.carries.fill, hlen]
    have hsound : source₁.Sound t₁ := hs₁.sound.grows hg fun _ => Nat.le_of_eq hfill
    obtain ⟨t', w', hc, hw', ha', hg'⟩ := ih h₁
      ⟨rfl, hsound, h₁.carries, hg.eof.trans hs₁.eof, hg.start.symm ▸ hs₁.start_le, by
        simp only
        omega⟩ (hb₁.trans hb) (by omega) (by omega) (by omega)
    rw [haw, ha₁, hrest, overwrite_cons h.le] at hw'
    refine ⟨t', w', ?_, ?_, by omega, hg.trans hg'⟩
    · simp only [Cursor.copyFrom, hread, hw]
      exact hc
    · rwa [List.drop_eq_getElem_cons hlt, List.take_succ_cons]

namespace AtEnd

variable {w : Writer} {t : Tape} {out : List UInt8} {f : Framing}

/-! ## Beginning a block -/

theorem writePaddedSize_eq {size reserved : Nat} (h : size ≤ headerLimit reserved) :
    Cursor.writePaddedSize size reserved =
      Writing.mapError .stream ((Leb128.padded reserved size).forM Cursor.writeByte) := by
  rw [Cursor.writePaddedSize, if_neg (by omega), Leb128.emitPadded_eq]

/-- A block begins with a header that says nothing yet. -/
theorem beginBlock (h : AtEnd w t out)
    (hl : out.length + (Leb128.padded f.reserved 0).length ≤ addressLimit) :
    ∃ t' w', f.beginBlock (t, w) = .ok ⟨w, f.reserved⟩ (t', w') ∧
      AtEnd w' t' (out ++ Leb128.padded f.reserved 0) ∧ t.Grows t' := by
  obtain ⟨t', w', he, hw, hg⟩ := h.all hl
  refine ⟨t', w', ?_, hw, hg⟩
  simp only [Framing.beginBlock, writePaddedSize_eq (Nat.zero_le _), Writing.mapError, he]

/-- Where the address space has no room for the header, a part of it stays. -/
theorem beginBlock_outOfSpace (h : AtEnd w t out)
    (hl : addressLimit < out.length + (Leb128.padded f.reserved 0).length) :
    ∃ t' w', f.beginBlock (t, w) = .error (.stream outOfSpace) (t', w') ∧
      t'.Carries (out ++ (Leb128.padded f.reserved 0).take (addressLimit - out.length)) ∧
      t.Grows t' := by
  obtain ⟨t', w', he, hc, hg⟩ := h.all_outOfSpace hl
  refine ⟨t', w', ?_, hc, hg⟩
  simp only [Framing.beginBlock, writePaddedSize_eq (Nat.zero_le _), Writing.mapError, he]

/-! ## Finishing a block -/

end AtEnd

/-- The header of a block can still be patched: its cursor is sound and its page was not given
up. -/
structure OpenHeader.Pinned (h : OpenHeader) (t : Tape) : Prop where
  sound : h.cursor.Sound t
  bounds : h.cursor.bounds = []
  start_le : t.start ≤ h.start

theorem OpenHeader.Pinned.keeps {h : OpenHeader} {t t' : Tape} (p : h.Pinned t) (g : t.Grows t') :
    h.Pinned t' :=
  ⟨p.sound.keeps g, p.bounds, g.start.symm ▸ p.start_le⟩

/-- Bytes go over the header and what follows it. -/
theorem OpenHeader.Pinned.patch {h : OpenHeader} {t : Tape} {out : List UInt8}
    (p : h.Pinned t) (bytes : List UInt8) (hc : t.Carries out) (he : t.eof = none)
    (hle : h.start ≤ out.length) (hl : h.start + bytes.length ≤ addressLimit) :
    ∃ t' w', bytes.forM Cursor.writeByte (t, h.cursor) = .ok () (t', w') ∧
      Writes w' t' (overwrite out h.start bytes) ∧ w'.address = h.start + bytes.length ∧
      t.Grows t' :=
  Writes.all ⟨p.sound, p.bounds, hc, he, p.start_le, hle⟩ hl

/-- Gives a header its shortest form and moves the body up to it. -/
def Framing.shorten (h : OpenHeader) (size : Nat) : Writing EncodeError Unit := do
  let ((), header) ← Writing.through h.cursor (Cursor.writeSize size)
  if header.address < h.bodyStart then
    let ((), header) ← Writing.through header (Cursor.moveBlock h.bodyStart size)
    truncateAt header.address
    seekTo header.address

namespace AtEnd

variable {w : Writer} {t : Tape} {out : List UInt8} {f : Framing} {h : OpenHeader}

/-- A header that is too narrow for the size is refused, and nothing changes. -/
theorem finishBlock_tooLarge (hw : AtEnd w t out)
    (hs : headerLimit h.reserved < bodySize h.start out.length h.reserved) :
    f.finishBlock h (t, w) = .error (.blockTooLarge (bodySize h.start out.length h.reserved)
      (headerLimit h.reserved)) (t, w) := by
  have he : Writing.through h.cursor (Cursor.writePaddedSize
      (bodySize h.start w.address h.reserved) h.reserved) (t, w) =
        .error (.blockTooLarge (bodySize h.start out.length h.reserved) (headerLimit h.reserved))
          (t, w) := by
    rw [hw.atEnd]
    simp only [Writing.through, Cursor.writePaddedSize]
    rw [if_pos hs]
    rfl
  rw [Framing.finishBlock, get_bind]
  by_cases hm : f.minimize = true
  · simp only [hm, if_true]
    exact bind_of_error (discard_of_error he)
  · have hm : f.minimize = false := by simpa using hm
    simp only [hm, Bool.false_eq_true, if_false]
    exact bind_of_error (discard_of_error he)

/-- Once the size is in the reserved header, a block is finished or its header made shorter. -/
theorem finishBlock_of_padded {size : Nat} {t₁ : Tape} {w₁ : Writer} (hw : AtEnd w t out)
    (hsize : size = bodySize h.start out.length h.reserved) (hs : size ≤ headerLimit h.reserved)
    (hp : (Leb128.padded h.reserved size).forM Cursor.writeByte (t, h.cursor) = .ok () (t₁, w₁)) :
    f.finishBlock h (t, w) =
      if f.minimize then (do Framing.shorten h size; return size : Writing EncodeError Nat) (t₁, w)
      else .ok size (t₁, w) := by
  have he : Writing.through h.cursor (Cursor.writePaddedSize size h.reserved) (t, w) =
      .ok ((), w₁) (t₁, w) := by
    simp only [Writing.through, writePaddedSize_eq hs, Writing.mapError, hp]
  rw [Framing.finishBlock, get_bind]
  simp only [hw.atEnd, ← hsize]
  by_cases hm : f.minimize = true
  · simp only [hm, if_true]
    rw [bind_of_ok (discard_of_ok he)]
    simp only [Framing.shorten, bind, EStateM.bind]
    cases Writing.through h.cursor (Cursor.writeSize size) (t₁, w) with
    | error => rfl
    | ok r s =>
      simp only
      split
      · simp only [EStateM.bind]
        cases Writing.through r.2 (Cursor.moveBlock h.bodyStart size) s with
        | error => rfl
        | ok r s =>
          simp only
          cases Framing.truncateAt r.2.address s <;> rfl
      · rfl
  · have hm : f.minimize = false := by simpa using hm
    simp only [hm, Bool.false_eq_true, if_false]
    exact bind_of_ok (discard_of_ok he)

/-- The stream is cut off, and the writer goes to its new end. -/
theorem cut {t₁ : Tape} {s s' : List UInt8} {a : Nat} (hw : AtEnd w t out) (hg : t.Grows t₁)
    (hc : t₁.Carries s) (hs : s.take a = s') (hl : s'.length = a) (ha : t.start ≤ a)
    (hroom : a ≤ addressLimit) : ∃ t' w', (do
      Framing.truncateAt a
      Framing.seekTo a : Writing EncodeError Unit) (t₁, w) = .ok () (t', w') ∧
      AtEnd w' t' s' ∧ t.Grows t' := by
  obtain ⟨ht, hcut⟩ := hc.truncate (hg.start.symm ▸ ha)
  rw [hs] at hcut
  have he : Framing.truncateAt a (t₁, w) = .ok () ({ t₁ with fill := min t₁.fill a }, w) := by
    simp only [Framing.truncateAt, ht]
  have hg' := hg.trans (Tape.refill_grows t₁ (min t₁.fill a))
  refine ⟨_, w.seek { t₁ with fill := min t₁.fill a } a, by rw [bind_of_ok he]; rfl, ?_, hg'⟩
  exact ⟨⟨(hw.sound.keeps hg').seek a, hw.bounds, hcut, hg'.eof.trans hw.eof,
    hg'.start.symm ▸ ha, Nat.le_of_eq hl.symm⟩, hl.symm, by omega⟩

/-- The header and the body of the block move together. -/
theorem shorten (size : Nat) (hw : AtEnd w t out) (p : h.Pinned t)
    (hout : out.length = h.bodyStart + size) (hl : (Leb128.unsigned size).length ≤ h.reserved) :
    ∃ t' w', Framing.shorten h size (t, w) = .ok () (t', w') ∧
      AtEnd w' t' (out.take h.start ++ Leb128.unsigned size ++ out.drop h.bodyStart) ∧
      t.Grows t' := by
  have hroom := hw.room
  have hbody : h.bodyStart = h.start + h.reserved := rfl
  obtain ⟨t₁, w₁, he₁, h₁, ha₁, hg₁⟩ := p.patch (Leb128.unsigned size) hw.carries hw.eof
    (by omega) (by omega)
  have hle : h.start ≤ out.length := by omega
  have hlen := length_overwrite hle (Leb128.unsigned size)
  have hstart : t₁.start ≤ h.start := hg₁.start.symm ▸ p.start_le
  have hrest : (overwrite out h.start (Leb128.unsigned size)).drop h.bodyStart =
      out.drop h.bodyStart := drop_overwrite hle (by omega)
  have hw₁ : Writing.through h.cursor (Cursor.writeSize size) (t, w) = .ok ((), w₁) (t₁, w) := by
    simp only [Writing.through, Cursor.writeSize, Writing.mapError, he₁]
  rw [Framing.shorten, bind_of_ok hw₁]
  simp only
  by_cases hlt : w₁.address < h.bodyStart
  · have hsource := h₁.stands h.bodyStart (by omega) (by omega)
    obtain ⟨t₂, w₂, he₂, h₂, ha₂, hg₂⟩ := moved (n := size) h₁ hsource h₁.bounds
      (Nat.le_of_lt hlt) (by simp only [Cursor.readerOver]; omega) (by omega)
    have hbytes : ((overwrite out h.start (Leb128.unsigned size)).drop h.bodyStart).take size =
        out.drop h.bodyStart := by
      rw [hrest, List.take_of_length_le (by rw [List.length_drop]; omega)]
    have hsrc : (Cursor.readerOver w₁ h.bodyStart).address = h.bodyStart := rfl
    rw [hsrc, hbytes, ha₁, overwrite_overwrite hle] at h₂
    have hwhole : (overwrite out h.start (Leb128.unsigned size ++ out.drop h.bodyStart)).take
        w₂.address = out.take h.start ++ Leb128.unsigned size ++ out.drop h.bodyStart := by
      rw [overwrite, ← List.append_assoc, List.take_append_of_le_length, List.take_of_length_le]
      all_goals
        simp only [List.length_append, List.length_take, List.length_drop]
        omega
    have hl : (out.take h.start ++ Leb128.unsigned size ++ out.drop h.bodyStart).length =
        w₂.address := by
      simp only [List.length_append, List.length_take, List.length_drop]
      omega
    have hw₂ : Writing.through w₁ (Cursor.moveBlock h.bodyStart size) (t₁, w) =
        .ok ((), w₂) (t₂, w) := by
      simp only [Writing.through, Cursor.moveBlock, Writing.mapError, he₂]
    have := p.start_le
    rw [if_pos hlt, bind_of_ok hw₂]
    exact hw.cut (a := w₂.address) (hg₁.trans hg₂) h₂.carries hwhole hl (by omega) (by omega)
  · rw [if_neg hlt]
    refine ⟨t₁, w, rfl, ?_, hg₁⟩
    have hwhole : overwrite out h.start (Leb128.unsigned size) =
        out.take h.start ++ Leb128.unsigned size ++ out.drop h.bodyStart := by
      rw [overwrite, show h.start + (Leb128.unsigned size).length = h.bodyStart by omega]
    rw [← hwhole]
    exact ⟨⟨hw.sound.keeps hg₁, hw.bounds, h₁.carries, hg₁.eof.trans hw.eof,
      hg₁.start.symm ▸ hw.start_le, by rw [hlen]; have := hw.le; omega⟩,
      by rw [hw.atEnd]; omega, by omega⟩

/-- A block whose size its header can say is finished, and nothing before it changes. -/
theorem finishBlock (hw : AtEnd w t out) (p : h.Pinned t) (hr : 0 < h.reserved)
    (hb : h.bodyStart ≤ out.length)
    (hs : bodySize h.start out.length h.reserved ≤ headerLimit h.reserved) :
    ∃ t' w', f.finishBlock h (t, w) = .ok (bodySize h.start out.length h.reserved) (t', w') ∧
      AtEnd w' t' (f.close out h.start h.reserved) ∧ t.Grows t' := by
  have hroom := hw.room
  have hbody : h.bodyStart = h.start + h.reserved := rfl
  obtain ⟨size, hsize⟩ : ∃ size, size = bodySize h.start out.length h.reserved := ⟨_, rfl⟩
  have hout : out.length = h.bodyStart + size := by
    rw [hsize, bodySize]
    omega
  rw [← hsize] at hs ⊢
  have hpl := Leb128.length_padded_of_pos hr size
  have hle : h.start ≤ out.length := by omega
  -- the size goes into the reserved header first
  obtain ⟨t₁, w₁, he₁, h₁, -, hg₁⟩ := p.patch (Leb128.padded h.reserved size) hw.carries
    hw.eof hle (by omega)
  have hl₁ := length_overwrite hle (Leb128.padded h.reserved size)
  have hw₁ : AtEnd w t₁ (overwrite out h.start (Leb128.padded h.reserved size)) :=
    ⟨⟨hw.sound.keeps hg₁, hw.bounds, h₁.carries, hg₁.eof.trans hw.eof,
      hg₁.start.symm ▸ hw.start_le, by rw [hw.atEnd]; omega⟩, by rw [hw.atEnd]; omega, by omega⟩
  rw [finishBlock_of_padded hw hsize hs he₁, Framing.close, ← hsize, Framing.header, ← hbody]
  by_cases hm : f.minimize = true
  · rw [if_pos hm, if_pos hm]
    obtain ⟨t', w', he, hw', hg⟩ := hw₁.shorten size (p.keeps hg₁) (by omega)
      (length_unsigned_le_of_headerLimit hr hs)
    rw [take_overwrite hle (Nat.le_refl _), drop_overwrite hle (by omega)] at hw'
    exact ⟨t', w', bind_of_ok he, hw', hg₁.trans hg⟩
  · rw [if_neg hm, if_neg hm]
    refine ⟨t₁, w, rfl, ?_, hg₁⟩
    rwa [overwrite, hpl] at hw₁

end AtEnd

end Transcoder

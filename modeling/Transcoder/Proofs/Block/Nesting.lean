import Transcoder.Proofs.Block.Agreement

/-!
# Blocks inside blocks

A block that is finished may lie in the body of another one that is still open. What was written
into the outer body then gives way to something shorter, so the outer size, and where the outer body
ends, are known only when the outer block is finished in its turn. Still the stream ends up as if
every block had been written in one piece (`Content.encode`): a header with the length of the
encoded body, then that body.

Results:
* `AtEnd.write`: a tree of blocks is written, or refused at the first block that its header cannot
  say the size of.
* `AtEnd.room_of_write`: the stream never grew past the last address.
* `AtEnd.writes_encoding`: both together, as the condition for a tree to be written.
-/
namespace Transcoder

/-- What is framed: bytes, and blocks around more of it, one after the other. -/
inductive Content where
  | done
  | bytes (raw : List UInt8) (rest : Content)
  | block (body rest : Content)
  deriving DecidableEq, Repr

namespace Content

variable (f : Framing)

/-- Each block as a header, with the length of the encoded body, and that body. -/
def encode : Content → List UInt8
  | done => []
  | bytes raw rest => raw ++ rest.encode
  | block body rest =>
    f.header f.reserved body.encode.length ++ body.encode ++ rest.encode

/-- The lengths of the encoded bodies, in the order in which the blocks are finished. -/
def sizes : Content → List Nat
  | done => []
  | bytes _ rest => rest.sizes
  | block body rest => body.sizes ++ (body.encode f).length :: rest.sizes

/-- How far the stream grows, headers that are reserved but not yet shortened included. -/
def peak : Content → Nat
  | done => 0
  | bytes raw rest => raw.length + rest.peak
  | block body rest =>
    max (f.reserved + body.peak)
      ((f.header f.reserved (body.encode f).length ++ body.encode f).length + rest.peak)

theorem length_encode_le_peak (c : Content) : (c.encode f).length ≤ c.peak f := by
  induction c with
  | done => exact Nat.le_refl _
  | bytes raw rest ih =>
    simp only [encode, peak, List.length_append]
    omega
  | block body rest _ ih =>
    simp only [encode, peak, List.length_append] at ih ⊢
    omega

/-- The first body that is too long for its header. -/
def tooLarge? (c : Content) : Option Nat := (c.sizes f).find? (headerLimit f.reserved < ·)

/-- The encoding as far as it has got when the first body that is too long is there. Its header and
those of the blocks around it are still the reserved ones. -/
def cut : Content → List UInt8
  | done => []
  | bytes raw rest => raw ++ rest.cut
  | block body rest =>
    if (body.tooLarge? f).isSome then Leb128.padded f.reserved 0 ++ body.cut
    else if headerLimit f.reserved < (body.encode f).length then
      Leb128.padded f.reserved 0 ++ body.encode f
    else f.header f.reserved (body.encode f).length ++ body.encode f ++ rest.cut

theorem le_peak_of_mem_sizes (c : Content) : ∀ size ∈ c.sizes f, size ≤ c.peak f := by
  induction c with
  | done => simp [sizes]
  | bytes raw rest ih =>
    intro size h
    have := ih size h
    rw [peak]
    omega
  | block body rest ihb ihr =>
    intro size h
    have hbody := body.length_encode_le_peak f
    rw [sizes, List.mem_append, List.mem_cons] at h
    rw [peak]
    rcases h with h | rfl | h
    · have := ihb size h
      omega
    · omega
    · have := ihr size h
      omega

theorem tooLarge?_block (body rest : Content) : (block body rest).tooLarge? f =
    (body.tooLarge? f).or (if headerLimit f.reserved < (body.encode f).length
      then some (body.encode f).length else rest.tooLarge? f) := by
  simp only [tooLarge?, sizes, List.find?_append, List.find?_cons]
  split <;> rename_i h
  · rw [if_pos (of_decide_eq_true h)]
  · rw [if_neg (of_decide_eq_false h)]

end Content

namespace Framing

/-- Writes bytes and blocks, each block begun before its body and finished behind it, and gives the
sizes in the order of finishing. -/
def write (f : Framing) : Content → Writing EncodeError (List Nat)
  | .done => pure []
  | .bytes raw rest => do
    Writing.mapError .stream (Cursor.writeBytes raw)
    f.write rest
  | .block body rest => do
    let header ← f.beginBlock
    let inner ← f.write body
    let size ← f.finishBlock header
    let after ← f.write rest
    return inner ++ size :: after

/-- Writes just as much of that as comes before the finish of the first block that is too long, and
gives the header which that block was begun with. -/
def writeCut (f : Framing) : Content → Writing EncodeError (Option OpenHeader)
  | .done => pure none
  | .bytes raw rest => do
    Writing.mapError .stream (Cursor.writeBytes raw)
    f.writeCut rest
  | .block body rest => do
    let header ← f.beginBlock
    if (body.tooLarge? f).isSome then f.writeCut body
    else do
      let _ ← f.write body
      if headerLimit f.reserved < (body.encode f).length then return some header
      else do
        let _ ← f.finishBlock header
        f.writeCut rest

variable {f : Framing} {c c' : Content} {w w₁ : Writer} {t t₁ : Tape} {out bytes : List UInt8}

/-- From a writer at the end of `out`, the tree is written. -/
def Wrote (f : Framing) (c : Content) (w : Writer) (t : Tape) (out : List UInt8) : Prop :=
  ∃ t' w', f.write c (t, w) = .ok (c.sizes f) (t', w') ∧ AtEnd w' t' (out ++ c.encode f) ∧
    t.Grows t'

/-- From a writer at the end of `out`, the tree is written as far as the finish of a block. This is
refused, and what was written is left as it was before. -/
def Refused (f : Framing) (c : Content) (w : Writer) (t : Tape) (out : List UInt8) (size : Nat) :
    Prop :=
  ∃ header t' w', f.writeCut c (t, w) = .ok (some header) (t', w') ∧
    f.finishBlock header (t', w') =
      .error (.blockTooLarge size (headerLimit f.reserved)) (t', w') ∧
    f.write c (t, w) = .error (.blockTooLarge size (headerLimit f.reserved)) (t', w') ∧
    AtEnd w' t' (out ++ c.cut f) ∧ t.Grows t'

/-- A part that is refused stops the whole. -/
theorem Refused.within {size : Nat} (h : f.Refused c w₁ t₁ (out ++ bytes) size)
    (hg : t.Grows t₁) (hcut : c'.cut f = bytes ++ c.cut f)
    (hwrite : f.writeCut c' (t, w) = f.writeCut c (t₁, w₁))
    (he : ∀ e s, f.write c (t₁, w₁) = .error e s → f.write c' (t, w) = .error e s) :
    f.Refused c' w t out size := by
  obtain ⟨header, t', w', hc, hfin, hrefused, hw', hg'⟩ := h
  refine ⟨header, t', w', hwrite.trans hc, hfin, he _ _ hrefused, ?_, hg.trans hg'⟩
  rwa [hcut, ← List.append_assoc]

end Framing

namespace AtEnd

variable {f : Framing} {w w₂ : Writer} {t t₂ : Tape} {out body : List UInt8}

/-! ## One piece -/

theorem writeRaw (raw : List UInt8) (hw : AtEnd w t out)
    (hroom : out.length + raw.length ≤ addressLimit) :
    ∃ t' w', Writing.mapError .stream (Cursor.writeBytes raw) (t, w) =
        (.ok () (t', w') : EStateM.Result EncodeError _ _) ∧
      AtEnd w' t' (out ++ raw) ∧ t.Grows t' := by
  obtain ⟨t', w', he, hw', hg⟩ := hw.all hroom
  exact ⟨t', w', by simp only [Writing.mapError, Cursor.writeBytes, he], hw', hg⟩

theorem room_of_writeRaw {raw : List UInt8} {s : Tape × Writer} (hw : AtEnd w t out)
    (h : Writing.mapError .stream (Cursor.writeBytes raw) (t, w) =
      (.ok () s : EStateM.Result EncodeError _ _)) :
    out.length + raw.length ≤ addressLimit := by
  apply Nat.le_of_not_lt
  intro hlt
  obtain ⟨t', w', he, -⟩ := hw.all_outOfSpace hlt
  simp [Writing.mapError, Cursor.writeBytes, he] at h

theorem room_of_beginBlock {header : OpenHeader} {s : Tape × Writer} (hw : AtEnd w t out)
    (hr : 0 < f.reserved) (h : f.beginBlock (t, w) = .ok header s) :
    out.length + f.reserved ≤ addressLimit := by
  have hpl := Leb128.length_padded_of_pos hr 0
  apply Nat.le_of_not_lt
  intro hlt
  obtain ⟨t', w', he, -⟩ := hw.beginBlock_outOfSpace (f := f) (by omega)
  simp [he] at h

/-- The block that was begun at the end of `out` is finished behind its body. -/
theorem finishBody (hw : AtEnd w t out) (hr : 0 < f.reserved)
    (hw₂ : AtEnd w₂ t₂ (out ++ Leb128.padded f.reserved 0 ++ body)) (hg : t.Grows t₂)
    (hl : body.length ≤ headerLimit f.reserved) :
    ∃ t' w', f.finishBlock ⟨w, f.reserved⟩ (t₂, w₂) = .ok body.length (t', w') ∧
      AtEnd w' t' (out ++ (f.header f.reserved body.length ++ body)) ∧ t₂.Grows t' := by
  have hpl := Leb128.length_padded_of_pos hr 0
  obtain ⟨hs, hc⟩ := Framing.close_reserved (f := f) hr out body
  rw [← hw.atEnd] at hs hc
  have hp : OpenHeader.Pinned ⟨w, f.reserved⟩ t₂ :=
    OpenHeader.Pinned.keeps ⟨hw.sound, hw.bounds, hw.start_le⟩ hg
  have hfin := hw₂.finishBlock (f := f) hp hr
    (by
      simp only [OpenHeader.bodyStart, OpenHeader.start, hw.atEnd, List.length_append]
      omega)
    (hs.symm ▸ hl)
  simpa only [OpenHeader.start, hs, hc] using hfin

/-- The block that was begun at the end of `out` cannot be finished behind a body that is too
long. -/
theorem finishBody_tooLarge (hw : AtEnd w t out) (hr : 0 < f.reserved)
    (hw₂ : AtEnd w₂ t₂ (out ++ Leb128.padded f.reserved 0 ++ body))
    (hl : headerLimit f.reserved < body.length) :
    f.finishBlock ⟨w, f.reserved⟩ (t₂, w₂) =
      .error (.blockTooLarge body.length (headerLimit f.reserved)) (t₂, w₂) := by
  obtain ⟨hs, -⟩ := Framing.close_reserved (f := f) hr out body
  rw [← hw.atEnd] at hs
  have hfin := hw₂.finishBlock_tooLarge (f := f) (h := ⟨w, f.reserved⟩) (hs.symm ▸ hl)
  simpa only [OpenHeader.start, hs] using hfin

/-! ## Trees -/

/-- Where the addresses suffice, a tree is written whole, or up to its first block whose body is too
long. -/
theorem write (c : Content) (hw : AtEnd w t out) (hr : 0 < f.reserved)
    (hroom : out.length + c.peak f ≤ addressLimit) :
    (c.tooLarge? f = none → f.Wrote c w t out) ∧
      ∀ size, c.tooLarge? f = some size → f.Refused c w t out size := by
  have hpl := Leb128.length_padded_of_pos hr 0
  induction c generalizing w t out with
  | done =>
    constructor
    · intro _
      refine ⟨t, w, rfl, ?_, .refl t⟩
      rwa [Content.encode, List.append_nil]
    · intro size hs
      simp [Content.tooLarge?, Content.sizes] at hs
  | bytes raw rest ih =>
    rw [Content.peak] at hroom
    obtain ⟨t₁, w₁, he, hw₁, hg⟩ := hw.writeRaw raw (by omega)
    obtain ⟨hall, hcut⟩ := ih hw₁ (by rw [List.length_append]; omega)
    constructor
    · intro hs
      obtain ⟨t', w', he', hw', hg'⟩ := hall hs
      refine ⟨t', w', ?_, ?_, hg.trans hg'⟩
      · rw [Framing.write, bind_of_ok he, he']
        rfl
      · rwa [Content.encode, ← List.append_assoc]
    · intro size hs
      refine (hcut size hs).within hg rfl ?_ ?_
      · rw [Framing.writeCut, bind_of_ok he]
      · intro e s hrest
        rw [Framing.write, bind_of_ok he, hrest]
  | block body rest ihb ihr =>
    rw [Content.peak] at hroom
    obtain ⟨t₁, w₁, he₁, hw₁, hg₁⟩ := hw.beginBlock (f := f) (by omega)
    obtain ⟨hbody, hcut⟩ := ihb hw₁ (by rw [List.length_append]; omega)
    rw [Content.tooLarge?_block]
    cases hinner : body.tooLarge? f with
    | some inner =>
      refine ⟨fun hs => by simp at hs, ?_⟩
      intro size hs
      obtain rfl : inner = size := Option.some.inj hs
      refine (hcut inner hinner).within hg₁ ?_ ?_ ?_
      · rw [Content.cut, hinner]
        rfl
      · rw [Framing.writeCut, bind_of_ok he₁, hinner]
        rfl
      · intro e s hb
        rw [Framing.write, bind_of_ok he₁, bind_of_error hb]
    | none =>
      rw [Option.none_or]
      obtain ⟨t₂, w₂, he₂, hw₂, hg₂⟩ := hbody hinner
      have hsome : ¬(none : Option Nat).isSome = true := Bool.false_ne_true
      by_cases hl : headerLimit f.reserved < (body.encode f).length
      · rw [if_pos hl]
        refine ⟨fun hs => by simp at hs, ?_⟩
        intro size hs
        obtain rfl : (body.encode f).length = size := Option.some.inj hs
        have hfin := hw.finishBody_tooLarge hr hw₂ hl
        have hcut : (Content.block body rest).cut f =
            Leb128.padded f.reserved 0 ++ body.encode f := by
          rw [Content.cut, hinner, if_neg hsome, if_pos hl]
        refine ⟨_, t₂, w₂, ?_, hfin, ?_, ?_, hg₁.trans hg₂⟩
        · rw [Framing.writeCut, bind_of_ok he₁, hinner, if_neg hsome, bind_of_ok he₂, if_pos hl]
          rfl
        · rw [Framing.write, bind_of_ok he₁, bind_of_ok he₂, bind_of_error hfin]
        · rwa [hcut, ← List.append_assoc]
      · rw [if_neg hl]
        obtain ⟨t₃, w₃, he₃, hw₃, hg₃⟩ := hw.finishBody hr hw₂ (hg₁.trans hg₂) (by omega)
        have hg := (hg₁.trans hg₂).trans hg₃
        obtain ⟨hrest, hcut⟩ := ihr hw₃ (by rw [List.length_append]; omega)
        constructor
        · intro hs
          obtain ⟨t', w', he', hw', hg'⟩ := hrest hs
          refine ⟨t', w', ?_, ?_, hg.trans hg'⟩
          · rw [Framing.write, bind_of_ok he₁, bind_of_ok he₂, bind_of_ok he₃, bind_of_ok he']
            rfl
          · rwa [Content.encode, ← List.append_assoc]
        · intro size hs
          refine (hcut size hs).within hg ?_ ?_ ?_
          · rw [Content.cut, hinner, if_neg hsome, if_neg hl]
          · rw [Framing.writeCut, bind_of_ok he₁, hinner, if_neg hsome, bind_of_ok he₂, if_neg hl,
              bind_of_ok he₃]
          · intro e s hrest
            rw [Framing.write, bind_of_ok he₁, bind_of_ok he₂, bind_of_ok he₃, bind_of_error hrest]

/-- A tree that is written never needed more addresses than there are, and none of its bodies is too
long. -/
theorem room_of_write {sizes : List Nat} {s : Tape × Writer} (c : Content) (hw : AtEnd w t out)
    (hr : 0 < f.reserved) (h : f.write c (t, w) = .ok sizes s) :
    out.length + c.peak f ≤ addressLimit ∧ c.tooLarge? f = none := by
  have hpl := Leb128.length_padded_of_pos hr 0
  induction c generalizing w t out sizes s with
  | done => exact ⟨hw.room, rfl⟩
  | bytes raw rest ih =>
    obtain ⟨⟨⟩, s₁, he, h⟩ := of_bind_ok h
    have hraw := hw.room_of_writeRaw he
    obtain ⟨t₁, w₁, he₁, hw₁, -⟩ := hw.writeRaw raw hraw
    cases he.symm.trans he₁
    obtain ⟨hroom, hnone⟩ := ih hw₁ h
    rw [List.length_append] at hroom
    exact ⟨by rw [Content.peak]; omega, hnone⟩
  | block body rest ihb ihr =>
    obtain ⟨header, s₁, he, h⟩ := of_bind_ok h
    obtain ⟨inner, s₂, hb, h⟩ := of_bind_ok h
    obtain ⟨size, s₃, hf, h⟩ := of_bind_ok h
    obtain ⟨after, s₄, ha, -⟩ := of_bind_ok h
    have hbegin := hw.room_of_beginBlock hr he
    obtain ⟨t₁, w₁, he₁, hw₁, hg₁⟩ := hw.beginBlock (f := f) (by omega)
    cases he.symm.trans he₁
    obtain ⟨hroom, hnone⟩ := ihb hw₁ hb
    obtain ⟨t₂, w₂, he₂, hw₂, hg₂⟩ := (hw₁.write body hr hroom).1 hnone
    cases hb.symm.trans he₂
    rw [Content.tooLarge?_block, hnone, Option.none_or]
    by_cases hl : headerLimit f.reserved < (body.encode f).length
    · rw [hw.finishBody_tooLarge hr hw₂ hl] at hf
      cases hf
    · obtain ⟨t₃, w₃, he₃, hw₃, -⟩ := hw.finishBody hr hw₂ (hg₁.trans hg₂) (by omega)
      cases hf.symm.trans he₃
      obtain ⟨hrest, hnone⟩ := ihr hw₃ ha
      rw [List.length_append] at hroom hrest
      rw [if_neg hl]
      exact ⟨by rw [Content.peak]; omega, hnone⟩

end AtEnd

/-! ## The encoding of the whole -/

/-- Bytes that were there before stay as they are, or given up as they were. -/
theorem Tape.Carries.byte?_eq {t t' : Tape} {out bytes : List UInt8} (h : t.Carries out)
    (h' : t'.Carries (out ++ bytes)) (hg : t.Grows t') {a : Nat} (ha : a < out.length) :
    t'.byte? a = t.byte? a := by
  by_cases hs : t.start ≤ a
  · rw [h.shows a hs ha, h'.shows a (hg.start.symm ▸ hs) (by rw [List.length_append]; omega),
      List.getElem?_append_left ha]
  · rw [Tape.byte?, Tape.byte?, hg.start, if_neg hs, if_neg hs]

/-- As far as there are addresses, a header of so many chunks says every number of so many times
seven bits. -/
theorem headerLimit_lt_iff {reserved size : Nat} (hs : size ≤ addressLimit) :
    headerLimit reserved < size ↔ 1 <<< (7 * reserved) - 1 < size := by
  unfold headerLimit
  by_cases h : 64 ≤ 7 * reserved
  · have hle := Leb128.one_shiftLeft_le h
    have h64 : 1 <<< 64 = UInt64.size := by decide
    have hlim : addressLimit = UInt64.size - 1 := rfl
    rw [if_pos h]
    omega
  · rw [if_neg h]

theorem headerLimit_of_lt {reserved size : Nat} (hs : size ≤ addressLimit)
    (h : headerLimit reserved < size) : headerLimit reserved = 1 <<< (7 * reserved) - 1 := by
  have hlim : addressLimit = UInt64.size - 1 := rfl
  unfold headerLimit at *
  split at h
  · omega
  · rw [if_neg ‹_›]

/-- A tree is written exactly when no encoded body is too long for its header, as long as the stream
finds addresses. Then the stream holds the encoding behind what it held before, and the sizes are
the lengths of the encoded bodies. Otherwise the first body that is too long ends the writing: the
finish of its block is refused and changes nothing, so the stream holds what had been written when
the block was to be finished. -/
theorem AtEnd.writes_encoding {f : Framing} {w : Writer} {t : Tape} {out : List UInt8}
    (hw : AtEnd w t out) (hr : 0 < f.reserved) (c : Content) :
    ((∃ sizes s, f.write c (t, w) = .ok sizes s) ↔ out.length + c.peak f ≤ addressLimit ∧
      ∀ size ∈ c.sizes f, size ≤ 1 <<< (7 * f.reserved) - 1) ∧
    (∀ sizes t' w', f.write c (t, w) = .ok sizes (t', w') →
      sizes = c.sizes f ∧ AtEnd w' t' (out ++ c.encode f) ∧ w'.address = t'.fill ∧
        ∀ a < out.length, t'.byte? a = t.byte? a) ∧
    (out.length + c.peak f ≤ addressLimit → ∀ size,
      (c.sizes f).find? (1 <<< (7 * f.reserved) - 1 < ·) = some size →
        ∃ header t' w', f.writeCut c (t, w) = .ok (some header) (t', w') ∧
          f.finishBlock header (t', w') =
            .error (.blockTooLarge size (1 <<< (7 * f.reserved) - 1)) (t', w') ∧
          f.write c (t, w) =
            .error (.blockTooLarge size (1 <<< (7 * f.reserved) - 1)) (t', w') ∧
          AtEnd w' t' (out ++ c.cut f) ∧ ∀ a < out.length, t'.byte? a = t.byte? a) := by
  have hle : out.length + c.peak f ≤ addressLimit → ∀ size ∈ c.sizes f, size ≤ addressLimit := by
    intro hroom size hs
    have := c.le_peak_of_mem_sizes f size hs
    omega
  have hwhole : ∀ sizes t' w', f.write c (t, w) = .ok sizes (t', w') →
      out.length + c.peak f ≤ addressLimit ∧ c.tooLarge? f = none ∧ sizes = c.sizes f ∧
        AtEnd w' t' (out ++ c.encode f) ∧ t.Grows t' := by
    intro sizes t' w' h
    obtain ⟨hroom, hnone⟩ := hw.room_of_write c hr h
    obtain ⟨t₁, w₁, he, hw₁, hg⟩ := (hw.write c hr hroom).1 hnone
    cases h.symm.trans he
    exact ⟨hroom, hnone, rfl, hw₁, hg⟩
  refine ⟨⟨?_, ?_⟩, ?_, ?_⟩
  · rintro ⟨sizes, ⟨t', w'⟩, h⟩
    obtain ⟨hroom, hnone, -⟩ := hwhole sizes t' w' h
    refine ⟨hroom, ?_⟩
    intro size hs
    apply Nat.le_of_not_lt
    rw [← headerLimit_lt_iff (hle hroom size hs)]
    simpa using List.find?_eq_none.1 hnone size hs
  · rintro ⟨hroom, hfit⟩
    have hnone : c.tooLarge? f = none := by
      apply List.find?_eq_none.2
      intro size hs
      rw [decide_eq_true_iff, headerLimit_lt_iff (hle hroom size hs)]
      exact Nat.not_lt.2 (hfit size hs)
    obtain ⟨t', w', h, -⟩ := (hw.write c hr hroom).1 hnone
    exact ⟨_, _, h⟩
  · intro sizes t' w' h
    obtain ⟨-, -, hsizes, hw', hg⟩ := hwhole sizes t' w' h
    exact ⟨hsizes, hw', hw'.atEnd.trans hw'.carries.fill.symm,
      fun a ha => hw.carries.byte?_eq hw'.carries hg ha⟩
  · intro hroom size hs
    have hmem := hle hroom size (List.mem_of_find?_eq_some hs)
    have hlong : 1 <<< (7 * f.reserved) - 1 < size := by simpa using List.find?_some hs
    have hlt := (headerLimit_lt_iff hmem).2 hlong
    rw [← headerLimit_of_lt hmem hlt] at hs ⊢
    obtain ⟨header, t', w', hcut, hfin, he, hw', hg⟩ := (hw.write c hr hroom).2 size hs
    exact ⟨header, t', w', hcut, hfin, he, hw',
      fun a ha => hw.carries.byte?_eq hw'.carries hg ha⟩

/-- Two bytes in a block, behind a third one in the block around it. -/
def Content.nested : Content :=
  .block (.bytes [1] (.block (.bytes [2, 3] .done) .done)) .done

/-- A block with as many bytes. -/
def Content.zeros (n : Nat) : Content := .block (.bytes (List.replicate n 0) .done) .done

/-- On pages of two bytes, a block in a block is written with the shortest headers, and one of 128
bytes is refused by a header of one chunk, which stays empty. -/
theorem AtEnd.writes_encoding_nested :
    (∃ t w, Framing.write { reserved := 3, minimize := true } .nested
        (.blank 2, Cursor.writerOn (.blank 2) .byte) = .ok [2, 4] (t, w) ∧
      AtEnd w t [4, 1, 2, 2, 3]) ∧
    ∃ t w, Framing.write { reserved := 1 } (.zeros 128)
        (.blank 2, Cursor.writerOn (.blank 2) .byte) =
      .error (.blockTooLarge 128 127) (t, w) ∧ AtEnd w t (0 :: List.replicate 128 0) := by
  constructor
  · obtain ⟨hiff, hwrote, -⟩ := (AtEnd.blank 2).writes_encoding
      (f := { reserved := 3, minimize := true }) (by decide) .nested
    obtain ⟨sizes, ⟨t, w⟩, h⟩ := hiff.2 ⟨by decide +kernel, by decide +kernel⟩
    obtain ⟨hsizes, hw, -⟩ := hwrote _ _ _ h
    have hlengths : Content.nested.sizes { reserved := 3, minimize := true } = [2, 4] := by
      decide +kernel
    have hbytes : Content.nested.encode { reserved := 3, minimize := true } = [4, 1, 2, 2, 3] := by
      decide +kernel
    rw [hsizes, hlengths] at h
    rw [hbytes] at hw
    exact ⟨t, w, h, hw⟩
  · obtain ⟨-, -, hcut⟩ := (AtEnd.blank 2).writes_encoding (f := { reserved := 1 }) (by decide)
      (.zeros 128)
    obtain ⟨-, t, w, -, -, h, hw, -⟩ := hcut (by decide +kernel) 128 (by decide +kernel)
    have hbytes : (Content.zeros 128).cut { reserved := 1 } = 0 :: List.replicate 128 0 := by
      decide +kernel
    rw [hbytes] at hw
    exact ⟨t, w, h, hw⟩

end Transcoder

import Transcoder.Proofs.Cursor.Sound
import Transcoder.Proofs.Leb128.Bytes

/-!
# Writing over a stream

A sound byte writer outside all blocks puts its bytes over the stream that its tape carries,
wherever in it the writer stands: at its end they are added, before it they replace what is there.
Only the end of the address space stops it.

Results:
* `Writes.all`: a list of bytes, put over the stream as a whole or as far as addresses go.
* `Writes.value`: a value is added whole or not at all.
-/
namespace Transcoder

section Bind

variable {ε σ α β : Type} {act : EStateM ε σ α} {next : α → EStateM ε σ β} {s s' : σ}

theorem bind_of_ok {a : α} (h : act s = .ok a s') : (act >>= next) s = next a s' := by
  simp only [bind, EStateM.bind, h]

theorem bind_of_error {e : ε} (h : act s = .error e s') : (act >>= next) s = .error e s' := by
  simp only [bind, EStateM.bind, h]

theorem of_bind_ok {b : β} (h : (act >>= next) s = .ok b s') :
    ∃ a s₁, act s = .ok a s₁ ∧ next a s₁ = .ok b s' := by
  simp only [bind, EStateM.bind] at h
  split at h
  · exact ⟨_, _, ‹_›, h⟩
  · simp at h

theorem get_bind {next : σ → EStateM ε σ β} : ((get : EStateM ε σ σ) >>= next) s = next s s := rfl

theorem discard_of_ok {a : α} (h : act s = .ok a s') :
    (discard act : EStateM ε σ PUnit) s = .ok () s' := by
  simp only [Functor.discard, Functor.mapConst, EStateM.map, Function.comp, h, Function.const]

theorem discard_of_error {e : ε} (h : act s = .error e s') :
    (discard act : EStateM ε σ PUnit) s = .error e s' := by
  simp only [Functor.discard, Functor.mapConst, EStateM.map, Function.comp, h]

end Bind

/-- The writer stands inside or at the end of the stream `out` on its tape, and no end is set. -/
structure Writes (w : Writer) (t : Tape) (out : List UInt8) : Prop where
  sound : w.Sound t
  bounds : w.bounds = []
  carries : t.Carries out
  eof : t.eof = none
  start_le : t.start ≤ w.address
  le : w.address ≤ out.length

/-- The error of a write that leaves the address space. -/
def outOfSpace : StreamError := .writeAfterEnd addressLimit addressLimit

namespace Writes

variable {w : Writer} {t : Tape} {out : List UInt8}

theorem stop (h : Writes w t out) : w.stop t = .unbounded := by
  simp only [Cursor.stop, h.bounds, List.headD_nil, Tape.endPosition, h.eof]

theorem boundaryError (h : Writes w t out) :
    w.boundaryError t (.ofByte w.address) = .writeAfterEnd w.address addressLimit := by
  simp [Cursor.boundaryError, h.bounds, Tape.endPosition, h.eof, Position.byte_unbounded]

/-- The tape and the writer after a byte. -/
theorem place (h : Writes w t out) {page : Nat} (hp : t.firstPage ≤ page) (hp' : page < t.endPage)
    (b : UInt8) (hpage : w.page = some page) (hon : t.pageOf w.address = page) :
    ∃ t' w', Cursor.place b (t, w) = .ok () (t', w') ∧ Writes w' t' (overwrite out w.address [b]) ∧
      w'.address = w.address + 1 ∧ t.Grows t' := by
  have hg := Tape.store_grows h.start_le b
  have hr : t.resident (t.pageOf w.address) = true := by
    rw [hon]
    simp [Tape.resident, hp, hp']
  refine ⟨_, _, by rw [Cursor.place, if_pos (by simp [Cursor.holds, hpage, hon])], ?_, rfl, hg⟩
  refine ⟨h.sound.next.keeps hg, h.bounds, h.carries.store h.start_le h.le hr b,
    hg.eof.trans h.eof, ?_, ?_⟩
  · rw [hg.start]
    exact Nat.le_succ_of_le h.start_le
  · rw [length_overwrite h.le]
    exact Nat.le_max_right ..

/-- Only the cache changes. -/
theorem refresh (h : Writes w t out) {page : Nat} (hp : t.firstPage ≤ page)
    (hp' : page < t.endPage) :
    Writes (({ w with page := some page } : Writer).refresh t) t out :=
  ⟨Cursor.sound_refresh_page h.sound hp hp', h.bounds, h.carries, h.eof, h.start_le, h.le⟩

theorem grow (h : Writes w t out) (page : Nat) : Writes w (t.grow page) out :=
  have hg := Tape.grow_grows (t := t) page
  ⟨h.sound.keeps hg, h.bounds,
    ⟨h.carries.whole, Tape.paged_grow h.carries.paged page, h.carries.fill,
      h.carries.shows.grow page⟩, h.eof, h.start_le, h.le⟩

theorem writeByte_eq (h : Writes w t out) (b : UInt8) :
    Cursor.writeByte b (t, w) = Cursor.store b (t, w) := by
  simp [Cursor.writeByte, h.sound.aligned, h.sound.stopsWithin]

theorem not_fast (h : Writes w t out) (hs : addressLimit ≤ w.address) : w.fast t = false := by
  cases hf : w.fast t with
  | false => rfl
  | true =>
    have := (h.sound.of_fast hf).2.1
    rw [h.stop, Position.byte_unbounded] at this
    omega

/-- A byte goes over the one at the writer, as long as there are addresses. -/
theorem writeByte (h : Writes w t out) (hs : w.address < addressLimit) (b : UInt8) :
    ∃ t' w', Cursor.writeByte b (t, w) = .ok () (t', w') ∧
      Writes w' t' (overwrite out w.address [b]) ∧ w'.address = w.address + 1 ∧ t.Grows t' := by
  rw [h.writeByte_eq, Cursor.store]
  by_cases hf : w.fast t = true
  · obtain ⟨hh, -, -⟩ := h.sound.of_fast hf
    rw [if_pos hf]
    simp only [Cursor.holds, beq_iff_eq] at hh
    obtain ⟨h1, h2⟩ := h.sound.page _ hh
    exact h.place h1 h2 b hh rfl
  · rw [if_neg hf, Cursor.storeSlow, h.carries.whole, if_neg (by decide), h.sound.checkByte,
      h.stop, Position.byte_unbounded, if_pos hs]
    simp only
    by_cases hh : w.holds t w.address = true
    · rw [if_pos hh]
      simp only [Cursor.holds, beq_iff_eq] at hh
      obtain ⟨h1, h2⟩ := h.sound.page _ hh
      have hr := h.refresh h1 h2
      rw [← hh] at hr
      exact hr.place h1 h2 b hh rfl
    · have hp := Tape.firstPage_le_pageOf.2 h.start_le
      rw [if_neg hh, Tape.checkWritable, h.carries.whole, if_neg (by decide), h.eof,
        Option.filter_none]
      simp only
      rw [if_neg (by omega)]
      have hg := Tape.grow_grows (t := t) (t.pageOf w.address)
      have h2 := t.lt_endPage_grow (t.pageOf w.address)
      have hr := (h.grow (t.pageOf w.address)).refresh hp h2
      obtain ⟨t', w', he, hw, ha, hg'⟩ := hr.place hp h2 b rfl rfl
      exact ⟨t', w', he, hw, ha, hg.trans hg'⟩

/-- Past the last address nothing is written. -/
theorem writeByte_outOfSpace (h : Writes w t out) (hs : w.address = addressLimit) (b : UInt8) :
    Cursor.writeByte b (t, w) = .error outOfSpace (t, w) := by
  rw [h.writeByte_eq, Cursor.store, h.not_fast (by omega), if_neg (by decide), Cursor.storeSlow,
    h.carries.whole, if_neg (by decide), h.sound.checkByte, h.stop, Position.byte_unbounded,
    if_neg (by omega), h.boundaryError, hs]
  rfl

/-- Bytes go over those from the writer on. -/
theorem all {bytes : List UInt8} (h : Writes w t out)
    (hl : w.address + bytes.length ≤ addressLimit) :
    ∃ t' w', bytes.forM Cursor.writeByte (t, w) = .ok () (t', w') ∧
      Writes w' t' (overwrite out w.address bytes) ∧ w'.address = w.address + bytes.length ∧
      t.Grows t' := by
  induction bytes generalizing w t out with
  | nil => exact ⟨t, w, rfl, by rwa [overwrite_nil], rfl, .refl t⟩
  | cons b rest ih =>
    rw [List.length_cons] at hl ⊢
    obtain ⟨t₁, w₁, he₁, h₁, ha₁, hg₁⟩ := h.writeByte (by omega) b
    obtain ⟨t', w', he, h', ha, hg⟩ := ih h₁ (by omega)
    rw [ha₁, overwrite_cons h.le] at h'
    refine ⟨t', w', ?_, h', by omega, hg₁.trans hg⟩
    simp only [List.forM_eq_forM, List.forM_cons, bind, EStateM.bind, he₁]
    exact he

/-- Where addresses run out, the bytes before that are written. -/
theorem all_outOfSpace {bytes : List UInt8} (h : Writes w t out) (hw : w.address ≤ addressLimit)
    (hl : addressLimit < w.address + bytes.length) :
    ∃ t' w', bytes.forM Cursor.writeByte (t, w) = .error outOfSpace (t', w') ∧
      Writes w' t' (overwrite out w.address (bytes.take (addressLimit - w.address))) ∧
      t.Grows t' := by
  induction bytes generalizing w t out with
  | nil => exact absurd hl (by simpa using hw)
  | cons b rest ih =>
    rw [List.length_cons] at hl
    simp only [List.forM_eq_forM, List.forM_cons, bind, EStateM.bind]
    by_cases hlt : w.address < addressLimit
    · obtain ⟨t₁, w₁, he₁, h₁, ha₁, hg₁⟩ := h.writeByte hlt b
      obtain ⟨t', w', he, h', hg⟩ := ih h₁ (by omega) (by omega)
      rw [ha₁, overwrite_cons h.le] at h'
      refine ⟨t', w', by rw [he₁]; exact he, ?_, hg₁.trans hg⟩
      rwa [show addressLimit - w.address = addressLimit - (w.address + 1) + 1 by omega]
    · have he : w.address = addressLimit := by omega
      refine ⟨t, w, by rw [h.writeByte_outOfSpace he], ?_, .refl t⟩
      rwa [he, Nat.sub_self, List.take_zero, overwrite_nil]

end Writes

/-! ## Values at the end of the stream -/

/-- The writer stands at the end of the stream. -/
structure AtEnd (w : Writer) (t : Tape) (out : List UInt8) : Prop extends Writes w t out where
  atEnd : w.address = out.length
  room : out.length ≤ addressLimit

namespace AtEnd

variable {w : Writer} {t : Tape} {out : List UInt8}

/-- Bytes that the address space has room for are added to the stream. -/
theorem all {bytes : List UInt8} (h : AtEnd w t out)
    (hl : out.length + bytes.length ≤ addressLimit) :
    ∃ t' w', bytes.forM Cursor.writeByte (t, w) = .ok () (t', w') ∧ AtEnd w' t' (out ++ bytes) ∧
      t.Grows t' := by
  obtain ⟨t', w', he, hw, ha, hg⟩ := h.toWrites.all (h.atEnd.symm ▸ hl)
  rw [h.atEnd, overwrite_length] at hw
  rw [h.atEnd, ← List.length_append] at ha
  exact ⟨t', w', he, ⟨hw, ha, by rwa [List.length_append]⟩, hg⟩

/-- Of others, as many as the address space has room for. -/
theorem all_outOfSpace {bytes : List UInt8} (h : AtEnd w t out)
    (hl : addressLimit < out.length + bytes.length) :
    ∃ t' w', bytes.forM Cursor.writeByte (t, w) = .error outOfSpace (t', w') ∧
      t'.Carries (out ++ bytes.take (addressLimit - out.length)) ∧ t.Grows t' := by
  obtain ⟨t', w', he, hw, hg⟩ := h.toWrites.all_outOfSpace (h.atEnd.symm ▸ h.room)
    (h.atEnd.symm ▸ hl)
  rw [h.atEnd, overwrite_length] at hw
  exact ⟨t', w', he, hw.carries, hg⟩

theorem writeValue_misfit {kind : IntKind} {word : UInt64} (hf : kind.fits word = false) :
    Cursor.writeValue kind word (t, w) = .error (.valueOutOfRange kind word) (t, w) := by
  rw [Cursor.writeValue, if_neg (by simp [hf])]
  rfl

/-- A value that the address space has room for is added to the stream. -/
theorem writeValue {kind : IntKind} {word : UInt64} (h : AtEnd w t out)
    (hf : kind.fits word = true) (hl : out.length + (kind.bytes word).length ≤ addressLimit) :
    ∃ t' w', Cursor.writeValue kind word (t, w) = .ok () (t', w') ∧
      AtEnd w' t' (out ++ kind.bytes word) ∧ t.Grows t' := by
  obtain ⟨t', w', he, hw, hg⟩ := h.all hl
  refine ⟨t', w', ?_, hw, hg⟩
  rw [Cursor.writeValue, if_pos hf]
  simp only [Writing.mapError, Cursor.stageWhole, Cursor.stageValue_eq, he, Cursor.wholly]

/-- Any other value leaves the stream as it was. -/
theorem writeValue_outOfSpace {kind : IntKind} {word : UInt64} (h : AtEnd w t out)
    (hf : kind.fits word = true) (hl : addressLimit < out.length + (kind.bytes word).length) :
    ∃ t' w', Cursor.writeValue kind word (t, w) = .error (.stream outOfSpace) (t', w') ∧
      t'.Carries out ∧ t.Grows t' := by
  obtain ⟨t₁, w₁, he, hc, hg⟩ := h.all_outOfSpace hl
  have hs : t₁.start ≤ t.fill := by
    rw [hg.start, h.carries.fill]
    exact h.atEnd ▸ h.start_le
  rw [Cursor.writeValue, if_pos hf]
  simp only [Writing.mapError, Cursor.stageWhole, Cursor.stageValue_eq, he, Cursor.wholly]
  obtain ⟨ht, hcut⟩ := hc.truncate hs
  rw [h.carries.fill, List.take_left] at hcut
  by_cases hlt : t.fill < t₁.fill
  · rw [if_pos hlt, ht, h.carries.fill]
    exact ⟨_, _, rfl, hcut, hg.trans (Tape.refill_grows ..)⟩
  · rw [if_neg hlt]
    refine ⟨_, _, rfl, ?_, hg⟩
    have hf := hc.fill
    rw [h.carries.fill, hf, List.length_append] at hlt
    have hnil : (kind.bytes word).take (addressLimit - out.length) = [] :=
      List.length_eq_zero_iff.1 (by omega)
    rwa [hnil, List.append_nil] at hc

end AtEnd

end Transcoder

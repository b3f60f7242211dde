import Transcoder.Proofs.Cursor.Faltering
import Transcoder.Proofs.Cursor.Loading
import Transcoder.Proofs.Value.Completing

/-!
# What cursors are not refused for

All reads and writes come down to single bytes, taken from a page or put there. So what a cursor is
not refused for at a single byte, it is not refused for at all, provided that it stays fit for that
while it goes on. A `Guard` says so of fit cursors and of the reasons that it keeps away.

Results:
* `Guard.not_of_readByte`, `Guard.not_of_resume` and others: reads.
* `Guard.safe_writeByte`, `Guard.safe_writeValue` and others: writes.
-/
namespace Transcoder

/-- The error is about the page of a byte: it is not there, or another one was looked at. -/
def StreamError.ofPage : StreamError → Bool
  | brokenCursor _ | outsidePage _ => true
  | _ => false

/-- The stream refuses to go on, for one of these reasons. -/
inductive EncodeError.Of (bad : StreamError → Prop) : EncodeError → Prop
  | stream {e : StreamError} (h : bad e) : Of bad (.stream e)

/-- The stream refuses to go on, for one of these reasons. -/
inductive DecodeError.Of (bad : StreamError → Prop) : DecodeError → Prop
  | stream {e : StreamError} (h : bad e) : Of bad (.stream e)

theorem StreamError.not_ofPage_of_malformed {e : StreamError} (h : e.malformed = true) :
    e.ofPage = false := by
  cases e <;> first | rfl | cases h

/-- Cursors that are `fit` stay so whatever is read and written, and no byte is refused to them for
one of the `bad` reasons, all of which are about pages. -/
structure Guard (fit : {role : Role} → Cursor role → Tape → Prop) (bad : StreamError → Prop) :
    Prop where
  ofPage : ∀ {e : StreamError}, bad e → e.ofPage = true
  kept : ∀ {w : Writer} {t : Tape}, fit w t → w.Kept t
  stores : ∀ {t t' : Tape} {w w' : Writer}, fit w t → Stores (t, w) (t', w') → fit w' t'
  loads : ∀ {t : Tape} {c c' : Reader}, fit c t → Loads t c c' → fit c' t
  /-- A reader beside a writer stays fit. -/
  beside : ∀ {t t' : Tape} {w w' : Writer} {c : Reader}, fit w t → fit c t →
    Stores (t, w) (t', w') → fit c t'
  /-- A reader at a fit writer or behind it is fit. -/
  ahead : ∀ {t : Tape} {w : Writer} {address : Nat}, fit w t → w.address ≤ address →
    fit (w.readerOver address) t
  fetch : ∀ {t : Tape} {c : Reader} {e : StreamError}, fit c t → c.fetch t = .error e → ¬bad e
  store : ∀ {t : Tape} {w : Writer} {e : StreamError}, fit w t → w.checkStore t = .error e →
    ¬bad e
  /-- A stream can be cut off where it ends and where a fit writer stands. -/
  cut : ∀ {t : Tape} {w : Writer} {address : Nat} {e : StreamError}, fit w t →
    address = t.fill ∨ address = w.address → t.truncate address = .error e → ¬bad e

namespace Cursor

variable {role : Role} {t : Tape} {e : StreamError}

theorem not_ofPage_boundaryError (c : Cursor role) (t : Tape) (p : Position) :
    (c.boundaryError t p).ofPage = false := by
  unfold boundaryError
  split <;> rfl

theorem not_ofPage_of_checkByte {c : Cursor role} (h : c.checkByte t = .error e) :
    e.ofPage = false := by
  rw [checkByte] at h
  split at h
  · cases h
  · cases h
    exact c.not_ofPage_boundaryError t _

theorem not_ofPage_of_checkBit {c : Cursor role} (h : c.checkBit t = .error e) :
    e.ofPage = false := by
  rw [checkBit] at h
  split at h
  · cases h
    rfl
  · split at h
    · cases h
    · cases h
      exact c.not_ofPage_boundaryError t _

end Cursor

namespace Guard

variable {fit : {role : Role} → Cursor role → Tape → Prop} {bad : StreamError → Prop}

theorem not_of_ofPage (g : Guard fit bad) {e : StreamError} (h : e.ofPage = false) : ¬bad e := by
  intro hbad
  rw [g.ofPage hbad] at h
  cases h

/-! ## Reads -/

section

variable {t : Tape} {c c' : Reader} {e : StreamError}

theorem not_of_readBit (g : Guard fit bad) (hc : fit c t) (h : c.readBit t = .error e) :
    ¬bad e := by
  simp only [Cursor.readBit, bind, Except.bind] at h
  split at h
  · cases h
    exact g.not_of_ofPage (Cursor.not_ofPage_of_checkBit ‹_›)
  · split at h
    · cases h
    · split at h
      · cases h
        exact g.fetch hc ‹_›
      · cases h

theorem not_of_readBitsUntil (g : Guard fit bad) {n : Nat} {bits : List Bool} (hc : fit c t)
    (h : Cursor.readBitsUntil t n c bits = (.error e, c')) : ¬bad e := by
  induction n generalizing c bits with
  | zero => cases h
  | succ n ih =>
    rw [Cursor.readBitsUntil] at h
    cases hbit : c.readBit t with
    | error e' =>
      rw [hbit] at h
      cases h
      exact g.not_of_readBit hc hbit
    | ok r =>
      rw [hbit] at h
      exact ih (g.loads hc (Cursor.loads_readBit hbit)) h

theorem not_of_readBitList (g : Guard fit bad) {n : Nat} (hc : fit c t)
    (h : c.readBitList t n = (.error e, c')) : ¬bad e := by
  rw [Cursor.readBitList] at h
  split at h
  · cases h
  · cases h
    exact g.not_of_readBitsUntil hc ‹_›

theorem not_of_readBits (g : Guard fit bad) {count : Nat} (hc : fit c t)
    (h : c.readBits t count = (.error e, c')) : ¬bad e := by
  rw [Cursor.readBits] at h
  split at h
  · cases h
  · cases h
    exact g.not_of_readBitList hc ‹_›

theorem not_of_readByte (g : Guard fit bad) (hc : fit c t)
    (h : c.readByte t = (.error e, c')) : ¬bad e := by
  rw [Cursor.readByte] at h
  split at h
  · split at h
    · cases h
    · cases h
      exact g.fetch hc ‹_›
  · split at h
    · cases h
    · cases h
      exact g.not_of_readBitList hc ‹_›

theorem not_of_resume (g : Guard fit bad) {p p' : PartialValue} (hc : fit c t)
    (h : c.resume t p = (.error e, c', p')) : ¬bad e := by
  fun_induction Cursor.resume t c p with
  | case1 c p e₁ c₁ hb =>
    cases h
    exact g.not_of_readByte hc hb
  | case2 c p b c₁ hb e₁ p₁ hf =>
    cases h
    exact g.not_of_ofPage (StreamError.not_ofPage_of_malformed (PartialValue.malformed_of_feed hf))
  | case3 => cases h
  | case4 c p b c₁ hb p₁ hf _ ih =>
    have hloads := c.loads_readByte t
    rw [hb] at hloads
    exact ih (g.loads hc hloads) h

variable {e : DecodeError}

theorem not_of_readValue (g : Guard fit bad) {kind : IntKind} (hc : fit c t)
    (h : c.readValue t kind = .error e) : ¬e.Of bad := by
  rw [Cursor.readValue] at h
  split at h
  · cases h
  · cases h
    rintro ⟨hbad⟩
    exact g.not_of_resume hc ‹_› hbad

theorem not_of_readNode (g : Guard fit bad) {node : Node} (hc : fit c t)
    (h : c.readNode t node = .error e) : ¬e.Of bad := by
  rw [Cursor.readNode] at h
  split at h
  · exact g.not_of_readValue hc h
  · cases h
    rintro ⟨⟩

theorem not_of_readSize (g : Guard fit bad) (hc : fit c t) (h : c.readSize t = .error e) :
    ¬e.Of bad := by
  rw [Cursor.readSize] at h
  cases hvalue : c.readValue t .varuint32 with
  | ok r =>
    rw [hvalue] at h
    cases h
  | error e' =>
    rw [hvalue] at h
    cases h
    exact g.not_of_readValue hc hvalue

end

/-! ## Writes -/

end Guard

namespace Writing

variable {fit : {role : Role} → Cursor role → Tape → Prop} {bad : StreamError → Prop}
  {ε ε' α : Type} {wrong : ε → Prop} {wrong' : ε' → Prop}

/-- Fit writers are not refused the action for one of the wrong reasons. -/
def Safe (fit : {role : Role} → Cursor role → Tape → Prop) (wrong : ε → Prop)
    (act : Writing ε α) : Prop :=
  ∀ ⦃t w e s⦄, fit w t → act (t, w) = .error e s → ¬wrong e

theorem safe_throw {e : ε} (h : ¬wrong e) : Safe fit wrong (throw e : Writing ε α) := by
  intro t w e' s _ hr
  cases hr
  exact h

theorem Safe.mapError {act : Writing ε α} (h : Safe fit wrong act) {f : ε → ε'}
    (hf : ∀ e, wrong' (f e) → wrong e) : Safe fit wrong' (act.mapError f) := by
  intro t w e s hw hr
  rw [Writing.mapError] at hr
  split at hr
  · cases hr
  · cases hr
    exact fun hb => h hw ‹_› (hf _ hb)

/-- As a step of encoding. -/
theorem Safe.stream {act : Writing StreamError α} (h : Safe fit bad act) :
    Safe fit (EncodeError.Of bad) (act.mapError .stream) := by
  refine h.mapError ?_
  rintro e ⟨hbad⟩
  exact hbad

end Writing

namespace Guard

open Writing

variable {fit : {role : Role} → Cursor role → Tape → Prop} {bad : StreamError → Prop}

theorem safe_forM {ε α : Type} {wrong : ε → Prop} {f : α → Writing ε Unit} (g : Guard fit bad)
    (hf : ∀ a, Safe fit wrong (f a)) (hs : ∀ a, Series (f a)) (as : List α) :
    Safe fit wrong (as.forM f) := by
  induction as with
  | nil =>
    intro t w e s _ hr
    cases hr
  | cons a rest ih =>
    intro t w e s hw hr
    have hr : (f a >>= fun _ => rest.forM f) (t, w) = .error e s := hr
    have hy := hs a (g.kept hw)
    generalize ha : f a (t, w) = r at hy
    cases hy with
    | ok h _ =>
      rw [bind_of_ok ha] at hr
      exact ih (g.stores hw h) hr
    | error h _ =>
      rw [bind_of_error ha] at hr
      cases hr
      exact hf a hw ha

theorem safe_store (g : Guard fit bad) (b : UInt8) : Safe fit bad (Cursor.store b) := by
  intro t w e s hw hr
  cases hc : w.checkStore t with
  | ok u =>
    rw [(g.kept hw).store_of_ok hc] at hr
    cases hr
  | error e' =>
    rw [Cursor.store_of_error hc] at hr
    cases hr
    exact g.store hw hc

theorem safe_writeBit (g : Guard fit bad) (bit : Bool) : Safe fit bad (Cursor.writeBit bit) := by
  intro t w e s hw hr
  rw [Cursor.writeBit] at hr
  cases hcheck : w.checkBit t with
  | error e' =>
    rw [hcheck] at hr
    cases hr
    exact g.not_of_ofPage (Cursor.not_ofPage_of_checkBit hcheck)
  | ok u =>
    rw [hcheck] at hr
    simp only at hr
    split at hr
    · split at hr
      · cases hr
      · cases hr
        exact g.safe_store _ hw ‹_›
    · cases hr

/-- What is taken back can be taken back. -/
theorem not_of_wholly (g : Guard fit bad) {t : Tape} {w : Writer} {back : Tape → Writer → Writer}
    {act : Writing StreamError Unit} {e : StreamError} {s : Tape × Writer} (hw : fit w t)
    (hseries : Series act) (hact : Safe fit bad act)
    (hr : Cursor.wholly t.fill back (act (t, w)) = .error e s) : ¬bad e := by
  have hy := hseries (g.kept hw)
  generalize ha : act (t, w) = r at hy hr
  cases hy with
  | ok _ _ => cases hr
  | @error e₁ t₁ w₁ h _ =>
    have hstart : t₁.start = t.start := (h.keeps (g.kept hw)).2.start
    rw [Cursor.wholly] at hr
    split at hr
    · split at hr
      · cases hr
        exact hact hw ha
      · rename_i e' hcut
        cases hr
        -- only the start of the tape has a say in that
        have hcut : t.truncate t.fill = .error e := by
          rw [Tape.truncate, hstart] at hcut
          rw [Tape.truncate]
          split at hcut
          · rw [if_pos ‹_›]
            cases hcut
            rfl
          · cases hcut
        exact g.cut hw (.inl rfl) hcut
    · cases hr
      exact hact hw ha

theorem safe_writeBitList (g : Guard fit bad) (bits : List Bool) :
    Safe fit bad (Cursor.writeBitList bits) := by
  intro t w e s hw hr
  have hseries (bit : Bool) : Series (Cursor.writeBit bit) :=
    (Cursor.putsWhole_writeBit bit).puts.series
  have hall := (puts_forM (fun bit => (Cursor.putsWhole_writeBit bit).puts) bits).series
  exact g.not_of_wholly hw hall (g.safe_forM g.safe_writeBit hseries bits) hr

theorem safe_writeBits (g : Guard fit bad) (word : UInt64) (count : Nat) :
    Safe fit bad (Cursor.writeBits word count) :=
  g.safe_writeBitList _

theorem safe_writeByte (g : Guard fit bad) (b : UInt8) : Safe fit bad (Cursor.writeByte b) := by
  intro t w e s hw hr
  rw [Cursor.writeByte] at hr
  split at hr
  · exact g.safe_store b hw hr
  · exact g.safe_writeBitList _ hw hr

theorem safe_writeBytes (g : Guard fit bad) (bytes : List UInt8) :
    Safe fit bad (Cursor.writeBytes bytes) :=
  g.safe_forM g.safe_writeByte (fun b => (Cursor.putsWhole_writeByte b).puts.series) bytes

theorem safe_alignWriter (g : Guard fit bad) : Safe fit bad Cursor.alignWriter := by
  intro t w e s hw hr
  rw [Cursor.alignWriter] at hr
  split at hr
  · cases hr
  · split at hr
    · cases hr
    · cases hr
      exact g.safe_store _ hw ‹_›

theorem safe_stageWhole (g : Guard fit bad) (kind : IntKind) (word : UInt64) :
    Safe fit bad (Cursor.stageWhole kind word) := by
  intro t w e s hw hr
  have hseries := (Cursor.puts_writeBytes (kind.bytes word)).series
  rw [Cursor.stageWhole, Cursor.stageValue_eq] at hr
  exact g.not_of_wholly hw hseries (g.safe_writeBytes _) hr

theorem safe_writeValue (g : Guard fit bad) (kind : IntKind) (word : UInt64) :
    Safe fit (EncodeError.Of bad) (Cursor.writeValue kind word) := by
  rw [Cursor.writeValue]
  split
  · exact (g.safe_stageWhole kind word).stream
  · exact safe_throw (by rintro ⟨⟩)

theorem safe_writeNode (g : Guard fit bad) (node : Node) (word : UInt64) :
    Safe fit (EncodeError.Of bad) (Cursor.writeNode node word) := by
  rw [Cursor.writeNode]
  split
  · exact g.safe_writeValue _ word
  · exact safe_throw (by rintro ⟨⟩)

theorem safe_writePaddedSize (g : Guard fit bad) (size reserved : Nat) :
    Safe fit (EncodeError.Of bad) (Cursor.writePaddedSize size reserved) := by
  rw [Cursor.writePaddedSize]
  split
  · exact safe_throw (by rintro ⟨⟩)
  · rw [Leb128.emitPadded_eq]
    exact (g.safe_writeBytes _).stream

theorem safe_writeSize (g : Guard fit bad) (size : Nat) :
    Safe fit (EncodeError.Of bad) (Cursor.writeSize size) :=
  (g.safe_writeBytes _).stream

theorem not_of_copyFrom (g : Guard fit bad) {n : Nat} {t : Tape} {source : Reader} {w : Writer}
    {e : StreamError} {s : Tape × Writer} (hw : fit w t) (hs : fit source t)
    (h : Cursor.copyFrom n source (t, w) = .error e s) : ¬bad e := by
  induction n generalizing source t w with
  | zero => cases h
  | succ n ih =>
    simp only [Cursor.copyFrom] at h
    have hloads := source.loads_readByte t
    cases hread : source.readByte t with
    | mk r source' =>
      rw [hread] at h hloads
      cases r with
      | error e' =>
        cases h
        exact g.not_of_readByte hs hread
      | ok b =>
        have hy := (Cursor.putsWhole_writeByte b).puts.series (g.kept hw)
        simp only at h
        generalize hb : Cursor.writeByte b (t, w) = r at h hy
        cases hy with
        | ok hstores _ =>
          exact ih (g.stores hw hstores) (g.beside hw (g.loads hs hloads) hstores) h
        | error _ _ =>
          cases h
          exact g.safe_writeByte b hw hb

theorem not_of_moveBlock (g : Guard fit bad) {start size : Nat} {t : Tape} {w : Writer}
    {e : EncodeError} {s : Tape × Writer} (hw : fit w t) (hs : fit (w.readerOver start) t)
    (h : Cursor.moveBlock start size (t, w) = .error e s) : ¬e.Of bad := by
  simp only [Cursor.moveBlock, Writing.mapError] at h
  split at h
  · cases h
  · cases h
    rintro ⟨hbad⟩
    exact g.not_of_copyFrom hw hs ‹_› hbad

theorem safe_beginBlock (g : Guard fit bad) (f : Framing) :
    Safe fit (EncodeError.Of bad) f.beginBlock := by
  intro t w e s hw hr
  rw [Framing.beginBlock] at hr
  split at hr
  · cases hr
  · cases hr
    exact g.safe_writePaddedSize 0 f.reserved hw ‹_›

end Guard

end Transcoder

import Mathlib.Data.List.Infix
import Transcoder.Proofs.Session.Reading
import Transcoder.Proofs.Value.Taking

/-!
# A value that comes in pieces

A value may be tried for before all of its bytes are there: an attempt takes the bytes that have
come, in the reader and in the partial value, and the next attempt goes on behind them. Between two
attempts more bytes come, or the end of the stream is fixed.

Every attempt is what the usable bytes make of the value (`OnStream.resume`), and what comes only
adds to what was usable. So attempt by attempt the value becomes what all the bytes together make of
it.

Results:
* `OnStream.supply`, `OnStream.usable_supply`: whatever comes, a reader reads on, and its bytes stay
  usable.
* `OnStream.attempts`: attempts come to what one attempt at the end would have come to.
* `attempts_as_one`: so they end as one read of the whole stream, and what that is.
-/
namespace Transcoder

/-- What comes between two attempts. -/
inductive Supply where
  | bytes (piece : List UInt8)
  /-- The end of the stream is fixed. -/
  | ending (address : Nat)
  deriving DecidableEq, Repr

namespace Tape

/-- The tape when it has come. -/
def supply (t : Tape) : Supply → Tape
  | .bytes piece => (t.append piece).2
  | .ending address =>
    match t.fixEnd address with
    | .ok t' => t'
    | .error _ => t

/-- The bytes that have got through. -/
def gains (t : Tape) : Supply → List UInt8
  | .bytes piece =>
    match (t.append piece).1 with
    | .ok _ => piece
    | .error _ => []
  | .ending _ => []

def supplyAll (t : Tape) : List Supply → Tape
  | [] => t
  | s :: rest => (t.supply s).supplyAll rest

def gainsAll (t : Tape) : List Supply → List UInt8
  | [] => []
  | s :: rest => t.gains s ++ (t.supply s).gainsAll rest

/-- No byte gets through behind a fixed end. -/
def BytesFirst (t : Tape) : List Supply → Prop
  | [] => True
  | s :: rest => (t.eof.isSome = true → t.gains s = []) ∧ (t.supply s).BytesFirst rest

end Tape

/-- Tries for the rest of a value, and again after each supply, until it is there or the error is
not one to try again after. -/
def Cursor.attempts (again : StreamError → Bool) (t : Tape) (c : Reader) (p : PartialValue) :
    List Supply → Except StreamError UInt64 × Reader × PartialValue
  | [] => c.resume t p
  | s :: rest =>
    match c.resume t p with
    | (.ok w, c, p) => (.ok w, c, p)
    | (.error e, c, p) =>
      if again e then attempts again (t.supply s) c p rest else (.error e, c, p)

/-- It is tried again at least when bytes are still to come, and never once a value is spoilt. -/
structure Retries (again : StreamError → Bool) : Prop where
  suspended : ∀ e, e.suspends = true → again e = true
  spoilt : ∀ e, e.malformed = true → again e = false

theorem retries_suspends : Retries StreamError.suspends :=
  ⟨fun _ h => h, fun _ h => StreamError.suspends_of_malformed h⟩

/-! ## More of the stream -/

/-- The end is fixed behind all that the span of a reader lets through. -/
theorem Cursor.Sound.ended {c : Reader} {t : Tape} (h : c.Sound t) {address : Nat}
    (hle : t.fill ≤ address) : c.Sound { t with eof := some address } := by
  refine ⟨h.grain, h.bits, h.page, fun a ha hs => ?_⟩
  obtain ⟨h1, h2, h3⟩ := h.span a ha hs
  refine ⟨h1, ?_, h3⟩
  cases hb : c.bounds with
  | nil =>
    simp only [Cursor.stop, hb, List.headD_nil, Tape.endPosition, Position.byte_ofByte]
    exact Nat.lt_of_lt_of_le (h3 rfl) hle
  | cons p outer =>
    simp only [Cursor.stop, hb, List.headD_cons] at h2 ⊢
    exact h2

namespace Tape

variable {t : Tape} {e : Nat}

/-- An end that is fixed stays where it is. -/
theorem eof_supply (h : t.eof = some e) (s : Supply) : (t.supply s).eof = some e := by
  cases s with
  | bytes piece => exact (t.append_grows piece).eof.trans h
  | ending address =>
    rw [supply]
    cases hf : t.fixEnd address with
    | error x => exact h
    | ok t' =>
      obtain ⟨rfl, -, hsame⟩ := of_fixEnd hf
      exact congrArg some (hsame e h).symm

theorem eof_supplyAll (h : t.eof = some e) (supplies : List Supply) :
    (t.supplyAll supplies).eof = some e := by
  induction supplies generalizing t with
  | nil => exact h
  | cons s rest ih => exact ih (eof_supply h s)

theorem BytesFirst.gainsAll {supplies : List Supply} (h : t.BytesFirst supplies)
    (he : t.eof = some e) : t.gainsAll supplies = [] := by
  induction supplies generalizing t with
  | nil => rfl
  | cons s rest ih =>
    rw [Tape.gainsAll, h.1 (by rw [he]; rfl), ih h.2 (eof_supply he s)]
    rfl

end Tape

namespace OnStream

variable {c : Reader} {t : Tape} {stream : List UInt8}

/-- Whatever comes, a reader reads on. -/
theorem supply (h : OnStream c t stream) (s : Supply) :
    OnStream c (t.supply s) (stream ++ t.gains s) := by
  cases s with
  | bytes piece =>
    have hg := t.append_grows piece
    rw [Tape.supply, Tape.gains]
    cases ha : t.append piece with
    | mk r t' =>
      rw [ha] at hg
      have hw := hg.broken.trans h.whole
      have hs := Nat.le_trans (Nat.le_of_eq hg.start) h.start_le
      cases r with
      | ok n =>
        have hl := (h.lists.append ha).2
        refine ⟨hw, hl, h.sound.grows hg fun _ => ?_, hs⟩
        rw [h.lists.fill, hl.fill, List.length_append]
        exact Nat.le_add_right ..
      | error e =>
        have hstored := Tape.of_append_error ha
        simp only [List.append_nil]
        exact ⟨hw, h.lists.stored hstored,
          h.sound.grows hg fun _ => Nat.le_of_eq hstored.fill.symm, hs⟩
  | ending address =>
    simp only [Tape.supply, Tape.gains, List.append_nil]
    cases hf : t.fixEnd address with
    | error e => exact h
    | ok t' =>
      obtain ⟨rfl, hle, -⟩ := Tape.of_fixEnd hf
      exact ⟨h.whole, h.lists.flagged _ _, h.sound.ended hle, h.start_le⟩

/-- Bytes that are usable stay so. -/
theorem usable_supply (h : OnStream c t stream) (s : Supply) :
    c.usable t stream <+: c.usable (t.supply s) (stream ++ t.gains s) := by
  refine List.IsPrefix.drop ?_ _
  cases s with
  | bytes piece =>
    have hstop : c.stop (t.supply (.bytes piece)) = c.stop t := by
      rw [Cursor.stop, Cursor.stop, Tape.supply, (t.append_grows piece).endPosition]
    rw [hstop]
    exact (List.prefix_append ..).take _
  | ending address =>
    simp only [Tape.supply, Tape.gains, List.append_nil]
    cases hf : t.fixEnd address with
    | error e => exact List.prefix_refl _
    | ok t' =>
      obtain ⟨rfl, hle, -⟩ := Tape.of_fixEnd hf
      cases hb : c.bounds with
      | cons p outer =>
        simp only [Cursor.stop, hb, List.headD_cons]
        exact List.prefix_refl _
      | nil =>
        -- the end lies behind all bytes
        rw [h.lists.fill] at hle
        simp only [Cursor.stop, hb, List.headD_nil, Tape.endPosition, Position.byte_ofByte]
        rw [List.take_of_length_le hle]
        exact List.take_prefix ..

theorem supplyAll (h : OnStream c t stream) (supplies : List Supply) :
    OnStream c (t.supplyAll supplies) (stream ++ t.gainsAll supplies) := by
  induction supplies generalizing t stream with
  | nil =>
    rw [Tape.gainsAll, List.append_nil]
    exact h
  | cons s rest ih =>
    rw [Tape.gainsAll, ← List.append_assoc]
    exact ih (h.supply s)

theorem usable_supplyAll (h : OnStream c t stream) (supplies : List Supply) :
    c.usable t stream <+: c.usable (t.supplyAll supplies) (stream ++ t.gainsAll supplies) := by
  induction supplies generalizing t stream with
  | nil =>
    rw [Tape.gainsAll, List.append_nil]
    exact List.prefix_refl _
  | cons s rest ih =>
    rw [Tape.gainsAll, ← List.append_assoc]
    exact (h.usable_supply s).trans (ih (h.supply s))

end OnStream

/-- A reader finds the same ahead of it on both tapes: the same bytes, and behind them it is told the
same. -/
structure SameAhead (c : Reader) (t : Tape) (stream : List UInt8) (t' : Tape)
    (stream' : List UInt8) : Prop where
  usable : c.usable t' stream' = c.usable t stream
  barrier : t'.barrier c.bounds (c.address + (c.usable t stream).length) =
    t.barrier c.bounds (c.address + (c.usable t stream).length)

/-! ## Attempt by attempt -/

namespace ComesTo

variable {c : Reader} {t t' : Tape} {stream stream' : List UInt8} {p : PartialValue}
  {r r' : Except StreamError UInt64 × Reader × PartialValue}

/-- A value that was left open comes to what the next attempt comes to. -/
theorem trans (h : ComesTo c t stream p r)
    (hv : (p.takes (c.usable t stream)).verdict = none)
    (hu : c.usable t stream <+: c.usable t' stream') (k : ComesTo r.2.1 t' stream' r.2.2 r') :
    ComesTo c t' stream' p r' := by
  obtain ⟨more, hmore⟩ := hu
  have hcount := PartialValue.count_takes hv
  have haddress := h.address
  rw [hcount] at haddress
  have hrest : r.2.1.usable t' stream' = more := by
    rw [Cursor.usable, Cursor.stop, h.bounds, haddress, ← List.drop_drop, ← Cursor.stop,
      ← Cursor.usable, ← hmore, List.drop_left]
  have htakes := PartialValue.takes_append_of_open hv more
  rw [← h.partialValue, hmore, ← hrest] at htakes
  refine ⟨k.onStream, k.bounds.trans h.bounds, ?_, ?_, ?_⟩
  · rw [k.address, haddress, htakes, Taken.after, Nat.add_assoc]
  · rw [k.partialValue, htakes]
    rfl
  · rw [k.answer, h.bounds, haddress, htakes, Taken.after, Nat.add_assoc]

/-- A value that is settled stays so. -/
theorem settled (h : ComesTo c t stream p r)
    (hv : (p.takes (c.usable t stream)).verdict ≠ none)
    (hu : c.usable t stream <+: c.usable t' stream') (hr : OnStream r.2.1 t' stream') :
    ComesTo c t' stream' p r := by
  obtain ⟨more, hmore⟩ := hu
  have htakes := PartialValue.takes_append_of_settled hv more
  rw [hmore] at htakes
  refine ⟨hr, h.bounds, ?_, ?_, ?_⟩
  · rw [h.address, htakes]
  · rw [h.partialValue, htakes]
  · rw [h.answer, htakes]
    obtain ⟨v, hv⟩ := Option.ne_none_iff_exists'.1 hv
    rw [hv]
    rfl

/-- A refusal that stays is given again. -/
theorem stopped (h : ComesTo c t stream p r)
    (hv : (p.takes (c.usable t stream)).verdict = none) (hs : SameAhead c t stream t' stream')
    (hr : OnStream r.2.1 t' stream') : ComesTo c t' stream' p r := by
  have hbarrier := hs.barrier
  rw [← PartialValue.count_takes hv] at hbarrier
  refine ⟨hr, h.bounds, ?_, ?_, ?_⟩
  · rw [h.address, hs.usable]
  · rw [h.partialValue, hs.usable]
  · rw [h.answer, hs.usable, hbarrier]

end ComesTo

namespace OnStream

variable {c : Reader} {t t' : Tape} {stream stream' : List UInt8} {supplies : List Supply}

/-- Nothing more becomes usable where there are no more bytes before the innermost end. -/
theorem usable_eq_of_le (hu : c.usable t stream <+: c.usable t' stream')
    (hle : (c.stop t').byte ≤ c.address + (c.usable t stream).length ∨
      stream'.length ≤ c.address + (c.usable t stream).length) :
    c.usable t' stream' = c.usable t stream := by
  refine (hu.eq_of_length_le ?_).symm
  rw [Cursor.usable, List.length_drop, List.length_take]
  omega

/-- The end of the innermost block stays where it is. -/
theorem stays_of_block (h : OnStream c t stream) {stop : Position} {outer : List Position}
    (hb : c.bounds = stop :: outer)
    (hle : stop.byte ≤ c.address + (c.usable t stream).length) :
    SameAhead c t stream (t.supplyAll supplies) (stream ++ t.gainsAll supplies) := by
  refine ⟨usable_eq_of_le (h.usable_supplyAll supplies) (.inl ?_), ?_⟩
  · rw [Cursor.stop, hb, List.headD_cons]
    exact hle
  · rw [hb, Tape.barrier, Tape.barrier, List.headD_cons, List.headD_cons, if_pos hle, if_pos hle]

/-- Behind a fixed end no more bytes come. -/
theorem stays_of_eof (hf : t.BytesFirst supplies) {e : Nat} (he : t.eof = some e) :
    SameAhead c t stream (t.supplyAll supplies) (stream ++ t.gainsAll supplies) := by
  have he' := Tape.eof_supplyAll he supplies
  constructor
  · rw [hf.gainsAll he, List.append_nil, Cursor.usable, Cursor.usable, Cursor.stop, Cursor.stop,
      Tape.endPosition, Tape.endPosition, he, he']
  · unfold Tape.barrier Tape.missing Tape.endPosition
    rw [he, he']

/-- No stream reaches the last address. -/
theorem stays_of_limit (h : OnStream c t stream) (hb : c.bounds = [])
    (hle : addressLimit ≤ c.address + (c.usable t stream).length) (he : t.eof = none)
    (hfill : (t.supplyAll supplies).fill ≤ addressLimit) :
    SameAhead c t stream (t.supplyAll supplies) (stream ++ t.gainsAll supplies) := by
  refine ⟨usable_eq_of_le (h.usable_supplyAll supplies) (.inr ?_), ?_⟩
  · rw [← (h.supplyAll supplies).lists.fill]
    exact Nat.le_trans hfill hle
  · have hle := Position.byte_unbounded.symm ▸ hle
    rw [hb, Tape.barrier, Tape.barrier, List.headD_nil, List.headD_nil, Tape.endPosition,
      Tape.endPosition, Tape.missing, he, if_pos hle]
    cases (t.supplyAll supplies).eof with
    | none => exact if_pos hle
    | some e => simp [Source.boundaryError]

/-- A refusal after which it is not tried again stays, unless an end is fixed ahead of bytes that
still come, and after that it is tried again. -/
theorem stays (h : OnStream c t stream) {again : StreamError → Bool} (ha : Retries again)
    (hends : (∀ a, again (.endOfStream a) = true) ∨
      (t.BytesFirst supplies ∧ (t.supplyAll supplies).fill ≤ addressLimit))
    (hstop : again (t.barrier c.bounds (c.address + (c.usable t stream).length)) = false) :
    SameAhead c t stream (t.supplyAll supplies) (stream ++ t.gainsAll supplies) := by
  have hlast (q : Nat) (hm : again (.endOfStream q) = false) :
      t.BytesFirst supplies ∧ (t.supplyAll supplies).fill ≤ addressLimit := by
    refine hends.resolve_left fun hends => ?_
    rw [hends] at hm
    cases hm
  rw [Tape.barrier] at hstop
  by_cases hle : (c.bounds.headD t.endPosition).byte ≤ c.address + (c.usable t stream).length
  · rw [if_pos hle] at hstop
    cases hb : c.bounds with
    | cons stop outer =>
      rw [hb, List.headD_cons] at hle
      exact h.stays_of_block hb hle
    | nil =>
      rw [hb, List.headD_nil, Tape.endPosition] at hle
      rw [hb] at hstop
      cases he : t.eof with
      | none =>
        rw [he] at hle
        exact h.stays_of_limit hb (Position.byte_unbounded ▸ hle) he (hlast _ hstop).2
      | some e => exact stays_of_eof (hlast _ hstop).1 he
  · -- a byte that may still come is tried for again, so the end is fixed
    rw [if_neg hle, Tape.missing] at hstop
    cases he : t.eof with
    | none =>
      rw [he, Option.isSome_none, if_neg Bool.false_ne_true, ha.suspended _ rfl] at hstop
      cases hstop
    | some e =>
      rw [he, Option.isSome_some, if_pos rfl] at hstop
      exact stays_of_eof (hlast _ hstop).1 he

/-- Attempts come to what one attempt at the end would have come to. -/
theorem attempts (h : OnStream c t stream) {again : StreamError → Bool} (ha : Retries again)
    (hends : (∀ a, again (.endOfStream a) = true) ∨
      (t.BytesFirst supplies ∧ (t.supplyAll supplies).fill ≤ addressLimit)) (p : PartialValue) :
    ComesTo c (t.supplyAll supplies) (stream ++ t.gainsAll supplies) p
      (c.attempts again t p supplies) := by
  induction supplies generalizing c t stream p with
  | nil =>
    rw [Tape.gainsAll, List.append_nil]
    exact h.resume p
  | cons s rest ih =>
    have hnow := h.resume p
    have hu := h.usable_supplyAll (s :: rest)
    have hlater := hnow.onStream.supplyAll (s :: rest)
    rw [Cursor.attempts]
    cases hv : (p.takes (c.usable t stream)).verdict with
    | some v =>
      have hsettled := hnow.settled (by rw [hv]; exact Option.some_ne_none v) hu hlater
      have hanswer := hnow.answer
      rw [hv, Option.getD_some] at hanswer
      match hr : c.resume t p with
      | (.ok w, c₁, p₁) =>
        rw [hr] at hsettled
        exact hsettled
      | (.error e, c₁, p₁) =>
        rw [hr] at hanswer hsettled
        have hspoilt : again e = false :=
          ha.spoilt e (PartialValue.malformed_of_takes (hv.trans (congrArg some hanswer.symm)))
        simp only [hspoilt, Bool.false_eq_true, if_false]
        exact hsettled
    | none =>
      have hanswer := hnow.answer
      have hcount := PartialValue.count_takes hv
      rw [hv, Option.getD_none, hcount] at hanswer
      match hr : c.resume t p with
      | (.ok w, c₁, p₁) =>
        rw [hr] at hanswer
        cases hanswer
      | (.error e, c₁, p₁) =>
        rw [hr] at hanswer hnow hlater
        obtain rfl : e = _ := Except.error.inj hanswer
        cases hagain : again (t.barrier c.bounds (c.address + (c.usable t stream).length)) with
        | true =>
          simp only [hagain, if_true]
          have hends' := hends.imp_right fun hends => And.intro hends.1.2 hends.2
          have hrest := ih (hnow.onStream.supply s) hends' p₁
          rw [List.append_assoc, ← Tape.gainsAll] at hrest
          exact hnow.trans hv hu hrest
        | false =>
          simp only [hagain, Bool.false_eq_true, if_false]
          exact hnow.stopped hv (h.stays ha hends hagain) hlater

end OnStream

/-! ## As one read -/

/-- What the bytes ahead of a reader make of a value of the kind. -/
def Cursor.finds (c : Reader) (t : Tape) (stream : List UInt8) (kind : IntKind) : Taken :=
  (PartialValue.start kind).takes (c.usable t stream)

/-- One read of a value is what the usable bytes make of it, and else the obstacle behind them. -/
structure ReadsOnce (c : Reader) (t : Tape) (stream : List UInt8) (kind : IntKind) : Prop where
  value : ∀ w, (c.finds t stream kind).verdict = some (.ok w) →
    ∃ c', c.readValue t kind = .ok (w, c') ∧ OnStream c' t stream ∧ c'.bounds = c.bounds ∧
      c'.address = c.address + (c.finds t stream kind).count
  spoilt : ∀ e, (c.finds t stream kind).verdict = some (.error e) →
    e.malformed = true ∧ c.readValue t kind = .error (.stream e)
  /-- Outside all blocks of a stream whose end is open, this is said of where it can have a byte. -/
  stopped : (c.finds t stream kind).verdict = none →
    (c.finds t stream kind).count = (c.usable t stream).length ∧
      ((c.bounds = [] → t.eof = none → c.address + (c.usable t stream).length < addressLimit) →
        c.readValue t kind =
          .error (.stream (t.obstacle c.bounds (c.address + (c.usable t stream).length))))
  /-- A read that fails leaves the reader and the stream as they were. -/
  unmoved : ∀ (s : Session) (name : String) (e : DecodeError), s.tape = t →
    s.cursors.get? name = some (.reader c) → c.readValue t kind = .error e →
      (s.step (.reader name (.readValue kind))).1 = .notDecoded e ∧
        (s.step (.reader name (.readValue kind))).2.tape = t ∧
        (s.step (.reader name (.readValue kind))).2.cursors.get? name = some (.reader c)

/-- The attempts end with the value or the error of one read, and behind the bytes that were taken,
inside the same blocks. -/
structure EndsAsOne (c : Reader) (t : Tape) (stream : List UInt8) (kind : IntKind)
    (tried : Except StreamError UInt64 × Reader × PartialValue) : Prop where
  answer : tried.1.mapError .stream = (c.readValue t kind).map Prod.fst
  address : tried.2.1.address = c.address + (c.finds t stream kind).count
  bounds : tried.2.1.bounds = c.bounds
  onStream : OnStream tried.2.1 t stream

section

variable {c : Reader} {t : Tape} {stream : List UInt8} {kind : IntKind}
  {tried : Except StreamError UInt64 × Reader × PartialValue}

theorem Cursor.readValue_of_ok {w : UInt64} (h : (c.resume t (.start kind)).1 = .ok w) :
    c.readValue t kind = .ok (w, (c.resume t (.start kind)).2.1) := by
  rw [readValue]
  generalize c.resume t (.start kind) = r at h ⊢
  obtain ⟨_, c', p⟩ := r
  cases h
  rfl

theorem Cursor.readValue_of_error {e : StreamError}
    (h : (c.resume t (.start kind)).1 = .error e) : c.readValue t kind = .error (.stream e) := by
  rw [readValue]
  generalize c.resume t (.start kind) = r at h ⊢
  obtain ⟨_, c', p⟩ := r
  cases h
  rfl

/-- A read that fails changes nothing for anyone. -/
theorem Session.step_readValue_of_error {s : Session} {name : String} {e : DecodeError}
    (hget : s.cursors.get? name = some (.reader c)) (he : c.readValue s.tape kind = .error e) :
    s.step (.reader name (.readValue kind)) = (.notDecoded e, s.putCursor name (.reader c)) := by
  show s.stepReader name (.readValue kind) = _
  simp only [stepReader, tryReader, onReader, onCursor, hget, he]

theorem OnStream.readsOnce (h : OnStream c t stream) (kind : IntKind) :
    ReadsOnce c t stream kind := by
  have hresume := h.resume (.start kind)
  have hanswer := hresume.answer
  rw [← Cursor.finds] at hanswer
  refine ⟨fun w hw => ?_, fun e he => ⟨PartialValue.malformed_of_takes he, ?_⟩, fun hv => ?_,
    fun s name e ht hget he => ?_⟩
  · rw [hw, Option.getD_some] at hanswer
    exact ⟨_, Cursor.readValue_of_ok hanswer, hresume.onStream, hresume.bounds, hresume.address⟩
  · rw [he, Option.getD_some] at hanswer
    exact Cursor.readValue_of_error hanswer
  · have hcount : (c.finds t stream kind).count = (c.usable t stream).length :=
      PartialValue.count_takes hv
    rw [hv, Option.getD_none, hcount] at hanswer
    refine ⟨hcount, fun hreach => ?_⟩
    rw [← Tape.barrier_eq_obstacle hreach]
    exact Cursor.readValue_of_error hanswer
  · subst ht
    rw [Session.step_readValue_of_error hget he]
    refine ⟨rfl, rfl, ?_⟩
    rw [Session.putCursor, Named.get?_put, if_pos rfl]

theorem OnStream.endsAsOne (h : OnStream c t stream)
    (hc : ComesTo c t stream (.start kind) tried) : EndsAsOne c t stream kind tried := by
  refine ⟨?_, hc.address, hc.bounds, hc.onStream⟩
  have hsame : tried.1 = (c.resume t (.start kind)).1 :=
    hc.answer.trans (h.resume (.start kind)).answer.symm
  rw [hsame]
  cases hr : (c.resume t (.start kind)).1 with
  | ok w =>
    rw [Cursor.readValue_of_ok hr]
    rfl
  | error e =>
    rw [Cursor.readValue_of_error hr]
    rfl

end

/-- Every reader of a session that takes its input as it comes reads the bytes that have come. -/
theorem Agrees.onStream {s : Session} {f : Flat} (h : Agrees s f) {name : String} {c : Reader}
    (hget : s.cursors.get? name = some (.reader c)) : OnStream c s.tape f.bytes := by
  have hpaired := h.paired name
  rw [hget] at hpaired
  cases hf : f.readers.get? name with
  | none =>
    rw [hf] at hpaired
    cases hpaired
  | some r =>
    rw [hf] at hpaired
    cases hpaired with
    | some hsound hmark =>
      have hcarries := h.carries
      have hlists : s.tape.Lists f.bytes :=
        ⟨hcarries.paged, hcarries.fill, Nat.le_trans h.start_le h.mark_le, hcarries.shows⟩
      exact ⟨hcarries.whole, hlists, hsound, Nat.le_trans h.start_le hmark⟩

/-- A value that is tried for again and again while its bytes come is read as it would be from the
whole stream: the same value or error, behind the same bytes. What that is follows from the bytes
ahead of the reader; the first obstacle among them ends it, and a read that fails has not moved.

Where the end of the stream is fixed ahead of bytes that still come, it has to be tried again after
that end was met. No stream is longer than its addresses are many. -/
theorem attempts_as_one {c : Reader} {t : Tape} {stream : List UInt8} (h : OnStream c t stream)
    (kind : IntKind) {supplies : List Supply} {again : StreamError → Bool} (ha : Retries again)
    (hends : (∀ a, again (.endOfStream a) = true) ∨
      (t.BytesFirst supplies ∧ (t.supplyAll supplies).fill ≤ addressLimit)) :
    ReadsOnce c (t.supplyAll supplies) (stream ++ t.gainsAll supplies) kind ∧
      EndsAsOne c (t.supplyAll supplies) (stream ++ t.gainsAll supplies) kind
        (c.attempts again t (.start kind) supplies) :=
  ⟨(h.supplyAll supplies).readsOnce kind,
    (h.supplyAll supplies).endsAsOne (h.attempts ha hends (.start kind))⟩

/-- A reader inside a block of three bytes, before any of them has come. -/
def Cursor.early : Reader := { grain := .byte, bounds := [.ofByte 3], address := 0 }

/-- The two bytes of a value on pages of one byte each, and the end of the stream before that of the
block. -/
theorem attempts_as_one_halves :
    OnStream Cursor.early (Tape.blank 1) [] ∧ Retries StreamError.suspends ∧
      (Tape.blank 1).BytesFirst [.bytes [0x80], .bytes [0x01], .ending 2] ∧
      (Cursor.early.attempts StreamError.suspends (Tape.blank 1) (.start .varuint32)
        [.bytes [0x80], .bytes [0x01], .ending 2]).2.1.address = 2 ∧
      (Cursor.early.attempts StreamError.suspends (Tape.blank 1) (.start .varuint32)
        [.bytes [0x80], .bytes [0x01], .ending 2]).1 = .ok 128 := by
  have h : OnStream Cursor.early (Tape.blank 1) [] :=
    onStream_fresh rfl (Tape.lists_blank 1) [.ofByte 3] (Nat.le_refl 0)
  have hopen : ¬(none : Option Nat).isSome = true := Bool.false_ne_true
  have hfirst : (Tape.blank 1).BytesFirst [.bytes [0x80], .bytes [0x01], .ending 2] :=
    ⟨fun he => absurd he hopen, fun he => absurd he hopen, fun he => absurd he hopen, trivial⟩
  have hfill : ((Tape.blank 1).supplyAll [.bytes [0x80], .bytes [0x01], .ending 2]).fill ≤
      addressLimit := by decide
  obtain ⟨hread, hone⟩ :=
    attempts_as_one h .varuint32 retries_suspends (.inr ⟨hfirst, hfill⟩)
  refine ⟨h, retries_suspends, hfirst, hone.address.trans rfl, ?_⟩
  obtain ⟨c', hvalue, -⟩ := hread.value 128 rfl
  have hanswer := hone.answer
  rw [hvalue] at hanswer
  generalize Cursor.attempts .. = tried at hanswer ⊢
  obtain ⟨r, c₁, p⟩ := tried
  cases r with
  | ok w =>
    cases hanswer
    rfl
  | error e => cases hanswer

/-- A byte reader outside all blocks. -/
def Cursor.readerAt (address : Nat) : Reader := { grain := .byte, address }

/-- Who tries again when the value is there reads the next one instead. And who gives up where the
end of the stream was fixed ahead of the second byte of a value does not get the value that is there
in the end. -/
theorem attempts_not_as_one :
    (((Cursor.readerAt 0).resume ((Tape.blank 1).supply (.bytes [5])) (.start .uint8)).1 = .ok 5 ∧
      (((Cursor.readerAt 0).resume ((Tape.blank 1).supply (.bytes [5])) (.start .uint8)).2.1.resume
        ((Tape.blank 1).supplyAll [.bytes [5], .bytes [6]])
        ((Cursor.readerAt 0).resume ((Tape.blank 1).supply (.bytes [5])) (.start .uint8)).2.2).1 =
          .ok 6 ∧
      ((Cursor.readerAt 0).readValue ((Tape.blank 1).supplyAll [.bytes [5], .bytes [6]])
        .uint8).map Prod.fst = .ok 5) ∧
    ((Cursor.readerAt 0).attempts StreamError.suspends ((Tape.blank 1).supply (.bytes [0x80]))
        (.start .varuint32) [.ending 2, .bytes [0x01]]).1 = .error (.endOfStream 1) ∧
      ((Cursor.readerAt 0).readValue
        ((Tape.blank 1).supplyAll [.bytes [0x80], .ending 2, .bytes [0x01]])
          .varuint32).map Prod.fst = .ok 128 := by
  have hfirst : OnStream (Cursor.readerAt 0) (Tape.blank 1) [] :=
    onStream_fresh rfl (Tape.lists_blank 1) [] (Nat.le_refl 0)
  refine ⟨⟨?_, ?_, ?_⟩, ?_, ?_⟩
  · rw [Cursor.resume_eq]
    rfl
  · have hnow : (Cursor.readerAt 0).resume ((Tape.blank 1).supply (.bytes [5])) (.start .uint8) =
        (.ok 5, ((Cursor.readerAt 0).readByte ((Tape.blank 1).supply (.bytes [5]))).2,
          ((PartialValue.start .uint8).feed 5).2) := by
      rw [Cursor.resume_eq]
      rfl
    rw [hnow, Cursor.resume_eq]
    rfl
  · obtain ⟨c', hvalue, -⟩ := ((hfirst.supplyAll [.bytes [5], .bytes [6]]).readsOnce .uint8).value 5
      rfl
    rw [hvalue]
    rfl
  · have hnow : (Cursor.readerAt 0).resume ((Tape.blank 1).supply (.bytes [0x80]))
        (.start .varuint32) = (.error (.notAvailable 1),
          (((Cursor.readerAt 0).readByte ((Tape.blank 1).supply (.bytes [0x80]))).2,
            ((PartialValue.start .varuint32).feed 0x80).2)) := by
      rw [Cursor.resume_eq]
      show Cursor.resume _ _ _ = _
      rw [Cursor.resume_eq]
      rfl
    rw [Cursor.attempts, hnow]
    show (Cursor.attempts _ _ _ _ _).1 = _
    rw [Cursor.attempts, Cursor.resume_eq]
    rfl
  · obtain ⟨c', hvalue, -⟩ := ((hfirst.supplyAll [.bytes [0x80], .ending 2,
      .bytes [0x01]]).readsOnce .varuint32).value 128 rfl
    rw [hvalue]
    rfl

end Transcoder

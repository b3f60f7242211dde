import Transcoder.Proofs.Cursor.Faltering
import Transcoder.Proofs.Leb128.Canonical
import Transcoder.Proofs.Value.Taking

/-!
# Values that are read and written again

A value can stand in a stream in more ways than one: padded with zeros or with its sign. Whichever
it was read from, it is written in the one way of its kind, which is read as the same value, and
which is no longer than what was read unless the kind pads its values itself.

Results:
* `PartialValue.Completes.length_bytes_le`: a value is written in no more bytes than it was read from.
* `HasRoom.writeValue`: at the end of a stream with room for it, a value is written.
* `PartialValue.settles_feedAll`: what any bytes make of a value, from whatever bytes came before.
-/
namespace Transcoder

/-! ## Room at the end of a stream -/

/-- A writer at the end of the stream with room for `n` more bytes: the tape is whole and has not
given up the page there, and neither the innermost end nor the fixed end of the stream is nearer. -/
structure HasRoom (n : Nat) (w : Writer) (t : Tape) : Prop where
  regular : w.Regular t
  atEnd : w.address = t.fill
  whole : t.broken = false
  start_le : t.start ≤ t.fill
  stop : w.position.bits + 8 * n ≤ (w.stop t).bits
  eof : ∀ e ∈ t.eof, w.position.bits + 8 * n ≤ 8 * e

namespace HasRoom

variable {n : Nat} {w : Writer} {t : Tape}

theorem takes (h : HasRoom (n + 1) w t) : w.Takes t := by
  have hpos : w.position.bits = 8 * w.address + w.bits.length := rfl
  have hstop := h.stop
  have hcheck : w.checkByte t = .ok () := by
    have hlt : w.address < (w.stop t).byte := by
      simp only [Position.byte]
      omega
    rw [Cursor.checkByte, decide_eq_true hlt, Bool.true_or, if_pos rfl]
  have hwritable : t.checkWritable w.address = .ok () := by
    have hnone : t.eof.filter (· ≤ w.address) = none := by
      refine Option.filter_eq_none_iff.2 fun e he => ?_
      have := h.eof e he
      simp only [decide_eq_true_eq]
      omega
    have hpage : ¬t.pageOf w.address < t.firstPage := by
      rw [h.atEnd, Nat.not_lt, Tape.firstPage_le_pageOf]
      exact h.start_le
    rw [Tape.checkWritable, h.whole, if_neg Bool.false_ne_true, hnone]
    exact if_neg hpage
  exact ⟨Cursor.checkStore_eq_ok.2 (.inr ⟨h.whole, hcheck, .inr hwritable⟩), .inr (by omega)⟩

/-- What is left of the room when a byte was put there. -/
theorem of_laid {bs : List Bool} {out : List UInt8} {t' : Tape} {w' : Writer}
    (h : HasRoom (n + 1) w t) (hl : Laid bs t w out t' w') (hb : bs.length = 8) :
    HasRoom n w' t' := by
  have hgrows := (hl.stores.keeps h.regular.toKept).2
  have hlen := congrArg List.length hl.bits
  rw [List.length_append, List.length_append, Bits.length_ofBytes] at hlen
  have haddress := hl.address
  have hpos : w'.position.bits = w.position.bits + 8 := by
    rw [Cursor.position_eq, Cursor.position_eq]
    show 8 * w'.address + w'.bits.length = 8 * w.address + w.bits.length + 8
    omega
  have hstop : w'.stop t' = w.stop t := by
    rw [Cursor.stop, Cursor.stop, hl.stores.bounds.1, hgrows.endPosition]
  have hfill : w'.address = t'.fill := by
    have hend := h.atEnd
    rw [hl.fill]
    split
    · rename_i hout
      rw [haddress, hout, hend]
      rfl
    · omega
  refine ⟨hl.stores.regular h.regular, hfill, hgrows.broken.trans h.whole, ?_, ?_, fun e he => ?_⟩
  · rw [hgrows.start]
    exact Nat.le_trans h.start_le hl.stores.fill_le
  · have := h.stop
    rw [hstop, hpos]
    omega
  · have := h.eof e (hgrows.eof ▸ he)
    rw [hpos]
    omega

theorem writeByte (h : HasRoom (n + 1) w t) (b : UInt8) : ∃ t' w' out,
    Cursor.writeByte b (t, w) = .ok () (t', w') ∧ Laid (Bits.ofByte b) t w out t' w' := by
  obtain ⟨s, hs⟩ := (h.regular.toKept.writeByte_iff h.regular.tidy b).2 h.takes
  have hlike := Cursor.resembles_writeByte b (t, w)
  have hreach := Cursor.reaches_bareByte b h.regular.toKept
  rw [hs] at hlike
  generalize Cursor.bareByte b (t, w) = r at hlike hreach
  cases hlike with
  | ok s =>
    cases hreach with
    | ok hl => exact ⟨_, _, _, hs, hl⟩

theorem bytes {bytes : List UInt8} (h : HasRoom bytes.length w t) : ∃ t' w' out,
    bytes.forM Cursor.writeByte (t, w) = .ok () (t', w') ∧
      Laid (Bits.ofBytes bytes) t w out t' w' := by
  induction bytes generalizing t w with
  | nil => exact ⟨t, w, [], rfl, laid_nil t w⟩
  | cons b rest ih =>
    obtain ⟨t₁, w₁, out₁, he₁, h₁⟩ := h.writeByte b
    obtain ⟨t', w', out', he, h'⟩ := ih (h.of_laid h₁ (Bits.length_ofByte b))
    refine ⟨t', w', out₁ ++ out', ?_, ?_⟩
    · show (Cursor.writeByte b >>= fun _ => rest.forM Cursor.writeByte) (t, w) = _
      rw [bind_of_ok he₁, he]
    · rw [Bits.ofBytes_cons]
      exact h₁.trans h.regular.toKept h'

/-- Where there is room for a value, its bytes are put there. -/
theorem writeValue {kind : IntKind} {word : UInt64} (h : HasRoom (kind.bytes word).length w t)
    (hf : kind.fits word = true) : ∃ t' w' out,
      Cursor.writeValue kind word (t, w) = .ok () (t', w') ∧
        Laid (Bits.ofBytes (kind.bytes word)) t w out t' w' := by
  obtain ⟨t', w', out, he, hl⟩ := h.bytes
  refine ⟨t', w', out, ?_, hl⟩
  rw [Cursor.writeValue, if_pos hf]
  simp only [Writing.mapError, Cursor.stageWhole, Cursor.stageValue_eq, he, Cursor.wholly]

end HasRoom

/-! ## Shortest values -/

/-- The kind pads all its values to one length. -/
def IntKind.pads : IntKind → Bool
  | fixedVaruint32 | fixedVaruint64 => true
  | _ => false

namespace PartialValue

variable {kind : IntKind} {p q : PartialValue} {bytes begun : List UInt8} {w : UInt64}

/-- A value of fixed width takes all the bytes that are left for it. -/
theorem Completes.length_of_fixed {value count : Nat}
    (h : (fixed kind value count).Completes bytes w) (hc : count < kind.maxLength) :
    count + bytes.length = kind.maxLength := by
  induction bytes generalizing value count with
  | nil => exact absurd rfl h.ne_nil
  | cons b bytes ih =>
    rw [List.length_cons]
    cases h with
    | last hf =>
      simp only [feed] at hf
      split at hf
      · simp at hf
      · simp only [List.length_nil]
        omega
    | more hf k =>
      simp only [feed] at hf
      split at hf
      · simp only [Prod.mk.injEq, true_and] at hf
        subst hf
        have := ih k ‹_›
        omega
      · simp at hf

theorem Completes.decodeFrom {a : Leb128.Accumulator} (h : (leb128 kind a).Completes bytes w)
    (seen : Nat) : Leb128.decodeFrom a seen bytes = .ok (w, seen + bytes.length) := by
  induction bytes generalizing a seen with
  | nil => exact absurd rfl h.ne_nil
  | cons b bytes ih =>
    rw [Leb128.decodeFrom]
    cases h with
    | last hf =>
      simp only [feed, Prod.mk.injEq] at hf
      have hfeed : a.feed b = (.ok (some w), (a.feed b).2) := Prod.ext hf.1 rfl
      rw [hfeed]
      rfl
    | more hf k =>
      simp only [feed, Prod.mk.injEq] at hf
      have hfeed : a.feed b = (.ok none, (a.feed b).2) := Prod.ext hf.1 rfl
      rw [← hf.2] at k
      rw [hfeed, List.length_cons, Nat.add_comm bytes.length, ← Nat.add_assoc, ← ih k (seen + 1)]

/-- A value is written in no more bytes than it was read from, unless its kind pads it. -/
theorem Completes.length_bytes_le (h : (start kind).Completes bytes w) (hk : kind.pads = false) :
    (kind.bytes w).length ≤ bytes.length := by
  have hfits : kind.fits w = true := kind_start kind ▸ h.fits (fair_start kind)
  cases hl : kind.leb128 with
  | false =>
    have hstart : start kind = fixed kind 0 0 := by rw [start, hl, if_neg Bool.false_ne_true]
    rw [hstart] at h
    have hlen := h.length_of_fixed kind.maxLength_pos
    rw [Nat.zero_add] at hlen
    exact hlen ▸ IntKind.length_bytes_le hfits
  | true =>
    have hstart : start kind = leb128 kind (.ofWidth kind.signed kind.width) := by
      rw [start, hl, if_pos rfl]
    rw [hstart] at h
    obtain ⟨hn, -, hr, hw⟩ :=
      Leb128.numeral_of_decodeFrom (Leb128.Accumulator.fair_ofWidth _ _) (h.decodeFrom 0)
    have htotal : Leb128.total (.ofWidth kind.signed kind.width) bytes =
        Leb128.numeral kind.signed bytes := by
      rw [Leb128.total]
      show 0 + Leb128.numeral kind.signed bytes * 1 = _
      omega
    have hshort : kind.bytes w = (Leb128.Form.shortest kind.signed).bytes w := by
      cases kind with
      | uint8 | uint32 | uint64 => cases hl
      | varint32 | varint64 | varuint32 | varuint64 => rfl
      | fixedVaruint32 | fixedVaruint64 => cases hk
    have hbits : (Leb128.Accumulator.ofWidth kind.signed kind.width).bits ≤ 64 := by
      simp only [Leb128.Accumulator.ofWidth]
      omega
    rw [htotal] at hw hr
    have hr : Leb128.InRange kind.signed 64 (Leb128.numeral kind.signed bytes) := hr.widen hbits
    have hnumber : Leb128.numeral kind.signed bytes = Leb128.number kind.signed w := by
      rw [hw, Leb128.number_ofInt hr]
    rw [hshort]
    exact Leb128.length_shortest_le hn.length_pos (hnumber ▸ hn.inRange)

/-! ## From any bytes on -/

/-- What is in the making when some bytes came, whatever was reported of them. -/
def feedAll (p : PartialValue) (bytes : List UInt8) : PartialValue :=
  bytes.foldl (fun p b => (p.feed b).2) p

/-- The value with nothing read of it. -/
def cleared : PartialValue → PartialValue
  | fixed kind _ _ => fixed kind 0 0
  | leb128 kind acc => leb128 kind acc.reset

theorem cleared_start (kind : IntKind) : (start kind).cleared = start kind := by
  unfold start
  split <;> rfl

theorem cleared_feed (p : PartialValue) (b : UInt8) : (p.feed b).2.cleared = p.cleared := by
  cases p with
  | fixed kind value count =>
    simp only [feed]
    split <;> rfl
  | leb128 kind acc =>
    obtain ⟨hbits, hsigned⟩ := acc.bits_of_feed b
    simp only [feed, cleared, Leb128.Accumulator.reset, hbits, hsigned]

/-- Behind a report the next byte begins another value. -/
theorem eq_cleared_of_feed {b : UInt8} (h : (p.feed b).1 ≠ .ok none) :
    (p.feed b).2 = p.cleared := by
  cases p with
  | fixed kind value count =>
    simp only [feed] at h ⊢
    split
    · rename_i hlt
      rw [if_pos hlt] at h
      exact absurd rfl h
    · rfl
  | leb128 kind acc => exact congrArg (leb128 kind) (Leb128.Accumulator.eq_reset_of_feed h)

theorem consumed_of_feed {b : UInt8} (h : p.feed b = (.ok none, q)) :
    q.consumed = p.consumed + 1 := by
  cases p with
  | fixed kind value count =>
    simp only [feed] at h
    split at h
    · simp only [Prod.mk.injEq, true_and] at h
      subst h
      rfl
    · simp at h
  | leb128 kind acc =>
    simp only [feed, Prod.mk.injEq] at h
    obtain ⟨hr, rfl⟩ := h
    exact (Leb128.Accumulator.count_lt_of_feed (a := acc) (Prod.ext hr rfl)).1

/-- The bytes that a value has taken and those that are left for it are those of the whole value. -/
theorem Fair.consumed_add_remaining (h : p.Fair) :
    p.consumed + p.remaining = p.cleared.remaining := by
  cases p with
  | fixed kind value count => exact Nat.add_sub_of_le (Nat.le_of_lt h.2.1)
  | leb128 kind acc => exact Nat.add_sub_of_le (Nat.le_of_lt h.2.2.count_lt)

/-- The bytes `begun` came for a value of the kind, and it is not complete. -/
inductive Begun (kind : IntKind) : List UInt8 → PartialValue → Prop
  | start : Begun kind [] (start kind)
  | more {begun : List UInt8} {p q : PartialValue} {b : UInt8} (h : Begun kind begun p)
    (hf : p.feed b = (.ok none, q)) : Begun kind (begun ++ [b]) q

namespace Begun

theorem fair (h : Begun kind begun p) : p.Fair := by
  induction h with
  | start => exact fair_start kind
  | @more _ p q b _ hf ih =>
    have hq := ih.feed b
    rwa [hf] at hq

theorem cleared (h : Begun kind begun p) : p.cleared = .start kind := by
  induction h with
  | start => exact cleared_start kind
  | @more _ p q b _ hf ih =>
    have hq := p.cleared_feed b
    rw [hf] at hq
    exact hq.trans ih

theorem consumed (h : Begun kind begun p) : p.consumed = begun.length := by
  induction h with
  | start =>
    unfold PartialValue.start
    split <;> rfl
  | more _ hf ih => rw [consumed_of_feed hf, ih, List.length_append, List.length_singleton]

theorem consumed_add_remaining (h : Begun kind begun p) :
    p.consumed + p.remaining = kind.maxLength := by
  rw [h.fair.consumed_add_remaining, h.cleared, remaining_start]

/-- Bytes that complete the value complete it from the first byte on. -/
theorem completes (h : Begun kind begun p) (hc : p.Completes bytes w) :
    (PartialValue.start kind).Completes (begun ++ bytes) w := by
  induction h generalizing bytes with
  | start => exact hc
  | @more begun _ _ b _ hf ih =>
    have hrest := ih (.more hf hc)
    rwa [← List.singleton_append, ← List.append_assoc] at hrest

/-- Some of the last bytes are those of the value that is in the making now. -/
theorem feedAll (h : Begun kind begun p) (bytes : List UInt8) :
    ∃ begun, Begun kind begun (p.feedAll bytes) := by
  induction bytes generalizing p begun with
  | nil => exact ⟨begun, h⟩
  | cons b rest ih =>
    show ∃ begun, Begun kind begun ((p.feed b).2.feedAll rest)
    by_cases hr : (p.feed b).1 = .ok none
    · exact ih (h.more (Prod.ext hr rfl))
    · rw [eq_cleared_of_feed hr, h.cleared]
      exact ih .start

end Begun

/-- The bytes that were taken complete the value that they report. -/
theorem completes_of_takes (h : (p.takes bytes).verdict = some (.ok w)) :
    p.Completes (bytes.take (p.takes bytes).count) w := by
  induction bytes generalizing p with
  | nil => cases h
  | cons b rest ih =>
    match hf : p.feed b with
    | (.error e, q) =>
      rw [takes_of_error hf] at h
      cases h
    | (.ok (some w'), q) =>
      rw [takes_of_value hf] at h ⊢
      cases h
      exact .last hf
    | (.ok none, q) =>
      rw [takes_of_none hf] at h ⊢
      have hrest := ih h
      rw [Taken.after, Nat.add_comm, List.take_succ_cons]
      exact .more hf hrest

theorem count_takes_le (p : PartialValue) (bytes : List UInt8) :
    (p.takes bytes).count ≤ bytes.length := by
  induction bytes generalizing p with
  | nil => exact Nat.le_refl 0
  | cons b rest ih =>
    rw [List.length_cons]
    match hf : p.feed b with
    | (.error e, q) =>
      rw [takes_of_error hf]
      exact Nat.le_add_left 1 _
    | (.ok (some w), q) =>
      rw [takes_of_value hf]
      exact Nat.le_add_left 1 _
    | (.ok none, q) =>
      rw [takes_of_none hf, Taken.after, Nat.add_comm]
      exact Nat.succ_le_succ (ih q)

/-- Bytes that complete a value are taken as it, whatever stands behind them. -/
theorem Completes.takes (h : p.Completes bytes w) (rest : List UInt8) :
    p.takes (bytes ++ rest) = ⟨some (.ok w), bytes.length, p.cleared⟩ := by
  induction h with
  | @last p q b w hf =>
    have hq := p.eq_cleared_of_feed (b := b) (by simp [hf])
    rw [hf] at hq
    rw [List.singleton_append, takes_of_value hf, ← hq]
    rfl
  | @more p q b bytes w hf k ih =>
    have hq := p.cleared_feed b
    rw [hf] at hq
    rw [List.cons_append, takes_of_none hf, ih, Taken.after, List.length_cons, Nat.add_comm, hq]

/-- What becomes of a value that was begun: a report takes no more bytes than are left for the
value, and leaves nothing of it. Without one the value goes on. -/
theorem Begun.takes (h : Begun kind begun p) (bytes : List UInt8) :
    (p.takes bytes).count ≤ p.remaining ∧
      ((p.takes bytes).verdict ≠ none → (p.takes bytes).partialValue = .start kind) ∧
      ((p.takes bytes).verdict = none →
        Begun kind (begun ++ bytes) (p.takes bytes).partialValue) := by
  induction bytes generalizing p begun with
  | nil =>
    refine ⟨Nat.zero_le _, fun hv => absurd rfl hv, fun _ => ?_⟩
    rw [List.append_nil]
    exact h
  | cons b rest ih =>
    have hpos := h.fair.remaining_pos
    by_cases hr : (p.feed b).1 = .ok none
    · have hf : p.feed b = (.ok none, (p.feed b).2) := Prod.ext hr rfl
      have hlt := remaining_lt_of_feed hf
      obtain ⟨hcount, hanew, hopen⟩ := ih (h.more hf)
      rw [takes_of_none hf, ← List.singleton_append, ← List.append_assoc]
      refine ⟨?_, hanew, hopen⟩
      show 1 + ((p.feed b).2.takes rest).count ≤ p.remaining
      omega
    · have hq := (eq_cleared_of_feed hr).trans h.cleared
      match hf : p.feed b with
      | (.error e, q) =>
        rw [hf] at hq
        rw [takes_of_error hf]
        exact ⟨hpos, fun _ => hq, fun hv => by cases hv⟩
      | (.ok (some w), q) =>
        rw [hf] at hq
        rw [takes_of_value hf]
        exact ⟨hpos, fun _ => hq, fun hv => by cases hv⟩
      | (.ok none, q) =>
        rw [hf] at hr
        exact absurd rfl hr

end PartialValue

/-! ## Written again -/

/-- A value of the kind that was read from `k` bytes is written again, and read again. -/
structure Rewrites (kind : IntKind) (word : UInt64) (k : Nat) : Prop where
  fits : kind.fits word = true
  length_le : k ≤ kind.maxLength
  /-- Any writer at the end of its stream with room for the bytes puts them there. -/
  written : ∀ w t, HasRoom (kind.bytes word).length w t → ∃ t' w' out,
    Cursor.writeValue kind word (t, w) = .ok () (t', w') ∧
      Laid (Bits.ofBytes (kind.bytes word)) t w out t' w'
  /-- All of them, and no others behind them, are read as the value. -/
  read : ∀ rest, (PartialValue.start kind).takes (kind.bytes word ++ rest) =
    ⟨some (.ok word), (kind.bytes word).length, .start kind⟩
  least : kind.pads = false → (kind.bytes word).length ≤ k

/-- What `bytes` make of a value of the kind when `p` is in the making. -/
structure Settles (kind : IntKind) (p : PartialValue) (bytes : List UInt8) : Prop where
  /-- A value or an error is reported of no more bytes than the kind allows. -/
  count_le : p.consumed + (p.takes bytes).count ≤ kind.maxLength
  /-- As many bytes are reported of. -/
  reports : kind.maxLength ≤ p.consumed + bytes.length → (p.takes bytes).verdict ≠ none
  /-- Until then every byte counts. -/
  counts : (p.takes bytes).verdict = none →
    (p.takes bytes).partialValue.consumed = p.consumed + bytes.length
  /-- Behind a report another value begins. -/
  anew : (p.takes bytes).verdict ≠ none → (p.takes bytes).partialValue = .start kind
  rewrites : ∀ word, (p.takes bytes).verdict = some (.ok word) →
    Rewrites kind word (p.consumed + (p.takes bytes).count)

namespace PartialValue

variable {kind : IntKind} {p : PartialValue} {bytes begun : List UInt8} {w : UInt64}

theorem Completes.rewrites (h : (start kind).Completes bytes w) :
    Rewrites kind w bytes.length := by
  have hfits : kind.fits w = true := kind_start kind ▸ h.fits (fair_start kind)
  refine ⟨hfits, ?_, fun _ _ hroom => hroom.writeValue hfits, fun rest => ?_, h.length_bytes_le⟩
  · exact remaining_start kind ▸ h.length_le (fair_start kind)
  · have := (IntKind.completes_bytes hfits).takes rest
    rwa [cleared_start] at this

theorem Begun.settles (h : Begun kind begun p) (bytes : List UInt8) : Settles kind p bytes := by
  obtain ⟨hcount, hanew, hopen⟩ := h.takes bytes
  have hwhole := h.consumed_add_remaining
  refine ⟨by omega, fun hle hv => ?_, fun hv => ?_, hanew, fun word hv => ?_⟩
  · -- what is still open has bytes left for it
    have hrest := hopen hv
    have hpos := hrest.fair.remaining_pos
    have hwhole' := hrest.consumed_add_remaining
    rw [hrest.consumed, List.length_append, ← h.consumed] at hwhole'
    omega
  · rw [(hopen hv).consumed, List.length_append, h.consumed]
  · have hlen : (begun ++ bytes.take (p.takes bytes).count).length =
        p.consumed + (p.takes bytes).count := by
      rw [List.length_append, List.length_take, Nat.min_eq_left (p.count_takes_le bytes),
        h.consumed]
    exact hlen ▸ (h.completes (completes_of_takes hv)).rewrites

/-- Whatever bytes came before, values and errors are reported in time, and a value that is reported
is one of its kind, is written at the end of any stream with room for it, and is read again from all
that was written. What is written is no longer than what was read, unless the kind pads its values. -/
theorem settles_feedAll (kind : IntKind) (before bytes : List UInt8) :
    Settles kind ((start kind).feedAll before) bytes := by
  obtain ⟨begun, h⟩ := (Begun.start : Begun kind [] _).feedAll before
  exact h.settles bytes

/-- Behind a number that was too long, -1 comes in three bytes, and is written in one. -/
theorem settles_feedAll_padded : Rewrites .varint32 (.ofInt (-1)) 3 ∧
    IntKind.bytes .varint32 (.ofInt (-1)) = [0x7F] ∧ ∃ t w out,
      Cursor.writeValue .varint32 (.ofInt (-1))
        (Tape.blank 2, Cursor.writerOn (Tape.blank 2) .bit) = .ok () (t, w) ∧
      Laid (Bits.ofBytes [0x7F]) (Tape.blank 2) (Cursor.writerOn (Tape.blank 2) .bit) out t w := by
  have h : Rewrites .varint32 (.ofInt (-1)) 3 :=
    (settles_feedAll .varint32 [0x80, 0x80, 0x80, 0x80, 0x80, 0xFF] [0xFF, 0x7F]).rewrites _ rfl
  have hbytes : IntKind.bytes .varint32 (.ofInt (-1)) = [0x7F] := by decide +kernel
  have hroom : HasRoom [(0x7F : UInt8)].length (Cursor.writerOn (Tape.blank 2) .bit)
      (Tape.blank 2) :=
    ⟨Cursor.regular_fresh (Tape.blank 2) .bit [] 0, rfl, rfl, by decide, by decide,
      fun _ he => by cases he⟩
  obtain ⟨t, w, out, he, hl⟩ := h.written _ _ (hbytes ▸ hroom)
  exact ⟨h, hbytes, t, w, out, he, hbytes ▸ hl⟩

end PartialValue

end Transcoder

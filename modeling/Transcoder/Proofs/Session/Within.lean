import Transcoder.Proofs.Session.Pages

/-!
# Streams that stay within their fixed end

The end of a stream can be fixed anywhere from its fill address on, and nothing should be appended
beyond it then. An append asks for the end only where it comes to a new page (`Tape.Asks`), so it
meets an end at which a page begins and passes any other one, unless it cannot begin at all.

Results:
* `Bounded.turn`: where an append meets the end, whatever is done leaves it so.
* `exceeds`: elsewhere two commands lead beyond it.
* `Session.staysWithin_iff`: the two together.
-/
namespace Transcoder

namespace Tape

/-- What refuses bytes that do not fit before the end `e`: the end, unless the page that the first
of them belongs to was given up. -/
def refusal (t : Tape) (e : Nat) : StreamError :=
  if t.fill < t.start ∧ t.fill < e then .brokenCursor t.fill else .writeAfterEnd e e

/-- The stream stays within its end, which is fixed at `e`: it does not reach beyond it, the end can
be fixed there again and nowhere is a byte to be read from there on. Bytes that do not fit are
refused, and leave the stream as it is. -/
structure Within (t : Tape) (e : Nat) : Prop where
  fill : t.fill ≤ e
  eof : t.eof = some e
  again : t.fixEnd e = .ok t
  read : ∀ a, e ≤ a → t.readPage a = .error (.endOfStream a)
  append : ∀ bytes, e < t.fill + bytes.length →
    ∃ t', t.append bytes = (.error (t.refusal e), t') ∧ t'.fill = t.fill ∧
      ∀ a < t.fill, ∀ b, t.byte? a = some b → t'.byte? a = some b

/-- An append meets the end, which is fixed at `e`: a page begins there, or nothing can be appended
as the page of the next byte was given up. -/
structure Bounded (t : Tape) (e : Nat) : Prop where
  whole : t.broken = false
  eof : t.eof = some e
  fill : t.fill ≤ e
  meets : t.pageSize ∣ e ∨ t.fill < t.start

variable {t t' : Tape} {e : Nat}

/-- What may be written where the end is fixed. -/
theorem checkWritable_of_eof (hb : t.broken = false) (he : t.eof = some e) (a : Nat) :
    t.checkWritable a =
      if e ≤ a then .error (.writeAfterEnd a e)
      else if t.pageOf a < t.firstPage then .error (.brokenCursor a) else .ok () := by
  rw [checkWritable, hb, he, if_neg Bool.false_ne_true]
  by_cases hle : e ≤ a
  · rw [if_pos hle, Option.filter_some, if_pos (decide_eq_true hle)]
  · rw [if_neg hle, Option.filter_some, if_neg (by simpa using hle)]

theorem writable_of_lt (hb : t.broken = false) (he : t.eof = some e) {a : Nat} (ha : a < e)
    (hs : t.start ≤ a) : t.checkWritable a = .ok () := by
  rw [checkWritable_of_eof hb he, if_neg (Nat.not_le.2 ha),
    if_neg (Nat.not_lt.2 (firstPage_le_pageOf.2 hs))]

/-- Every command for the tape leaves the end where it is. -/
theorem Turn.eof {held : List Nat} {cmd : TapeCommand} (h : t.Turn held cmd t')
    (he : t.eof = some e) : t'.eof = some e := by
  cases h with
  | same | broken | truncated _ | evicted _ | grown _ _ _ => exact he
  | @appended bytes _ _ h | @refused bytes _ _ h =>
    have hg := t.append_grows bytes
    rw [h] at hg
    exact hg.eof.trans he
  | ended h =>
    obtain ⟨rfl, -, hsame⟩ := of_fixEnd h
    rw [hsame e he]
  | put _ address b => exact (t.storedFrom_put address b).eof.trans he

/-! ## Where an append meets the end -/

/-- Bytes that do not fit are refused. -/
theorem Bounded.append_refused (h : t.Bounded e) {bytes : List UInt8}
    (hlong : e < t.fill + bytes.length) :
    ∃ t', t.append bytes = (.error (t.refusal e), t') := by
  have hwritable := checkWritable_of_eof h.whole h.eof
  have hfill := h.fill
  by_cases hend : t.fill = e
  · -- the first byte would come to the end
    rw [refusal, if_neg (by omega)]
    refine append_of_refused hlong (.inl ⟨hend.symm, rfl⟩) ?_ fun y hy hasks => ?_
    · rw [hwritable, if_pos (Nat.le_refl e)]
    · rcases hasks with ⟨rfl, -⟩ | ⟨hlt, -⟩ <;> omega
  by_cases hgone : t.fill < t.start
  · -- the first byte would come to a page that was given up
    rw [refusal, if_pos ⟨hgone, by omega⟩]
    have hpage : t.pageOf t.fill < t.firstPage :=
      Nat.lt_of_not_le fun hle => absurd (firstPage_le_pageOf.1 hle) (Nat.not_le.2 hgone)
    refine append_of_refused (x := t.fill) (by omega) (.inl ⟨rfl, rfl⟩) ?_ fun y hy hasks => ?_
    · rw [hwritable, if_neg (by omega), if_pos hpage]
    · rcases hasks with ⟨rfl, -⟩ | ⟨hlt, -⟩ <;> omega
  · -- a page begins at the end, so it is asked for
    have hd := (or_iff_left hgone).1 h.meets
    rw [refusal, if_neg (fun hc => hgone hc.1)]
    refine append_of_refused hlong (.inr ⟨by omega, hd⟩) ?_ fun y hy hasks => ?_
    · rw [hwritable, if_pos (Nat.le_refl e)]
    · refine writable_of_lt h.whole h.eof hy ?_
      rcases hasks with ⟨rfl, -⟩ | ⟨hlt, -⟩ <;> omega

theorem Bounded.within (h : t.Bounded e) : t.Within e := by
  refine ⟨h.fill, h.eof, ?_, fun a ha => ?_, fun bytes hlong => ?_⟩
  · rw [fixEnd, if_neg (Nat.not_lt.2 h.fill), h.eof]
    exact if_pos rfl
  · have hfill := h.fill
    have hread : t.checkReadable a = .error (.endOfStream a) := by
      rw [checkReadable, h.whole, if_neg Bool.false_ne_true, if_neg (by omega), h.eof]
      rfl
    rw [readPage, hread]
    rfl
  · obtain ⟨t', ht'⟩ := h.append_refused hlong
    have hstored := of_append_error ht'
    exact ⟨t', ht', hstored.fill, hstored.bytes⟩

/-- A tape with the same pages, whose stream is no longer than before. -/
theorem Bounded.grows (h : t.Bounded e) (hg : t.Grows t') (hf : t'.fill ≤ t.fill) :
    t'.Bounded e := by
  refine ⟨hg.broken.trans h.whole, hg.eof.trans h.eof, Nat.le_trans hf h.fill, ?_⟩
  rw [hg.pageSize, hg.start]
  exact h.meets.imp_right (Nat.lt_of_le_of_lt hf)

/-- Bytes that get through fit before the end. -/
theorem Bounded.appended (h : t.Bounded e) {bytes : List UInt8} {n : Nat}
    (ha : t.append bytes = (.ok n, t')) : t'.Bounded e := by
  have hfit : t.fill + bytes.length ≤ e := by
    refine Nat.le_of_not_lt fun hlong => ?_
    obtain ⟨t'', ht''⟩ := h.append_refused hlong
    rw [ht''] at ha
    cases ha
  have hg := t.append_grows bytes
  rw [ha] at hg
  obtain ⟨rfl, hwritable, rfl⟩ := of_append_ok ha
  refine ⟨hg.broken.trans h.whole, hg.eof.trans h.eof, hfit, ?_⟩
  rw [hg.pageSize, hg.start]
  refine h.meets.imp_right fun hgone => ?_
  -- no byte gets through to a page that was given up
  refine Nat.lt_of_not_le fun hle => ?_
  exact absurd (start_le_of_checkWritable (hwritable t.fill (Nat.lt_of_lt_of_le hgone hle)
    (.inl ⟨rfl, rfl⟩))) (Nat.not_le.2 hgone)

/-- Whatever is done but breaking the tape, appends go on meeting the end. -/
theorem Bounded.turn (h : t.Bounded e) {held : List Nat} {cmd : TapeCommand}
    (hturn : t.Turn held cmd t') (hcmd : cmd ≠ .markBroken) : t'.Bounded e := by
  cases hturn with
  | same => exact h
  | appended ha => exact h.appended ha
  | refused ha =>
    have hstored := of_append_error ha
    exact h.grows hstored.toGrows (Nat.le_of_eq hstored.fill)
  | ended he =>
    -- the end can only be fixed where it is
    obtain ⟨rfl, -, hsame⟩ := of_fixEnd he
    exact ⟨h.whole, congrArg some (hsame e h.eof).symm, h.fill, h.meets⟩
  | broken => exact absurd rfl hcmd
  | truncated ha => exact h.grows (t.refill_grows _) (Nat.min_le_left ..)
  | evicted mark =>
    refine ⟨h.whole, h.eof, h.fill, h.meets.imp_right fun hgone => ?_⟩
    exact Nat.lt_of_lt_of_le hgone (start_le_evict held mark)
  | grown address keep page => exact h.grows (grow_grows page) (Nat.le_refl _)
  | put name address b =>
    have hstored := t.storedFrom_put address b
    exact h.grows hstored.toGrows (Nat.le_of_eq hstored.fill)

end Tape

namespace Session

variable {s : Session} {e : Nat}

/-- Whatever is done to the tape but breaking it, the stream stays within its end at `e`. -/
def StaysWithin (s : Session) (e : Nat) : Prop :=
  ∀ cmds : List TapeCommand, .markBroken ∉ cmds → (s.after (cmds.map .tape)).tape.Within e

theorem bounded_after {cmds : List TapeCommand} (h : s.tape.Bounded e) (hc : .markBroken ∉ cmds) :
    (s.after (cmds.map .tape)).tape.Bounded e := by
  induction cmds generalizing s with
  | nil => exact h
  | cons cmd rest ih =>
    rw [List.mem_cons, not_or] at hc
    exact ih (h.turn (s.turns_stepTape cmd).tape (Ne.symm hc.1)) hc.2

theorem eof_after {cmds : List TapeCommand} (h : s.tape.eof = some e) :
    (s.after (cmds.map .tape)).tape.eof = some e := by
  induction cmds generalizing s with
  | nil => exact h
  | cons cmd rest ih => exact ih ((s.turns_stepTape cmd).tape.eof h)

/-! ## Where it passes the end -/

/-- Cutting the stream off at the first page that is left, and appending one byte too many. -/
def exceeding (t : Tape) (e : Nat) : List TapeCommand :=
  [.truncate t.start, .append (List.replicate (e + 1 - t.start) 0)]

/-- Where no page begins at the end, an append passes it. -/
theorem exceeds (hb : s.tape.broken = false) (he : s.tape.eof = some e)
    (hs : s.tape.start ≤ s.tape.fill) (hf : s.tape.fill ≤ e) (hd : ¬s.tape.pageSize ∣ e) :
    e < (s.after ((exceeding s.tape e).map .tape)).tape.fill := by
  have hcut : (s.stepTape (.truncate s.tape.start)).2.tape =
      { s.tape with fill := min s.tape.fill s.tape.start } := by
    rw [stepTape, Tape.truncate, if_neg (Nat.lt_irrefl _)]
    rfl
  show e < ((s.stepTape (.truncate s.tape.start)).2.tape.append _).2.fill
  rw [hcut, Nat.min_eq_right hs]
  have hg := s.tape.refill_grows s.tape.start
  generalize ht : { s.tape with fill := s.tape.start } = t at hg
  have hfill : t.fill = s.tape.start := by rw [← ht]
  have hlength : t.fill + (List.replicate (e + 1 - s.tape.start) (0 : UInt8)).length = e + 1 := by
    rw [hfill, List.length_replicate]
    omega
  have hwritable : ∀ x < t.fill + (List.replicate (e + 1 - s.tape.start) (0 : UInt8)).length,
      t.Asks t.fill false x → t.checkWritable x = .ok () := by
    intro x hx hasks
    rw [hlength] at hx
    -- whatever is asked for is the first byte of a page
    have hpage : s.tape.pageSize ∣ x ∧ s.tape.start ≤ x := by
      rcases hasks with ⟨rfl, -⟩ | ⟨hlt, hdvd⟩
      · rw [hfill]
        exact ⟨Nat.dvd_mul_left .., Nat.le_refl _⟩
      · exact ⟨hg.pageSize ▸ hdvd, hfill ▸ Nat.le_of_lt hlt⟩
    have hne : x ≠ e := fun h => hd (h ▸ hpage.1)
    refine Tape.writable_of_lt (hg.broken.trans hb) (hg.eof.trans he) (by omega) ?_
    rw [hg.start]
    exact hpage.2
  obtain ⟨t', ht'⟩ := Tape.append_of_writable hwritable
  obtain ⟨-, -, hend⟩ := Tape.of_append_ok ht'
  rw [ht', hend]
  exact Nat.lt_of_lt_of_le (Nat.lt_succ_self e) (Nat.le_of_eq hlength.symm)

/-- Whatever has led to a whole tape whose stream has a fixed end: the end stays where it is, and
from there on the stream stays within it exactly if it has not passed it yet and a page begins
there, or no byte can be appended at all as the page of the next one was given up. -/
theorem staysWithin_iff (hb : s.tape.broken = false) (he : s.tape.eof = some e) :
    (∀ cmds : List TapeCommand, (s.after (cmds.map .tape)).tape.eof = some e) ∧
      (s.StaysWithin e ↔
        s.tape.fill ≤ e ∧ (s.tape.pageSize ∣ e ∨ s.tape.fill < s.tape.start)) := by
  refine ⟨fun cmds => eof_after he, fun hw => ?_, fun ⟨hf, hmeets⟩ cmds hc => ?_⟩
  · have hf : s.tape.fill ≤ e := (hw [] List.not_mem_nil).fill
    refine ⟨hf, Decidable.byContradiction fun hcon => ?_⟩
    obtain ⟨hd, hs⟩ := not_or.1 hcon
    have hlt := exceeds hb he (Nat.le_of_not_lt hs) hf hd
    have hle := (hw (exceeding s.tape e) (by simp [exceeding])).fill
    exact absurd hle (Nat.not_le.2 hlt)
  · have h : s.tape.Bounded e := ⟨hb, he, hf, hmeets⟩
    exact (bounded_after h hc).within

/-- The first of two pages was given up when the end is fixed behind the second, ahead of the
bytes. -/
def endedAhead : Session :=
  after { tape := Tape.blank 4, framing := {} }
    [.tape (.append [1, 2, 3, 4, 5]), .tape (.evict 4), .tape (.fixEnd 8)]

theorem staysWithin_endedAhead : endedAhead.tape.broken = false ∧ endedAhead.tape.eof = some 8 ∧
    endedAhead.StaysWithin 8 := by
  have hb : endedAhead.tape.broken = false := by rfl
  have he : endedAhead.tape.eof = some 8 := by rfl
  have hf : endedAhead.tape.fill = 5 := by rfl
  have hp : endedAhead.tape.pageSize = 4 := by rfl
  refine ⟨hb, he, (staysWithin_iff hb he).2.2 ⟨?_, .inl ?_⟩⟩
  · rw [hf]
    decide
  · rw [hp]
    decide

/-- The end is fixed inside the page of the only byte. -/
def endedInside : Session :=
  after { tape := Tape.blank 4, framing := {} } [.tape (.append [1]), .tape (.fixEnd 2)]

/-- Three bytes do not fit, but they are appended. -/
theorem not_staysWithin_endedInside : endedInside.tape.eof = some 2 ∧
    (endedInside.step (.tape (.append [2, 3, 4]))).1 = .number 4 ∧
    (endedInside.step (.tape (.append [2, 3, 4]))).2.tape.fill = 4 ∧
    ¬endedInside.StaysWithin 2 := by
  have hfill : (endedInside.step (.tape (.append [2, 3, 4]))).2.tape.fill = 4 := by rfl
  refine ⟨by rfl, by rfl, hfill, fun hw => ?_⟩
  have hle : (endedInside.step (.tape (.append [2, 3, 4]))).2.tape.fill ≤ 2 :=
    (hw [.append [2, 3, 4]] (by simp)).fill
  rw [hfill] at hle
  exact absurd hle (by decide)

end Session

end Transcoder

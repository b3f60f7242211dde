import Transcoder.Proofs.Cursor.Timely
import Transcoder.Proofs.Session.Everyone

/-!
# Who makes whose span too long

Cursors on one tape should never be in each other's way: whatever one of them does, or is done to
the tape, the spans that the others have cached should not let them further than the tape does. Two
things can go wrong. The stream may be cut off while a reader has cached what came behind, by a
command or by a block of which the header is made shorter; and the end may be fixed while a writer
has cached more. `Spares` says that this does not happen, and is asked of no other command.

Results:
* `Timely.step`: a command that spares the spans leaves all of them timely.
* `Timely.readsWritten`: where spans are timely, no byte is read that is not written.
* `timely_iff_spares`: so they are timely at all times exactly if they are spared at all times.
-/
namespace Transcoder

/-- The command that has led to the tape `t` has not cut the stream off within the span of this
reader, nor fixed its end within the span of this writer. Blocks have ends of their own. -/
def Command.Spares {role : Role} (cmd : Command) (c : Cursor role) (t : Tape) : Prop :=
  match cmd with
  | .tape (.truncate _) | .writer _ (.finishBlock _) => role = .reader → c.span ≤ t.fill
  | .tape (.fixEnd _) | .cursor _ .fixEnd =>
    role = .writer → c.bounds = [] → ∀ e ∈ t.eof, c.span ≤ e
  | _ => True

/-- A span that is timely afterwards was spared. -/
theorem Cursor.Timely.spares {role : Role} {c : Cursor role} {t : Tape} (h : c.Timely t)
    (cmd : Command) : cmd.Spares c t := by
  have hfill : role = .reader → c.span ≤ t.fill := h.le_fill
  have hend : role = .writer → c.bounds = [] → ∀ e ∈ t.eof, c.span ≤ e := by
    intro _ hb e he
    have hstop := h.le_stop
    rw [stop, hb, List.headD_nil, Tape.endPosition, Option.mem_def.1 he] at hstop
    rwa [Position.byte_ofByte] at hstop
  unfold Command.Spares
  split
  · exact hfill
  · exact hfill
  · exact hend
  · exact hend
  · trivial

namespace Session

/-- No cursor has cached more than it would if it did so now. -/
abbrev Timely (s : Session) : Prop := s.Each Cursor.Timely

/-- The command spares every cursor but the one through which the end is fixed: that one sets its
span anew. -/
structure Spares (s : Session) (cmd : Command) : Prop where
  cursors : ∀ name c, s.cursors.get? name = some c → cmd ≠ .cursor name .fixEnd →
    c.Satisfies cmd.Spares (s.step cmd).2.tape
  headers : ∀ block h, s.headers.get? block = some h → cmd.Spares h.cursor (s.step cmd).2.tape

/-- Only bytes that were written are read. -/
structure ReadsWritten (s : Session) : Prop where
  /-- Whatever is read, a reader takes no byte at the fill address or behind it. -/
  taken : ∀ name cmd c c', s.cursors.get? name = some (.reader c) →
    (s.step (.reader name cmd)).2.cursors.get? name = some (.reader c') →
    ∀ a, c.address ≤ a → a < c'.address → a < s.tape.fill
  /-- In particular none that is read as a whole. -/
  byte : ∀ name c n, s.cursors.get? name = some (.reader c) →
    (s.step (.reader name .readByte)).1 = .number n → c.address < s.tape.fill

/-! ## Steps -/

end Session

/-- Commands for the tape leave the spans timely that they spare. -/
theorem Tape.Turn.timely {role : Role} {c : Cursor role} {t t' : Tape} {held : List Nat}
    {cmd : TapeCommand} (h : t.Turn held cmd t') (hc : c.Timely t)
    (hs : Command.Spares (.tape cmd) c t') : c.Timely t' := by
  cases h with
  | same => exact hc
  | @appended bytes n _ h =>
    have hg := t.append_grows bytes
    rw [h] at hg
    obtain ⟨rfl, -, rfl⟩ := of_append_ok h
    exact hc.grows hg (Nat.le_add_right ..)
  | refused h =>
    have hstored := of_append_error h
    exact hc.grows hstored.toGrows (Nat.le_of_eq hstored.fill.symm)
  | ended he => exact hc.fixEnd he hs
  | broken | evicted _ => exact hc.of_eof rfl rfl hc.le_fill
  | truncated _ => exact hc.of_eof rfl rfl hs
  | grown _ _ page => exact hc.grows (grow_grows page) (Nat.le_refl _)
  | put _ address b =>
    have hstored := t.storedFrom_put address b
    exact hc.grows hstored.toGrows (Nat.le_of_eq hstored.fill.symm)

namespace Session

variable {s : Session} {name : String} {cmd : Command} {t : Tape} {c : Option AnyCursor}

/-- Commands for cursors and blocks leave the spans timely that they spare. -/
theorem Effect.timely (he : Effect s name cmd t c) (hr : s.Regular) {role : Role}
    {c' : Cursor role} (hc : c'.Timely s.tape) (hs : cmd.Spares c' t) : c'.Timely t := by
  cases he with
  | none _ | dropped | madeReader _ _ _ _ | made _ _ _ | copied _ | movedReader _ _ | moved _ _
  | read _ _ => exact hc
  | wrote hget hw =>
    have hk := (hr.writer hget).toKept
    exact hc.grows ((hw hk).keeps hk).2 (hw hk).fill_le
  | finished hh _ hf =>
    cases hf (hr.headers _ _ hh).toKept with
    | stays hg _ | cut hg _ => exact hc.of_eof hg.pageSize hg.eof hs
  | ended he | endedReading _ he | endedWriting _ he => exact hc.fixEnd he hs

/-- The cursor that such a command goes by is timely afterwards. -/
theorem Effect.timely_own (he : Effect s name cmd t c) (hr : s.Regular) (h : s.Timely)
    (hstays : ∀ c', s.cursors.get? name = some c' → cmd ≠ .cursor name .fixEnd →
      c'.Satisfies Cursor.Timely t) : ∀ c' ∈ c, c'.Satisfies Cursor.Timely t := by
  intro c' hc'
  cases he with
  | none _ => exact h.cursors name c' hc'
  | dropped => cases hc'
  | madeReader _ _ _ _ | made _ _ _ =>
    cases hc'
    exact Nat.zero_le _
  | copied hget =>
    cases hc'
    exact h.cursors _ _ hget
  | movedReader _ hm | moved _ hm =>
    cases hc'
    exact Cursor.timely_of_moves hm
  | read hget hl =>
    cases hc'
    exact (hl.timely (h.cursors _ _ hget)).1
  | wrote hget hw =>
    cases hc'
    have hk := (hr.writer hget).toKept
    exact (hw hk).timely hk (h.cursors _ _ hget)
  | finished hh hget hf =>
    cases hc'
    cases hf (hr.headers _ _ hh).toKept with
    | stays _ _ => exact hstays _ hget nofun
    | cut _ _ => exact Cursor.timely_refresh _ t
  | ended _ => exact hstays c' hc' nofun
  | endedReading _ _ | endedWriting _ _ =>
    cases hc'
    exact Cursor.timely_refresh _ t

/-- Fixing the end through a cursor begins no block. -/
theorem headers_fixEnd (s : Session) (name : String) :
    (s.stepCursor name .fixEnd).2.headers = s.headers := by
  simp only [stepCursor, onCursor]
  cases s.cursors.get? name with
  | none => rfl
  | some c =>
    cases c with
    | reader c | writer c =>
      simp only [Cursor.fixEnd]
      cases s.tape.fixEnd c.address with
      | error e => rfl
      | ok t => rfl

/-- A command that goes by the name of a cursor leaves the spans timely that it spares. -/
theorem Timely.did (h : s.Timely) (hr : s.Regular) (hs : s.Spares cmd)
    (hd : Did s name cmd (s.step cmd).2)
    (hname : ∀ name', cmd = .cursor name' .fixEnd → name' = name) : (s.step cmd).2.Timely := by
  obtain ⟨t, c, he, hbecomes⟩ := hd
  have htape := hbecomes.tape
  have hcursors (name' : String) (c' : AnyCursor) (hget : s.cursors.get? name' = some c')
      (hne : cmd ≠ .cursor name' .fixEnd) : c'.Satisfies Cursor.Timely t :=
    (h.cursors name' c' hget).imp₂ (htape ▸ hs.cursors name' c' hget hne) (he.timely hr)
  refine hbecomes.each (he.timely_own hr h (hcursors name)) ?_ ?_
  · intro name' c' hn hget
    exact hcursors name' c' hget fun heq => hn (hname name' heq)
  · intro block header hget
    have hold (hget : s.headers.get? block = some header) : header.cursor.Timely t :=
      he.timely hr (h.headers block header hget) (htape ▸ hs.headers block header hget)
    by_cases hfix : cmd = .cursor name .fixEnd
    · subst hfix
      exact hold (s.headers_fixEnd name ▸ hget)
    · rcases hbecomes.headers block header hget with hget | hget
      · exact hold hget
      · exact hcursors name _ hget hfix

/-- A command that spares the spans leaves all of them timely. -/
theorem Timely.step (h : s.Timely) (hr : s.Regular) (hs : s.Spares cmd) :
    (s.step cmd).2.Timely := by
  cases cmd with
  | tape cmd =>
    have hturns := s.turns_stepTape cmd
    refine hturns.each (fun name c hget => ?_) fun block header hget => ?_
    · exact (h.cursors name c hget).imp₂ (hs.cursors name c hget nofun) hturns.tape.timely
    · exact hturns.tape.timely (h.headers block header hget) (hs.headers block header hget)
  | cursor name cmd =>
    refine h.did hr hs (s.did_stepCursor name cmd) fun name' heq => ?_
    cases heq
    rfl
  | reader name cmd => exact h.did hr hs (s.did_stepReader name cmd) nofun
  | writer name cmd => exact h.did hr hs (s.did_stepWriter name cmd) nofun
  | startValue name kind =>
    have hd := s.did_none name (.startValue name kind)
    exact h.did hr hs (hd.of_eq rfl rfl rfl) nofun

/-! ## Cursors that stay as they are -/

/-- A write leaves all readers as they are. -/
theorem get?_onWriter_of_reader {ε α : Type} {answer : α → Reply} {refuse : ε → Reply}
    {act : Writing ε α} {name' : String} {c : Reader}
    (hget : s.cursors.get? name' = some (.reader c)) :
    (s.onWriter name answer refuse act).2.cursors.get? name' = some (.reader c) := by
  rw [onWriter]
  cases hname : s.cursors.get? name with
  | none =>
    rw [onCursor_of_none hname]
    exact hget
  | some c' =>
    rw [onCursor_of_some hname]
    cases c' with
    | reader c' => exact hget
    | writer w =>
      have hput (t : Tape) (w' : Writer) :
          (putCursor { s with tape := t } name (.writer w')).cursors.get? name' =
            some (.reader c) := by
        rw [putCursor, Named.get?_put, if_neg]
        · exact hget
        · rintro rfl
          rw [hname] at hget
          cases hget
      simp only
      cases act (s.tape, w) with
      | ok _ r | error _ r => exact hput r.1 r.2

theorem get?_finishBlock_of_reader {block name' : String} {c : Reader}
    (hget : s.cursors.get? name' = some (.reader c)) :
    (s.stepWriter name (.finishBlock block)).2.cursors.get? name' = some (.reader c) := by
  rw [stepWriter]
  cases s.headers.get? block with
  | none => exact hget
  | some h => exact get?_onWriter_of_reader (s := { s with headers := s.headers.erase block }) hget

theorem get?_fixEnd_of_ne {name' : String} (hn : name' ≠ name) :
    (s.stepCursor name .fixEnd).2.cursors.get? name' = s.cursors.get? name' := by
  obtain ⟨t, c, -, hbecomes⟩ := s.did_stepCursor name .fixEnd
  rw [hbecomes.cursors, if_neg hn]

theorem spares_of_forall (h : ∀ {role : Role} (c : Cursor role) (t : Tape), cmd.Spares c t) :
    s.Spares cmd := by
  refine ⟨fun _ c _ _ => ?_, fun _ _ _ => h _ _⟩
  cases c with
  | reader c => exact h c _
  | writer w => exact h w _

/-- Where all spans are timely afterwards, the command has spared them. -/
theorem Timely.spares (h : (s.step cmd).2.Timely) : s.Spares cmd := by
  have hany (c : AnyCursor) (hc : c.Satisfies Cursor.Timely (s.step cmd).2.tape) :
      c.Satisfies cmd.Spares (s.step cmd).2.tape :=
    hc.imp₂ hc fun h _ => h.spares cmd
  cases cmd with
  | tape cmd =>
    have hturns := s.turns_stepTape cmd
    refine ⟨fun name c hget _ => hany c (h.cursors name c ?_), fun block header hget => ?_⟩
    · exact hturns.cursors.symm ▸ hget
    · exact (h.headers block header (hturns.headers.symm ▸ hget)).spares _
  | cursor name cmd =>
    cases cmd with
    | fixEnd =>
      refine ⟨fun name' c hget hne => hany c (h.cursors name' c ?_), fun block header hget => ?_⟩
      · have hn : name' ≠ name := fun heq => hne (heq ▸ rfl)
        exact (get?_fixEnd_of_ne hn).trans hget
      · exact (h.headers block header ((s.headers_fixEnd name).symm ▸ hget)).spares _
    | _ => exact spares_of_forall fun _ _ => trivial
  | writer name cmd =>
    cases cmd with
    | finishBlock block =>
      refine ⟨fun name' c hget _ => ?_, fun _ _ _ => nofun⟩
      cases c with
      | reader c => exact hany (.reader c) (h.cursors name' _ (get?_finishBlock_of_reader hget))
      | writer w => exact nofun
    | _ => exact spares_of_forall fun _ _ => trivial
  | reader _ _ | startValue _ _ => exact spares_of_forall fun _ _ => trivial

/-! ## Reads -/

/-- All that a command for a reader does to it is a series of loads. -/
theorem loads_stepReader {cmd : ReaderCommand} {c c' : Reader}
    (hget : s.cursors.get? name = some (.reader c))
    (hget' : (s.stepReader name cmd).2.cursors.get? name = some (.reader c')) :
    Loads s.tape c c' := by
  obtain ⟨t, c'', he, hbecomes⟩ := s.did_stepReader name cmd
  rw [hbecomes.cursors, if_pos rfl] at hget'
  cases he with
  | none _ =>
    rw [hget] at hget'
    cases hget'
    exact .nil c
  | read hget₁ hl =>
    rw [hget] at hget₁
    cases hget₁
    cases hget'
    exact hl
  | wrote _ _ => cases hget'

theorem readByte_of_number {c : Reader} {n : Nat} (hget : s.cursors.get? name = some (.reader c))
    (hreply : (s.stepReader name .readByte).1 = .number n) :
    ∃ b c', c.readByte s.tape = (.ok b, c') := by
  rw [stepReader, onReader, onCursor_of_some hget] at hreply
  cases hb : c.readByte s.tape with
  | mk r c' =>
    cases r with
    | ok b => exact ⟨b, c', rfl⟩
    | error e =>
      simp only [hb] at hreply
      cases hreply

/-- Timely readers read only bytes that were written. -/
theorem Timely.readsWritten (h : s.Timely) (hr : s.Regular) : s.ReadsWritten := by
  refine ⟨fun name cmd c c' hget hget' a hle hlt => ?_, fun name c n hget hreply => ?_⟩
  · obtain ⟨-, hmax⟩ := (loads_stepReader hget hget').timely (h.cursors name _ hget)
    omega
  · obtain ⟨b, c', hb⟩ := readByte_of_number hget hreply
    -- a whole byte takes more than is left of the byte at hand
    have hroom := Cursor.room_of_readByte hb
    have hspan := Cursor.Timely.le_fill (h.cursors name _ hget) rfl
    have hshort := (hr.reader hget).tidy.short
    simp only [Cursor.room] at hroom
    omega

/-! ## At all times -/

theorem after_append (s : Session) (cmds : List Command) (cmd : Command) :
    s.after (cmds ++ [cmd]) = ((s.after cmds).step cmd).2 := by
  simp only [after, List.foldl_append, List.foldl_cons, List.foldl_nil]

/-- As long as each command spares the spans, they stay timely. -/
theorem Timely.after {cmds : List Command} (h : s.Timely) (hr : s.Regular)
    (hs : ∀ past cmd, past ++ [cmd] <+: cmds → (s.after past).Spares cmd) :
    (s.after cmds).Timely := by
  induction cmds generalizing s with
  | nil => exact h
  | cons cmd rest ih =>
    have hcmd : s.Spares cmd := hs [] cmd ⟨rest, rfl⟩
    refine ih (h.step hr hcmd) (hr.step cmd) fun past cmd' hp => ?_
    exact hs (cmd :: past) cmd' ((List.prefix_cons_inj cmd).2 hp)

/-- Whatever is done to a tape and the cursors on it: at all times every span is timely and only
written bytes are read, exactly if each command spares the spans. -/
theorem timely_iff_spares (pageSize : Nat) (framing : Framing) (cmds : List Command) :
    (∀ past, past <+: cmds →
        (Session.after { tape := Tape.blank pageSize, framing } past).Timely ∧
          (Session.after { tape := Tape.blank pageSize, framing } past).ReadsWritten) ↔
      ∀ past cmd, past ++ [cmd] <+: cmds →
        (Session.after { tape := Tape.blank pageSize, framing } past).Spares cmd := by
  have hregular := regular_after pageSize framing
  have hblank : Session.Timely { tape := Tape.blank pageSize, framing } :=
    each_blank pageSize framing
  refine ⟨fun h past cmd hp => ?_, fun h past hp => ?_⟩
  · have htimely := (h _ hp).1
    rw [after_append] at htimely
    exact htimely.spares
  · have htimely := hblank.after (hregular []) fun earlier cmd he => h earlier cmd (he.trans hp)
    exact ⟨htimely, htimely.readsWritten (hregular past)⟩

/-- A reader has read one of three bytes and cached that the others are there, when they are cut
off. -/
def cutOff : Session :=
  after { tape := Tape.blank 4, framing := {} }
    [.tape (.append [0xaa, 0xbb, 0xcc]), .cursor "r" (.makeReader .byte (some 0)),
      .reader "r" .readByte, .tape (.truncate 1)]

/-- The reader reads a byte that is no longer there. -/
theorem not_timely_cutOff : cutOff.tape.fill = 1 ∧
    (∃ c : Reader, cutOff.cursors.get? "r" = some (.reader c) ∧ c.address = 1 ∧ c.span = 3 ∧
      (c.refresh cutOff.tape).span = 1) ∧
    ¬cutOff.Timely ∧ (cutOff.step (.reader "r" .readByte)).1 = .number 0xbb ∧
    ¬cutOff.ReadsWritten := by
  have hfill : cutOff.tape.fill = 1 := by rfl
  have hget : cutOff.cursors.get? "r" = some (.reader
      { grain := .byte, address := 1, page := some 0, span := 3 }) := by rfl
  have hspan : (Cursor.refresh
      ({ grain := .byte, address := 1, page := some 0, span := 3 } : Reader) cutOff.tape).span =
        1 := by rfl
  have hreply : (cutOff.step (.reader "r" .readByte)).1 = .number 0xbb := by rfl
  refine ⟨hfill, ⟨_, hget, rfl, rfl, hspan⟩, fun h => ?_, hreply, fun h => ?_⟩
  · have hle : 3 ≤ (Cursor.refresh _ cutOff.tape).span := h.cursors "r" _ hget
    rw [hspan] at hle
    exact absurd hle (by decide)
  · have hlt : 1 < cutOff.tape.fill := h.byte "r" _ _ hget hreply
    rw [hfill] at hlt
    exact absurd hlt (by decide)

end Session

end Transcoder

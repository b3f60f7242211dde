import Transcoder.Proofs.Session.Pages

/-!
# What holds of every cursor

A session has cursors under names, and one on the header of each block that was begun. `Each` says
that something holds of all of them on the tape as it stands. What one command does to the cursor
that it goes by is seen from its effect; the others only see another tape.

Results:
* `Session.passes_step`: whatever the command, pages that are held stay and a broken tape stays
  broken.
* `Session.regular_after`: all cursors are in order at all times.
-/
namespace Transcoder

/-- `P` holds of the cursor. -/
def AnyCursor.Satisfies (P : {role : Role} → Cursor role → Tape → Prop) (t : Tape) :
    AnyCursor → Prop
  | reader c => P c t
  | writer w => P w t

/-- What follows for cursors of both roles follows for any of them. -/
theorem AnyCursor.Satisfies.imp₂ {P Q R : {role : Role} → Cursor role → Tape → Prop} {t t' : Tape}
    {c : AnyCursor} (h : c.Satisfies P t) (k : c.Satisfies Q t')
    (himp : ∀ {role : Role} {c : Cursor role}, P c t → Q c t' → R c t') : c.Satisfies R t' := by
  cases c with
  | reader c => exact himp h k
  | writer w => exact himp h k

namespace Session

/-- `P` holds of every cursor on the tape. -/
structure Each (P : {role : Role} → Cursor role → Tape → Prop) (s : Session) : Prop where
  cursors : ∀ name c, s.cursors.get? name = some c → c.Satisfies P s.tape
  headers : ∀ block h, s.headers.get? block = some h → P h.cursor s.tape

variable {P : {role : Role} → Cursor role → Tape → Prop} {s s' : Session} {name : String}
  {cmd : Command} {t : Tape} {c : Option AnyCursor}

/-- Without cursors there is nothing to say. -/
theorem each_blank (pageSize : Nat) (framing : Framing) :
    Each P { tape := Tape.blank pageSize, framing } :=
  ⟨fun _ _ h => (nomatch h), fun _ _ h => (nomatch h)⟩

/-- The cursor that a command goes by, the others, and the headers. -/
theorem Becomes.each (h : Becomes s name t c s') (hown : ∀ c' ∈ c, c'.Satisfies P t)
    (hothers : ∀ name' c', name' ≠ name → s.cursors.get? name' = some c' → c'.Satisfies P t)
    (hheaders : ∀ block h, s'.headers.get? block = some h → P h.cursor t) : s'.Each P := by
  obtain ⟨rfl, hcursors, -⟩ := h
  refine ⟨fun name' c' hget => ?_, hheaders⟩
  rw [hcursors] at hget
  by_cases hn : name' = name
  · rw [if_pos hn] at hget
    exact hown c' hget
  · rw [if_neg hn] at hget
    exact hothers name' c' hn hget

/-- A command for the tape leaves the cursors as they are. -/
theorem Turns.each {cmd : TapeCommand} (h : Turns s cmd s')
    (hcursors : ∀ name c, s.cursors.get? name = some c → c.Satisfies P s'.tape)
    (hheaders : ∀ block h, s.headers.get? block = some h → P h.cursor s'.tape) : s'.Each P :=
  ⟨fun name c hget => hcursors name c (h.cursors ▸ hget),
    fun block h' hget => hheaders block h' (h.headers ▸ hget)⟩

/-! ## Cursors in order -/

/-- All cursors are in order. -/
abbrev Regular (s : Session) : Prop := s.Each Cursor.Regular

theorem Regular.reader (h : s.Regular) {c : Reader}
    (hget : s.cursors.get? name = some (.reader c)) : c.Regular s.tape :=
  h.cursors name _ hget

theorem Regular.writer (h : s.Regular) {w : Writer}
    (hget : s.cursors.get? name = some (.writer w)) : w.Regular s.tape :=
  h.cursors name _ hget

/-- Commands for cursors and blocks leave the pages that are held. -/
theorem Effect.passes (he : Effect s name cmd t c) (h : s.Regular) :
    s.tape.Passes s.heldPages t := by
  cases he with
  | none _ | dropped | madeReader _ _ _ _ | made _ _ _ | copied _ | movedReader _ _ | moved _ _
  | read _ _ =>
    exact .refl s.heldPages s.tape
  | wrote hget hw =>
    have hk := (h.writer hget).toKept
    exact ((hw hk).keeps hk).2.passes s.heldPages
  | finished hh _ hf =>
    cases hf (h.headers _ _ hh).toKept with
    | stays hg _ | cut hg _ => exact hg.passes s.heldPages
  | ended he | endedReading _ he | endedWriting _ he =>
    exact Tape.passes_of_fixEnd he s.heldPages

/-- Whatever the command, the pages that are held stay. -/
theorem passes_step (h : s.Regular) (cmd : Command) :
    s.tape.Passes s.heldPages (s.step cmd).2.tape := by
  cases hdirect : cmd.direct with
  | true =>
    obtain ⟨name, t, c, heffect, hbecomes⟩ := s.did_step hdirect
    rw [hbecomes.tape]
    exact heffect.passes h
  | false =>
    cases cmd with
    | tape cmd => exact (s.turns_stepTape cmd).tape.passes
    | _ => cases hdirect

end Session

/-- A cursor stays in order as long as its page stays. -/
theorem Cursor.Regular.passes {role : Role} {c : Cursor role} {t t' : Tape} {held : List Nat}
    (h : c.Regular t) (hp : t.Passes held t') (hheld : ∀ page ∈ c.page, page ∈ held) :
    c.Regular t' := by
  refine ⟨⟨fun page hpage => ?_, fun a ha hs => ?_⟩, h.inside, h.tidy⟩
  · obtain ⟨hfirst, hend⟩ := h.page page hpage
    exact ⟨hp.held page (hheld page hpage) hfirst, Nat.lt_of_lt_of_le hend hp.endPage⟩
  · rw [Tape.pageOf, hp.pageSize]
    exact h.span a ha hs

namespace Session

variable {s s' : Session} {name : String} {cmd : Command} {t : Tape} {c : Option AnyCursor}

/-- All cursors stay in order as long as their pages stay. -/
theorem Regular.passes (h : s.Regular) (hp : s.tape.Passes s.heldPages t) :
    (∀ name c, s.cursors.get? name = some c → c.Satisfies Cursor.Regular t) ∧
      ∀ block h, s.headers.get? block = some h → h.cursor.Regular t := by
  refine ⟨fun name c hget => ?_, fun block header hget => ?_⟩
  · have hc := h.cursors name c hget
    cases c with
    | reader c => exact Cursor.Regular.passes hc hp fun page hpage => mem_heldPages hget hpage
    | writer w => exact Cursor.Regular.passes hc hp fun page hpage => mem_heldPages hget hpage
  · exact (h.headers block header hget).passes hp fun page hpage => mem_heldPages_header hget hpage

/-- The cursor that a command goes by stays in order. -/
theorem Effect.regular (he : Effect s name cmd t c) (h : s.Regular) :
    ∀ c' ∈ c, c'.Satisfies Cursor.Regular t := by
  intro c' hc'
  have hstays := (h.passes (he.passes h)).1
  cases he with
  | none _ | ended _ => exact hstays name c' hc'
  | dropped => cases hc'
  | madeReader _ grain bounds address =>
    cases hc'
    exact Cursor.regular_fresh _ grain bounds address
  | made _ grain address =>
    cases hc'
    exact Cursor.regular_fresh _ grain [] address
  | copied hget =>
    cases hc'
    exact h.cursors _ _ hget
  | movedReader hget hm =>
    cases hc'
    exact (h.reader hget).moved hm
  | moved hget hm =>
    cases hc'
    exact (h.writer hget).moved hm
  | read hget hl =>
    cases hc'
    exact hl.regular (h.reader hget)
  | wrote hget hw =>
    cases hc'
    have hr := h.writer hget
    exact (hw hr.toKept).regular hr
  | finished hh hget hf =>
    cases hc'
    have hr : Cursor.Regular _ _ := hstays _ _ hget
    cases hf (h.headers _ _ hh).toKept with
    | stays _ _ => exact hr
    | cut _ address => exact hr.moved (.seek address)
  | endedReading hget _ | endedWriting hget _ =>
    cases hc'
    have hr : Cursor.Regular _ _ := hstays _ _ hget
    exact hr.moved .refresh

/-- Whatever the command, all cursors stay in order. -/
theorem Regular.step (h : s.Regular) (cmd : Command) : (s.step cmd).2.Regular := by
  obtain ⟨hcursors, hheaders⟩ := h.passes (passes_step h cmd)
  cases hdirect : cmd.direct with
  | true =>
    obtain ⟨name, t, c, heffect, hbecomes⟩ := s.did_step hdirect
    rw [hbecomes.tape] at hcursors hheaders
    refine hbecomes.each (heffect.regular h) (fun name' c' _ => hcursors name' c') ?_
    intro block header hget
    rcases hbecomes.headers block header hget with hget | hget
    · exact hheaders block header hget
    · exact hcursors name _ hget
  | false =>
    cases cmd with
    | tape cmd => exact (s.turns_stepTape cmd).each hcursors hheaders
    | _ => cases hdirect

theorem Regular.after (h : s.Regular) (cmds : List Command) : (s.after cmds).Regular := by
  induction cmds generalizing s with
  | nil => exact h
  | cons cmd rest ih => exact ih (h.step cmd)

/-- Whatever has led to a session, all its cursors are in order. -/
theorem regular_after (pageSize : Nat) (framing : Framing) (cmds : List Command) :
    (Session.after { tape := Tape.blank pageSize, framing } cmds).Regular :=
  Regular.after (each_blank pageSize framing) cmds

end Session

end Transcoder

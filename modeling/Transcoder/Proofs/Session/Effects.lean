import Transcoder.Proofs.Block.Finishing
import Transcoder.Proofs.Cursor.Loading
import Transcoder.Proofs.Cursor.Tight
import Transcoder.Proofs.Session.Named

/-!
# What a command does to a session

The commands that make, move and use cursors come to a few effects: each changes what one name
stands for and, in some of them, the tape. `Effect` lists these; what holds of all such commands is
proved from the list, and not from the commands.

The commands that give and take pages, bytes or the tape's soundness from outside are left out.

Results:
* `Session.did_step`: every such command has one of the effects.
* `Session.Holds.after`: what the effects keep, all such commands keep.
* `Session.invariant_working`: the tape stays in order, and so do the caches of all writers.
-/
namespace Transcoder

/-- The tape is not broken, and no page of it was given up. -/
def Tape.Entire (t : Tape) : Prop := t.broken = false ∧ t.firstPage = 0

/-- The command fixes the end of the stream, or makes, moves or uses a cursor. It neither begins nor
finishes a block. -/
def Command.ofCursors : Command → Bool
  | tape (.fixEnd _) => true
  | tape _ => false
  | writer _ (.beginBlock _) => false
  | writer _ (.finishBlock _) => false
  | _ => true

/-- The command fixes the end of the stream, or leaves the tape to the cursors and blocks. -/
def Command.direct : Command → Bool
  | tape (.fixEnd _) => true
  | tape _ => false
  | _ => true

theorem Command.direct_of_ofCursors {cmd : Command} (h : cmd.ofCursors = true) :
    cmd.direct = true := by
  cases cmd with
  | tape cmd =>
    cases cmd with
    | fixEnd address => rfl
    | _ => cases h
  | _ => rfl

namespace Session

/-- The session after some commands. -/
def after (s : Session) (cmds : List Command) : Session :=
  cmds.foldl (fun s cmd => (s.step cmd).2) s

/-- What a command makes of the tape, and of what the name stands for. -/
inductive Effect (s : Session) (name : String) : Command → Tape → Option AnyCursor → Prop
  | none (cmd : Command) : Effect s name cmd s.tape (s.cursors.get? name)
  | dropped : Effect s name (.cursor name .drop) s.tape none
  | madeReader (cmd : CursorCommand) (grain : Grain) (bounds : List Position) (address : Nat) :
    Effect s name (.cursor name cmd) s.tape (some (.reader { grain, bounds, address }))
  | made (cmd : CursorCommand) (grain : Grain) (address : Nat) :
    Effect s name (.cursor name cmd) s.tape (some (.writer { grain, address }))
  | copied {source : String} {c : AnyCursor} (h : s.cursors.get? source = some c) :
    Effect s name (.cursor name (.copy source)) s.tape (some c)
  | movedReader {cmd : CursorCommand} {c c' : Reader} (h : s.cursors.get? name = some (.reader c))
    (hm : Cursor.Moves s.tape c c') : Effect s name (.cursor name cmd) s.tape (some (.reader c'))
  | moved {cmd : CursorCommand} {w w' : Writer} (h : s.cursors.get? name = some (.writer w))
    (hm : Cursor.Moves s.tape w w') : Effect s name (.cursor name cmd) s.tape (some (.writer w'))
  | read {cmd : Command} {c c' : Reader} (h : s.cursors.get? name = some (.reader c))
    (hl : Loads s.tape c c') : Effect s name cmd s.tape (some (.reader c'))
  | wrote {cmd : Command} {w w' : Writer} {t : Tape} (h : s.cursors.get? name = some (.writer w))
    (hw : w.Kept s.tape → Stores (s.tape, w) (t, w')) : Effect s name cmd t (some (.writer w'))
  | finished {block : String} {h : OpenHeader} {w w' : Writer} {t : Tape}
    (hh : s.headers.get? block = some h) (hget : s.cursors.get? name = some (.writer w))
    (hf : h.cursor.Kept s.tape → Finishes s.tape w (t, w')) :
    Effect s name (.writer name (.finishBlock block)) t (some (.writer w'))
  | ended {address : Nat} {t : Tape} (he : s.tape.fixEnd address = .ok t) :
    Effect s name (.tape (.fixEnd address)) t (s.cursors.get? name)
  | endedReading {c : Reader} {t : Tape} (h : s.cursors.get? name = some (.reader c))
    (he : s.tape.fixEnd c.address = .ok t) :
    Effect s name (.cursor name .fixEnd) t (some (.reader (c.refresh t)))
  | endedWriting {w : Writer} {t : Tape} (h : s.cursors.get? name = some (.writer w))
    (he : s.tape.fixEnd w.address = .ok t) :
    Effect s name (.cursor name .fixEnd) t (some (.writer (w.refresh t)))

/-- A command that went by the name has led to `s'`. -/
def Did (s : Session) (name : String) (cmd : Command) (s' : Session) : Prop :=
  ∃ t c, Effect s name cmd t c ∧ Becomes s name t c s'

variable {s s' : Session} {name : String} {cmd : Command}

/-! ## Effects of the helpers -/

theorem did_none (s : Session) (name : String) (cmd : Command) : Did s name cmd s :=
  ⟨_, _, .none cmd, becomes_self s name s.tape⟩

/-- Only the tape, the cursors and the begun blocks count. -/
theorem Did.of_eq (h : Did s name cmd s') {s'' : Session} (ht : s''.tape = s'.tape)
    (hc : s''.cursors = s'.cursors) (hh : s''.headers = s'.headers) : Did s name cmd s'' := by
  obtain ⟨t, c, heffect, hbecomes⟩ := h
  refine ⟨t, c, heffect, ht.trans hbecomes.tape, ?_, ?_⟩
  · rw [hc]
    exact hbecomes.cursors
  · rw [hh]
    exact hbecomes.headers

/-- What is asked for a cursor only has an effect where there is one of the name it asks for. -/
theorem did_onCursor {source : String} {f : AnyCursor → Reply × Session}
    (hf : ∀ c, s.cursors.get? source = some c → Did s name cmd (f c).2) :
    Did s name cmd (s.onCursor source f).2 := by
  cases hget : s.cursors.get? source with
  | none =>
    rw [onCursor_of_none hget]
    exact did_none s name cmd
  | some c =>
    rw [onCursor_of_some hget]
    exact hf c hget

theorem did_onReader {f : Reader → Reply × Reader} (hf : ∀ c, Loads s.tape c (f c).2) :
    Did s name cmd (s.onReader name f).2 := by
  apply did_onCursor
  intro c hget
  cases c with
  | reader c => exact ⟨_, _, .read hget (hf c), becomes_put s name s.tape _⟩
  | writer c => exact did_none s name cmd

theorem did_tryReader {ε α : Type} {answer : α → Reply} {refuse : ε → Reply}
    {f : Reader → Except ε (α × Reader)}
    (hf : ∀ c a c', f c = .ok (a, c') → Loads s.tape c c') :
    Did s name cmd (s.tryReader name answer refuse f).2 := by
  refine did_onReader fun c => ?_
  cases hfc : f c with
  | error e => exact .nil c
  | ok r => exact hf c r.1 r.2 hfc

theorem did_onWriter {ε α : Type} {answer : α → Reply} {refuse : ε → Reply} {act : Writing ε α}
    (hact : Writing.Series act) : Did s name cmd (s.onWriter name answer refuse act).2 := by
  apply did_onCursor
  intro c hget
  cases c with
  | reader c => exact did_none s name cmd
  | writer w =>
    have hstores (t : Tape) (w' : Writer)
        (hr : (∃ a, act (s.tape, w) = .ok a (t, w')) ∨ ∃ e, act (s.tape, w) = .error e (t, w')) :
        w.Kept s.tape → Stores (s.tape, w) (t, w') := by
      intro hk
      have h := hact hk
      rcases hr with ⟨a, hr⟩ | ⟨e, hr⟩
      · rw [hr] at h
        cases h with
        | ok h _ => exact h
      · rw [hr] at h
        cases h with
        | error h _ => exact h
    simp only
    cases hr : act (s.tape, w) with
    | ok a r =>
      obtain ⟨t, w'⟩ := r
      exact ⟨t, _, .wrote hget (hstores t w' (.inl ⟨a, hr⟩)), becomes_put s name t _⟩
    | error e r =>
      obtain ⟨t, w'⟩ := r
      exact ⟨t, _, .wrote hget (hstores t w' (.inr ⟨e, hr⟩)), becomes_put s name t _⟩

theorem did_moveCursor {cmd : CursorCommand}
    {f : {role : Role} → Cursor role → Except StreamError (Cursor role)}
    (hf : ∀ {role : Role} (c c' : Cursor role), f c = .ok c' → Cursor.Moves s.tape c c') :
    Did s name (.cursor name cmd) (s.moveCursor name f).2 := by
  apply did_onCursor
  intro c hget
  cases c with
  | reader c =>
    simp only
    cases hfc : f c with
    | error e => exact did_none s name _
    | ok c' => exact ⟨_, _, .movedReader hget (hf c c' hfc), becomes_put s name s.tape _⟩
  | writer w =>
    simp only
    cases hfw : f w with
    | error e => exact did_none s name _
    | ok w' => exact ⟨_, _, .moved hget (hf w w' hfw), becomes_put s name s.tape _⟩

/-! ## Effects of the commands -/

theorem did_stepCursor (s : Session) (name : String) (cmd : CursorCommand) :
    Did s name (.cursor name cmd) (s.stepCursor name cmd).2 := by
  cases cmd with
  | makeReader grain address => exact ⟨_, _, .madeReader _ grain [] _, becomes_put s name s.tape _⟩
  | makeWriter grain address => exact ⟨_, _, .made _ grain _, becomes_put s name s.tape _⟩
  | makeReaderOver source address =>
    apply did_onCursor
    intro c _
    cases c with
    | reader c => exact ⟨_, _, .madeReader _ c.grain c.bounds address, becomes_put s name s.tape _⟩
    | writer w => exact ⟨_, _, .madeReader _ w.grain w.bounds address, becomes_put s name s.tape _⟩
  | copy source =>
    apply did_onCursor
    intro c hget
    exact ⟨_, _, .copied hget, becomes_put s name s.tape _⟩
  | drop =>
    exact ⟨_, _, .dropped, rfl, fun name' => Named.get?_erase s.cursors name name', fun _ _ => .inl⟩
  | pushBound stop =>
    apply did_moveCursor
    intro role c c' h
    rw [Cursor.pushBound] at h
    split at h
    · cases h
      exact .push ‹_›
    · cases h
  | popBound =>
    apply did_moveCursor
    intro role c c' h
    rw [Cursor.popBound] at h
    split at h
    · cases h
    · cases h
      exact .pop ‹_›
  | seek address =>
    apply did_moveCursor
    intro role c c' h
    cases h
    exact .seek address
  | close =>
    apply did_moveCursor
    intro role c c' h
    cases h
    exact .close
  | refresh =>
    apply did_moveCursor
    intro role c c' h
    cases h
    exact .refresh
  | fixEnd =>
    apply did_onCursor
    intro c hget
    cases c with
    | reader c =>
      simp only [Cursor.fixEnd]
      cases he : s.tape.fixEnd c.address with
      | error e => exact did_none s name _
      | ok t => exact ⟨_, _, .endedReading hget he, becomes_put s name t _⟩
    | writer w =>
      simp only [Cursor.fixEnd]
      cases he : s.tape.fixEnd w.address with
      | error e => exact did_none s name _
      | ok t => exact ⟨_, _, .endedWriting hget he, becomes_put s name t _⟩
  | align =>
    apply did_onCursor
    intro c hget
    cases c with
    | reader c =>
      exact ⟨_, _, .read hget (Cursor.loads_alignReader _ c), becomes_put s name s.tape _⟩
    | writer w => exact did_onWriter Cursor.series_alignWriter
  | alignStream =>
    apply did_onCursor
    intro c hget
    cases c with
    | reader c =>
      exact ⟨_, _, .read hget (Cursor.loads_alignReader _ c), becomes_put s name s.tape _⟩
    | writer w =>
      exact did_onWriter fun _ _ hk => Writing.yields_mapError (Cursor.series_alignWriter hk) _
  | position =>
    apply did_onCursor
    intro c hget
    cases c with
    | reader c => exact did_none s name _
    | writer w => exact did_none s name _

/-- Naming an extent changes nothing else. -/
theorem Did.keepExtent {r : Reply × Session} (h : Did s name cmd r.2) (block : String) :
    Did s name cmd (Session.keepExtent block r).2 := by
  obtain ⟨reply, s'⟩ := r
  cases reply with
  | extent e => exact h.of_eq rfl rfl rfl
  | _ => exact h

theorem did_stepReader (s : Session) (name : String) (cmd : ReaderCommand) :
    Did s name (.reader name cmd) (s.stepReader name cmd).2 := by
  cases cmd with
  | readByte =>
    refine did_onReader fun c => ?_
    have h := c.loads_readByte s.tape
    generalize c.readByte s.tape = r at h
    obtain ⟨r, c'⟩ := r
    cases r with
    | ok b | error e => exact h
  | readBit => exact did_tryReader fun c bit c' h => Cursor.loads_readBit h
  | readBits count =>
    refine did_onReader fun c => ?_
    have h := c.loads_readBits s.tape count
    generalize c.readBits s.tape count = r at h
    obtain ⟨r, c'⟩ := r
    cases r with
    | ok w | error e => exact h
  | readValue kind => exact did_tryReader fun c w c' h => Cursor.loads_readValue h
  | readNode node => exact did_tryReader fun c w c' h => Cursor.loads_readNode h
  | readSize => exact did_tryReader fun c size c' h => Cursor.loads_readSize h
  | resume partialValue =>
    rw [stepReader]
    cases s.partials.get? partialValue with
    | none => exact did_none s name _
    | some p =>
      apply did_onCursor
      intro c hget
      cases c with
      | reader c =>
        exact ⟨_, _, .read hget (Cursor.loads_resume s.tape c p), rfl,
          fun name' => Named.get?_put s.cursors name name' _, fun _ _ => .inl⟩
      | writer w => exact did_none s name _
  | enter block =>
    refine Did.keepExtent (did_tryReader ?_) block
    exact fun c e c' h => Cursor.loads_enter h
  | enterSized block size =>
    refine Did.keepExtent (did_tryReader ?_) block
    exact fun c e c' h => Cursor.loads_enterSized h
  | leave block =>
    rw [stepReader]
    cases s.extents.get? block with
    | none => exact did_none s name _
    | some e =>
      refine did_tryReader fun c a c' h => ?_
      cases hleave : c.leave s.tape e with
      | error cause =>
        rw [hleave] at h
        cases h
      | ok c₁ =>
        rw [hleave] at h
        cases h
        exact Cursor.loads_leave hleave

/-- A header is reserved through the writer, and a copy of it stays there. -/
theorem did_beginBlock (s : Session) (name block : String) :
    Did s name cmd (s.stepWriter name (.beginBlock block)).2 := by
  rw [stepWriter, onWriter]
  cases hget : s.cursors.get? name with
  | none =>
    rw [onCursor_of_none hget]
    exact did_none s name cmd
  | some c =>
    rw [onCursor_of_some hget]
    cases c with
    | reader c => exact did_none s name cmd
    | writer w =>
      have hseries :=
        (Cursor.puts_writePaddedSize 0 s.framing.reserved).series (t := s.tape) (w := w)
      simp only [Framing.beginBlock]
      generalize Cursor.writePaddedSize 0 s.framing.reserved (s.tape, w) = r at hseries
      cases r with
      | ok u r =>
        obtain ⟨t, w'⟩ := r
        have hwrote (hk : w.Kept s.tape) : Stores (s.tape, w) (t, w') := by
          cases hseries hk with
          | ok h _ => exact h
        refine ⟨t, _, .wrote hget hwrote, rfl,
          fun name' => Named.get?_put s.cursors name name' _, fun block' h hh => ?_⟩
        · have hput : (s.headers.put block ⟨w, s.framing.reserved⟩).get? block' = some h := hh
          rw [Named.get?_put] at hput
          by_cases hn : block' = block
          · rw [if_pos hn] at hput
            cases hput
            exact .inr hget
          · rw [if_neg hn] at hput
            exact .inl hput
      | error e r =>
        obtain ⟨t, w'⟩ := r
        have hwrote (hk : w.Kept s.tape) : Stores (s.tape, w) (t, w') := by
          cases hseries hk with
          | error h _ => exact h
        exact ⟨t, _, .wrote hget hwrote, becomes_put s name t _⟩

/-- A block is finished through its header, which is gone then, finished or refused. -/
theorem did_finishBlock (s : Session) (name block : String) :
    Did s name (.writer name (.finishBlock block)) (s.stepWriter name (.finishBlock block)).2 := by
  have hheaders (block' : String) (h : OpenHeader)
      (hh : (s.headers.erase block).get? block' = some h) : s.headers.get? block' = some h := by
    rw [Named.get?_erase] at hh
    split at hh
    · cases hh
    · exact hh
  have hgone (t : Tape) (c : AnyCursor) : Becomes s name t (some c)
      ({ s with headers := s.headers.erase block, tape := t }.putCursor name c) :=
    ⟨rfl, fun name' => Named.get?_put s.cursors name name' c, fun b h hh => .inl (hheaders b h hh)⟩
  have hleft : Becomes s name s.tape (s.cursors.get? name)
      { s with headers := s.headers.erase block } :=
    ⟨rfl, (becomes_self s name s.tape).cursors, fun b h hh => .inl (hheaders b h hh)⟩
  rw [stepWriter]
  cases hh : s.headers.get? block with
  | none => exact did_none s name _
  | some h =>
    simp only [onWriter]
    cases hget : s.cursors.get? name with
    | none =>
      rw [onCursor_of_none (s := { s with headers := s.headers.erase block }) hget]
      exact ⟨_, _, .none _, hleft⟩
    | some c =>
      rw [onCursor_of_some (s := { s with headers := s.headers.erase block }) hget]
      cases c with
      | reader c => exact ⟨_, _, .none _, hleft⟩
      | writer w =>
        have hfinishes (hk : h.cursor.Kept s.tape) := finishes_finishBlock hk s.framing w
        simp only [Writing.leaves] at hfinishes ⊢
        generalize s.framing.finishBlock h (s.tape, w) = r at hfinishes
        cases r with
        | ok _ r | error _ r =>
          obtain ⟨t, w'⟩ := r
          exact ⟨t, _, .finished hh hget hfinishes, hgone t _⟩

/-- A write does to the tape what its writer does. -/
theorem did_stepWriter (s : Session) (name : String) (cmd : WriterCommand) :
    Did s name (.writer name cmd) (s.stepWriter name cmd).2 := by
  cases cmd with
  | writeByte b => exact did_onWriter (Cursor.putsWhole_writeByte b).puts.series
  | writeBytes bytes => exact did_onWriter (Cursor.puts_writeBytes bytes).series
  | writeBit bit => exact did_onWriter (Cursor.putsWhole_writeBit bit).puts.series
  | writeBits word count => exact did_onWriter (Cursor.putsWhole_writeBits word count).puts.series
  | writeValue kind word => exact did_onWriter (Cursor.putsWhole_writeValue kind word).puts.series
  | writeNode node word => exact did_onWriter (Cursor.series_writeNode node word)
  | writePaddedSize size reserved =>
    exact did_onWriter (Cursor.puts_writePaddedSize size reserved).series
  | writeSize size => exact did_onWriter (Cursor.puts_writeSize size).series
  | moveBlock start size => exact did_onWriter (Cursor.puts_moveBlock start size).series
  | beginBlock block => exact did_beginBlock s name block
  | finishBlock block => exact did_finishBlock s name block

/-- Every such command has one of the effects. -/
theorem did_step (s : Session) {cmd : Command} (hc : cmd.direct = true) :
    ∃ name, Did s name cmd (s.step cmd).2 := by
  cases cmd with
  | cursor name cmd => exact ⟨name, did_stepCursor s name cmd⟩
  | reader name cmd => exact ⟨name, did_stepReader s name cmd⟩
  | writer name cmd => exact ⟨name, did_stepWriter s name cmd⟩
  | startValue name kind => exact ⟨name, (did_none s name _).of_eq rfl rfl rfl⟩
  | tape cmd =>
    cases cmd with
    | fixEnd address =>
      refine ⟨"", ?_⟩
      show Did s "" _ (s.onTape (s.tape.fixEnd address)).2
      cases he : s.tape.fixEnd address with
      | error e => exact did_none s "" _
      | ok t => exact ⟨t, _, .ended he, becomes_self s "" t⟩
    | _ => cases hc

/-! ## Invariants -/

/-- What holds of the tape of a session, and of each writer on it. -/
structure Holds (T : Tape → Prop) (P : Tape → Writer → Prop) (s : Session) : Prop where
  tape : T s.tape
  writers : ∀ name w, s.cursors.get? name = some (.writer w) → P s.tape w

/-- What stays true of a tape and its writers when one of them is made, moved or written through,
and when the end is fixed. -/
structure Invariant (T : Tape → Prop) (P : Tape → Writer → Prop) : Prop where
  kept : ∀ {t w}, P t w → w.Kept t
  made : ∀ {t} grain address, T t → P t { grain, address }
  moved : ∀ {t w w'}, T t → P t w → Cursor.Moves t w w' → P t w'
  wrote : ∀ {t w t' w'}, T t → P t w → Stores (t, w) (t', w') →
    T t' ∧ P t' w' ∧ ∀ v, P t v → P t' v
  ended : ∀ {t t' address}, T t → t.fixEnd address = .ok t' → T t' ∧ ∀ v, P t v → P t' v

variable {T : Tape → Prop} {P : Tape → Writer → Prop}

/-- Each effect keeps an invariant. -/
theorem Invariant.effect (hinv : Invariant T P) (h : s.Holds T P) {t : Tape} {c : Option AnyCursor}
    (hc : cmd.ofCursors = true) (he : Effect s name cmd t c) :
    T t ∧ (∀ v, P s.tape v → P t v) ∧ ∀ w, c = some (.writer w) → P t w := by
  cases he with
  | none _ => exact ⟨h.tape, fun _ hv => hv, h.writers name⟩
  | dropped | madeReader _ _ _ _ | movedReader _ _ | read _ _ =>
    refine ⟨h.tape, fun _ hv => hv, ?_⟩
    intro w hw
    cases hw
  | made _ grain address =>
    refine ⟨h.tape, fun _ hv => hv, ?_⟩
    intro w hw
    cases hw
    exact hinv.made grain address h.tape
  | copied hget =>
    refine ⟨h.tape, fun _ hv => hv, ?_⟩
    intro w hw
    cases hw
    exact h.writers _ w hget
  | moved hget hm =>
    refine ⟨h.tape, fun _ hv => hv, ?_⟩
    intro w hw
    cases hw
    exact hinv.moved h.tape (h.writers _ _ hget) hm
  | wrote hget hstores =>
    have hw := h.writers _ _ hget
    obtain ⟨ht, hone, hothers⟩ := hinv.wrote h.tape hw (hstores (hinv.kept hw))
    refine ⟨ht, hothers, ?_⟩
    intro w hw
    cases hw
    exact hone
  | finished _ _ _ => cases hc
  | ended he =>
    obtain ⟨ht, hall⟩ := hinv.ended h.tape he
    exact ⟨ht, hall, fun w hw => hall w (h.writers name w hw)⟩
  | endedReading _ he =>
    obtain ⟨ht, hall⟩ := hinv.ended h.tape he
    refine ⟨ht, hall, ?_⟩
    intro w hw
    cases hw
  | endedWriting hget he =>
    obtain ⟨ht, hall⟩ := hinv.ended h.tape he
    refine ⟨ht, hall, ?_⟩
    intro w hw
    cases hw
    exact hinv.moved ht (hall _ (h.writers name _ hget)) .refresh

theorem Holds.did (h : s.Holds T P) (hinv : Invariant T P) (hc : cmd.ofCursors = true)
    (hd : Did s name cmd s') : s'.Holds T P := by
  obtain ⟨t, c, heffect, hbecomes⟩ := hd
  obtain ⟨ht, hothers, hone⟩ := hinv.effect h hc heffect
  obtain rfl := hbecomes.tape
  refine ⟨ht, ?_⟩
  intro name' w hget
  rw [hbecomes.cursors] at hget
  by_cases hn : name' = name
  · rw [if_pos hn] at hget
    exact hone w hget
  · rw [if_neg hn] at hget
    exact hothers w (h.writers name' w hget)

/-- What each effect keeps, all commands for cursors keep. -/
theorem Holds.after {cmds : List Command} (h : s.Holds T P) (hinv : Invariant T P)
    (hc : ∀ cmd ∈ cmds, cmd.ofCursors = true) : (s.after cmds).Holds T P := by
  induction cmds generalizing s with
  | nil => exact h
  | cons cmd rest ih =>
    have hcmd := hc cmd List.mem_cons_self
    obtain ⟨name, hd⟩ := s.did_step (Command.direct_of_ofCursors hcmd)
    exact ih (h.did hinv hcmd hd) fun cmd' hmem => hc cmd' (List.mem_cons_of_mem _ hmem)

/-! ## Sessions in working order -/

/-- The tape is in order, and so are the caches of all writers. -/
abbrev Working (s : Session) : Prop := s.Holds Tape.Entire fun t w => w.Regular t

theorem working_blank (pageSize : Nat) (framing : Framing) :
    Working { tape := Tape.blank pageSize, framing } := by
  refine ⟨⟨rfl, rfl⟩, ?_⟩
  intro name w h
  cases h

theorem invariant_working : Invariant Tape.Entire fun t w => w.Regular t := by
  refine ⟨fun h => h.toKept, fun grain address _ => ?_, fun _ h hm => h.moved hm, ?_, ?_⟩
  · exact Cursor.regular_fresh _ grain [] address
  · intro t w t' w' ht hr hs
    have hg := (hs.keeps hr.toKept).2
    refine ⟨⟨hg.broken.trans ht.1, hg.firstPage.trans ht.2⟩, hs.regular hr, ?_⟩
    intro v hv
    exact hv.grows hg
  · intro t t' address ht he
    obtain ⟨rfl, -⟩ := Tape.of_fixEnd he
    refine ⟨ht, ?_⟩
    intro v hv
    exact ⟨⟨hv.page, hv.span⟩, hv.inside, hv.tidy⟩

end Session

end Transcoder

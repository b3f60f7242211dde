import Transcoder.Proofs.Cursor.Inside
import Transcoder.Proofs.Session.Pinning
import Transcoder.Proofs.Tape.Pagewise

/-!
# Sessions look at no byte outside its page

The fast path of a cursor, the loops of `append` and `copyOut`: none of them asks whether an address
is on the page that it works on. Whatever has been done on a tape, by whatever cursors, there is no
need to ask. This holds in every session that can come about, with pages of any size.

Results:
* `Session.not_outside_step`: no command is refused for a byte that is not on its page, apart from
  those that name the page themselves, and from copies that end at no address.
* `Session.inside_after`: every byte that is read, written, appended or copied is on its page.
-/
namespace Transcoder

open Cursor Writing

/-- The answer tells of a byte that was looked for on another page than its own. -/
def Reply.Outside : Reply → Prop
  | refused e => e.Outside
  | resumed (.error e) _ => e.Outside
  | notDecoded e => e.Of StreamError.Outside
  | notEncoded e => e.Of StreamError.Outside
  | _ => False

/-- The command is for a byte of a page that was kept under a name. Which byte that is, is for the
caller to say. -/
def Command.ofKeptPage : Command → Bool
  | tape (.pageGet _ _) => true
  | tape (.pageSet _ _ _) => true
  | _ => false

/-- The command is for a copy whose end is no address. That stops the program before it looks at any
page. -/
def Command.overlong : Command → Bool
  | tape (.copyOut start length) => UInt64.size ≤ start + length
  | _ => false

/-! ## Tapes -/

namespace Tape

variable {t t' : Tape} {a n : Nat} {e : StreamError}

theorem not_outside_of_writePage (h : t.writePage a = .error e) : ¬e.Outside := by
  rw [writePage] at h
  cases hc : t.checkWritable a with
  | ok u =>
    rw [hc] at h
    cases h
  | error e' =>
    rw [hc] at h
    cases h
    exact not_outside_of_checkWritable hc

theorem not_outside_of_readPage (h : t.readPage a = .error e) : ¬e.Outside := by
  simp only [readPage, bind, Except.bind] at h
  split at h
  · cases h
    exact not_outside_of_checkReadable ‹_›
  · split at h
    · cases h
    · cases h
      rintro ⟨⟩

theorem Appends.not_outside {bytes : List UInt8} {r : Except StreamError Nat × Tape}
    (h : t.Appends a bytes r) (he : r.1 = .error e) : ¬e.Outside := by
  induction h with
  | done => cases he
  | refused _ hwrite =>
    cases he
    exact not_outside_of_writePage hwrite
  | page _ _ _ _ ih => exact ih he

theorem not_outside_of_append {bytes : List UInt8} (h : t.append bytes = (.error e, t')) :
    ¬e.Outside := by
  have happends := t.appends_storeFrom t.fill bytes
  rw [append] at h
  generalize t.storeFrom t.fill false bytes = r at h happends
  obtain ⟨r, t₁⟩ := r
  cases r with
  | ok n => cases h
  | error e' =>
    cases h
    exact happends.not_outside rfl

theorem Copies.not_outside {r : Except StreamError (List UInt8)} (h : t.Copies a n r)
    (he : r = .error e) : ¬e.Outside := by
  induction h with
  | done => cases he
  | refused _ _ =>
    cases he
    rintro ⟨⟩
  | @page _ _ _ r _ _ _ ih =>
    cases r with
    | ok bytes => cases he
    | error e' =>
      cases he
      exact ih rfl

theorem Backed.not_outside_of_copyOut (hb : t.Backed) (hn : a + n < UInt64.size)
    (h : t.copyOut a n = .error e) : ¬e.Outside := by
  by_cases hbroken : t.broken = true
  · rw [copyOut, if_pos hbroken] at h
    cases h
    rintro ⟨⟩
  by_cases hlong : t.fill < a + n
  · rw [copyOut, if_neg hbroken, if_pos hlong, if_pos hn] at h
    cases h
    rintro ⟨⟩
  exact (hb.copies_copyOut (Bool.eq_false_iff.2 hbroken) (Nat.le_of_not_lt hlong)).not_outside h

end Tape

namespace Session

variable {s : Session} {name : String} {cmd : Command}

/-! ## Answers of the helpers -/

theorem not_outside_onCursor {f : AnyCursor → Reply × Session}
    (hf : ∀ c, s.cursors.get? name = some c → ¬(f c).1.Outside) :
    ¬(s.onCursor name f).1.Outside := by
  cases hget : s.cursors.get? name with
  | none =>
    rw [onCursor_of_none hget]
    exact not_false
  | some c =>
    rw [onCursor_of_some hget]
    exact hf c hget

theorem not_outside_onReader (h : s.Regular) {f : Reader → Reply × Reader}
    (hf : ∀ c, c.Regular s.tape → ¬(f c).1.Outside) : ¬(s.onReader name f).1.Outside := by
  apply not_outside_onCursor
  intro c hget
  cases c with
  | reader c => exact hf c (h.reader hget)
  | writer w => exact not_false

theorem not_outside_tryReader (h : s.Regular) {ε α : Type} {answer : α → Reply}
    {refuse : ε → Reply} {f : Reader → Except ε (α × Reader)} (ha : ∀ a, ¬(answer a).Outside)
    (hf : ∀ c e, c.Regular s.tape → f c = .error e → ¬(refuse e).Outside) :
    ¬(s.tryReader name answer refuse f).1.Outside := by
  refine not_outside_onReader h fun c hc => ?_
  cases hr : f c with
  | ok r => exact ha r.1
  | error e => exact hf c e hc hr

theorem not_outside_onWriter (h : s.Regular) {ε α : Type} {answer : α → Reply} {refuse : ε → Reply}
    {wrong : ε → Prop} {act : Writing ε α} (hact : Safe Cursor.Regular wrong act)
    (ha : ∀ a, ¬(answer a).Outside) (hr : ∀ e, (refuse e).Outside → wrong e) :
    ¬(s.onWriter name answer refuse act).1.Outside := by
  apply not_outside_onCursor
  intro c hget
  cases c with
  | reader c => exact not_false
  | writer w =>
    simp only
    cases hrun : act (s.tape, w) with
    | ok a r => exact ha a
    | error e r => exact fun hout => hact (h.writer hget) hrun (hr e hout)

theorem not_outside_write (h : s.Regular) {act : Writing StreamError Unit}
    (hact : Safe Cursor.Regular StreamError.Outside act) :
    ¬(s.onWriter name (fun () => .done) .refused act).1.Outside :=
  not_outside_onWriter h hact (fun _ => not_false) fun _ => id

theorem not_outside_encode (h : s.Regular) {act : Writing EncodeError Unit}
    (hact : Safe Cursor.Regular (EncodeError.Of StreamError.Outside) act) :
    ¬(s.onWriter name (fun () => .done) .notEncoded act).1.Outside :=
  not_outside_onWriter h hact (fun _ => not_false) fun _ => id

theorem not_outside_moveCursor
    {f : {role : Role} → Cursor role → Except StreamError (Cursor role)}
    (hf : ∀ {role : Role} (c : Cursor role) e, f c = .error e → e.ofPage = false) :
    ¬(s.moveCursor name f).1.Outside := by
  apply not_outside_onCursor
  intro c _
  cases c with
  | reader c | writer c =>
    simp only
    cases hr : f c with
    | ok c' => exact not_false
    | error e => exact StreamError.not_outside_of_ofPage (hf c e hr)

theorem not_outside_keepExtent {r : Reply × Session} (h : ¬r.1.Outside) (block : String) :
    ¬(keepExtent block r).1.Outside := by
  obtain ⟨reply, s'⟩ := r
  cases reply with
  | extent e => exact not_false
  | _ => exact h

theorem not_outside_keepHeader {r : Reply × Session} (h : ¬r.1.Outside) (block : String) :
    ¬(keepHeader block r).1.Outside := by
  obtain ⟨reply, s'⟩ := r
  cases reply with
  | header _ => exact not_false
  | _ => exact h

theorem not_outside_onTape {r : Except StreamError Tape} (h : ∀ e, r = .error e → ¬e.Outside) :
    ¬(s.onTape r).1.Outside := by
  cases r with
  | ok t => exact not_false
  | error e => exact h e rfl

/-! ## Answers to the commands -/

theorem ofPage_of_fixEnd {t : Tape} {address : Nat} {e : StreamError}
    (h : t.fixEnd address = .error e) : e.ofPage = false := by
  rw [Tape.fixEnd] at h
  repeat' split at h
  all_goals
    cases h
    try rfl

theorem not_outside_stepCursor (h : s.Regular) (name : String) (cmd : CursorCommand) :
    ¬(s.stepCursor name cmd).1.Outside := by
  have halign := guard_regular.safe_alignWriter
  cases cmd with
  | makeReader _ _ | makeWriter _ _ | drop => exact not_false
  | makeReaderOver source address =>
    apply not_outside_onCursor
    intro c _
    cases c <;> exact not_false
  | copy source => exact not_outside_onCursor fun c _ => not_false
  | pushBound stop =>
    refine not_outside_moveCursor fun c e hr => ?_
    rw [pushBound] at hr
    split at hr
    · cases hr
    · cases hr
      rfl
  | popBound =>
    refine not_outside_moveCursor fun c e hr => ?_
    rw [popBound] at hr
    split at hr
    · cases hr
      rfl
    · cases hr
  | seek _ | close | refresh =>
    refine not_outside_moveCursor fun c e hr => ?_
    cases hr
  | fixEnd =>
    apply not_outside_onCursor
    intro c _
    cases c with
    | reader c | writer c =>
      simp only [Cursor.fixEnd]
      cases he : s.tape.fixEnd c.address with
      | ok t => exact not_false
      | error e => exact StreamError.not_outside_of_ofPage (ofPage_of_fixEnd he)
  | align =>
    apply not_outside_onCursor
    intro c _
    cases c with
    | reader c => exact not_false
    | writer w => exact not_outside_write h halign
  | alignStream =>
    apply not_outside_onCursor
    intro c _
    cases c with
    | reader c => exact not_false
    | writer w => exact not_outside_encode h halign.stream
  | position =>
    apply not_outside_onCursor
    intro c _
    cases c <;> exact not_false

theorem not_outside_enterSized {c : Reader} {t : Tape} {size : Nat} {e : DecodeError}
    (h : c.enterSized t size = .error e) : ¬e.Of StreamError.Outside := by
  simp only [enterSized, pushBound] at h
  split at h
  · cases h
  · rename_i hpush
    split at hpush
    · cases hpush
    · cases hpush
      cases h
      rintro ⟨⟨⟩⟩

theorem not_outside_leave {c : Reader} {t : Tape} {extent : Extent} {e : DecodeError}
    (h : c.leave t extent = .error e) : ¬e.Of StreamError.Outside := by
  rw [leave] at h
  split at h
  · split at h
    · cases h
    · rename_i hpop
      rw [popBound] at hpop
      split at hpop
      · cases hpop
        cases h
        rintro ⟨⟨⟩⟩
      · cases hpop
  · cases h
    rintro ⟨⟩

theorem not_outside_stepReader (h : s.Regular) (name : String) (cmd : ReaderCommand) :
    ¬(s.stepReader name cmd).1.Outside := by
  have g := guard_regular
  cases cmd with
  | readByte =>
    refine not_outside_onReader h fun c hc => ?_
    cases hr : c.readByte s.tape with
    | mk r c' =>
      cases r with
      | ok b => exact not_false
      | error e => exact g.not_of_readByte hc hr
  | readBit =>
    exact not_outside_tryReader h (fun _ => not_false) fun c e hc hr => g.not_of_readBit hc hr
  | readBits count =>
    refine not_outside_onReader h fun c hc => ?_
    cases hr : c.readBits s.tape count with
    | mk r c' =>
      cases r with
      | ok w => exact not_false
      | error e => exact g.not_of_readBits hc hr
  | readValue kind =>
    exact not_outside_tryReader h (fun _ => not_false) fun c e hc hr => g.not_of_readValue hc hr
  | readNode node =>
    exact not_outside_tryReader h (fun _ => not_false) fun c e hc hr => g.not_of_readNode hc hr
  | readSize =>
    exact not_outside_tryReader h (fun _ => not_false) fun c e hc hr => g.not_of_readSize hc hr
  | resume partialValue =>
    rw [stepReader]
    cases s.partials.get? partialValue with
    | none => exact not_false
    | some p =>
      apply not_outside_onCursor
      intro c hget
      cases c with
      | writer w => exact not_false
      | reader c =>
        simp only
        cases hr : c.resume s.tape p with
        | mk r rest =>
          obtain ⟨c', p'⟩ := rest
          cases r with
          | ok w => exact not_false
          | error e => exact g.not_of_resume (h.reader hget) hr
  | enter block =>
    refine not_outside_keepExtent ?_ block
    refine not_outside_tryReader h (fun _ => not_false) fun c e hc hr => ?_
    simp only [enter, bind, Except.bind] at hr
    split at hr
    · cases hr
      exact g.not_of_readSize hc ‹_›
    · exact not_outside_enterSized hr
  | enterSized block size =>
    refine not_outside_keepExtent ?_ block
    exact not_outside_tryReader h (fun _ => not_false) fun c e _ hr => not_outside_enterSized hr
  | leave block =>
    rw [stepReader]
    cases s.extents.get? block with
    | none => exact not_false
    | some extent =>
      refine not_outside_tryReader h (fun _ => not_false) fun c e _ hr => ?_
      cases hleave : c.leave s.tape extent with
      | ok c' =>
        rw [hleave] at hr
        cases hr
      | error e' =>
        rw [hleave] at hr
        cases hr
        exact not_outside_leave hleave

theorem not_outside_stepWriter (h : s.Regular) (name : String) (cmd : WriterCommand) :
    ¬(s.stepWriter name cmd).1.Outside := by
  have g := guard_regular
  cases cmd with
  | writeByte b => exact not_outside_write h (g.safe_writeByte b)
  | writeBytes bytes => exact not_outside_write h (g.safe_writeBytes bytes)
  | writeBit bit => exact not_outside_write h (g.safe_writeBit bit)
  | writeBits word count => exact not_outside_write h (g.safe_writeBits word count)
  | writeValue kind word => exact not_outside_encode h (g.safe_writeValue kind word)
  | writeNode node word => exact not_outside_encode h (g.safe_writeNode node word)
  | writePaddedSize size reserved => exact not_outside_encode h (g.safe_writePaddedSize size reserved)
  | writeSize size => exact not_outside_encode h (g.safe_writeSize size)
  | moveBlock start size =>
    refine not_outside_encode h ?_
    intro t w e r hw hr
    exact g.not_of_moveBlock hw (regular_fresh _ _ _ _) hr
  | beginBlock block =>
    refine not_outside_keepHeader ?_ block
    exact not_outside_onWriter h (g.safe_beginBlock s.framing) (fun _ => not_false) fun _ => id
  | finishBlock block =>
    rw [stepWriter]
    cases hheader : s.headers.get? block with
    | none => exact not_false
    | some header =>
      have hregular := h.headers block header hheader
      apply not_outside_onCursor
      intro c hget
      cases c with
      | reader c => exact not_false
      | writer w =>
        have hthrough := through_finishBlock hregular.toKept s.framing w
        simp only
        generalize s.framing.finishBlock header (s.tape, w) = r at hthrough
        cases hthrough with
        | ok _ | cut _ _ => exact not_false
        | error _ he => exact he g hregular

theorem not_outside_onBookmark {bookmark : String} {f : Nat → Reply × Session}
    (hf : ∀ page, ¬(f page).1.Outside) : ¬(s.onBookmark bookmark f).1.Outside := by
  rw [onBookmark]
  split
  · exact hf _
  · exact not_false

theorem not_outside_stepTape (hb : s.tape.Backed) (cmd : TapeCommand)
    (hc : (Command.tape cmd).ofKeptPage = false) (hn : (Command.tape cmd).overlong = false) :
    ¬(s.stepTape cmd).1.Outside := by
  cases cmd with
  | markBroken | evict _ => exact not_false
  | append bytes =>
    rw [stepTape]
    cases hr : s.tape.append bytes with
    | mk r t =>
      cases r with
      | ok fill => exact not_false
      | error e => exact Tape.not_outside_of_append hr
  | fixEnd address =>
    exact not_outside_onTape fun e hr => StreamError.not_outside_of_ofPage (ofPage_of_fixEnd hr)
  | checkReadable address =>
    refine not_outside_onTape fun e hr => ?_
    cases hcheck : s.tape.checkReadable address with
    | ok u =>
      rw [hcheck] at hr
      cases hr
    | error e' =>
      rw [hcheck] at hr
      cases hr
      exact Tape.not_outside_of_checkReadable hcheck
  | truncate address => exact not_outside_onTape fun e hr => Tape.not_outside_of_truncate hr
  | copyOut start length =>
    rw [stepTape]
    cases hr : s.tape.copyOut start length with
    | ok bytes => exact not_false
    | error e => exact hb.not_outside_of_copyOut (Nat.not_le.1 (of_decide_eq_false hn)) hr
  | readPage address keep =>
    rw [stepTape]
    cases hr : s.tape.readPage address with
    | ok page => exact not_false
    | error e => exact Tape.not_outside_of_readPage hr
  | writePage address keep =>
    rw [stepTape]
    cases hr : s.tape.writePage address with
    | ok t => exact not_false
    | error e => exact Tape.not_outside_of_writePage hr
  | pageGet _ _ | pageSet _ _ _ => cases hc
  | pageContains bookmark address => exact not_outside_onBookmark fun page => not_false
  | pageRelease bookmark =>
    rw [stepTape]
    split <;> exact not_false

/-- No command is refused for a byte that is not on its page, if all cursors are in order and there
is a page for every byte. -/
theorem not_outside_step (h : s.Regular) (hb : s.tape.Backed) (hc : cmd.ofKeptPage = false)
    (hn : cmd.overlong = false) : ¬(s.step cmd).1.Outside := by
  cases cmd with
  | tape cmd => exact not_outside_stepTape hb cmd hc hn
  | cursor name cmd => exact not_outside_stepCursor h name cmd
  | reader name cmd => exact not_outside_stepReader h name cmd
  | writer name cmd => exact not_outside_stepWriter h name cmd
  | startValue name kind => exact not_false

/-! ## Bits at hand -/

/-- The bits that readers have at hand are those of bytes that lie before them. -/
def Placed (s : Session) : Prop :=
  ∀ name c, s.cursors.get? name = some (.reader c) → c.Placed

theorem Effect.placed {t : Tape} {c : Option AnyCursor} (he : Effect s name cmd t c)
    (h : s.Placed) : ∀ c', c = some (.reader c') → c'.Placed := by
  intro c' hc'
  cases he with
  | none _ | ended _ => exact h name c' hc'
  | madeReader _ _ _ _ =>
    cases hc'
    exact Nat.zero_le _
  | copied hget =>
    cases hc'
    exact h _ c' hget
  | movedReader hget hm =>
    cases hc'
    have hplaced := h name _ hget
    cases hm with
    | push _ | pop _ | close | refresh => exact hplaced
    | seek _ => exact Nat.zero_le _
  | read hget hl =>
    cases hc'
    exact hl.placed (h name _ hget)
  | endedReading hget _ =>
    cases hc'
    have hplaced := h name _ hget
    exact hplaced
  | dropped | made _ _ _ | moved _ _ | wrote _ _ | finished _ _ _ | endedWriting _ _ => cases hc'

theorem Placed.step (h : s.Placed) (cmd : Command) : (s.step cmd).2.Placed := by
  intro name' c hget
  cases hdirect : cmd.direct with
  | true =>
    obtain ⟨name, t, c', heffect, hbecomes⟩ := s.did_step hdirect
    rw [hbecomes.cursors] at hget
    split at hget
    · exact heffect.placed h c hget
    · exact h name' c hget
  | false =>
    cases cmd with
    | tape cmd =>
      have hcursors : (s.step (.tape cmd)).2.cursors = s.cursors := (s.turns_stepTape cmd).cursors
      rw [hcursors] at hget
      exact h name' c hget
    | _ => cases hdirect

/-- Whatever has led to a session, its readers have no bits at hand before the first byte. -/
theorem placed_after (pageSize : Nat) (framing : Framing) (cmds : List Command) :
    (after { tape := Tape.blank pageSize, framing } cmds).Placed := by
  have hall (s : Session) (h : s.Placed) : (s.after cmds).Placed := by
    induction cmds generalizing s with
    | nil => exact h
    | cons cmd rest ih => exact ih _ (h.step cmd)
  refine hall _ fun name c hget => ?_
  cases hget

/-! ## All accesses -/

/-- Every byte is looked for on its own page, and it is there: by the cursors, wherever an operation
on them has got to, and by the loops that append and copy. -/
structure Inside (s : Session) : Prop where
  replies : ∀ cmd, cmd.ofKeptPage = false → cmd.overlong = false → ¬(s.step cmd).1.Outside
  readers : ∀ name c c', s.cursors.get? name = some (.reader c) → Loads s.tape c c' →
    c'.TakesInside s.tape
  writers : ∀ name w t w', s.cursors.get? name = some (.writer w) →
    Stores (s.tape, w) (t, w') → w'.PutsInside t
  headers : ∀ block h t w', s.headers.get? block = some h →
    Stores (s.tape, h.cursor) (t, w') → w'.PutsInside t
  appends : ∀ bytes, s.tape.Appends s.tape.fill bytes (s.tape.storeFrom s.tape.fill false bytes)
  copies : ∀ start length, s.tape.broken = false → start + length ≤ s.tape.fill →
    s.tape.Copies start length (s.tape.copyOut start length)

/-- Whatever has led to a session, with pages of whatever size, every byte is looked for on its own
page. -/
theorem inside_after (pageSize : Nat) (framing : Framing) (cmds : List Command) :
    (after { tape := Tape.blank pageSize, framing } cmds).Inside := by
  have hregular := regular_after pageSize framing cmds
  have hbacked := backed_after pageSize framing cmds
  have hplaced := placed_after pageSize framing cmds
  generalize after { tape := Tape.blank pageSize, framing } cmds = s at hregular hbacked hplaced
  exact {
    replies := fun cmd hc hn => not_outside_step hregular hbacked hc hn
    readers := fun name c c' hget hl =>
      (hl.regular (hregular.reader hget)).takesInside (hl.placed (hplaced name c hget))
    writers := fun name w t w' hget hs => (hs.regular (hregular.writer hget)).putsInside
    headers := fun block h t w' hget hs => (hs.regular (hregular.headers block h hget)).putsInside
    appends := s.tape.appends_storeFrom s.tape.fill
    copies := fun start length hwhole hn => hbacked.copies_copyOut hwhole hn
  }

end Session

end Transcoder

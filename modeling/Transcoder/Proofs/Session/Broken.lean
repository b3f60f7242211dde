import Transcoder.Engine.Run
import Transcoder.Proofs.Cursor.Broken
import Transcoder.Proofs.Session.Everyone

/-!
# After a tape was broken

Nothing should get through on a broken tape: every read and every write of at least one bit should
be refused from then on, and change nothing. On whole bytes it is so. A bit cursor in the middle of
a byte goes on to the end of that byte, as `Session.Stops` says exactly.

A session does not have its tape to itself: an engine may work on it too, and may break it when it
is let go. `Session.Led` covers whatever the others do, as long as they take no page that is held.

Results:
* `stops_of_broken`: which accesses a broken tape stops.
* `Session.stops_of_led`: so it is whatever was done before and after the tape was broken, by a
  command or by an engine that was let go.
-/
namespace Transcoder

/-! ## Accesses -/

/-- A read or a write of bits, or of a byte. -/
inductive Access where
  | readByte
  | readBit
  | readBits (count : Nat)
  | writeByte (b : UInt8)
  | writeBit (bit : Bool)
  | writeBits (word : UInt64) (count : Nat)

namespace Access

/-- The command that asks a named cursor for it. -/
def command (a : Access) (name : String) : Command :=
  match a with
  | readByte => .reader name .readByte
  | readBit => .reader name .readBit
  | readBits count => .reader name (.readBits count)
  | writeByte b => .writer name (.writeByte b)
  | writeBit bit => .writer name (.writeBit bit)
  | writeBits word count => .writer name (.writeBits word count)

/-- Who can do it. -/
def role : Access → Role
  | readByte | readBit | readBits _ => .reader
  | writeByte _ | writeBit _ | writeBits _ _ => .writer

/-- Bits that it takes. -/
def length : Access → Nat
  | readByte | writeByte _ => 8
  | readBit | writeBit _ => 1
  | readBits count | writeBits _ count => min count 64

/-- How fine a cursor it asks for: byte cursors take no bits, but bit cursors take bytes. -/
def grain : Access → Grain
  | readByte | writeByte _ => .byte
  | _ => .bit

end Access

namespace Cursor

variable {role : Role}

/-- The access takes at least one bit, and is for cursors of this role and grain and within the
innermost end. -/
structure Suits (c : Cursor role) (t : Tape) (a : Access) : Prop where
  role : a.role = role
  grain : a.grain = .byte ∨ c.grain = .bit
  pos : 0 < a.length
  within : c.position.bits + a.length ≤ (c.stop t).bits

/-- The byte at hand is enough for `n` bits: a reader has them left, a writer has room for them and
one more. -/
def inHand (c : Cursor role) (n : Nat) : Prop :=
  match role with
  | .reader => n ≤ c.bits.length
  | .writer => c.bits.length + n < 8

end Cursor

namespace AnyCursor

def address : AnyCursor → Nat
  | reader c => c.address
  | writer w => w.address

def position : AnyCursor → Position
  | reader c => c.position
  | writer w => w.position

def Suits (t : Tape) (a : Access) (c : AnyCursor) : Prop :=
  c.Satisfies (fun c t => c.Suits t a) t

def InHand (a : Access) : AnyCursor → Prop
  | reader c => c.inHand a.length
  | writer w => w.inHand a.length

end AnyCursor

namespace Session

variable {s : Session} {name : String}

/-- The access is refused as the tape is broken; the tape stays as it is, and the cursor stands
where it did. -/
def Halts (s : Session) (name : String) (a : Access) : Prop :=
  ∃ c c', s.cursors.get? name = some c ∧
    (s.step (a.command name)).1 = .refused (.brokenCursor c.address) ∧
    (s.step (a.command name)).2.tape = s.tape ∧
    (s.step (a.command name)).2.cursors.get? name = some c' ∧ c'.position = c.position

/-- The tape stops every access to it but those for which the byte at hand is enough. -/
def Stops (s : Session) : Prop :=
  ∀ name c a, s.cursors.get? name = some c → c.Suits s.tape a → (s.Halts name a ↔ ¬c.InHand a)

/-! ## On a broken tape -/

theorem halts_of_reader {c c' : Reader} {a : Access} {f : Reader → Reply × Reader}
    (hget : s.cursors.get? name = some (.reader c))
    (hstep : s.step (a.command name) = s.onReader name f)
    (hf : f c = (.refused (.brokenCursor c.address), c')) (hp : c'.position = c.position) :
    s.Halts name a := by
  have hput := becomes_put s name s.tape (.reader c')
  have hresult : s.step (a.command name) =
      (.refused (.brokenCursor c.address), s.putCursor name (.reader c')) := by
    rw [hstep, onReader, onCursor_of_some hget]
    simp only [hf]
  refine ⟨_, .reader c', hget, ?_, ?_, ?_, hp⟩
  · rw [hresult]
    rfl
  · rw [hresult]
    rfl
  · rw [hresult, hput.cursors, if_pos rfl]

theorem not_halts_of_reader {c : Reader} {a : Access} {f : Reader → Reply × Reader}
    (hget : s.cursors.get? name = some (.reader c))
    (hstep : s.step (a.command name) = s.onReader name f) (hf : ∀ e, (f c).1 ≠ .refused e) :
    ¬s.Halts name a := by
  rintro ⟨_, _, _, hreply, -⟩
  rw [hstep, onReader, onCursor_of_some hget] at hreply
  exact hf _ hreply

theorem halts_of_writer {w w' : Writer} {a : Access} {act : Writing StreamError Unit}
    (hget : s.cursors.get? name = some (.writer w))
    (hstep : s.step (a.command name) = s.onWriter name (fun () => .done) .refused act)
    (hact : act (s.tape, w) = .error (.brokenCursor w.address) (s.tape, w'))
    (hp : w'.position = w.position) : s.Halts name a := by
  have hput := becomes_put s name s.tape (.writer w')
  have hresult : s.step (a.command name) =
      (.refused (.brokenCursor w.address), s.putCursor name (.writer w')) := by
    rw [hstep, onWriter, onCursor_of_some hget]
    simp only [hact]
  refine ⟨_, .writer w', hget, ?_, ?_, ?_, hp⟩
  · rw [hresult]
    rfl
  · rw [hresult]
    rfl
  · rw [hresult, hput.cursors, if_pos rfl]

theorem not_halts_of_writer {w : Writer} {a : Access} {act : Writing StreamError Unit}
    {r : Tape × Writer} (hget : s.cursors.get? name = some (.writer w))
    (hstep : s.step (a.command name) = s.onWriter name (fun () => .done) .refused act)
    (hact : act (s.tape, w) = .ok () r) : ¬s.Halts name a := by
  rintro ⟨_, _, _, hreply, -⟩
  rw [hstep, onWriter, onCursor_of_some hget] at hreply
  simp only [hact] at hreply
  cases hreply

/-- What a broken tape stops of what is asked of a reader. -/
theorem halts_reader_iff {c : Reader} {a : Access} (hb : s.tape.broken = true)
    (hget : s.cursors.get? name = some (.reader c)) (htidy : c.Tidy) (hs : c.Suits s.tape a) :
    s.Halts name a ↔ ¬c.inHand a.length := by
  have hwithin := hs.within
  cases a with
  | readByte =>
    obtain ⟨c', hc', hp⟩ := Cursor.readByte_of_broken hb htidy hwithin
    refine iff_of_true ?_ (Nat.not_le.2 htidy.short)
    exact halts_of_reader hget rfl (by simp only [hc']) hp
  | readBit =>
    have hg := hs.grain.resolve_left nofun
    cases hbits : c.bits with
    | nil =>
      have hc' := Cursor.readBit_of_broken hb hg hwithin hbits
      refine iff_of_true ?_ (by rw [Cursor.inHand, hbits]; exact Nat.not_succ_le_zero 0)
      exact halts_of_reader hget rfl (by simp only [hc']) rfl
    | cons bit rest =>
      have hc' := Cursor.readBit_inHand hg hwithin hbits
      refine iff_of_false ?_ (not_not_intro ?_)
      · exact not_halts_of_reader hget rfl (by simp [hc'])
      · rw [Cursor.inHand, hbits]
        exact Nat.le_add_left 1 _
  | readBits count =>
    have hg := hs.grain.resolve_left nofun
    by_cases hn : min count 64 ≤ c.bits.length
    · obtain ⟨w, c', hc'⟩ := Cursor.readBits_inHand hg hwithin hn
      refine iff_of_false ?_ (not_not_intro hn)
      exact not_halts_of_reader hget rfl (by simp [hc'])
    · obtain ⟨c', hc', hp⟩ := Cursor.readBits_of_broken hb hg hwithin (Nat.lt_of_not_le hn)
      refine iff_of_true ?_ hn
      exact halts_of_reader hget rfl (by simp only [hc']) hp
  | writeByte _ | writeBit _ | writeBits _ _ => cases hs.role

/-- What a broken tape stops of what is asked of a writer. -/
theorem halts_writer_iff {w : Writer} {a : Access} (hb : s.tape.broken = true)
    (hget : s.cursors.get? name = some (.writer w)) (htidy : w.Tidy) (hs : w.Suits s.tape a) :
    s.Halts name a ↔ ¬w.inHand a.length := by
  have hwithin := hs.within
  have hshort := htidy.short
  cases a with
  | writeByte b =>
    obtain ⟨w', hw', hp⟩ := Cursor.writeByte_of_broken hb htidy hwithin b
    refine iff_of_true ?_ (Nat.not_lt.2 (Nat.le_add_left 8 _))
    exact halts_of_writer hget rfl hw' hp
  | writeBit bit =>
    have hg := hs.grain.resolve_left nofun
    by_cases h7 : w.bits.length = 7
    · refine iff_of_true ?_ (by rw [Cursor.inHand, h7]; exact Nat.lt_irrefl 8)
      exact halts_of_writer hget rfl (Cursor.writeBit_of_broken hb hg hwithin h7) rfl
    · refine iff_of_false ?_ (not_not_intro ?_)
      · exact not_halts_of_writer hget rfl (Cursor.writeBit_inHand hg hwithin h7)
      · show w.bits.length + 1 < 8
        omega
  | writeBits word count =>
    have hg := hs.grain.resolve_left nofun
    have hlength := Bits.length_ofNat (min count 64) word.toNat
    have hlong : w.position.bits + (Bits.ofNat (min count 64) word.toNat).length ≤
        (w.stop s.tape).bits := hlength.symm ▸ hwithin
    by_cases hn : w.bits.length + min count 64 < 8
    · refine iff_of_false ?_ (not_not_intro hn)
      exact not_halts_of_writer hget rfl
        (Cursor.writeBitList_inHand hg hlong (by rwa [hlength]))
    · obtain ⟨w', hw', hp⟩ := Cursor.writeBitList_of_broken hb hg hlong hshort
        (by rw [hlength]; exact Nat.le_of_not_lt hn)
      refine iff_of_true ?_ hn
      exact halts_of_writer hget rfl hw' hp
  | readByte | readBit | readBits _ => cases hs.role

/-- A broken tape stops every access but those for which the byte at hand is enough. -/
theorem stops_of_broken (h : s.Regular) (hb : s.tape.broken = true) : s.Stops := by
  intro name c a hget hs
  cases c with
  | reader c => exact halts_reader_iff hb hget (h.reader hget).tidy hs
  | writer w => exact halts_writer_iff hb hget (h.writer hget).tidy hs

/-- A tape that was broken stays so. -/
theorem broken_after {cmds : List Command} (h : s.Regular) (hb : s.tape.broken = true) :
    (s.after cmds).tape.broken = true := by
  induction cmds generalizing s with
  | nil => exact hb
  | cons cmd rest ih => exact ih (h.step cmd) ((passes_step h cmd).broken hb)

/-! ## Whatever has led there -/

/-- What a session can be led to when others work on its tape as well. -/
inductive Led : Session → Prop
  | start (pageSize : Nat) (framing : Framing) :
    Led { tape := Tape.blank pageSize, framing }
  | step {s : Session} (h : Led s) (cmd : Command) : Led (s.step cmd).2
  | shared {s : Session} {t : Tape} (h : Led s) (ht : s.tape.Passes s.heldPages t) :
    Led { s with tape := t }

theorem Led.regular (h : s.Led) : s.Regular := by
  induction h with
  | start pageSize framing => exact each_blank pageSize framing
  | step _ cmd ih => exact ih.step cmd
  | shared _ ht ih =>
    obtain ⟨hcursors, hheaders⟩ := ih.passes ht
    exact ⟨hcursors, hheaders⟩

/-- The session with its tape broken by somebody else. -/
theorem Led.break_ (h : s.Led) : Led { s with tape := s.tape.break_ } :=
  h.shared ⟨rfl, Nat.le_refl _, fun _ _ hp => hp, fun _ => rfl⟩

theorem Led.stops (h : s.Led) (cmds : List Command) :
    (Session.after { s with tape := s.tape.break_ } cmds).Stops :=
  stops_of_broken (h.break_.regular.after cmds) (broken_after h.break_.regular rfl)

/-- Whatever has led to a session, and whatever is done later: once its tape was broken, by a
command or as the engine that works on it was let go, it stops every access but those for which the
byte at hand is enough. -/
theorem stops_of_led (h : s.Led) (cmds : List Command) :
    ((s.step (.tape .markBroken)).2.after cmds).Stops ∧
      ∀ e : Engine,
        (e.input = s.tape → (Session.after { s with tape := e.dispose.input } cmds).Stops) ∧
          (e.output = s.tape → (Session.after { s with tape := e.dispose.output } cmds).Stops) := by
  refine ⟨h.stops cmds, fun e => ⟨fun he => ?_, fun he => ?_⟩⟩
  · rw [Engine.dispose, he]
    exact h.stops cmds
  · rw [Engine.dispose, he]
    exact h.stops cmds

/-- A reader has read the first bit of the only byte. -/
def midByte : Session :=
  after { tape := Tape.blank 4, framing := {} }
    [.tape (.append [0xa5]), .cursor "r" (.makeReader .bit (some 0)), .reader "r" .readBit]

/-- Later it is read to the end of the byte, while the engine that works on the tape is let go. -/
theorem stops_midByte : midByte.Led ∧
    ((midByte.step (.tape .markBroken)).2.after [.reader "r" (.readBits 7)]).Stops ∧
      ∀ e : Engine, e.input = midByte.tape →
        (Session.after { midByte with tape := e.dispose.input } []).Stops := by
  have hled : midByte.Led := (((Led.start 4 {}).step _).step _).step _
  exact ⟨hled, (stops_of_led hled _).1, fun e => ((stops_of_led hled []).2 e).1⟩

/-- The reader goes on in the byte at hand when the tape was broken. -/
theorem not_halts_midByte :
    (midByte.step (.tape .markBroken)).2.tape.broken = true ∧
    (∃ c : Reader, (midByte.step (.tape .markBroken)).2.cursors.get? "r" = some (.reader c) ∧
      c.Suits (midByte.step (.tape .markBroken)).2.tape .readBit) ∧
    ((midByte.step (.tape .markBroken)).2.step (.reader "r" .readBit)).1 = .flag false ∧
    ¬(midByte.step (.tape .markBroken)).2.Halts "r" .readBit := by
  have hreply : ((midByte.step (.tape .markBroken)).2.step (.reader "r" .readBit)).1 =
      .flag false := by rfl
  refine ⟨by rfl, ⟨_, by rfl, ⟨rfl, .inr rfl, by decide, by decide⟩⟩, hreply, ?_⟩
  rintro ⟨_, _, _, hhalt, -⟩
  have hflag : Reply.flag false = .refused _ := hreply.symm.trans hhalt
  cases hflag

end Session

end Transcoder

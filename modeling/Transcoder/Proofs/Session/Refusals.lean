import Transcoder.Proofs.Cursor.Faltering
import Transcoder.Proofs.Session.Broken

/-!
# Writes that are refused

A value, or a field of bits, is written as a whole or not at all, and so should be what frames a
block. Where such a write is refused, the writer of a value does go back to where it was. What it
has put over bytes that stood there before stays (`refused_whole_iff`). The header of a block, or
its body when it is moved, is not taken back at all (`refused_framing_iff`).

Results:
* `Session.refused_whole_iff`: what a refused value leaves on the stream.
* `Session.refused_framing_iff`: when what frames a block is all or nothing.
-/
namespace Transcoder

/-- The answer to a write that did not succeed. -/
def Reply.refusal : Reply → Bool
  | refused _ | notEncoded _ => true
  | _ => false

namespace WriterCommand

/-- The command writes a value or a field of bits. -/
def whole : WriterCommand → Bool
  | writeBits _ _ | writeValue _ _ | writeNode _ _ => true
  | _ => false

/-- The bits that are to be written. -/
def bits : WriterCommand → List Bool
  | writeBits word count => Bits.ofNat (min count 64) word.toNat
  | writeValue kind word => Bits.ofBytes (kind.bytes word)
  | writeNode node word => (node.valueKind?.map fun kind => Bits.ofBytes (kind.bytes word)).getD []
  | _ => []

/-- A value written byte by byte, with nothing taken back where a byte is refused. -/
def bareValue (kind : IntKind) (word : UInt64) : Writing EncodeError Unit :=
  if kind.fits word then ((kind.bytes word).forM Cursor.bareByte).mapError .stream
  else throw (.valueOutOfRange kind word)

/-- The same write with nothing taken back where it is refused. -/
def bare : WriterCommand → Writing EncodeError Unit
  | writeBits word count =>
    ((Bits.ofNat (min count 64) word.toNat).forM Cursor.writeBit).mapError .stream
  | writeValue kind word => bareValue kind word
  | writeNode node word =>
    match node.valueKind? with
    | some kind => bareValue kind word
    | none => throw (.unsupported node.tag)
  | _ => pure ()

/-- The command writes what frames a block: the size of its body, or the body at its place. -/
def framing : WriterCommand → Bool
  | writePaddedSize _ _ | writeSize _ | moveBlock _ _ | beginBlock _ => true
  | _ => false

/-- There is nothing that the command can begin with. -/
def Blocked (t : Tape) (w : Writer) : WriterCommand → Prop
  | writePaddedSize size reserved => headerLimit reserved < size ∨ ¬w.Takes t
  | moveBlock start _ =>
    (∃ e c, (Cursor.readerOver w start).readByte t = (.error e, c)) ∨ ¬w.Takes t
  | _ => ¬w.Takes t

end WriterCommand

namespace Session

open WriterCommand Writing

variable {s : Session} {name : String} {w : Writer}

/-- The stream is as long as it was, and has its bytes. -/
def Unmarked (s s' : Session) : Prop :=
  s'.tape.fill = s.tape.fill ∧ ∀ a < s.tape.fill, s'.tape.byteAt a = s.tape.byteAt a

/-- Where a write through a writer is refused, its action was, and nothing else happened. -/
theorem of_onWriter_refused {ε α : Type} {answer : α → Reply} {refuse : ε → Reply}
    {act : Writing ε α} (hget : s.cursors.get? name = some (.writer w))
    (ha : ∀ a, (answer a).refusal = false)
    (hr : (s.onWriter name answer refuse act).1.refusal = true) :
    ∃ e t w', act (s.tape, w) = .error e (t, w') ∧
      (s.onWriter name answer refuse act).2 = { s with tape := t }.putCursor name (.writer w') := by
  rw [onWriter, onCursor_of_some hget] at hr ⊢
  cases hact : act (s.tape, w) with
  | ok a r =>
    simp only [hact, ha] at hr
    cases hr
  | error e r =>
    refine ⟨e, r.1, r.2, rfl, ?_⟩
    simp only [hact]

/-- What a refused action that goes back leaves. -/
theorem refused_of_takesBack {ε ε' : Type} {bits : List Bool} {bare : Writing ε Unit}
    {act : Writing ε' Unit} {answer : Unit → Reply} {refuse : ε' → Reply} (hk : w.Kept s.tape)
    (hget : s.cursors.get? name = some (.writer w)) (h : TakesBack bits bare act)
    (ha : ∀ a, (answer a).refusal = false)
    (hr : (s.onWriter name answer refuse act).1.refusal = true) :
    (∃ w', (s.onWriter name answer refuse act).2.cursors.get? name = some (.writer w') ∧
      w'.address = w.address ∧ w'.bits = w.bits ∧ w'.bounds = w.bounds) ∧
    (Unmarked s (s.onWriter name answer refuse act).2 ↔
      ∀ i b, (putBytes bits bare s.tape w)[i]? = some b → s.tape.start ≤ s.tape.fill ∧
        (w.address + i < s.tape.fill → s.tape.byteAt (w.address + i) = b)) := by
  obtain ⟨e, t, w', hact, hafter⟩ := of_onWriter_refused hget ha hr
  rw [hafter]
  have hput := becomes_put s name t (.writer w')
  refine ⟨⟨w', ?_, h.back hk hact⟩, h.untouched_iff hk hact⟩
  rw [hput.cursors, if_pos rfl]

theorem takesBack_bareValue (kind : IntKind) (word : UInt64) :
    TakesBack (Bits.ofBytes (kind.bytes word)) (bareValue kind word)
      (Cursor.writeValue kind word) := by
  rw [bareValue, Cursor.writeValue]
  by_cases hf : kind.fits word = true
  · rw [if_pos hf, if_pos hf]
    exact ((Cursor.takesBack_stageWhole kind word).mapBare _).mapError _
  · rw [if_neg hf, if_neg hf]
    exact takesBack_throw _ _ _

/-- A value or a field of bits that is refused, whatever has led to the session. The writer stands
where it did, with the bits at hand and in the blocks that it had. The stream is as it was exactly
where the bytes that got through before one was refused stood there already, as far as it was
written, and where none did if the page of the fill address was given up. -/
theorem refused_whole_iff (h : s.Led) (hget : s.cursors.get? name = some (.writer w))
    {cmd : WriterCommand} (hc : cmd.whole = true)
    (hr : (s.step (.writer name cmd)).1.refusal = true) :
    (∃ w', (s.step (.writer name cmd)).2.cursors.get? name = some (.writer w') ∧
      w'.address = w.address ∧ w'.bits = w.bits ∧ w'.bounds = w.bounds) ∧
    (Unmarked s (s.step (.writer name cmd)).2 ↔
      ∀ i b, (putBytes cmd.bits cmd.bare s.tape w)[i]? = some b → s.tape.start ≤ s.tape.fill ∧
        (w.address + i < s.tape.fill → s.tape.byteAt (w.address + i) = b)) := by
  have hk : w.Kept s.tape := (h.regular.writer hget).toKept
  cases cmd with
  | writeBits word count =>
    have hback := (Cursor.takesBack_writeBits word count).mapBare EncodeError.stream
    exact refused_of_takesBack hk hget hback (fun _ => rfl) hr
  | writeValue kind word =>
    exact refused_of_takesBack hk hget (takesBack_bareValue kind word) (fun _ => rfl) hr
  | writeNode node word =>
    refine refused_of_takesBack hk hget ?_ (fun _ => rfl) hr
    simp only [WriterCommand.bits, bare, Cursor.writeNode]
    cases node.valueKind? with
    | some kind => exact takesBack_bareValue kind word
    | none => exact takesBack_throw _ _ _
  | _ => cases hc

/-- A writer at the end of the stream, in a block with room for two more bytes. -/
def shortOfRoom : Session :=
  after { tape := Tape.blank 4, framing := {} }
    [.tape (.append [0xaa]), .cursor "w" (.makeWriter .byte none),
      .cursor "w" (.pushBound (.ofByte 3))]

theorem led_shortOfRoom : shortOfRoom.Led := (((Led.start 4 {}).step _).step _).step _

/-- What is refused at the end of the stream leaves it as it was. -/
theorem refused_whole_atEnd :
    (shortOfRoom.step (.writer "w" (.writeValue .uint32 0x04030201))).1.refusal = true ∧
    Unmarked shortOfRoom
      (shortOfRoom.step (.writer "w" (.writeValue .uint32 0x04030201))).2 := by
  have hget : shortOfRoom.cursors.get? "w" =
      some (.writer { grain := .byte, address := 1, bounds := [.ofByte 3] }) := by rfl
  have hr : (shortOfRoom.step (.writer "w" (.writeValue .uint32 0x04030201))).1.refusal = true := by
    rfl
  refine ⟨hr, ((refused_whole_iff led_shortOfRoom hget rfl hr).2).2 fun i b _ => ⟨by decide, ?_⟩⟩
  intro hlt
  have hfill : shortOfRoom.tape.fill = 1 := by rfl
  rw [hfill] at hlt
  exact absurd hlt (by simp only; omega)

/-- A writer before the end of the stream, in a block of two bytes. -/
def amidStream : Session :=
  after { tape := Tape.blank 4, framing := {} }
    [.tape (.append [0xaa, 0xbb, 0xcc, 0xdd]), .cursor "w" (.makeWriter .byte (some 0)),
      .cursor "w" (.pushBound (.ofByte 2))]

/-- A refused value stays over two bytes that stood there before. -/
theorem not_unmarked_amidStream : amidStream.Led ∧
    amidStream.tape.start = 0 ∧
    (∃ w, amidStream.cursors.get? "w" = some (.writer w) ∧ w.address = 0) ∧
    (amidStream.step (.writer "w" (.writeValue .uint32 0x04030201))).1 =
      .notEncoded (.stream (.pastBlockEnd (.ofByte 2) (.ofByte 2))) ∧
    amidStream.tape.byteAt 0 = 0xaa ∧ 0 < amidStream.tape.fill ∧
    (amidStream.step (.writer "w" (.writeValue .uint32 0x04030201))).2.tape.byteAt 0 = 0x01 ∧
    ¬Unmarked amidStream (amidStream.step (.writer "w" (.writeValue .uint32 0x04030201))).2 := by
  have hbefore : amidStream.tape.byteAt 0 = 0xaa := by rfl
  have hfill : amidStream.tape.fill = 4 := by rfl
  have hafter : (amidStream.step (.writer "w" (.writeValue .uint32 0x04030201))).2.tape.byteAt 0 =
      0x01 := by rfl
  refine ⟨(((Led.start 4 {}).step _).step _).step _, by rfl, ⟨_, by rfl, rfl⟩, by rfl, hbefore,
    hfill ▸ Nat.succ_pos 3, hafter, fun h => ?_⟩
  have hsame := h.2 0 (hfill ▸ Nat.succ_pos 3)
  rw [hbefore, hafter] at hsame
  exact absurd hsame (by decide)

/-! ## What frames a block -/

/-- The writer and the end of the stream are where they were. -/
def Unmoved (s : Session) (name : String) (w : Writer) (s' : Session) : Prop :=
  (∃ w', s'.cursors.get? name = some (.writer w') ∧ w'.position = w.position) ∧
    s'.tape.fill = s.tape.fill

/-- What a refused action at the end of the stream leaves. -/
theorem refused_of_faltersUnless {ε α : Type} {P : Tape → Writer → Prop} {act : Writing ε α}
    {answer : α → Reply} {refuse : ε → Reply} (h : FaltersUnless P act) (hw : w.Regular s.tape)
    (hget : s.cursors.get? name = some (.writer w)) (hend : w.address = s.tape.fill)
    (ha : ∀ a, (answer a).refusal = false)
    (hr : (s.onWriter name answer refuse act).1.refusal = true) :
    Unmoved s name w (s.onWriter name answer refuse act).2 ↔ P s.tape w := by
  obtain ⟨e, t, w', hact, hafter⟩ := of_onWriter_refused hget ha hr
  have hput := becomes_put s name t (.writer w')
  have hget' : ({ s with tape := t }.putCursor name (.writer w')).cursors.get? name =
      some (.writer w') := by
    rw [hput.cursors, if_pos rfl]
  rw [hafter, ← h hw hend hact]
  constructor
  · rintro ⟨⟨w'', hw'', hp⟩, hfill⟩
    rw [hget'] at hw''
    cases hw''
    exact ⟨hfill, hp⟩
  · rintro ⟨hfill, hp⟩
    exact ⟨⟨w', hget', hp⟩, hfill⟩

/-- A header keeps its refusal. -/
theorem keepHeader_of_refusal {block : String} {r : Reply × Session}
    (h : (keepHeader block r).1.refusal = true) : keepHeader block r = r := by
  unfold keepHeader at h ⊢
  split
  · cases h
  · rfl

/-- What frames a block, written at the end of the stream and refused, whatever has led to the
session. It leaves the stream as long as it was, and the writer in place, exactly where there was
nothing to begin with: the header cannot say the size, the writer takes not even one byte where it
stands, or there is none to move. -/
theorem refused_framing_iff (h : s.Led) (hget : s.cursors.get? name = some (.writer w))
    (hend : w.address = s.tape.fill) {cmd : WriterCommand} (hc : cmd.framing = true)
    (hr : (s.step (.writer name cmd)).1.refusal = true) :
    Unmoved s name w (s.step (.writer name cmd)).2 ↔ cmd.Blocked s.tape w := by
  have hw := h.regular.writer hget
  cases cmd with
  | writePaddedSize size reserved =>
    exact refused_of_faltersUnless (Cursor.faltersUnless_writePaddedSize size reserved) hw hget hend
      (fun _ => rfl) hr
  | writeSize size =>
    exact refused_of_faltersUnless (Cursor.faltersUnless_writeSize size) hw hget hend
      (fun _ => rfl) hr
  | moveBlock start size =>
    exact refused_of_faltersUnless (Cursor.faltersUnless_moveBlock start size) hw hget hend
      (fun _ => rfl) hr
  | beginBlock block =>
    have hstep : s.step (.writer name (.beginBlock block)) =
        s.onWriter name .header .notEncoded s.framing.beginBlock := keepHeader_of_refusal hr
    rw [hstep] at hr ⊢
    exact refused_of_faltersUnless (Cursor.faltersUnless_beginBlock s.framing) hw hget hend
      (fun _ => rfl) hr
  | _ => cases hc

/-- A writer at the end of the stream, in a block that ends there. -/
def outOfRoom : Session :=
  after { tape := Tape.blank 4, framing := {} }
    [.tape (.append [0xaa]), .cursor "w" (.makeWriter .byte none),
      .cursor "w" (.pushBound (.ofByte 1))]

/-- A block cannot be begun where its writer takes nothing, and nothing is left of it. -/
theorem refused_framing_outOfRoom :
    (outOfRoom.step (.writer "w" (.beginBlock "k"))).1.refusal = true ∧
    ∃ w, outOfRoom.cursors.get? "w" = some (.writer w) ∧ w.address = outOfRoom.tape.fill ∧
      Unmoved outOfRoom "w" w (outOfRoom.step (.writer "w" (.beginBlock "k"))).2 := by
  have hled : outOfRoom.Led := (((Led.start 4 {}).step _).step _).step _
  have hget : outOfRoom.cursors.get? "w" =
      some (.writer { grain := .byte, address := 1, bounds := [.ofByte 1] }) := by rfl
  have hr : (outOfRoom.step (.writer "w" (.beginBlock "k"))).1.refusal = true := by rfl
  have hend : outOfRoom.tape.fill = 1 := by rfl
  refine ⟨hr, _, hget, hend.symm,
    (refused_framing_iff hled hget hend.symm rfl hr).2 fun htakes => ?_⟩
  have hc : Cursor.checkStore ({ grain := .byte, address := 1, bounds := [.ofByte 1] } : Writer)
      outOfRoom.tape = .error (.pastBlockEnd (.ofByte 1) (.ofByte 1)) := by rfl
  have hok := htakes.1
  rw [hc] at hok
  cases hok

/-- A padded size is refused after two of its five bytes, and they stay. -/
theorem not_unmoved_partWay :
    (shortOfRoom.step (.writer "w" (.writePaddedSize 1 5))).1 =
      .notEncoded (.stream (.pastBlockEnd (.ofByte 3) (.ofByte 3))) ∧
    shortOfRoom.Led ∧ ∃ w, shortOfRoom.cursors.get? "w" = some (.writer w) ∧
      w.address = shortOfRoom.tape.fill ∧ shortOfRoom.tape.fill = 1 ∧
      (shortOfRoom.step (.writer "w" (.writePaddedSize 1 5))).2.tape.fill = 3 ∧
      ¬Unmoved shortOfRoom "w" w (shortOfRoom.step (.writer "w" (.writePaddedSize 1 5))).2 := by
  have hfill : shortOfRoom.tape.fill = 1 := by rfl
  have hafter : (shortOfRoom.step (.writer "w" (.writePaddedSize 1 5))).2.tape.fill = 3 := by rfl
  refine ⟨by rfl, led_shortOfRoom, _, by rfl, hfill.symm, hfill, hafter, fun h => ?_⟩
  have hsame := h.2
  rw [hfill, hafter] at hsame
  exact absurd hsame (by decide)

end Session

end Transcoder

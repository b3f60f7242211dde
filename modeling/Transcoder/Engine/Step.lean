import Transcoder.Engine.Basic

/-!
# One step of an engine

A step goes on with the value in the making, if there is one, and else takes the next task off the
stack and does it. A step that fails keeps what it has changed.
-/
namespace Transcoder

/-- A piece of a step: it changes an engine and may fail. -/
abbrev Stepping := EStateM Failure Engine

/-- How a step ends when it does not fail. -/
inductive Progress where
  | advanced
  /-- Nothing more can be done without input. -/
  | needInput
  /-- Nothing is left to do. -/
  | done
  deriving DecidableEq, Repr

namespace Engine

/-- Puts a task on the stack, unless the stack is full (`Decompressor.push_frame`). -/
def pushTask (task : Task) : Stepping Unit := fun e =>
  if e.config.maxNesting ≤ e.tasks.length then .error (.nestingTooDeep e.config.maxNesting) e
  else .ok () { e with tasks := task :: e.tasks }

/-- Puts a task that was just taken off the stack on it again, changed. -/
def putBack (task : Task) : Stepping Unit := fun e => .ok () { e with tasks := task :: e.tasks }

/-- Writes to the output. The tape is taken out of the engine meanwhile, so it is changed in
place. -/
def writing {α : Type} (act : Writing EncodeError α) : Stepping α := fun e =>
  let output := e.output
  let writer := e.writer
  let e := { e with output := default }
  match act (output, writer) with
  | .ok a (output, writer) => .ok a { e with output, writer }
  | .error cause (output, writer) => .error (.ofEncode cause) { e with output, writer }

/-- Records a value, if values are recorded (`Decompressor.record`). -/
def record (kind : IntKind) (word : UInt64) (address : Nat) : Stepping Unit := fun e =>
  if e.config.collect then .ok () { e with values := e.values.push ⟨kind, word, address⟩ }
  else .ok () e

/-- Begins a value at the reader (`Decompressor.begin_value`). -/
def beginValue (goal : Goal) (kind : IntKind) : Stepping Unit := fun e =>
  .ok () { e with pending := some ⟨goal, .start kind, e.reader.address⟩ }

/-- Enters a block of the input whose body has `size` bytes. -/
def enterBlock (size : Nat) : Stepping Extent := fun e =>
  match e.reader.enterSized e.input size with
  | .ok (extent, reader) => .ok extent { e with reader }
  | .error cause => .error (.ofDecode cause) e

/-- Leaves a block of the input. -/
def leaveBlock (extent : Extent) : Stepping Unit := fun e =>
  match e.reader.leave e.input extent with
  | .ok reader => .ok () { e with reader }
  | .error cause => .error (.ofDecode cause) e

/-- Opens a block of the output. -/
def openBlock : Stepping OpenHeader := fun e => writing e.config.framing.beginBlock e

/-- Closes a block of the output. -/
def closeBlock (header : OpenHeader) : Stepping Unit := fun e =>
  writing (discard <| e.config.framing.finishBlock header) e

/-- Writes a value as it was read, and records it. -/
def passOn (p : Pending) (word : UInt64) : Stepping Unit := do
  writing (Cursor.writeValue p.partialValue.kind word)
  record p.partialValue.kind word p.address

/-- Does with a value what it was read for (`Decompressor.complete_value`): a value goes to the
output, and so does a count; a size opens a block on both sides. -/
def complete (p : Pending) (word : UInt64) : Stepping Unit :=
  match p.goal with
  | .value => passOn p word
  | .loopCount id body => do
    passOn p word
    pushTask (.loop id body word.toNat none)
  | .blockSize body => do
    let extent ← enterBlock word.toNat
    let header ← openBlock
    pushTask (.block extent header)
    pushTask (.visit body)

/-- Reads on in a value; one that runs out of input is kept. -/
def readOn (p : Pending) : Stepping Progress := fun e =>
  match e.reader.resume e.input p.partialValue with
  | (.ok word, reader, _) => (do complete p word; return .advanced : Stepping Progress) { e with reader }
  | (.error cause, reader, partialValue) =>
    if cause.suspends then
      .ok .needInput { e with reader, pending := some { p with partialValue } }
    else .error (.ofStream cause) { e with reader }

/-- Asks the host whether to go on (`Decompressor.run_action`); without a host the answer is yes. -/
def runAction (action : Nat) : Stepping Unit := fun e =>
  match e.hook with
  | none => .ok () e
  | some hook =>
    let call : Call := ⟨action, e.reader.address, e.writer.address⟩
    let answer := hook.answer hook.asked call
    let e := { e with
      hook := some { hook with asked := call :: hook.asked }
      calls := e.calls.push (call, answer) }
    if answer then .ok () e else .error (.actionFailed action) e

/-- Begins what a node says (`Decompressor.visit`). -/
def visit (id : Nat) : Stepping Unit := fun e =>
  match e.schema.node? id with
  | none => .error (.invalidSchema (.unknownNode id)) e
  | some (.value kind) => beginValue .value kind e
  | some (.action action) => runAction action e
  | some (.sequence children) => pushTask (.sequence children) e
  | some (.loop count body) => beginValue (.loopCount id body) count e
  | some (.block body) => beginValue (.blockSize body) .varuint32 e
  | some (.untilEof body) => pushTask (.untilEof id body none) e
  | some (.unknown opcode) => .error (.unsupported (.unknown opcode)) e

/-- Goes on to the first of the remaining children (`Decompressor.next_in_sequence`). -/
def nextChild : List Nat → Stepping Unit
  | [] => pure ()
  | child :: rest => do
    putBack (.sequence rest)
    pushTask (.visit child)

/-- Goes on to the next repetition of a counted loop (`Decompressor.next_iteration`). One that
consumed nothing would be repeated just so, and fails. -/
def nextRepetition (id body : Nat) (last : Option Position) : (remaining : Nat) → Stepping Unit
  | 0 => pure ()
  | remaining + 1 => fun e =>
    if last = some e.reader.position then .error (.emptyLoopBody id) e
    else (do
      putBack (.loop id body remaining (some e.reader.position))
      pushTask (.visit body) : Stepping Unit) e

/-- Closes a block on both sides (`Decompressor.close_block`). -/
def finishBlock (extent : Extent) (header : OpenHeader) : Stepping Unit := do
  leaveBlock extent
  closeBlock header

/-- Goes on to the next repetition of a loop that ends with its block or with the input
(`Decompressor.until_eof`). Outside all blocks, and out of input, only more input or its end can
tell whether there is one. -/
def repeatToEnd (id body : Nat) (last : Option Position) : Stepping Progress := fun e =>
  if e.reader.stop e.input ≤ e.reader.position then .ok .advanced e
  else if last = some e.reader.position then .error (.emptyLoopBody id) e
  else if e.reader.available e.input = 0 ∧ e.reader.bounds = [] then
    (do putBack (.untilEof id body last); return .needInput : Stepping Progress) e
  else (do
    putBack (.untilEof id body (some e.reader.position))
    pushTask (.visit body)
    return .advanced : Stepping Progress) e

/-- Does a task that was taken off the stack. -/
def doTask : Task → Stepping Progress
  | .visit id => do visit id; return .advanced
  | .sequence children => do nextChild children; return .advanced
  | .loop id body remaining last => do nextRepetition id body last remaining; return .advanced
  | .block extent header => do finishBlock extent header; return .advanced
  | .untilEof id body last => repeatToEnd id body last

/-- With nothing left to do, the input must end too, unless input after the root node is let be
(`Decompressor.check_trailing_input`). -/
def checkTrailing : Stepping Progress := fun e =>
  if !e.config.rejectTrailing then .ok .done e
  else if 0 < e.reader.available e.input then
    .error (.trailingData (e.reader.available e.input)) e
  else if e.input.eof.isSome then .ok .done e
  else .ok .needInput e

/-- One step (`Decompressor.step`). -/
def step : Stepping Progress := fun e =>
  match e.pending, e.tasks with
  | some p, _ => readOn p { e with pending := none }
  | none, [] => checkTrailing e
  | none, task :: rest => doTask task { e with tasks := rest }

end Engine

end Transcoder

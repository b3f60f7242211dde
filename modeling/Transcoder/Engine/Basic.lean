import Transcoder.Engine.Failure
import Transcoder.Text.Pad

/-!
# Engines: a schema at work between two tapes

An engine reads what its schema says from the input tape and writes the same values to the output
tape, where every block is framed anew. What is left to do stands on a stack of tasks, so an engine
can stop between any two bytes and go on later. The output of a block whose header is not final is
held back (`drainableEnd`).
-/
namespace Transcoder

/-- How an engine works (`InterpConfig`). -/
structure Config where
  /-- Bytes in a page of the input and of the output. -/
  pageSize : Nat := Tape.defaultPageSize
  /-- As many bytes of undrained output make the engine wait, once some of it can be drained. -/
  maxBuffered : Nat := 64 * 1024
  /-- If set, the engine stops whenever that many more bytes can be drained. -/
  outputChunk : Option Nat := none
  /-- Block headers get their shortest form. -/
  minimize : Bool := true
  /-- The width of the headers of open blocks, in chunks. -/
  reserved : Nat := Leb128.chunksInWord 32
  /-- Input after the root node is a failure. -/
  rejectTrailing : Bool := true
  /-- Every value is recorded. -/
  collect : Bool := false
  /-- The most tasks that may stand on the stack. -/
  maxNesting : Nat := 1024
  deriving DecidableEq, Repr

/-- The framing of the output's blocks. -/
def Config.framing (c : Config) : Framing := { minimize := c.minimize : Framing }.withReserved c.reserved

/-- A call of the host (`ActionContext`): the action, and where the two cursors stand. -/
structure Call where
  action : Nat
  inputAddress : Nat
  outputAddress : Nat
  deriving DecidableEq, Repr

/-- The host's side of actions (`ActionHook`). It says whether the run goes on, and may remember its
calls. -/
structure Hook where
  /-- The answer to a call, given the earlier ones, latest first. -/
  answer : List Call → Call → Bool
  /-- The calls so far, latest first. -/
  asked : List Call := []

/-- A value that went through the engine, and where it was read (`DecodedValue`). -/
structure Decoded where
  kind : IntKind
  word : UInt64
  address : Nat
  deriving DecidableEq, Repr

namespace Decoded

/-- The value as a two's complement number (`DecodedValue.as_signed`). -/
def signed (d : Decoded) : Int := d.word.toInt64.toInt

/-- A line with the address, the kind and the number. -/
def text (d : Decoded) : String :=
  Text.padLeft 8 (toString d.address) ++ "  " ++ Text.padRight 16 d.kind.name ++ " " ++
    (if d.kind.signed then toString d.signed else toString d.word.toNat)

end Decoded

/-- Work on the stack of an engine (`Frame`). -/
inductive Task where
  /-- Do what a node says. -/
  | visit (id : Nat)
  /-- Do the remaining children. -/
  | sequence (children : List Nat)
  /-- Repeat the body; `last` is where the last repetition began. -/
  | loop (id body remaining : Nat) (last : Option Position)
  /-- Close a block. -/
  | block (extent : Extent) (header : OpenHeader)
  /-- Repeat the body to the innermost end. -/
  | untilEof (id body : Nat) (last : Option Position)
  deriving DecidableEq, Repr

/-- The header of the block that a task closes. -/
def Task.header? : Task → Option OpenHeader
  | .block _ header => some header
  | _ => none

/-- What a value in the making is for (`Purpose`). -/
inductive Goal where
  | value
  | loopCount (id body : Nat)
  | blockSize (body : Nat)
  deriving DecidableEq, Repr

/-- A value in the making: what for, what is read of it, and where it began. -/
structure Pending where
  goal : Goal
  partialValue : PartialValue
  address : Nat
  deriving DecidableEq, Repr

/-- A run of a schema, as far as it has come (`Decompressor`). -/
structure Engine where
  schema : Schema
  config : Config
  status : Status := .created
  input : Tape
  output : Tape
  reader : Reader
  writer : Writer
  /-- What is left to do, next first. -/
  tasks : List Task
  pending : Option Pending := none
  hook : Option Hook := none
  /-- What the hooks were asked, and their answers. -/
  calls : Array (Call × Bool) := #[]
  /-- The values recorded, if they are to be. -/
  values : Array Decoded := #[]
  /-- Bytes of output handed out. -/
  drained : Nat := 0
  /-- How far the drainable output must reach for the next stop. -/
  nextStop : Nat
  steps : Nat := 0

namespace Engine

/-- An engine before its first byte (`Decompressor.new`). -/
def new (schema : Schema) (config : Config) : Engine where
  schema := schema
  config := config
  input := .blank config.pageSize
  output := .blank config.pageSize
  reader := Cursor.readerOn (.blank config.pageSize) .byte
  writer := Cursor.writerOn (.blank config.pageSize) .byte
  tasks := [.visit schema.root]
  nextStop := max (config.outputChunk.getD 0) 1

/-- The headers of the open blocks, innermost first. -/
def openHeaders (e : Engine) : List OpenHeader := e.tasks.filterMap Task.header?

/-- Output below this address is final (`Decompressor.drainable_end`): the start of the outermost
open block, or everything. -/
def drainableEnd (e : Engine) : Nat :=
  match e.openHeaders.getLast? with
  | some header => header.start
  | none => e.output.fill

/-- Bytes of output that could be drained now (`Decompressor.pending_output`). -/
def pendingOutput (e : Engine) : Nat := e.drainableEnd - e.drained

/-- The output pages in use. -/
def heldOutput (e : Engine) : List Nat :=
  e.writer.page.toList ++ e.openHeaders.filterMap (·.cursor.page)

/-- A one-line account of the engine. -/
def describe (e : Engine) : String :=
  let state := match e.status with
    | .created => "Created"
    | .running => "Running"
    | .waiting .input => "Suspended(NeedInput)"
    | .waiting .outputSpace => "Suspended(NeedOutputSpace)"
    | .waiting .outputReady => "Suspended(OutputReady)"
    | .finished => "Finished"
    | .failed reason => s!"Failed({reason.message})"
  s!"Decompressor \x7b state: {state}, input: {e.reader.address}, " ++
    s!"output: {e.writer.address}, frames: {e.tasks.length}, drained: {e.drained}, .. \x7d"

end Engine

end Transcoder

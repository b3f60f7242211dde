import Transcoder.Block.Read
import Transcoder.Block.Write
import Transcoder.Schema.Basic

/-!
# Why an engine stops for good

Lower layers report their causes in their own terms; `ofStream`, `ofDecode` and `ofEncode` say what
each of them means for a run.
-/
namespace Transcoder

/-- What an engine waits for (`Suspension`). -/
inductive Wait where
  /-- The input so far is used up and not closed. -/
  | input
  /-- Too much output is waiting to be drained. -/
  | outputSpace
  /-- Another chunk of output can be drained. -/
  | outputReady
  deriving DecidableEq, Repr

/-- The stages in the life of an engine. -/
inductive Phase where
  | created
  | running
  | waiting (wait : Wait)
  | finished
  | failed
  deriving DecidableEq, Repr

namespace Phase

/-- The name of a phase in messages (`DriverState.name`). -/
def name : Phase → String
  | created => "created"
  | running => "running"
  | waiting .input => "waiting for input"
  | waiting .outputSpace => "waiting for output space"
  | waiting .outputReady => "holding output"
  | finished => "finished"
  | failed => "failed"

/-- The phase is never left (`DriverState.is_terminal`). -/
def terminal : Phase → Bool
  | finished | failed => true
  | _ => false

/-- More input may be supplied. -/
def acceptsInput : Phase → Bool
  | created | waiting .input => true
  | _ => false

end Phase

/-- What a caller does to the input of an engine. -/
inductive Intake where
  | supply
  | close
  deriving DecidableEq, Repr

/-- The name of an intake in messages. -/
def Intake.name : Intake → String
  | supply => "supply input"
  | close => "close input"

/-- Why a run fails or a call is refused (`InterpError`). -/
inductive Failure where
  | brokenCursor (address : Nat)
  | pastBlockEnd (at_ stop : Position)
  /-- A node of that kind cannot be run. -/
  | unsupported (tag : NodeTag)
  /-- The handle has no engine any more. -/
  | disposed
  /-- A LEB128 number is too long or too large. -/
  | malformed (cause : StreamError)
  /-- The input was closed in the middle of the schema. -/
  | unexpectedEnd (address : Nat)
  /-- Input is left over after the root node. -/
  | trailingData (extra : Nat)
  | blockUnderrun (expected actual : Position)
  | blockTooLarge (size limit : Nat)
  | valueOutOfRange (kind : IntKind) (word : UInt64)
  /-- The host refused an action. -/
  | actionFailed (action : Nat)
  /-- A repetition of the loop at a node consumed no input. -/
  | emptyLoopBody (node : Nat)
  | nestingTooDeep (limit : Nat)
  /-- The engine takes no input in this phase. -/
  | notAccepted (intake : Intake) (phase : Phase)
  | invalidSchema (cause : SchemaError)
  | stream (cause : StreamError)
  deriving DecidableEq, Repr

namespace Failure

/-- What an error on a tape means for a run. -/
def ofStream : StreamError → Failure
  | .brokenCursor address => brokenCursor address
  | .pastBlockEnd at_ stop => pastBlockEnd at_ stop
  | .endOfStream address => unexpectedEnd address
  | .sliceEnded length => unexpectedEnd length
  | cause => if cause.malformed then malformed cause else stream cause

/-- What an error in reading means for a run. -/
def ofDecode : DecodeError → Failure
  | .unsupported tag => unsupported tag
  | .blockUnderrun expected actual => blockUnderrun expected actual
  | .stream cause => ofStream cause

/-- What an error in writing means for a run. -/
def ofEncode : EncodeError → Failure
  | .unsupported tag => unsupported tag
  | .valueOutOfRange kind word => valueOutOfRange kind word
  | .blockTooLarge size limit => blockTooLarge size limit
  | .stream cause => ofStream cause

/-- The wording of each cause. -/
def message : Failure → String
  | brokenCursor address => (StreamError.brokenCursor address).message
  | pastBlockEnd at_ stop => (StreamError.pastBlockEnd at_ stop).message
  | unsupported tag => s!"unsupported format: {tag}"
  | disposed => "handle was already destroyed"
  | malformed cause => "malformed encoding: " ++ cause.message
  | unexpectedEnd address => s!"input ended unexpectedly at {address}"
  | trailingData extra => s!"unexpected data after the root node ({extra} bytes)"
  | blockUnderrun expected actual => (DecodeError.blockUnderrun expected actual).message
  | blockTooLarge size limit => (EncodeError.blockTooLarge size limit).message
  | valueOutOfRange kind word => (EncodeError.valueOutOfRange kind word).message
  | actionFailed action => actionText action ++ " failed"
  | emptyLoopBody node => s!"loop body {nodeText node} consumed no input"
  | nestingTooDeep limit => s!"nesting exceeds {limit} frames"
  | notAccepted intake phase => "cannot " ++ intake.name ++ " while " ++ phase.name
  | invalidSchema cause => "invalid format: " ++ cause.message
  | stream cause => cause.message

end Failure

/-- A phase, with the reason where it is a failure (`DriverState`). -/
inductive Status where
  | created
  | running
  | waiting (wait : Wait)
  | finished
  | failed (reason : Failure)
  deriving DecidableEq, Repr

namespace Status

def phase : Status → Phase
  | created => .created
  | running => .running
  | waiting wait => .waiting wait
  | finished => .finished
  | failed _ => .failed

/-- Why the engine failed. -/
def reason? : Status → Option Failure
  | failed reason => some reason
  | _ => none

end Status

/-- How a run ends, for now or for good (`ResumeOutcome`). -/
inductive Outcome where
  | waits (wait : Wait)
  | finished
  | failed (reason : Failure)
  deriving DecidableEq, Repr

end Transcoder

import Transcoder.Engine.Termination

/-!
# Running an engine

`resume` makes steps until the engine has to wait, fails or has finished; a finished or failed
engine stays so. Between two runs the caller supplies input and drains output.
-/
namespace Transcoder.Engine

/-- Why the engine stops before its next step, if it does (`Decompressor.output_pressure`): too much
output is waiting, or a chunk of it can be drained. Output that cannot be drained yet does not
count. -/
def pressure? (e : Engine) : Option Wait :=
  if e.drainableEnd ≤ e.drained then none
  else if e.config.maxBuffered ≤ e.output.fill - e.drained then some .outputSpace
  else if e.config.outputChunk.isSome ∧ e.nextStop ≤ e.drainableEnd then some .outputReady
  else none

/-- Stops for output (`Decompressor.output_pressure`); a chunk is announced once. The sum of machine
words stays at the largest one where it would pass it, which only an output of as many bytes could
tell. -/
def stopFor (e : Engine) (wait : Wait) : Engine :=
  { e with
    status := .waiting wait
    nextStop :=
      if wait = .outputReady then e.drainableEnd + max (e.config.outputChunk.getD 0) 1
      else e.nextStop }

/-- Fixes the end of the output (`Decompressor.finish_output`). -/
def finishOutput : Stepping Unit := fun e =>
  match writing (Cursor.alignWriter.mapError .stream) e with
  | .error reason e => .error reason e
  | .ok () e =>
    match e.output.fixEnd e.output.fill with
    | .ok output => .ok () { e with output }
    | .error cause => .error (.ofStream cause) e

/-- Ends a run for good. -/
def conclude : EStateM.Result Failure Engine Unit → Outcome × Engine
  | .ok () e => (.finished, { e with status := .finished })
  | .error reason e => (.failed reason, { e with status := .failed reason })

/-- Makes steps until one of them, or the output, stops the engine. -/
def run (e : Engine) : Outcome × Engine :=
  match e.pressure? with
  | some wait => (.waits wait, e.stopFor wait)
  | none =>
    match h : e.step with
    | .ok .advanced e' =>
      have : Below e e' e.load := descends_of_step h
      run { e' with steps := e'.steps + 1 }
    | .ok .needInput e => (.waits .input, { e with status := .waiting .input })
    | .ok .done e => conclude (finishOutput e)
    | .error reason e => conclude (.error reason e)
termination_by (e.room, e.load)
decreasing_by
  rw [Prod.lex_def]
  exact this

/-- Runs until the engine has to wait, fails or finishes (`Decompressor.resume`). -/
def resume (e : Engine) : Outcome × Engine :=
  match e.status with
  | .finished => (.finished, e)
  | .failed reason => (.failed reason, e)
  | _ => run { e with status := .running }

/-! ## Input -/

/-- The engine takes input now (`Decompressor.check_accepts_input`). -/
def checkIntake (e : Engine) (intake : Intake) : Except Failure Unit :=
  if e.status.phase.acceptsInput then .ok () else .error (.notAccepted intake e.status.phase)

/-- Appends to the input, after giving up the pages that were read (`Decompressor.append_input`). -/
def append (e : Engine) (bytes : List UInt8) : Except Failure Unit × Engine :=
  match (e.input.evict e.reader.page.toList e.reader.address).append bytes with
  | (.ok _, input) => (.ok (), { e with input })
  | (.error cause, input) => (.error (.ofStream cause), { e with input })

/-- Says that no more input comes (`Decompressor.close_input`). -/
def close (e : Engine) : Except Failure Unit × Engine :=
  match e.checkIntake .close with
  | .error reason => (.error reason, e)
  | .ok () =>
    match e.input.fixEnd e.input.fill with
    | .ok input => (.ok (), { e with input })
    | .error cause => (.error (.ofStream cause), e)

/-- Supplies input (`Decompressor.supply_input`); nothing at all says that no more comes. -/
def supply (e : Engine) (bytes : List UInt8) : Except Failure Unit × Engine :=
  match e.checkIntake .supply with
  | .error reason => (.error reason, e)
  | .ok () => if bytes.isEmpty then e.close else e.append bytes

/-- A buffer of `size` bytes that starts with `bytes`, as far as they fit
(`Decompressor.request_input_buffer`). -/
def stage (size : Nat) (bytes : List UInt8) : List UInt8 :=
  let head := bytes.take size
  head ++ List.replicate (size - head.length) 0

/-- Supplies the first `count` bytes of a buffer (`InputBuffer.commit`); none of them is no end of
input. -/
def commit (e : Engine) (buffer : List UInt8) (count : Nat) : Except Failure Unit × Engine :=
  match e.checkIntake .supply with
  | .error reason => (.error reason, e)
  | .ok () =>
    if (buffer.take count).isEmpty then (.ok (), e) else e.append (buffer.take count)

/-! ## Output -/

/-- Hands out the next `count` bytes of output and gives up the pages before them. -/
def handOut (e : Engine) (count : Nat) : Except Failure (List UInt8) × Engine :=
  if count = 0 then (.ok [], e)
  else match e.output.copyOut e.drained count with
    | .error cause => (.error (.ofStream cause), e)
    | .ok bytes =>
      (.ok bytes,
        { e with
          drained := e.drained + count
          output := e.output.evict e.heldOutput (e.drained + count) })

/-- Hands out the next bytes of output that can be drained, `max` at most
(`Decompressor.request_output_buffer`). -/
def drain (e : Engine) (max : Nat) : Except Failure (List UInt8) × Engine :=
  e.handOut (min e.pendingOutput max)

/-- Hands out all output that can be drained (`Decompressor.drain`). -/
def drainAll (e : Engine) : Except Failure (List UInt8) × Engine := e.handOut e.pendingOutput

/-! ## All calls -/

/-- Lets the engine go (`Decompressor.drop`); both its tapes are broken for whoever else has
them. -/
def dispose (e : Engine) : Engine := { e with input := e.input.break_, output := e.output.break_ }

/-- What can be asked of an engine. -/
inductive Request where
  | supply (bytes : List UInt8)
  | commit (buffer : List UInt8) (count : Nat)
  | close
  | resume
  | drain (max : Nat)
  | drainAll
  | setHook (hook : Hook)
  | takeValues

/-- What an engine answers. -/
inductive Answer where
  | done
  | refused (reason : Failure)
  | outcome (outcome : Outcome)
  | bytes (bytes : List UInt8)
  | values (values : Array Decoded)

/-- The answer to a request for nothing but success. -/
def Answer.ofUnit : Except Failure Unit → Answer
  | .ok () => done
  | .error reason => refused reason

/-- The answer to a request for output. -/
def Answer.ofBytes : Except Failure (List UInt8) → Answer
  | .ok output => bytes output
  | .error reason => refused reason

/-- The answer to a request, and the engine after it. -/
def perform (e : Engine) : Request → Answer × Engine
  | .supply bytes => (e.supply bytes).map .ofUnit id
  | .commit buffer count => (e.commit buffer count).map .ofUnit id
  | .close => e.close.map .ofUnit id
  | .resume => e.resume.map .outcome id
  | .drain max => (e.drain max).map .ofBytes id
  | .drainAll => e.drainAll.map .ofBytes id
  | .setHook hook => (.done, { e with hook := some hook })
  | .takeValues => (.values e.values, { e with values := #[] })

end Transcoder.Engine

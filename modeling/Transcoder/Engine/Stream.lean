import Transcoder.Engine.Chunks

/-!
# Running between a source and a sink

A source gives input piece by piece and may fail at its end; a sink takes output and may have room
for so much only. Output is written before every read, so a sink sees it as early as it can.
-/
namespace Transcoder

/-- The two ends of a run. -/
structure Link where
  /-- What the source gives, one piece for each read. -/
  pieces : List (List UInt8)
  /-- After the last piece the source fails, where it would else report its end. -/
  sourceFails : Bool := false
  /-- The most bytes that the sink takes. -/
  room : Option Nat := none

/-- The pieces that come out of chunks when a read takes `size` bytes at most. -/
def Link.piecesOf (size : Nat) (chunks : List (List UInt8)) : List (List UInt8) :=
  chunks.flatMap (cutAt size)

/-- What crossed the two ends (`StreamSummary`). -/
structure Traffic where
  /-- The bytes that each read gave; none at the end or on a failure. -/
  reads : Array Nat := #[]
  writes : Array (List UInt8) := #[]

namespace Traffic

/-- Bytes that were written. -/
def written (t : Traffic) : Nat := t.writes.foldl (fun n bytes => n + bytes.length) 0

/-- Bytes that were read. -/
def gotten (t : Traffic) : Nat := t.reads.foldl (· + ·) 0

/-- A read that gave `n` bytes. -/
def read (t : Traffic) (n : Nat) : Traffic := { t with reads := t.reads.push n }

/-- Writes pieces, except empty ones, until the sink refuses one; the flag says that none was. -/
def write (room : Option Nat) (t : Traffic) : List (List UInt8) → Bool × Traffic
  | [] => (true, t)
  | piece :: rest =>
    if piece.isEmpty then t.write room rest
    else if room.any (· < t.written + piece.length) then (false, t)
    else { t with writes := t.writes.push piece : Traffic }.write room rest

end Traffic

/-- Why a run between a source and a sink fails (`StreamingError`). -/
inductive StreamFailure where
  | engine (reason : Failure)
  | read
  | write
  deriving DecidableEq, Repr

/-- The wording of each cause. -/
def StreamFailure.message : StreamFailure → String
  | engine reason => reason.message
  | read => "read failed"
  | write => "write failed"

namespace Engine

/-- Pumps an engine into the sink (`flush_drainable`); the flag says that the engine has
finished. -/
def pumpInto (e : Engine) (room : Option Nat) (t : Traffic) :
    Except StreamFailure (Bool × Engine) × Traffic :=
  match e.pump #[] with
  | (output, stop, e) =>
    match t.write room output.toList, stop with
    | (false, t), _ => (.error .write, t)
    | (true, t), .failed reason => (.error (.engine reason), t)
    | (true, t), .finished => (.ok (true, e), t)
    | (true, t), .needInput => (.ok (false, e), t)

/-- Reads from the link whenever the engine needs input; an empty piece is its end. -/
def relay (link : Link) (e : Engine) (t : Traffic) (pieces : List (List UInt8)) :
    Except StreamFailure Engine × Traffic :=
  match e.pumpInto link.room t, pieces with
  | (.error cause, t), _ => (.error cause, t)
  | (.ok (true, e), t), _ => (.ok e, t)
  | (.ok (false, e), t), [] => (.error (.engine (.unexpectedEnd e.reader.address)), t)
  | (.ok (false, e), t), piece :: rest =>
    if piece.isEmpty && link.sourceFails then (.error .read, t.read 0)
    else match e.supply piece with
      | (.ok (), e) => relay link e (t.read piece.length) rest
      | (.error reason, _) => (.error (.engine reason), t.read piece.length)

/-- Runs a schema between the two ends of a link (`decompress_stream`). -/
def runStream (schema : Schema) (config : Config) (link : Link) :
    Except StreamFailure Engine × Traffic :=
  relay link (new schema config) {} (link.pieces ++ [[]])

end Engine

end Transcoder

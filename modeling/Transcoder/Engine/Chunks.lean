import Transcoder.Engine.Pump

/-!
# Running on input in chunks

The whole life of an engine: it gets its input in the pieces given, and everything it puts out is
collected.
-/
namespace Transcoder

/-- What a run put out. -/
structure Transcript where
  output : List UInt8
  values : Array Decoded
  /-- How often the engine was resumed. -/
  resumes : Nat

/-- Bytes in pieces of `size`, the last one shorter; a size of 0 counts as 1. -/
def cutAt (size : Nat) (bytes : List UInt8) : List (List UInt8) :=
  if bytes = [] then [] else bytes.take (max size 1) :: cutAt size (bytes.drop (max size 1))
termination_by bytes.length
decreasing_by
  have := List.length_pos_iff.2 ‹_›
  rw [List.length_drop]
  omega

namespace Engine

/-- Supplies each chunk when the engine needs input. -/
def feed (e : Engine) (pieces : Array (List UInt8)) (chunks : List (List UInt8)) :
    Except Failure Transcript :=
  match e.pump pieces, chunks with
  | (_, .failed reason, _), _ => .error reason
  | (pieces, .finished, e), _ => .ok ⟨pieces.toList.flatten, e.values, pieces.size⟩
  | (_, .needInput, e), [] => .error (.unexpectedEnd e.reader.address)
  | (pieces, .needInput, e), chunk :: rest =>
    match e.supply chunk with
    | (.ok (), e) => e.feed pieces rest
    | (.error reason, _) => .error reason

/-- Runs a schema on the chunks and closes the input after them (`decompress_chunks`). Empty chunks
are left out, because supplying nothing closes the input. -/
def runChunks (schema : Schema) (config : Config) (chunks : List (List UInt8)) :
    Except Failure Transcript :=
  (new schema config).feed #[] (chunks.filter (!·.isEmpty) ++ [[]])

end Engine

end Transcoder

import Transcoder.Engine.Stream
import Transcoder.ValueList

/-!
# The three commands

`inspect` lists the values of a file, `encode` writes a value list as a stream, and `transcode` runs
a schema over a file. Each takes the contents of its files and gives a report; reading and writing
the files is left to the caller.
-/
namespace Transcoder

/-- A file with its name, and its bytes if it can be read. -/
structure File where
  name : String
  content : Option (List UInt8)

/-- Why a command fails. -/
inductive CommandError where
  | unreadable (file : String)
  | unwritable (file : String)
  | manifest (file : String) (cause : ManifestError)
  /-- The values of a file cannot be listed. -/
  | inspect (file : String) (cause : Failure)
  | encode (file : String) (cause : ListError)
  | transcode (file : String) (cause : StreamFailure)
  deriving DecidableEq, Repr

namespace CommandError

/-- The wording of each cause, outermost first. -/
def message : CommandError → String
  | unreadable file => "cannot read " ++ file
  | unwritable file => "cannot write " ++ file
  | manifest file cause => s!"bad format manifest {file}: " ++ cause.message
  | inspect file cause => s!"failed to decode {file}: " ++ cause.message
  | encode file cause => s!"failed to encode {file}: " ++ cause.message
  | transcode file cause => s!"failed to decompress {file}: " ++ cause.message

end CommandError

namespace File

/-- The bytes of a file. -/
def bytes (f : File) : Except CommandError (List UInt8) :=
  match f.content with
  | some bytes => .ok bytes
  | none => .error (.unreadable f.name)

/-- The text of a file, which must be UTF-8. -/
def text (f : File) : Except CommandError String := do
  match String.fromUTF8? (ByteArray.mk (← f.bytes).toArray) with
  | some text => .ok text
  | none => .error (.unreadable f.name)

/-- The schema of a manifest file. -/
def schema (f : File) : Except CommandError Schema := do
  (Schema.ofManifest (← f.text)).mapError (.manifest f.name)

end File

/-- What a command did. -/
structure Report where
  /-- Lines for the reader. -/
  lines : List String := []
  /-- The stream it made, if it makes one. -/
  stream : Option (List UInt8) := none

/-! ## Listing values -/

/-- Lines of 16 bytes with the address in front. -/
def hexDump (address : Nat) : List (List UInt8) → List String
  | [] => []
  | row :: rest =>
    (Text.hexNat 4 address ++ "  " ++ Text.hexBytes row) :: hexDump (address + 16) rest

/-- The line above the values. -/
def valueHeading : String :=
  Text.padLeft 8 "address" ++ "  " ++ Text.padRight 16 "kind" ++ " value"

/-- Runs a schema over a file, in chunks of `chunkSize` bytes or at once, and lists the values. -/
def inspect (manifest input : File) (chunkSize : Option Nat) (showHex : Bool) :
    Except CommandError Report := do
  let schema ← manifest.schema
  let bytes ← input.bytes
  let t ← (Engine.runChunks schema { collect := true } (cutAt (chunkSize.getD bytes.length) bytes)).mapError
    (.inspect input.name)
  let dump := if showHex then "---" :: hexDump 0 (cutAt 16 t.output) else []
  return { lines :=
    [s!"Format: {schema.size} nodes, depth {schema.depth}", valueHeading] ++
      t.values.toList.map Decoded.text ++ dump ++
      ["---", s!"{t.values.size} values, {bytes.length} input bytes, {t.output.length} output bytes, " ++
        s!"{t.resumes} resumes"] }

/-! ## Writing values -/

/-- Writes a value list as a stream; `padded` keeps the headers of blocks as wide as reserved. -/
def encode (input : File) (output : String) (padded : Bool) : Except CommandError Report := do
  let stream ← (ValueList.encode (!padded) (← input.text)).mapError (.encode input.name)
  return { lines := [s!"Wrote {stream.length} bytes to {output}"], stream := some stream }

/-! ## Transcoding -/

/-- The settings of a transcoding. -/
structure TranscodeOptions where
  /-- Bytes in a read and in a page. -/
  chunkSize : Nat := Tape.defaultPageSize
  padded : Bool := false
  allowTrailing : Bool := false

/-- The engine settings that they stand for. -/
def TranscodeOptions.config (o : TranscodeOptions) : Config where
  pageSize := max o.chunkSize 1
  minimize := !o.padded
  rejectTrailing := !o.allowTrailing

/-- Runs a schema over a file. -/
def transcode (manifest input : File) (options : TranscodeOptions) :
    Except CommandError Report := do
  let schema ← manifest.schema
  let bytes ← input.bytes
  let config := options.config
  let (result, traffic) := Engine.runStream schema config { pieces := cutAt config.pageSize bytes }
  discard <| result.mapError (.transcode input.name)
  return {
    lines := [s!"Decompressed {traffic.gotten} bytes into {traffic.written} bytes"]
    stream := some traffic.writes.toList.flatten }

end Transcoder

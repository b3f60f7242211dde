import Transcoder.Commands

/-!
# The command line

    transcoder inspect -f MANIFEST INPUT [--chunk-size N] [--show-hex]
    transcoder encode INPUT -o OUTPUT [--padded]
    transcoder decompress -f MANIFEST INPUT [-o OUTPUT] [--chunk-size N] [--padded] [--allow-trailing]

Errors go to standard error, and the exit code is 1.
-/
namespace Transcoder

/-- The words of a command line, sorted. -/
structure Arguments where
  operands : List String := []
  manifest : Option String := none
  output : Option String := none
  chunkSize : Option Nat := none
  flags : List String := []

namespace Arguments

/-- The arguments of a command; `none` where one is not understood. -/
def ofWords (a : Arguments) : List String → Option Arguments
  | [] => some a
  | "-f" :: file :: rest | "--format" :: file :: rest =>
    ofWords { a with manifest := some file } rest
  | "-o" :: file :: rest | "--output" :: file :: rest =>
    ofWords { a with output := some file } rest
  | "--chunk-size" :: n :: rest => n.toNat?.bind fun n => ofWords { a with chunkSize := some n } rest
  | word :: rest =>
    if word.startsWith "-" then ofWords { a with flags := word :: a.flags } rest
    else ofWords { a with operands := a.operands ++ [word] } rest

end Arguments

/-- A file with what can be read of it. -/
def readFile (name : String) : IO File := do
  try
    let bytes ← IO.FS.readBinFile name
    return ⟨name, some bytes.toList⟩
  catch _ => return ⟨name, none⟩

/-- Writes a stream to a file. -/
def writeFile (name : String) (stream : List UInt8) : IO (Except CommandError Unit) := do
  try
    IO.FS.writeBinFile name (ByteArray.mk stream.toArray)
    return .ok ()
  catch _ => return .error (.unwritable name)

/-- Says why a command failed. -/
def fail (e : CommandError) : IO UInt32 := do
  IO.eprintln s!"error: {e.message}"
  return 1

/-- Writes the stream of a report to a file and prints its lines. -/
def deliver (output : String) (report : Report) (print : String → IO Unit) : IO UInt32 := do
  match ← writeFile output (report.stream.getD []) with
  | .error e => fail e
  | .ok () =>
    report.lines.forM print
    return 0

/-- Runs a command. -/
def runCommand (command : String) (a : Arguments) : IO UInt32 := do
  match command, a.operands, a.manifest, a.output with
  | "inspect", [input], some manifest, none =>
    match inspect (← readFile manifest) (← readFile input) a.chunkSize
        (a.flags.contains "--show-hex") with
    | .error e => fail e
    | .ok report =>
      report.lines.forM fun line => IO.println line
      return 0
  | "encode", [input], none, some output =>
    match encode (← readFile input) output (a.flags.contains "--padded") with
    | .error e => fail e
    | .ok report => deliver output report IO.println
  | "decompress", [input], some manifest, output =>
    let options : TranscodeOptions := {
      chunkSize := a.chunkSize.getD Tape.defaultPageSize
      padded := a.flags.contains "--padded"
      allowTrailing := a.flags.contains "--allow-trailing" }
    match transcode (← readFile manifest) (← readFile input) options, output with
    | .error e, _ => fail e
    | .ok report, some output => deliver output report IO.eprintln
    | .ok report, none =>
      (← IO.getStdout).write (ByteArray.mk (report.stream.getD []).toArray)
      report.lines.forM fun line => IO.eprintln line
      return 0
  | _, _, _, _ =>
    IO.eprintln "usage: transcoder inspect|encode|decompress [-f MANIFEST] INPUT [-o OUTPUT]"
    return 2

/-- Runs the command that the words of a command line ask for. -/
def runWords : List String → IO UInt32
  | [] => runCommand "" {}
  | command :: rest =>
    match Arguments.ofWords {} rest with
    | some a => runCommand command a
    | none => runCommand "" {}

end Transcoder

def main (words : List String) : IO UInt32 := Transcoder.runWords words

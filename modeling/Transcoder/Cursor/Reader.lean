import Transcoder.Bits
import Transcoder.Cursor.Basic

/-!
# Reading bytes and bits

A read that fails leaves the position where it was, so it can be tried again when more of the
stream has arrived; a failed read of several bits may leave the reader on another page.
-/
namespace Transcoder.Cursor

/-- A reader at the lowest resident byte (`ReadCursor.new`). -/
def readerOn (t : Tape) (grain : Grain) : Reader := { grain, address := t.start }

/-- A reader at `address` inside the same block ends as `c` (`ReadCursor.over`). -/
def readerOver {role : Role} (c : Cursor role) (address : Nat) : Reader :=
  { grain := c.grain, bounds := c.bounds, address }

/-- Written bytes from the reader to the fill address (`ReadCursor.available`). -/
def available (c : Reader) (t : Tape) : Nat := t.fill - c.address

/-- The reader stands on the fixed end of the stream (`ReadCursor.at_eof`). -/
def atEnd (c : Reader) (t : Tape) : Bool := c.aligned && t.eof == some c.address

/-- Drops the unread bits of the current byte (`Cursor.align_to_byte`). -/
def alignReader (c : Reader) : Reader := { c with bits := [] }

/-- Takes the byte at the reader from the held page. -/
def load (c : Reader) (t : Tape) : Except StreamError (UInt8 × Reader) :=
  if c.holds t c.address then .ok (t.byteAt c.address, { c with address := c.address + 1 })
  else .error (.outsidePage c.address)

/-- The byte at the reader can be taken: the tape is whole, the byte lies before the innermost end,
it is written, and its page is held or was not given up. -/
def checkFetch (c : Reader) (t : Tape) : Except StreamError Unit :=
  if t.broken then .error (.brokenCursor c.address)
  else do
    c.checkByte t
    t.checkReadable c.address
    if c.holds t c.address || t.resident (t.pageOf c.address) then pure ()
    else throw (.brokenCursor c.address)

/-- Takes the byte at the reader after every test (`Cursor.fetch_slow`). -/
def fetchSlow (c : Reader) (t : Tape) : Except StreamError (UInt8 × Reader) :=
  match c.checkFetch t with
  | .ok () => ({ c with page := some (t.pageOf c.address) }.refresh t).load t
  | .error e => .error e

/-- Takes the byte at the reader (`Cursor.fetch`). -/
def fetch (c : Reader) (t : Tape) : Except StreamError (UInt8 × Reader) :=
  if c.fast t then c.load t else c.fetchSlow t

/-- Reads one bit (`ReadCursor.read_bit`). -/
def readBit (c : Reader) (t : Tape) : Except StreamError (Bool × Reader) := do
  c.checkBit t
  match c.bits with
  | bit :: rest => pure (bit, { c with bits := rest })
  | [] =>
    let (b, c) ← c.fetch t
    pure ((Bits.ofByte b).headD false, { c with bits := (Bits.ofByte b).tail })

/-- Reads up to `n` bits one by one and stops at the first that fails. -/
def readBitsUntil (t : Tape) : Nat → Reader → List Bool → Except StreamError (List Bool) × Reader
  | 0, c, bits => (.ok bits, c)
  | n + 1, c, bits =>
    match c.readBit t with
    | .error e => (.error e, c)
    | .ok (bit, c) => readBitsUntil t n c (bits ++ [bit])

/-- Reads `n` bits, or none of them. -/
def readBitList (c : Reader) (t : Tape) (n : Nat) : Except StreamError (List Bool) × Reader :=
  match readBitsUntil t n c [] with
  | (.ok bits, c') => (.ok bits, c')
  | (.error e, c') => (.error e, c'.restore c t)

/-- Reads a number of `count` bits, at most 64, most significant first (`ReadCursor.read_bits`). -/
def readBits (c : Reader) (t : Tape) (count : Nat) : Except StreamError UInt64 × Reader :=
  match c.readBitList t (min count 64) with
  | (.ok bits, c) => (.ok (UInt64.ofNat (Bits.toNat bits)), c)
  | (.error e, c) => (.error e, c)

/-- Reads a byte, eight bits where the reader stands inside a byte (`ReadCursor.read_byte`). -/
def readByte (c : Reader) (t : Tape) : Except StreamError UInt8 × Reader :=
  if c.aligned && !c.stopsWithin t then
    match c.fetch t with
    | .ok (b, c) => (.ok b, c)
    | .error e => (.error e, c)
  else
    match c.readBitList t 8 with
    | (.ok bits, c) => (.ok (Bits.toByte bits), c)
    | (.error e, c) => (.error e, c)

end Transcoder.Cursor

import Transcoder.Bits
import Transcoder.Cursor.Basic

/-!
# Writing bytes and bits

A writer acts on a tape and on itself; `Writing` threads the two and keeps them when an action
fails. A single byte or bit that is refused changes neither.
-/
namespace Transcoder

/-- An action on a tape through one writer. -/
abbrev Writing (ε : Type) := EStateM ε (Tape × Writer)

/-- The same action under another kind of error. -/
def Writing.mapError {ε ε' α : Type} (f : ε → ε') (act : Writing ε α) : Writing ε' α := fun s =>
  match act s with
  | .ok a s => .ok a s
  | .error e s => .error (f e) s

namespace Cursor

/-- A writer at the fill address (`WriteCursor.new`). -/
def writerOn (t : Tape) (grain : Grain) : Writer := { grain, address := t.fill }

/-- Puts a byte at the writer into the held page. -/
def place (b : UInt8) : Writing StreamError Unit := fun (t, c) =>
  if c.holds t c.address then
    .ok () ((t.put c.address b).noteWritten (c.address + 1), { c with address := c.address + 1 })
  else .error (.outsidePage c.address) (t, c)

/-- Puts a byte at the writer after every test (`Cursor.store_slow`): the tape is whole, the byte
lies before the innermost end, and, where a page has to be looked up, the address may be written. -/
def storeSlow (b : UInt8) : Writing StreamError Unit := fun (t, c) =>
  if t.broken then .error (.brokenCursor c.address) (t, c)
  else match c.checkByte t with
    | .error e => .error e (t, c)
    | .ok () =>
      if c.holds t c.address then place b (t, c.refresh t)
      else match t.checkWritable c.address with
        | .error e => .error e (t, c)
        | .ok () =>
          let page := t.pageOf c.address
          let t := t.grow page
          place b (t, { c with page := some page }.refresh t)

/-- Puts a byte at the writer (`Cursor.store`). -/
def store (b : UInt8) : Writing StreamError Unit := fun (t, c) =>
  if c.fast t then place b (t, c) else storeSlow b (t, c)

/-- Writes one bit (`WriteCursor.write_bit`); the byte is stored when its eighth bit comes. -/
def writeBit (bit : Bool) : Writing StreamError Unit := fun (t, c) =>
  match c.checkBit t with
  | .error e => .error e (t, c)
  | .ok () =>
    if c.bits.length = 7 then
      match store (Bits.toByte (c.bits ++ [bit])) (t, c) with
      | .ok () (t, c) => .ok () (t, { c with bits := [] })
      | .error e s => .error e s
    else .ok () (t, { c with bits := c.bits ++ [bit] })

/-- Lets the result of an action stand as a whole or not at all: what reached the tape beyond `fill`
before a refusal is dropped again, and the writer goes back. -/
@[noinline]
def wholly (fill : Nat) (back : Tape → Writer → Writer) :
    EStateM.Result StreamError (Tape × Writer) Unit →
      EStateM.Result StreamError (Tape × Writer) Unit
  | .ok () s => .ok () s
  | .error e (t, c) =>
    if fill < t.fill then
      match t.truncate fill with
      | .ok t' => .error e (t', back t c)
      | .error e => .error e (t, back t c)
    else .error e (t, back t c)

/-- Writes bits, or none of them. -/
def writeBitList (bits : List Bool) : Writing StreamError Unit := fun (t, c) =>
  wholly t.fill (fun t c' => c'.restore c t) (bits.forM writeBit (t, c))

/-- Writes the low `count` bits of a word, at most 64, most significant first
(`WriteCursor.write_bits`). -/
def writeBits (w : UInt64) (count : Nat) : Writing StreamError Unit :=
  writeBitList (Bits.ofNat (min count 64) w.toNat)

/-- Writes a byte, eight bits where the writer stands inside a byte (`WriteCursor.write_byte`). -/
def writeByte (b : UInt8) : Writing StreamError Unit := fun (t, c) =>
  if c.aligned && !c.stopsWithin t then store b (t, c)
  else writeBitList (Bits.ofByte b) (t, c)

/-- Writes bytes one after the other and stops at the first that is refused
(`WriteCursor.write_bytes`). -/
def writeBytes (bytes : List UInt8) : Writing StreamError Unit := bytes.forM writeByte

/-- Fills the current byte up with zero bits and stores it (`Cursor.align_to_byte`). -/
def alignWriter : Writing StreamError Unit := fun (t, c) =>
  if c.aligned then .ok () (t, c)
  else match store (Bits.toByte c.bits) (t, c) with
    | .ok () (t, c) => .ok () (t, { c with bits := [] })
    | .error e s => .error e s

end Cursor

end Transcoder

import Transcoder.Tape

/-!
# Cursors: positions on a tape inside nested block ends

A cursor is a reader or a writer. It knows the page it works on, the ends of the blocks it is in,
and, as a cache, an address below which accesses need no further test: `span`. The cache is set
anew by the operations that say so and may be out of date in between.

The page of a cursor is *held*: the tape does not give it up (`Tape.evict`).
-/
namespace Transcoder

/-- What a cursor does at its position (`Direction`). -/
inductive Role where
  | reader
  | writer
  deriving DecidableEq, Repr

/-- A position on a tape and what is known there (`Cursor`, `PageCursor`, `BlockEob`). -/
structure Cursor (role : Role) where
  grain : Grain
  /-- The ends of the blocks around the cursor, innermost first. -/
  bounds : List Position := []
  /-- The byte that the next load or store is at. -/
  address : Nat
  /-- The page held. -/
  page : Option Nat := none
  /-- For a reader, the bits of the byte before `address` that are still to be read; for a writer,
  the bits of the byte at `address` that are already written. Never eight of them. -/
  bits : List Bool := []
  /-- Accesses to the held page below this address need no test. -/
  span : Nat := 0
  deriving DecidableEq, Repr

abbrev Reader := Cursor .reader
abbrev Writer := Cursor .writer

namespace Cursor

variable {role : Role}

/-- The exact stream position (`Cursor.bit_address`). -/
def position (c : Cursor role) : Position :=
  match role with
  | .reader => ⟨8 * c.address - c.bits.length⟩
  | .writer => ⟨8 * c.address + c.bits.length⟩

/-- The cursor stands between two bytes (`Cursor.is_byte_aligned`). -/
def aligned (c : Cursor role) : Bool := c.bits.isEmpty

/-- The innermost end (`Cursor.eob_address`): of the block, or of the stream outside all blocks. -/
def stop (c : Cursor role) (t : Tape) : Position := c.bounds.headD t.endPosition

/-- Blocks around the cursor (`Cursor.block_depth`). -/
def depth (c : Cursor role) : Nat := c.bounds.length

/-- The held page covers `address` (`PageCursor.holds`). -/
def holds (c : Cursor role) (t : Tape) (address : Nat) : Bool := c.page == some (t.pageOf address)

/-- Sets the cached span (`Cursor.update_guaranteed_before_eob`): the end of the held page, but at
most the innermost end and, for a reader, the fill address; nothing where the cursor stands before
its page or holds none. -/
def refresh (c : Cursor role) (t : Tape) : Cursor role :=
  { c with
    span := match c.page with
      | none => 0
      | some page =>
        if t.pageStart page ≤ c.address then
          let limit := min (t.pageEnd page) (c.stop t).byte
          match role with
          | .reader => min limit t.fill
          | .writer => limit
        else 0 }

/-- Enters a block that ends at `p`, which must not lie beyond the innermost end
(`Cursor.push_eob`). -/
def pushBound (c : Cursor role) (t : Tape) (p : Position) : Except StreamError (Cursor role) :=
  if p ≤ c.stop t then .ok ({ c with bounds := p :: c.bounds }.refresh t)
  else .error (.pastBlockEnd p (c.stop t))

/-- Leaves the innermost block (`Cursor.pop_eob`). -/
def popBound (c : Cursor role) (t : Tape) : Except StreamError (Cursor role) :=
  match c.bounds with
  | [] => .error .noEnclosingBlock
  | _ :: outer => .ok ({ c with bounds := outer }.refresh t)

/-- Moves to the start of byte `address`, keeping the page only if it covers that byte
(`Cursor.seek`). -/
def seek (c : Cursor role) (t : Tape) (address : Nat) : Cursor role :=
  { c with
    address
    bits := []
    page := if c.holds t address then c.page else none }.refresh t

/-- Lets the page go (`Cursor.close`); the next access looks it up again. -/
def close (c : Cursor role) : Cursor role := { c with page := none, span := 0 }

/-- Fixes the end of the stream at the cursor's byte (`Cursor.freeze_eof`). -/
def fixEnd (c : Cursor role) (t : Tape) : Except StreamError (Cursor role × Tape) :=
  (t.fixEnd c.address).map fun t => (c.refresh t, t)

/-- Back to the position of `saved` (`Cursor.restore`); the page stays. -/
def restore (c saved : Cursor role) (t : Tape) : Cursor role :=
  { c with address := saved.address, bits := saved.bits }.refresh t

/-- The innermost end falls inside the byte at the cursor (`Cursor.partial_eob_here`). -/
def stopsWithin (c : Cursor role) (t : Tape) : Bool :=
  c.grain == .bit && (c.stop t).byte == c.address && (c.stop t).bit != 0

/-- The error of an access at `p` that the innermost end forbids (`Cursor.boundary_error`). -/
def boundaryError (c : Cursor role) (t : Tape) (p : Position) : StreamError :=
  match c.bounds, role with
  | stop :: _, _ => .pastBlockEnd p stop
  | [], .reader => .endOfStream p.byte
  | [], .writer => .writeAfterEnd p.byte t.endPosition.byte

/-- The byte at the cursor lies before the innermost end, at least in part for a bit cursor
(`Cursor.check_bound`). -/
def checkByte (c : Cursor role) (t : Tape) : Except StreamError Unit :=
  if c.address < (c.stop t).byte || c.stopsWithin t then .ok ()
  else .error (c.boundaryError t (.ofByte c.address))

/-- The next bit may be accessed (`Cursor.require_bits`, `Cursor.check_bit_bound`): this is a bit
cursor and stands before the innermost end. -/
def checkBit (c : Cursor role) (t : Tape) : Except StreamError Unit :=
  if c.grain ≠ .bit then .error .bitCursorRequired
  else if c.position < c.stop t then .ok ()
  else .error (c.boundaryError t c.position)

/-- The cached span allows an access without further tests. -/
def fast (c : Cursor role) (t : Tape) : Bool :=
  c.address < c.span && !t.broken && c.page.isSome

end Cursor

end Transcoder

import Transcoder.Block.Read
import Transcoder.Block.Write

/-!
# Sessions: one tape and everything that works on it

A session owns a tape together with all that may hold one of its pages: named cursors, begun blocks
and bookmarks. So the pages in use are known, and `evict` gives up no page that one of them holds.
-/
namespace Transcoder

/-- A reader or a writer. -/
inductive AnyCursor where
  | reader (c : Reader)
  | writer (c : Writer)
  deriving DecidableEq, Repr

namespace AnyCursor

/-- The page held. -/
def page : AnyCursor → Option Nat
  | reader c => c.page
  | writer c => c.page

end AnyCursor

/-- An address with the page that backs it, until that is let go. -/
structure Bookmark where
  page : Option Nat
  address : Nat
  deriving DecidableEq, Repr

/-- Things by name; the first entry of a name counts. -/
abbrev Named (α : Type) := List (String × α)

namespace Named

variable {α : Type}

/-- The thing of that name. -/
def get? (xs : Named α) (name : String) : Option α := List.lookup name xs

/-- The list without that name. -/
def erase (xs : Named α) (name : String) : Named α := xs.filter (·.1 != name)

/-- Gives a thing a name, in place of what had it before. -/
def put (xs : Named α) (name : String) (x : α) : Named α := (name, x) :: erase xs name

/-- All things, in no order that matters. -/
def values (xs : Named α) : List α := xs.map (·.2)

end Named

structure Session where
  tape : Tape
  framing : Framing
  cursors : Named AnyCursor := []
  headers : Named OpenHeader := []
  extents : Named Extent := []
  partials : Named PartialValue := []
  bookmarks : Named Bookmark := []

namespace Session

/-- The pages that something in the session holds. -/
def heldPages (s : Session) : List Nat :=
  s.cursors.values.filterMap AnyCursor.page ++
    s.headers.values.filterMap (·.cursor.page) ++
    s.bookmarks.values.filterMap Bookmark.page

end Session

/-- What can be asked of the tape and its pages. -/
inductive TapeCommand where
  /-- Writes bytes at the fill address. -/
  | append (bytes : List UInt8)
  | fixEnd (address : Nat)
  | markBroken
  | checkReadable (address : Nat)
  | truncate (address : Nat)
  /-- Gives up the pages before `mark` that nothing holds. -/
  | evict (mark : Nat)
  | copyOut (start length : Nat)
  /-- Looks up the page to read from, and keeps it under a name if one is given. -/
  | readPage (address : Nat) (keep : Option String)
  /-- Makes the page to write to, and keeps it under a name if one is given. -/
  | writePage (address : Nat) (keep : Option String)
  | pageGet (bookmark : String) (address : Nat)
  | pageSet (bookmark : String) (address : Nat) (b : UInt8)
  | pageContains (bookmark : String) (address : Nat)
  /-- Lets the page of a bookmark go. -/
  | pageRelease (bookmark : String)

/-- What can be asked of a cursor, whether it reads or writes. -/
inductive CursorCommand where
  /-- Makes a reader, at the lowest resident byte if no address is given. -/
  | makeReader (grain : Grain) (address : Option Nat)
  /-- Makes a writer, at the fill address if no address is given. -/
  | makeWriter (grain : Grain) (address : Option Nat)
  /-- Makes a reader at an address inside the block ends of another cursor. -/
  | makeReaderOver (source : String) (address : Nat)
  /-- Makes a copy of another cursor. -/
  | copy (source : String)
  | drop
  | pushBound (stop : Position)
  | popBound
  | seek (address : Nat)
  | close
  | refresh
  /-- Fixes the end of the stream at the cursor. -/
  | fixEnd
  | align
  /-- Aligns as a step of encoding or decoding. -/
  | alignStream
  | position

/-- What can be asked of a reader. -/
inductive ReaderCommand where
  | readByte
  | readBit
  | readBits (count : Nat)
  | readValue (kind : IntKind)
  | readNode (node : Node)
  | readSize
  /-- Reads on in a value begun before. -/
  | resume (partialValue : String)
  | enter (block : String)
  | enterSized (block : String) (size : Nat)
  | leave (block : String)

/-- What can be asked of a writer. -/
inductive WriterCommand where
  | writeByte (b : UInt8)
  | writeBytes (bytes : List UInt8)
  | writeBit (bit : Bool)
  | writeBits (w : UInt64) (count : Nat)
  | writeValue (kind : IntKind) (w : UInt64)
  | writeNode (node : Node) (w : UInt64)
  | writePaddedSize (size reserved : Nat)
  | writeSize (size : Nat)
  | moveBlock (start size : Nat)
  | beginBlock (block : String)
  /-- Finishes a begun block, which is gone then, finished or refused. -/
  | finishBlock (block : String)

/-- What can be asked of a session. Cursors, blocks, partial values and bookmarks go by name. -/
inductive Command where
  | tape (cmd : TapeCommand)
  | cursor (name : String) (cmd : CursorCommand)
  | reader (name : String) (cmd : ReaderCommand)
  | writer (name : String) (cmd : WriterCommand)
  /-- Begins a value that a reader reads piece by piece. -/
  | startValue (name : String) (kind : IntKind)

/-- What a session answers. -/
inductive Reply where
  | done
  | number (n : Nat)
  | word (w : UInt64)
  | flag (b : Bool)
  | bytes (bytes : List UInt8)
  | position (p : Position)
  | page (index : Nat)
  | bookmark (b : Bookmark)
  | extent (e : Extent)
  | header (h : OpenHeader)
  /-- What reading on gave, and the bytes read of the value so far. -/
  | resumed (result : Except StreamError UInt64) (consumed : Nat)
  | refused (e : StreamError)
  | notDecoded (e : DecodeError)
  | notEncoded (e : EncodeError)
  /-- Nothing of that name, or not of that kind. -/
  | missing

end Transcoder

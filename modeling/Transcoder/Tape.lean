import Transcoder.StreamError

/-!
# A byte stream kept in pages

A tape holds one stream as a run of pages of equal size: it grows by a page at the back and gives
up pages at the front. Page `i` covers the addresses `i * pageSize` up to `(i + 1) * pageSize`, so
the page of an address is a division. The bytes below the fill address are the stream so far.

`byte?` is the view: the byte of a resident page, whether it counts as written or not.
-/
namespace Transcoder

/-- A stream in pages (`Queue`, `PageList`, `Page`). -/
structure Tape where
  pageSize : Nat
  /-- Every lower page was given up. -/
  firstPage : Nat := 0
  /-- The bytes of the resident pages, from the start of `firstPage` on. -/
  cells : Array UInt8 := #[]
  /-- One past the highest byte written. -/
  fill : Nat := 0
  /-- The end of the stream, once it is fixed. -/
  eof : Option Nat := none
  /-- A broken tape refuses every access. -/
  broken : Bool := false
  pageSize_pos : 0 < pageSize := by decide
  deriving DecidableEq

namespace Tape

/-- The page size of a tape when nothing else is asked for (`DEFAULT_PAGE_SIZE`). -/
def defaultPageSize : Nat := 4096

/-- An empty tape (`Queue.with_page_size`); pages hold at least one byte. -/
def blank (pageSize : Nat) : Tape :=
  { pageSize := max pageSize 1, pageSize_pos := Nat.lt_of_lt_of_le Nat.one_pos (Nat.le_max_right ..) }

instance : Inhabited Tape := ⟨blank 1⟩

/-! ## Pages -/

/-- The page that covers an address. -/
def pageOf (t : Tape) (address : Nat) : Nat := address / t.pageSize

/-- The first address of a page (`Page.min_address`). -/
def pageStart (t : Tape) (page : Nat) : Nat := page * t.pageSize

/-- One past the last address of a page (`Page.max_address`). -/
def pageEnd (t : Tape) (page : Nat) : Nat := (page + 1) * t.pageSize

/-- The lowest resident address (`Queue.resident_start`). -/
def start (t : Tape) : Nat := t.pageStart t.firstPage

/-- Resident pages (`Queue.page_count`). -/
def pageCount (t : Tape) : Nat := t.cells.size / t.pageSize

/-- One past the last resident page (`PageList.end_index`). -/
def endPage (t : Tape) : Nat := t.firstPage + t.pageCount

/-- The page can be accessed (`PageList.get`): it was made and not given up. -/
def resident (t : Tape) (page : Nat) : Bool := t.firstPage ≤ page && page < t.endPage

/-- Written bytes on resident pages (`Queue.fill_size`). -/
def size (t : Tape) : Nat := t.fill - t.start

/-- The byte at a resident address (`Page.get`). -/
def byte? (t : Tape) (address : Nat) : Option UInt8 :=
  if t.start ≤ address then t.cells[address - t.start]? else none

/-- The byte at an address, 0 where nothing is resident. -/
def byteAt (t : Tape) (address : Nat) : UInt8 := (t.byte? address).getD 0

/-- Stores a byte at a resident address (`Page.set`). -/
def put (t : Tape) (address : Nat) (b : UInt8) : Tape :=
  if t.start ≤ address then { t with cells := t.cells.setIfInBounds (address - t.start) b } else t

/-- Makes pages, filled with zeros, until `page` is resident or lies before the first one. -/
def grow (t : Tape) (page : Nat) : Tape :=
  { t with cells := t.cells ++ Array.replicate ((page + 1 - t.endPage) * t.pageSize) 0 }

/-! ## Ends -/

/-- Fixes the end of the stream (`Queue.freeze_eof`); doing so twice at one address is allowed. -/
def fixEnd (t : Tape) (address : Nat) : Except StreamError Tape :=
  if address < t.fill then .error (.endBeforeFill address t.fill)
  else match t.eof with
    | none => .ok { t with eof := some address }
    | some e => if e = address then .ok t else .error (.endAlreadyFixed e address)

/-- The tape refuses every access from now on (`Queue.mark_broken`). -/
def break_ (t : Tape) : Tape := { t with broken := true }

/-- The bound of a stream outside all blocks (`BlockEob.root`). -/
def endPosition (t : Tape) : Position :=
  match t.eof with
  | none => .unbounded
  | some e => .ofByte e

/-! ## Access -/

/-- The byte at `address` can be read now (`Queue.check_readable`). -/
def checkReadable (t : Tape) (address : Nat) : Except StreamError Unit :=
  if t.broken then .error (.brokenCursor address)
  else if address < t.fill then .ok ()
  else if t.eof.isSome then .error (.endOfStream address)
  else .error (.notAvailable address)

/-- The page to read `address` from (`Queue.read_page`). -/
def readPage (t : Tape) (address : Nat) : Except StreamError Nat := do
  t.checkReadable address
  if t.resident (t.pageOf address) then pure (t.pageOf address)
  else throw (.brokenCursor address)

/-- `address` may be written: the tape is whole, the stream goes on, the page was not given up. -/
def checkWritable (t : Tape) (address : Nat) : Except StreamError Unit :=
  if t.broken then .error (.brokenCursor address)
  else match t.eof.filter (· ≤ address) with
    | some e => .error (.writeAfterEnd address e)
    | none => if t.pageOf address < t.firstPage then .error (.brokenCursor address) else .ok ()

/-- The tape with the page of `address` resident, for writing (`Queue.write_page`). -/
def writePage (t : Tape) (address : Nat) : Except StreamError Tape :=
  (t.checkWritable address).map fun _ => t.grow (t.pageOf address)

/-- Stores bytes from `address` on. Only the first byte of each page, and the very first, is
tested for being writable; what was stored before a refusal stays. `onPage` says that the page of
`address` passed. -/
def storeFrom (t : Tape) (address : Nat) (onPage : Bool) :
    List UInt8 → Except StreamError Nat × Tape
  | [] => (.ok address, t)
  | b :: rest =>
    match (if onPage then .ok t else t.writePage address) with
    | .error e => (.error e, t)
    | .ok t =>
      (t.put address b).storeFrom (address + 1) ((address + 1) % t.pageSize != 0) rest

/-- Writes bytes at the fill address and gives the new one (`Queue.append`); it moves only if every
byte is stored. -/
def append (t : Tape) (bytes : List UInt8) : Except StreamError Nat × Tape :=
  match t.storeFrom t.fill false bytes with
  | (.ok end_, t) => (.ok end_, { t with fill := end_ })
  | (.error e, t) => (.error e, t)

/-- A byte was written below `end_` (`Queue.note_written`). -/
def noteWritten (t : Tape) (end_ : Nat) : Tape := { t with fill := max t.fill end_ }

/-- Lowers the fill address to `address`, dropping what was written past it (`Queue.truncate`). -/
def truncate (t : Tape) (address : Nat) : Except StreamError Tape :=
  if address < t.start then .error (.brokenCursor address)
  else .ok { t with fill := min t.fill address }

/-- How many leading pages end at or before `mark` and are not in `held`. -/
def evictable (t : Tape) (held : List Nat) (mark : Nat) : Nat :=
  ((List.range' t.firstPage t.pageCount).takeWhile fun page =>
    t.pageEnd page ≤ mark && !held.contains page).length

/-- Gives up the leading pages that end at or before `mark`, up to the first one in `held`
(`Queue.evict_before`). -/
def evict (t : Tape) (held : List Nat) (mark : Nat) : Tape :=
  { t with
    firstPage := t.firstPage + t.evictable held mark
    cells := t.cells.extract (t.evictable held mark * t.pageSize) }

/-- The `length` written bytes from `start` on (`Queue.copy_out`). The end is added up in a machine
word, so where it is no address the program stops, as it does at an access outside a page. -/
def copyOut (t : Tape) (start length : Nat) : Except StreamError (List UInt8) :=
  if t.broken then .error (.brokenCursor start)
  else if t.fill < start + length then
    if start + length < UInt64.size then .error (.notAvailable t.fill)
    else .error (.outsidePage (start + length))
  else (List.range' start length).mapM fun address =>
    match t.byte? address with
    | some b => .ok b
    | none => .error (.brokenCursor address)

/-- A one-line account of the tape. -/
def describe (t : Tape) : String :=
  let eof := match t.eof with
    | none => "None"
    | some e => s!"Some({e})"
  s!"Queue \x7b page_size: {t.pageSize}, fill: {t.fill}, eof: {eof}, broken: {t.broken}, .. \x7d"

/-- A one-line account of a page. -/
def describePage (t : Tape) (page : Nat) : String :=
  s!"Page \x7b index: {page}, min_address: {t.pageStart page}, " ++
    s!"max_address: {t.pageEnd page}, .. \x7d"

end Tape

end Transcoder

import Transcoder.Session.Basic

/-!
# What a session does

`Session.step` answers one command. Every operation works on the session's tape, so what one cursor
does, the others see.
-/
namespace Transcoder.Session

/-- Runs `f` on the named cursor. -/
def onCursor (s : Session) (name : String) (f : AnyCursor → Reply × Session) : Reply × Session :=
  match s.cursors.get? name with
  | some c => f c
  | none => (.missing, s)

/-- Names a cursor. -/
def putCursor (s : Session) (name : String) (c : AnyCursor) : Session :=
  { s with cursors := s.cursors.put name c }

/-- Runs an operation on the named reader that gives an answer and the reader it leaves. -/
def onReader (s : Session) (name : String) (f : Reader → Reply × Reader) : Reply × Session :=
  s.onCursor name fun
    | .reader c => ((f c).1, s.putCursor name (.reader (f c).2))
    | .writer _ => (.missing, s)

/-- Runs an operation on the named reader that leaves it alone when it fails. -/
def tryReader {ε α : Type} (s : Session) (name : String) (answer : α → Reply) (refuse : ε → Reply)
    (f : Reader → Except ε (α × Reader)) : Reply × Session :=
  s.onReader name fun c =>
    match f c with
    | .ok (a, c) => (answer a, c)
    | .error e => (refuse e, c)

/-- Runs an action through the named writer. -/
def onWriter {ε α : Type} (s : Session) (name : String) (answer : α → Reply) (refuse : ε → Reply)
    (act : Writing ε α) : Reply × Session :=
  s.onCursor name fun
    | .writer c =>
      match act (s.tape, c) with
      | .ok a (t, c) => (answer a, { s with tape := t }.putCursor name (.writer c))
      | .error e (t, c) => (refuse e, { s with tape := t }.putCursor name (.writer c))
    | .reader _ => (.missing, s)

/-- Runs an operation that every cursor has. -/
def moveCursor (s : Session) (name : String)
    (f : {role : Role} → Cursor role → Except StreamError (Cursor role)) : Reply × Session :=
  s.onCursor name fun
    | .reader c =>
      match f c with
      | .ok c => (.done, s.putCursor name (.reader c))
      | .error e => (.refused e, s)
    | .writer c =>
      match f c with
      | .ok c => (.done, s.putCursor name (.writer c))
      | .error e => (.refused e, s)

/-- Changes the tape, or not. -/
def onTape (s : Session) (r : Except StreamError Tape) : Reply × Session :=
  match r with
  | .ok t => (.done, { s with tape := t })
  | .error e => (.refused e, s)

/-- Gives the page of `address`, and keeps it under a name if one is given. -/
def keepPage (s : Session) (address : Nat) (keep : Option String) : Reply × Session :=
  let page := s.tape.pageOf address
  (.page page,
    match keep with
    | none => s
    | some name => { s with bookmarks := s.bookmarks.put name ⟨some page, address⟩ })

/-- Runs `f` on the page of a bookmark. -/
def onBookmark (s : Session) (name : String) (f : Nat → Reply × Session) : Reply × Session :=
  match (s.bookmarks.get? name).bind Bookmark.page with
  | some page => f page
  | none => (.missing, s)

/-- Names the extent of a block when it was entered. -/
def keepExtent (block : String) : Reply × Session → Reply × Session
  | (.extent e, s) => (.extent e, { s with extents := s.extents.put block e })
  | r => r

/-- Names a begun block. -/
def keepHeader (block : String) : Reply × Session → Reply × Session
  | (.header h, s) => (.header h, { s with headers := s.headers.put block h })
  | r => r

/-- The answer to a command about the tape and its pages. -/
def stepTape (s : Session) : TapeCommand → Reply × Session
  | .append bytes =>
    let (r, t) := s.tape.append bytes
    (match r with
      | .ok fill => .number fill
      | .error e => .refused e, { s with tape := t })
  | .fixEnd address => s.onTape (s.tape.fixEnd address)
  | .markBroken => (.done, { s with tape := s.tape.break_ })
  | .checkReadable address => s.onTape ((s.tape.checkReadable address).map fun _ => s.tape)
  | .truncate address => s.onTape (s.tape.truncate address)
  | .evict mark =>
    (.number (s.tape.evictable s.heldPages mark), { s with tape := s.tape.evict s.heldPages mark })
  | .copyOut start length =>
    (match s.tape.copyOut start length with
      | .ok bytes => .bytes bytes
      | .error e => .refused e, s)
  | .readPage address keep =>
    match s.tape.readPage address with
    | .ok _ => s.keepPage address keep
    | .error e => (.refused e, s)
  | .writePage address keep =>
    match s.tape.writePage address with
    | .ok t => { s with tape := t }.keepPage address keep
    | .error e => (.refused e, s)
  | .pageGet name address =>
    s.onBookmark name fun page =>
      if s.tape.pageOf address = page then (.number (s.tape.byteAt address).toNat, s)
      else (.refused (.outsidePage address), s)
  | .pageSet name address b =>
    s.onBookmark name fun page =>
      if s.tape.pageOf address = page then (.done, { s with tape := s.tape.put address b })
      else (.refused (.outsidePage address), s)
  | .pageContains name address =>
    s.onBookmark name fun page => (.flag (s.tape.pageOf address = page), s)
  | .pageRelease name =>
    match s.bookmarks.get? name with
    | none => (.missing, s)
    | some b =>
      let b : Bookmark := { b with page := none }
      (.bookmark b, { s with bookmarks := s.bookmarks.put name b })

/-- The answer to a command that makes, moves or drops a cursor. -/
def stepCursor (s : Session) (name : String) : CursorCommand → Reply × Session
  | .makeReader grain address =>
    let c := Cursor.readerOn s.tape grain
    (.done, s.putCursor name (.reader { c with address := address.getD c.address }))
  | .makeWriter grain address =>
    let c := Cursor.writerOn s.tape grain
    (.done, s.putCursor name (.writer { c with address := address.getD c.address }))
  | .makeReaderOver source address =>
    s.onCursor source fun
      | .reader c => (.done, s.putCursor name (.reader (c.readerOver address)))
      | .writer c => (.done, s.putCursor name (.reader (c.readerOver address)))
  | .copy source => s.onCursor source fun c => (.done, s.putCursor name c)
  | .drop =>
    (.flag (s.cursors.get? name).isSome, { s with cursors := s.cursors.erase name })
  | .pushBound stop => s.moveCursor name fun c => c.pushBound s.tape stop
  | .popBound => s.moveCursor name fun c => c.popBound s.tape
  | .seek address => s.moveCursor name fun c => .ok (c.seek s.tape address)
  | .close => s.moveCursor name fun c => .ok c.close
  | .refresh => s.moveCursor name fun c => .ok (c.refresh s.tape)
  | .fixEnd =>
    s.onCursor name fun
      | .reader c =>
        match c.fixEnd s.tape with
        | .ok (c, t) => (.done, { s with tape := t }.putCursor name (.reader c))
        | .error e => (.refused e, s)
      | .writer c =>
        match c.fixEnd s.tape with
        | .ok (c, t) => (.done, { s with tape := t }.putCursor name (.writer c))
        | .error e => (.refused e, s)
  | .align =>
    s.onCursor name fun
      | .reader c => (.done, s.putCursor name (.reader c.alignReader))
      | .writer _ => s.onWriter name (fun () => .done) .refused Cursor.alignWriter
  | .alignStream =>
    s.onCursor name fun
      | .reader c => (.done, s.putCursor name (.reader c.alignReader))
      | .writer _ =>
        s.onWriter name (fun () => .done) .notEncoded (Cursor.alignWriter.mapError .stream)
  | .position =>
    s.onCursor name fun
      | .reader c => (.position c.position, s)
      | .writer c => (.position c.position, s)

/-- The answer to a command for a reader. -/
def stepReader (s : Session) (name : String) : ReaderCommand → Reply × Session
  | .readByte =>
    s.onReader name fun c =>
      match c.readByte s.tape with
      | (.ok b, c) => (.number b.toNat, c)
      | (.error e, c) => (.refused e, c)
  | .readBit => s.tryReader name .flag .refused fun c => c.readBit s.tape
  | .readBits count =>
    s.onReader name fun c =>
      match c.readBits s.tape count with
      | (.ok w, c) => (.word w, c)
      | (.error e, c) => (.refused e, c)
  | .readValue kind => s.tryReader name .word .notDecoded fun c => c.readValue s.tape kind
  | .readNode node => s.tryReader name .word .notDecoded fun c => c.readNode s.tape node
  | .readSize => s.tryReader name .number .notDecoded fun c => c.readSize s.tape
  | .resume partialValue =>
    match s.partials.get? partialValue with
    | none => (.missing, s)
    | some p =>
      s.onCursor name fun
        | .writer _ => (.missing, s)
        | .reader c =>
          let (r, c, p) := c.resume s.tape p
          (.resumed r p.consumed,
            { s with partials := s.partials.put partialValue p }.putCursor name (.reader c))
  | .enter block =>
    keepExtent block (s.tryReader name .extent .notDecoded fun c => c.enter s.tape)
  | .enterSized block size =>
    keepExtent block (s.tryReader name .extent .notDecoded fun c => c.enterSized s.tape size)
  | .leave block =>
    match s.extents.get? block with
    | none => (.missing, s)
    | some e =>
      s.tryReader name (fun () => .done) .notDecoded fun c => (c.leave s.tape e).map ((), ·)

/-- The answer to a command for a writer. -/
def stepWriter (s : Session) (name : String) : WriterCommand → Reply × Session
  | .writeByte b => s.onWriter name (fun () => .done) .refused (Cursor.writeByte b)
  | .writeBytes bytes => s.onWriter name (fun () => .done) .refused (Cursor.writeBytes bytes)
  | .writeBit bit => s.onWriter name (fun () => .done) .refused (Cursor.writeBit bit)
  | .writeBits w count => s.onWriter name (fun () => .done) .refused (Cursor.writeBits w count)
  | .writeValue kind w => s.onWriter name (fun () => .done) .notEncoded (Cursor.writeValue kind w)
  | .writeNode node w => s.onWriter name (fun () => .done) .notEncoded (Cursor.writeNode node w)
  | .writePaddedSize size reserved =>
    s.onWriter name (fun () => .done) .notEncoded (Cursor.writePaddedSize size reserved)
  | .writeSize size => s.onWriter name (fun () => .done) .notEncoded (Cursor.writeSize size)
  | .moveBlock start size =>
    s.onWriter name (fun () => .done) .notEncoded (Cursor.moveBlock start size)
  | .beginBlock block =>
    keepHeader block (s.onWriter name .header .notEncoded s.framing.beginBlock)
  | .finishBlock block =>
    match s.headers.get? block with
    | none => (.missing, s)
    | some h =>
      { s with headers := s.headers.erase block }.onWriter name .number .notEncoded
        (s.framing.finishBlock h)

/-- The answer to a command, and the session after it. -/
def step (s : Session) : Command → Reply × Session
  | .tape cmd => s.stepTape cmd
  | .cursor name cmd => s.stepCursor name cmd
  | .reader name cmd => s.stepReader name cmd
  | .writer name cmd => s.stepWriter name cmd
  | .startValue name kind => (.done, { s with partials := s.partials.put name (.start kind) })

end Transcoder.Session

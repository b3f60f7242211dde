import Transcoder.Block.Write
import Transcoder.Manifest

/-!
# Lists of values

A value list is a JSON text whose field `values` holds values with their kinds, and blocks of such
values. `ValueList.encode` writes it as a stream.
-/
namespace Transcoder

/-- A value with the name of its kind, or a block. -/
inductive Item where
  | value (kind : String) (number : Json.Number)
  | block (items : List Item)

/-- Why a value list cannot be written. -/
inductive ListError where
  /-- The text is not JSON, or is no value list. -/
  | json
  | unknownKind (name : String)
  /-- The number, as it is written, cannot be a value of the kind. -/
  | notAValue (number : String) (kind : IntKind)
  /-- The value at a place of its list is refused. -/
  | refused (index : Nat) (number : String) (kind : IntKind) (cause : EncodeError)
  /-- Something in the block at a place of its list. -/
  | inBlock (index : Nat) (cause : ListError)
  /-- A block cannot be begun or finished. -/
  | framing (cause : EncodeError)
  /-- The stream cannot be ended or copied. -/
  | stream (cause : StreamError)
  deriving DecidableEq, Repr

/-- The wording of each cause, outermost place first. -/
def ListError.message : ListError → String
  | json => ManifestError.json.message
  | unknownKind name => unknownKindText name
  | notAValue number kind => s!"{number} is not a valid {kind} value"
  | refused index number kind cause =>
    s!"value {index}: cannot write {number} as {kind}: {cause.message}"
  | inBlock index cause => s!"block at {index}: " ++ cause.message
  | framing cause => cause.message
  | stream cause => cause.message

namespace Item

/-- The value of the only field of that name. -/
def only? (name : String) (fields : List (String × Json)) : Option Json :=
  match fields.filter (·.1 == name) with
  | [field] => some field.2
  | _ => none

/-- The kind and number of a value: two fields among others. -/
def value? : Json → Option Item
  | .object fields =>
    match only? "kind" fields, only? "value" fields with
    | some (.string kind), some (.number n) => some (.value kind n)
    | _, _ => none
  | _ => none

/-- The items of a block: one field among others. -/
def content? : Json → Option (List Json)
  | .object fields =>
    match only? "block" fields with
    | some (.array items) => some items
    | _ => none
  | _ => none

/-- The item that a JSON value describes, a value if it can be one; blocks stand in one another at
most `height` deep. -/
def ofJson? : (height : Nat) → Json → Option Item
  | 0, _ => none
  | h + 1, json =>
    match value? json with
    | some item => some item
    | none => do
      let items ← content? json
      return .block (← items.mapM (ofJson? h))

/-- The word of a number as a value of the kind (`to_raw`): naturals as they are, negative numbers
for signed kinds only. -/
def word (kind : IntKind) : Json.Number → Except ListError UInt64
  | .natural n => .ok (UInt64.ofNat n)
  | .negative n =>
    if kind.signed then .ok (UInt64.ofInt (-n))
    else .error (.notAValue (Json.Number.negative n).text kind)
  | .double x => .error (.notAValue (Json.Number.double x).text kind)

/-- Writes the value at a place of its list. -/
def writeNumber (index : Nat) (name : String) (number : Json.Number) : Writing ListError Unit :=
  match IntKind.ofName? name with
  | none => throw (.unknownKind name)
  | some kind =>
    match word kind number with
    | .error e => throw e
    | .ok w => (Cursor.writeValue kind w).mapError (.refused index number.text kind)

mutual

/-- Writes the item at a place of its list. -/
def write (framing : Framing) (index : Nat) : Item → Writing ListError Unit
  | value kind number => writeNumber index kind number
  | block items => do
    let header ← framing.beginBlock.mapError .framing
    (writeAll framing 0 items).mapError (.inBlock index)
    discard <| (framing.finishBlock header).mapError .framing

/-- Writes items, the first of them at a place of its list (`write_items`). -/
def writeAll (framing : Framing) (index : Nat) : List Item → Writing ListError Unit
  | [] => pure ()
  | item :: rest => do
    write framing index item
    writeAll framing (index + 1) rest

end

end Item

namespace ValueList

/-- The items of a value list. -/
def ofText? (text : String) : Option (List Item) :=
  match Json.field? "values" text with
  | some (.array items) => items.mapM (Item.ofJson? (Json.maxDepth + 1))
  | _ => none

/-- The stream of some items on a blank tape. -/
def bytes (framing : Framing) (items : List Item) : Except ListError (List UInt8) :=
  let tape := Tape.blank Tape.defaultPageSize
  match Item.writeAll framing 0 items (tape, Cursor.writerOn tape .byte) with
  | .error e _ => .error e
  | .ok () (tape, _) =>
    match tape.fixEnd tape.fill with
    | .error e => .error (.stream e)
    | .ok tape => (tape.copyOut 0 tape.fill).mapError .stream

/-- The stream of a value list (`encode_json`). -/
def encode (minimize : Bool) (text : String) : Except ListError (List UInt8) :=
  match ofText? text with
  | some items => bytes { minimize } items
  | none => .error .json

end ValueList

end Transcoder

import Transcoder.Json.Read
import Transcoder.Schema.Basic
import Transcoder.Text.Quoted

/-!
# Manifests: schemas as trees

A manifest is a JSON text whose field `root` describes a schema as a tree. An outline is that tree,
with kinds still by name. `Outline.build` lists its nodes, children first, so that every node comes
after its children and the root is last.
-/
namespace Transcoder

/-- A schema as a tree (`NodeSpec`, `CompoundSpec`). -/
inductive Outline where
  | value (kind : String)
  | action (id : Nat)
  | sequence (children : List Outline)
  | loop (count : String) (body : Outline)
  | block (body : Outline)
  | untilEof (body : Outline)

/-- What is wrong with a manifest. -/
inductive ManifestError where
  /-- The text is not JSON, or does not describe a tree. -/
  | json
  | unknownKind (name : String)
  | schema (cause : SchemaError)
  deriving DecidableEq, Repr

/-- The wording of a name that no kind has. -/
def unknownKindText (name : String) : String := "unknown value kind " ++ Text.quote name

namespace ManifestError

/-- The wording of each cause. -/
def message : ManifestError → String
  | json => "malformed JSON"
  | unknownKind name => unknownKindText name
  | schema cause => cause.message

end ManifestError

namespace Outline

/-- The count and the body of a loop: two fields in any order, or an array of the two. -/
def loopParts? : Json → Option (String × Json)
  | .object [("count", .string count), ("body", body)]
  | .object [("body", body), ("count", .string count)]
  | .array [.string count, body] => some (count, body)
  | _ => none

/-- The tree that a JSON value describes; it is at most `height` high. -/
def ofJson? : (height : Nat) → Json → Option Outline
  | 0, _ => none
  | _ + 1, .string kind => some (.value kind)
  | h + 1, .object [(name, content)] =>
    match name, content with
    | "action", .number (.natural id) => if id < UInt32.size then some (.action id) else none
    | "sequence", .array items => (items.mapM (ofJson? h)).map .sequence
    | "loop", content => do
      let (count, body) ← loopParts? content
      return .loop count (← ofJson? h body)
    | "block", body => (ofJson? h body).map .block
    | "until_eof", body => (ofJson? h body).map .untilEof
    | _, _ => none
  | _ + 1, _ => none

/-- The tree of a manifest. No tree in a JSON text is higher than its containers are deep. -/
def ofText? (text : String) : Option Outline :=
  (Json.field? "root" text).bind (ofJson? (Json.maxDepth + 1))

/-- The kind of that name (`parse_kind`). -/
def kindOf (name : String) : Except ManifestError IntKind :=
  match IntKind.ofName? name with
  | some kind => .ok kind
  | none => .error (.unknownKind name)

mutual

/-- Adds the nodes of a tree to a list (`build`), children first, and gives the number of its
root. -/
def build (nodes : Array Node) : Outline → Except ManifestError (Array Node × Nat)
  | value kind => do
    let kind ← kindOf kind
    return (nodes.push (.value kind), nodes.size)
  | action id => .ok (nodes.push (.action id), nodes.size)
  | sequence children => do
    let (nodes, ids) ← buildAll nodes children
    return (nodes.push (.sequence ids), nodes.size)
  | loop count body => do
    let count ← kindOf count
    let (nodes, id) ← build nodes body
    return (nodes.push (.loop count id), nodes.size)
  | block body => do
    let (nodes, id) ← build nodes body
    return (nodes.push (.block id), nodes.size)
  | untilEof body => do
    let (nodes, id) ← build nodes body
    return (nodes.push (.untilEof id), nodes.size)

/-- Adds the nodes of trees, one after the other, and gives the numbers of their roots. -/
def buildAll (nodes : Array Node) : List Outline → Except ManifestError (Array Node × List Nat)
  | [] => .ok (nodes, [])
  | tree :: rest => do
    let (nodes, id) ← build nodes tree
    let (nodes, ids) ← buildAll nodes rest
    return (nodes, id :: ids)

end

/-- The schema of a tree. -/
def schema (tree : Outline) : Except ManifestError Schema := do
  let (nodes, root) ← build #[] tree
  (Schema.ofNodes? nodes root).mapError .schema

end Outline

/-- The schema of a manifest (`parse`). -/
def Schema.ofManifest (text : String) : Except ManifestError Schema :=
  match Outline.ofText? text with
  | some tree => tree.schema
  | none => .error .json

end Transcoder

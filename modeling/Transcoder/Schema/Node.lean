import Transcoder.IntKind
import Transcoder.Text.Hex

/-!
# The nodes of a schema

A node says what stands next in a stream; its children are named by their numbers. Every kind of
node has a one-byte opcode, and an opcode of no known kind is kept as it is.
-/
namespace Transcoder

/-- The kind of a node, without its children (`NodeKind`). -/
inductive NodeTag where
  | value (kind : IntKind)
  | action
  | sequence
  | loop
  | block
  | untilEof
  | unknown (opcode : UInt8)
  deriving DecidableEq, Repr

namespace NodeTag

/-- The opcode of a kind of node (`NodeKind.opcode`). -/
def opcode : NodeTag → UInt8
  | value .uint8 => 0x10
  | value .uint32 => 0x11
  | value .uint64 => 0x12
  | value .varint32 => 0x13
  | value .varint64 => 0x14
  | value .varuint32 => 0x15
  | value .varuint64 => 0x16
  | value .fixedVaruint32 => 0x17
  | value .fixedVaruint64 => 0x18
  | action => 0x20
  | sequence => 0x30
  | loop => 0x31
  | block => 0x32
  | untilEof => 0x33
  | unknown op => op

/-- The kinds of node that have an opcode of their own. -/
def known : List NodeTag := IntKind.all.map value ++ [action, sequence, loop, block, untilEof]

/-- The kind of node of an opcode (`NodeKind.from_opcode`). -/
def ofOpcode (op : UInt8) : NodeTag := (known.find? (·.opcode == op)).getD (unknown op)

/-- The name of a kind of node. -/
def text : NodeTag → String
  | value kind => kind.name
  | action => "action"
  | sequence => "sequence"
  | loop => "loop"
  | block => "block"
  | untilEof => "until_eof"
  | unknown op => "opaque(0x" ++ Text.hexNat 2 op.toNat ++ ")"

instance : ToString NodeTag := ⟨text⟩

end NodeTag

/-- A node of a schema. -/
inductive Node where
  /-- One integer. -/
  | value (kind : IntKind)
  /-- A call of the host. -/
  | action (id : Nat)
  /-- The children in order. -/
  | sequence (children : List Nat)
  /-- An integer, then the body as often as it says. -/
  | loop (count : IntKind) (body : Nat)
  /-- A size, then a body of that many bytes. -/
  | block (body : Nat)
  /-- The body again and again up to the innermost end. -/
  | untilEof (body : Nat)
  /-- Something of no known kind, which can be kept but not run. -/
  | unknown (opcode : UInt8)
  deriving DecidableEq, Repr

namespace Node

/-- The kind of a node (`Node.kind`). -/
def tag : Node → NodeTag
  | value kind => .value kind
  | action _ => .action
  | sequence _ => .sequence
  | loop .. => .loop
  | block _ => .block
  | untilEof _ => .untilEof
  | unknown op => .unknown op

/-- The integer kind of a value node (`Node.value_kind`). -/
def valueKind? : Node → Option IntKind
  | value kind => some kind
  | _ => none

/-- The numbers of the children, in order (`Node.children`). -/
def children : Node → List Nat
  | sequence children => children
  | loop _ body | block body | untilEof body => [body]
  | value _ | action _ | unknown _ => []

/-- The integer kind of a loop's count. -/
def count? : Node → Option IntKind
  | loop count _ => some count
  | _ => none

end Node

/-- How the number of a node is written (`NodeId`). -/
def nodeText (id : Nat) : String := s!"#{id}"

/-- How the identifier of an action is written (`ActionId`). -/
def actionText (id : Nat) : String := s!"action {id}"

end Transcoder

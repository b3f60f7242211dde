import Transcoder.Schema.Node

/-!
# Schemas

A schema is a list of nodes with a root. Every child has a lower number than its parent, so a
schema has no cycles and whatever descends through it ends. `ofNodes?` accepts exactly the
well-formed node lists and names the first fault of the others.
-/
namespace Transcoder

/-- What is wrong with a list of nodes (`FormatError`). -/
inductive SchemaError where
  /-- There is no node. -/
  | empty
  /-- The root or a child lies outside the list. -/
  | unknownNode (id : Nat)
  /-- A child is not below its parent. -/
  | forwardReference (node child : Nat)
  /-- A loop counts with a signed kind. -/
  | signedCount (kind : IntKind)
  deriving DecidableEq, Repr

namespace SchemaError

/-- The wording of each cause. -/
def message : SchemaError → String
  | empty => "format has no nodes"
  | unknownNode id => s!"node {nodeText id} does not exist"
  | forwardReference node child => s!"node {nodeText node} refers forward to {nodeText child}"
  | signedCount kind => s!"loop count must be unsigned, got {kind}"

end SchemaError

/-- Node `i` may stand at place `i`: its children lie below and its count, if any, is unsigned. -/
def Node.Fits (i : Nat) (n : Node) : Prop :=
  (∀ c ∈ n.children, c < i) ∧ ∀ k ∈ n.count?, k.signed = false

/-- Node lists that make a schema. -/
structure Schema.WellFormed (nodes : Array Node) (root : Nat) : Prop where
  root_lt : root < nodes.size
  fits : ∀ (i : Nat) (n : Node), nodes[i]? = some n → n.Fits i

/-- Nodes that refer to each other by number (`Format`). -/
structure Schema where
  nodes : Array Node
  root : Nat
  wellFormed : Schema.WellFormed nodes root

namespace Schema

/-- What keeps node `n` of `size` nodes from standing at place `i`: the first child that is not
below it, else a signed count. -/
def nodeFault? (size i : Nat) (n : Node) : Option SchemaError :=
  match n.children.find? (i ≤ ·) with
  | some c => some (if size ≤ c then .unknownNode c else .forwardReference i c)
  | none => (n.count?.filter (·.signed)).map .signedCount

/-- The first fault of a list of nodes. -/
def fault? (nodes : Array Node) (root : Nat) : Option SchemaError :=
  if nodes.size = 0 then some .empty
  else if nodes.size ≤ root then some (.unknownNode root)
  else (List.range nodes.size).findSome? fun i => nodes[i]?.bind (nodeFault? nodes.size i)

theorem fits_of_nodeFault? {size i : Nat} {n : Node} (h : nodeFault? size i n = none) :
    n.Fits i := by
  unfold nodeFault? at h
  split at h
  · simp at h
  · rename_i hc
    constructor
    · intro c hm
      have := List.find?_eq_none.1 hc c hm
      simpa using this
    · intro k hk
      simp only [Option.map_eq_none_iff, Option.filter_eq_none_iff] at h
      simpa using h k hk

theorem wellFormed_of_fault? {nodes : Array Node} {root : Nat} (h : fault? nodes root = none) :
    WellFormed nodes root := by
  unfold fault? at h
  split at h
  · simp at h
  · split at h
    · simp at h
    · refine ⟨by omega, fun i n hn => @fits_of_nodeFault? nodes.size i n ?_⟩
      have hi : i < nodes.size := (Array.getElem?_eq_some_iff.1 hn).1
      have := List.findSome?_eq_none_iff.1 h i (List.mem_range.2 hi)
      simpa [hn] using this

/-- The schema of a list of nodes, or its first fault (`FormatBuilder.finish`). -/
def ofNodes? (nodes : Array Node) (root : Nat) : Except SchemaError Schema :=
  match h : fault? nodes root with
  | some e => .error e
  | none => .ok ⟨nodes, root, wellFormed_of_fault? h⟩

/-- The node of that number (`Format.node`). -/
def node? (s : Schema) (id : Nat) : Option Node := s.nodes[id]?

/-- The number of nodes (`Format.len`). -/
def size (s : Schema) : Nat := s.nodes.size

/-- For each node, the nodes on the longest path down from it; children come before parents, so one
pass over the list suffices. -/
def heights (nodes : Array Node) : Array Nat :=
  nodes.foldl (fun hs n => hs.push ((n.children.map fun c => hs.getD c 0).foldl max 0 + 1)) #[]

/-- The nodes on the longest path from the root (`Format.depth`). -/
def depth (s : Schema) : Nat := (heights s.nodes).getD s.root 0

/-- A child has a lower number than its parent. -/
theorem child_lt (s : Schema) {id c : Nat} {n : Node} (hn : s.node? id = some n)
    (hc : c ∈ n.children) : c < id :=
  (s.wellFormed.fits id n hn).1 c hc

end Schema

end Transcoder

import Transcoder.Engine.Basic
import Transcoder.Proofs.Schema.Height

/-!
# Paths from the root

Whatever an engine does, it does for some node that it has come to from the root, and what stands on
its stack is left of the nodes on the way there (`Spells`). A path has no more nodes than the schema
is deep.

Results:
* `Schema.Path.length_le_depth`: a path down from the root is no longer than the schema is deep.
* `Schema.Spells.length_le_depth`: neither is a stack that spells one.
-/
namespace Transcoder

/-- Nodes from some place in the schema up to the root, each a child of the next, or none at all. -/
inductive Schema.Path (s : Schema) : List Nat → Prop
  | nil : s.Path []
  | root : s.Path [s.root]
  | child {c id : Nat} {n : Node} {above : List Nat} (h : s.Path (id :: above))
    (hn : s.node? id = some n) (hc : c ∈ n.children) : s.Path (c :: id :: above)

namespace Schema.Path

variable {s : Schema} {id : Nat} {above path : List Nat}

theorem tail (h : s.Path (id :: above)) : s.Path above := by
  cases h with
  | root => exact .nil
  | child h => exact h

/-- All of a path are nodes of the schema. -/
theorem node (h : s.Path (id :: above)) : ∃ n, s.node? id = some n := by
  cases h with
  | root => exact ⟨_, Array.getElem?_eq_getElem s.wellFormed.root_lt⟩
  | child _ hn hc => exact s.node_of_child hn hc

/-- The nodes above one and those on the longest path down from it lie on one path. -/
theorem length_add_height_le (h : s.Path (id :: above)) :
    above.length + s.height id ≤ s.depth := by
  generalize hpath : id :: above = path at h
  induction h generalizing id above with
  | nil => cases hpath
  | root =>
    obtain ⟨rfl, rfl⟩ := List.cons.inj hpath
    exact Nat.le_of_eq (Nat.zero_add _)
  | child h hn hc ih =>
    obtain ⟨rfl, rfl⟩ := List.cons.inj hpath
    have habove := ih rfl
    have hlt := Schema.height_child hn hc
    rw [List.length_cons]
    omega

theorem length_le_depth (h : s.Path path) : path.length ≤ s.depth := by
  cases path with
  | nil => exact Nat.zero_le _
  | cons id above =>
    obtain ⟨n, hn⟩ := h.node
    have hpos := Schema.height_pos hn
    have hle := h.length_add_height_le
    rw [List.length_cons]
    omega

end Schema.Path

/-- The task is what is left to do of a node. -/
inductive Task.Of (s : Schema) : Task → Nat → Prop
  | visit (id : Nat) : Task.Of s (.visit id) id
  | sequence {id : Nat} {children rest : List Nat} (hn : s.node? id = some (.sequence children))
    (h : rest <:+ children) : Task.Of s (.sequence rest) id
  | loop {id body : Nat} {count : IntKind} (hn : s.node? id = some (.loop count body))
    (remaining : Nat) (last : Option Position) : Task.Of s (.loop id body remaining last) id
  | block {id body : Nat} (hn : s.node? id = some (.block body)) (extent : Extent)
    (header : OpenHeader) : Task.Of s (.block extent header) id
  | untilEof {id body : Nat} (hn : s.node? id = some (.untilEof body)) (last : Option Position) :
    Task.Of s (.untilEof id body last) id

/-- A value in the making is read for the node. -/
inductive Goal.Of (s : Schema) : Goal → Nat → Prop
  | value {id : Nat} {kind : IntKind} (hn : s.node? id = some (.value kind)) : Goal.Of s .value id
  | loopCount {id body : Nat} {count : IntKind} (hn : s.node? id = some (.loop count body)) :
    Goal.Of s (.loopCount id body) id
  | blockSize {id body : Nat} (hn : s.node? id = some (.block body)) :
    Goal.Of s (.blockSize body) id

/-- Each of the tasks is left of a node on the path. -/
inductive Schema.Spells (s : Schema) : List Task → List Nat → Prop
  | nil : s.Spells [] []
  | cons {task : Task} {id : Nat} {tasks : List Task} {path : List Nat} (h : s.Spells tasks path)
    (ht : task.Of s id) (hp : s.Path (id :: path)) : s.Spells (task :: tasks) (id :: path)

namespace Schema.Spells

variable {s : Schema} {tasks : List Task} {path : List Nat}

theorem isPath (h : s.Spells tasks path) : s.Path path := by
  cases h with
  | nil => exact .nil
  | cons _ _ hp => exact hp

theorem length_eq (h : s.Spells tasks path) : tasks.length = path.length := by
  induction h with
  | nil => rfl
  | cons _ _ _ ih => rw [List.length_cons, List.length_cons, ih]

theorem length_le_depth (h : s.Spells tasks path) : tasks.length ≤ s.depth :=
  h.length_eq ▸ h.isPath.length_le_depth

end Schema.Spells

end Transcoder

import Transcoder.Proofs.Schema.Paths

/-!
# Which lists of nodes make a schema

A list of nodes is looked through once, and accepted or refused for the first fault. What is
accepted can be walked: no node lies below itself, all children are there, and the one pass that
finds the depth never looks for a height that it has not found yet.

Results:
* `Schema.ofNodes?_eq_error`: a list is refused for its first fault.
* `Schema.walkable`: what can be done with a schema.
* `Schema.accepts`: the two together, and what is accepted.
-/
namespace Transcoder

/-! ## The first fault -/

/-- Why node `n` may not stand at place `i` of `size` nodes: the first child that is not below it,
or a signed count if there is no such child. -/
inductive Node.FirstFault (size i : Nat) (n : Node) : SchemaError → Prop
  | unknown {before after : List Nat} {c : Nat} (h : n.children = before ++ c :: after)
    (hbefore : ∀ b ∈ before, b < i) (hc : size ≤ c) : FirstFault size i n (.unknownNode c)
  | forward {before after : List Nat} {c : Nat} (h : n.children = before ++ c :: after)
    (hbefore : ∀ b ∈ before, b < i) (hc : i ≤ c) (hsize : c < size) :
    FirstFault size i n (.forwardReference i c)
  | count {kind : IntKind} (h : ∀ c ∈ n.children, c < i) (hk : n.count? = some kind)
    (hs : kind.signed = true) : FirstFault size i n (.signedCount kind)

/-- What is wrong with a list of nodes: it is empty, its root is not there, or a node does not fit
in its place while all before it do. -/
inductive Schema.FirstFault (nodes : Array Node) (root : Nat) : SchemaError → Prop
  | empty (h : nodes.size = 0) : FirstFault nodes root .empty
  | root (h : 0 < nodes.size) (hr : nodes.size ≤ root) : FirstFault nodes root (.unknownNode root)
  | node {i : Nat} {n : Node} {e : SchemaError} (hr : root < nodes.size) (hn : nodes[i]? = some n)
    (hbefore : ∀ j < i, ∀ m, nodes[j]? = some m → m.Fits j)
    (h : n.FirstFault nodes.size i e) : FirstFault nodes root e

namespace Schema

variable {nodes : Array Node} {root size i : Nat} {n : Node} {e : SchemaError}

theorem nodeFault?_eq_none : nodeFault? size i n = none ↔ n.Fits i := by
  refine ⟨fits_of_nodeFault?, fun ⟨hchildren, hcount⟩ => ?_⟩
  have hfind : n.children.find? (i ≤ ·) = none :=
    List.find?_eq_none.2 fun c hc => by simpa using hchildren c hc
  rw [nodeFault?, hfind]
  simp only [Option.map_eq_none_iff, Option.filter_eq_none_iff]
  exact fun k hk => by simpa using hcount k hk

theorem nodeFault?_eq_some (hi : i < size) :
    nodeFault? size i n = some e ↔ n.FirstFault size i e := by
  have hfirst (c : Nat) : n.children.find? (i ≤ ·) = some c ↔
      i ≤ c ∧ ∃ before after, n.children = before ++ c :: after ∧ ∀ b ∈ before, b < i := by
    simp [List.find?_eq_some_iff_append]
  rw [nodeFault?]
  constructor
  · intro h
    split at h
    · rename_i c hc
      obtain ⟨hle, before, after, hchildren, hbefore⟩ := (hfirst c).1 hc
      cases h
      by_cases hsize : size ≤ c
      · rw [if_pos hsize]
        exact .unknown hchildren hbefore hsize
      · rw [if_neg hsize]
        exact .forward hchildren hbefore hle (Nat.lt_of_not_le hsize)
    · rename_i hnone
      obtain ⟨kind, hkind, rfl⟩ := Option.map_eq_some_iff.1 h
      obtain ⟨hk, hs⟩ := Option.filter_eq_some_iff.1 hkind
      refine .count (fun c hc => ?_) hk hs
      simpa using List.find?_eq_none.1 hnone c hc
  · intro h
    cases h with
    | @unknown before after c hchildren hbefore hc =>
      rw [(hfirst c).2 ⟨by omega, before, after, hchildren, hbefore⟩]
      exact congrArg some (if_pos hc)
    | @forward before after c hchildren hbefore hc hsize =>
      rw [(hfirst c).2 ⟨hc, before, after, hchildren, hbefore⟩]
      exact congrArg some (if_neg (Nat.not_le.2 hsize))
    | @count kind hchildren hk hs =>
      have hnone : n.children.find? (i ≤ ·) = none :=
        List.find?_eq_none.2 fun c hc => by simpa using hchildren c hc
      rw [hnone]
      simp [hk, hs]

theorem wellFormed_iff_fault? : fault? nodes root = none ↔ WellFormed nodes root := by
  refine ⟨wellFormed_of_fault?, fun h => ?_⟩
  have hroot := h.root_lt
  rw [fault?, if_neg (by omega), if_neg (by omega), List.findSome?_eq_none_iff]
  intro i hi
  rw [Array.getElem?_eq_getElem (List.mem_range.1 hi), Option.bind_some]
  exact nodeFault?_eq_none.2 (h.fits i _ (Array.getElem?_eq_getElem (List.mem_range.1 hi)))

/-- The first number below `k` that `f` has something for. -/
theorem findSome?_range_eq_some {α : Type} {f : Nat → Option α} {k : Nat} {x : α} :
    (List.range k).findSome? f = some x ↔ ∃ i < k, f i = some x ∧ ∀ j < i, f j = none := by
  induction k with
  | zero => simp
  | succ k ih =>
    rw [List.range_succ, List.findSome?_append, Option.or_eq_some_iff, ih,
      List.findSome?_singleton]
    constructor
    · rintro (⟨i, hi, hx, hbefore⟩ | ⟨hnone, hx⟩)
      · exact ⟨i, Nat.lt_succ_of_lt hi, hx, hbefore⟩
      · refine ⟨k, Nat.lt_succ_self k, hx, fun j hj => ?_⟩
        exact List.findSome?_eq_none_iff.1 hnone j (List.mem_range.2 hj)
    · rintro ⟨i, hi, hx, hbefore⟩
      rcases Nat.lt_succ_iff_lt_or_eq.1 hi with hi | rfl
      · exact .inl ⟨i, hi, hx, hbefore⟩
      · refine .inr ⟨List.findSome?_eq_none_iff.2 fun j hj => ?_, hx⟩
        exact hbefore j (List.mem_range.1 hj)

theorem fault?_eq_some : fault? nodes root = some e ↔ FirstFault nodes root e := by
  rw [fault?]
  by_cases hempty : nodes.size = 0
  · rw [if_pos hempty]
    refine ⟨fun h => Option.some.inj h ▸ .empty hempty, fun h => ?_⟩
    cases h with
    | empty => rfl
    | root | node => omega
  rw [if_neg hempty]
  by_cases hroot : nodes.size ≤ root
  · rw [if_pos hroot]
    refine ⟨fun h => Option.some.inj h ▸ .root (by omega) hroot, fun h => ?_⟩
    cases h with
    | empty => omega
    | root => rfl
    | node => omega
  · rw [if_neg hroot, findSome?_range_eq_some]
    constructor
    · rintro ⟨i, hi, hfault, hbefore⟩
      obtain ⟨n, hn, hfault⟩ := Option.bind_eq_some_iff.1 hfault
      refine .node (Nat.lt_of_not_le hroot) hn (fun j hj m hm => ?_)
        ((nodeFault?_eq_some hi).1 hfault)
      have hnone := hbefore j hj
      rw [hm] at hnone
      exact nodeFault?_eq_none.1 hnone
    · intro h
      cases h with
      | empty | root => omega
      | @node i n _ _ hn hbefore h =>
        have hi := (Array.getElem?_eq_some_iff.1 hn).1
        refine ⟨i, hi, ?_, fun j hj => ?_⟩
        · rw [hn]
          exact (nodeFault?_eq_some hi).2 h
        · have hm := Array.getElem?_eq_getElem (Nat.lt_trans hj hi)
          rw [hm]
          exact nodeFault?_eq_none.2 (hbefore j hj _ hm)

/-- A list of nodes is refused for its first fault. -/
theorem ofNodes?_eq_error : ofNodes? nodes root = .error e ↔ FirstFault nodes root e := by
  rw [← fault?_eq_some, ofNodes?]
  split
  · rename_i e' h
    rw [h, Except.error.injEq, Option.some.injEq]
  · rename_i h
    simp [h]

/-- A list of nodes that makes a schema, makes one of just these nodes. -/
theorem ofNodes?_eq_ok {s : Schema} :
    ofNodes? nodes root = .ok s ↔ s.nodes = nodes ∧ s.root = root := by
  rw [ofNodes?]
  constructor
  · intro h
    split at h
    · cases h
    · cases h
      exact ⟨rfl, rfl⟩
  · rintro ⟨rfl, rfl⟩
    split
    · rename_i e h
      rw [wellFormed_iff_fault?.2 s.wellFormed] at h
      cases h
    · rfl

/-! ## Walking a schema -/

/-- `c` is a child of the node `id`. -/
def Child (s : Schema) (c id : Nat) : Prop := ∃ n, s.node? id = some n ∧ c ∈ n.children

/-- The nodes on the longest path down from a node, by recursion on its children. -/
def longest (s : Schema) (id : Nat) : Nat :=
  match h : s.node? id with
  | none => 0
  | some n => (n.children.attach.map fun c => s.longest c.val).foldl max 0 + 1
termination_by id
decreasing_by exact s.child_lt h c.property

/-- The pass that finds the heights, where a height that is looked for has to be there. -/
def heights? (nodes : Array Node) : Option (Array Nat) :=
  nodes.foldlM (fun hs n => do
    let below ← n.children.mapM (hs[·]?)
    return hs.push (below.foldl max 0 + 1)) #[]

/-- No node lies below itself, and all that lies below a node is there. The depth of the schema is
found without looking for a height that is not there; it is the length of the longest path down from
the root. -/
structure Walkable (s : Schema) : Prop where
  acyclic : ∀ id, ¬Relation.TransGen s.Child id id
  root : ∃ n, s.node? s.root = some n
  total : ∀ id n c, s.node? id = some n → Relation.TransGen s.Child c id →
    ∃ m, s.node? c = some m
  pass : heights? s.nodes = some (heights s.nodes)
  found : (heights s.nodes)[s.root]? = some s.depth
  depth_eq : s.depth = s.longest s.root
  reached : ∃ path, s.Path path ∧ path.length = s.depth
  bound : ∀ path, s.Path path → path.length ≤ s.depth

variable {s : Schema} {id c : Nat}

theorem lt_of_transGen (h : Relation.TransGen s.Child c id) : c < id := by
  induction h with
  | single h =>
    obtain ⟨n, hn, hc⟩ := h
    exact s.child_lt hn hc
  | tail _ h ih =>
    obtain ⟨n, hn, hc⟩ := h
    exact Nat.lt_trans ih (s.child_lt hn hc)

theorem node_of_transGen (h : Relation.TransGen s.Child c id) : ∃ n, s.node? c = some n := by
  induction h with
  | single h =>
    obtain ⟨n, hn, hc⟩ := h
    exact s.node_of_child hn hc
  | tail _ _ ih => exact ih

theorem longest_eq (hn : s.node? id = some n) :
    s.longest id = (n.children.map s.longest).foldl max 0 + 1 := by
  rw [longest]
  split
  · rename_i h
    rw [hn] at h
    cases h
  · rename_i h
    rw [hn, Option.some.injEq] at h
    subst h
    rw [List.attach_map_val]

/-- What the pass finds for a node is what the recursion finds. -/
theorem height_eq_longest (hn : s.node? id = some n) : s.height id = s.longest id := by
  induction id using Nat.strongRecOn generalizing n with
  | ind id ih =>
    rw [height_eq hn, longest_eq hn]
    congr 2
    refine List.map_congr_left fun c hc => ?_
    obtain ⟨m, hm⟩ := s.node_of_child hn hc
    exact ih c (s.child_lt hn hc) hm

/-- Down from the end of a path there is a way as long as that node is high. -/
theorem Path.exists_below {above : List Nat} (h : s.Path (id :: above)) :
    ∃ path, s.Path path ∧ path.length = above.length + s.height id := by
  induction id using Nat.strongRecOn generalizing above with
  | ind id ih =>
    obtain ⟨n, hn⟩ := h.node
    rw [height_eq hn]
    by_cases hleaf : n.children = []
    · refine ⟨id :: above, h, ?_⟩
      rw [hleaf]
      rfl
    · -- go on with a child that is as high as any
      have hne : n.children.map s.height ≠ [] := by simpa using hleaf
      obtain ⟨c, hc, hmax⟩ := List.mem_map.1 (List.max_mem hne)
      obtain ⟨path, hpath, hlength⟩ := ih c (s.child_lt hn hc) (h.child hn hc)
      refine ⟨path, hpath, ?_⟩
      rw [hlength, List.length_cons, List.foldl_max_eq_max hne, ← hmax, Nat.zero_max]
      omega

/-! ### The pass -/

theorem mapM_getElem? {hs : Array Nat} {cs : List Nat} (h : ∀ c ∈ cs, c < hs.size) :
    cs.mapM (hs[·]?) = some (cs.map fun c => hs.getD c 0) := by
  induction cs with
  | nil => rfl
  | cons c rest ih =>
    have hc := h c List.mem_cons_self
    rw [List.mapM_cons, ih fun c hc => h c (List.mem_cons_of_mem _ hc), List.map_cons,
      Array.getElem?_eq_getElem hc, Array.getD_eq_getD_getElem?, Array.getElem?_eq_getElem hc]
    rfl

theorem foldlM_heights {ns : List Node} {hs : Array Nat}
    (h : ∀ i n, ns[i]? = some n → ∀ c ∈ n.children, c < hs.size + i) :
    (ns.foldlM (fun hs n => do
      let below ← n.children.mapM (hs[·]?)
      return hs.push (below.foldl max 0 + 1)) hs : Option (Array Nat)) =
        some (ns.foldl (fun hs n =>
          hs.push ((n.children.map fun c => hs.getD c 0).foldl max 0 + 1)) hs) := by
  induction ns generalizing hs with
  | nil => rfl
  | cons n rest ih =>
    rw [List.foldlM_cons, mapM_getElem? (h 0 n rfl), List.foldl_cons]
    refine ih fun i m hm c hc => ?_
    have hlt := h (i + 1) m hm c hc
    rw [Array.size_push]
    omega

theorem heights?_eq (s : Schema) : heights? s.nodes = some (heights s.nodes) := by
  rw [heights?, heights, ← Array.foldlM_toList, ← Array.foldl_toList]
  refine foldlM_heights fun i n hn c hc => ?_
  rw [Array.getElem?_toList] at hn
  simpa using s.child_lt hn hc

theorem walkable (s : Schema) : s.Walkable where
  acyclic _ h := Nat.lt_irrefl _ (lt_of_transGen h)
  root := ⟨_, Array.getElem?_eq_getElem s.wellFormed.root_lt⟩
  total _ _ _ _ h := node_of_transGen h
  pass := s.heights?_eq
  found := by
    have hlt : s.root < (heights s.nodes).size :=
      (heights_spec s.nodes).1.symm ▸ s.wellFormed.root_lt
    rw [depth, Array.getD_eq_getD_getElem?, Array.getElem?_eq_getElem hlt, Option.getD_some]
  depth_eq := height_eq_longest (Array.getElem?_eq_getElem s.wellFormed.root_lt)
  reached := by
    obtain ⟨path, hpath, hlength⟩ := (Path.root (s := s)).exists_below
    exact ⟨path, hpath, hlength.trans (Nat.zero_add _)⟩
  bound _ h := h.length_le_depth

/-- A list of nodes is accepted exactly if it is not empty, its root is there, every child is below
its parent and no loop counts with a sign. Then it makes a schema of just these nodes, which can be
walked; else it is refused for its first fault. -/
theorem accepts (nodes : Array Node) (root : Nat) :
    ((∃ s, ofNodes? nodes root = .ok s) ↔
      nodes.size ≠ 0 ∧ root < nodes.size ∧ ∀ (i : Nat) (n : Node), nodes[i]? = some n →
        (∀ c ∈ n.children, c < i) ∧ ∀ kind ∈ n.count?, kind.signed = false) ∧
      (∀ s, ofNodes? nodes root = .ok s → s.nodes = nodes ∧ s.root = root ∧ s.Walkable) ∧
      ∀ e, ofNodes? nodes root = .error e ↔ FirstFault nodes root e := by
  refine ⟨⟨?_, ?_⟩, fun s h => ?_, fun e => ofNodes?_eq_error⟩
  · rintro ⟨s, h⟩
    obtain ⟨rfl, rfl⟩ := ofNodes?_eq_ok.1 h
    have hroot := s.wellFormed.root_lt
    exact ⟨by omega, hroot, s.wellFormed.fits⟩
  · rintro ⟨-, hroot, hfits⟩
    exact ⟨⟨nodes, root, hroot, hfits⟩, ofNodes?_eq_ok.2 ⟨rfl, rfl⟩⟩
  · obtain ⟨hnodes, hroot⟩ := ofNodes?_eq_ok.1 h
    exact ⟨hnodes, hroot, s.walkable⟩

end Schema

end Transcoder

import Transcoder.Proofs.Schema.Meaning

/-!
# How deep a schema is

The height of a node is the number of nodes on the longest path down from it. A node whose height
fits the limit on the nesting never exceeds it, so the limit is nothing to its meaning.

Results:
* `Schema.height_eq`: the height of a node from those of its children.
* `Schema.height_child`: the height of a child is below that of its parent.
* `Schema.transcodeWithin_of_height`, `Schema.transcodeAllWithin_of_depth`: limits that are high
  enough.
-/
namespace Transcoder

/-- The nodes on the longest path down from a node. -/
def Schema.height (s : Schema) (id : Nat) : Nat := (heights s.nodes).getD id 0

/-- The heights of the first `n` nodes: each is one higher than the highest of its children that
come before it. -/
def Heights (nodes : Array Node) (n : Nat) (hs : Array Nat) : Prop :=
  hs.size = n ∧ ∀ id node, id < n → nodes[id]? = some node →
    hs.getD id 0 =
      (node.children.map fun c => if c < id then hs.getD c 0 else 0).foldl max 0 + 1

theorem heights_spec (nodes : Array Node) : Heights nodes nodes.size (Schema.heights nodes) := by
  unfold Schema.heights
  refine Array.foldl_induction (Heights nodes) ⟨rfl, by simp⟩ ?_
  intro i hs h
  obtain ⟨hsize, hall⟩ := h
  obtain ⟨x, hx⟩ : ∃ x, x = (nodes[i].children.map fun c => hs.getD c 0).foldl max 0 := ⟨_, rfl⟩
  rw [← hx]
  -- the heights so far stay, and beyond them there are none yet
  have hold (c : Nat) (hc : c < i) : (hs.push (x + 1)).getD c 0 = hs.getD c 0 := by
    rw [Array.getD_eq_getD_getElem?, Array.getD_eq_getD_getElem?,
      Array.getElem?_push_lt (by omega), Array.getElem?_eq_getElem (by omega)]
  have hnone (c : Nat) (hc : ¬c < i) : hs.getD c 0 = 0 := by
    rw [Array.getD_eq_getD_getElem?, Array.getElem?_eq_none (by omega), Option.getD_none]
  have hnew : (hs.push (x + 1)).getD i 0 = x + 1 := by
    rw [Array.getD_eq_getD_getElem?, ← hsize, Array.getElem?_push_size]
    rfl
  refine ⟨by rw [Array.size_push, hsize], fun id node hid hn => ?_⟩
  by_cases hi : id = i
  · subst hi
    obtain rfl : nodes[i] = node := by
      rw [Array.getElem?_eq_getElem i.isLt] at hn
      exact Option.some.inj hn
    rw [hnew, hx]
    congr 2
    refine List.map_congr_left fun c _ => ?_
    by_cases hc : c < i
    · rw [if_pos hc, ← hx, hold c hc]
    · rw [if_neg hc, hnone c hc]
  · rw [hold id (by omega), hall id node (by omega) hn]
    congr 2
    refine List.map_congr_left fun c _ => ?_
    by_cases hc : c < id
    · rw [if_pos hc, if_pos hc, hold c (by omega)]
    · rw [if_neg hc, if_neg hc]

/-- A node is one higher than the highest of its children. -/
theorem Schema.height_eq {s : Schema} {id : Nat} {n : Node} (hn : s.node? id = some n) :
    s.height id = (n.children.map s.height).foldl max 0 + 1 := by
  have hi : id < s.nodes.size := (Array.getElem?_eq_some_iff.1 hn).1
  rw [height, (heights_spec s.nodes).2 id n hi hn]
  congr 2
  exact List.map_congr_left fun c hc => if_pos (s.child_lt hn hc)

theorem le_foldl_max {xs : List Nat} {x : Nat} (h : x ∈ xs) : x ≤ xs.foldl max 0 := by
  rw [List.foldl_max_eq_max (List.ne_nil_of_mem h)]
  exact Nat.le_trans (List.le_max_of_mem h) (Nat.le_max_right ..)

/-- The height of a child is below that of its parent. -/
theorem Schema.height_child {s : Schema} {id c : Nat} {n : Node} (hn : s.node? id = some n)
    (hc : c ∈ n.children) : s.height c < s.height id := by
  rw [height_eq hn]
  exact Nat.lt_succ_of_le (le_foldl_max (List.mem_map_of_mem hc))

theorem Schema.height_pos {s : Schema} {id : Nat} {n : Node} (hn : s.node? id = some n) :
    0 < s.height id := by
  rw [height_eq hn]
  exact Nat.succ_pos _

/-- A child is a node. -/
theorem Schema.node_of_child (s : Schema) {id c : Nat} {n : Node} (hn : s.node? id = some n)
    (hc : c ∈ n.children) : ∃ n', s.node? c = some n' := by
  have hi : id < s.nodes.size := (Array.getElem?_eq_some_iff.1 hn).1
  have hlt := s.child_lt hn hc
  exact ⟨s.nodes[c], Array.getElem?_eq_getElem (by omega)⟩

theorem Meaning.within_of_lt {limit k : Nat} (h : k < limit) (f : Meaning) :
    within limit k f = f := funext fun _ => if_pos h

/-- A node that fits the limit means what it means without one. -/
theorem Schema.transcodeWithin_of_height (s : Schema) (framing : Framing) (input : List UInt8)
    {limit k id : Nat} (h : k + s.height id ≤ limit) :
    s.transcodeWithin framing input limit k id = s.transcode framing input id := by
  induction id using Nat.strongRecOn generalizing k with
  | ind id ih =>
    cases hn : s.node? id with
    | none => rw [transcodeWithin_none hn, transcode_none hn]
    | some n =>
      have hpos := height_pos hn
      have hk : k < limit := by omega
      have hchild (c : Nat) (hc : c ∈ n.children) :
          s.transcodeChild framing input limit k c = s.transcode framing input c := by
        have hlt := height_child hn hc
        obtain ⟨n', hn'⟩ := s.node_of_child hn hc
        have := height_pos hn'
        rw [transcodeChild, Meaning.within_of_lt (by omega), ih c (s.child_lt hn hc) (by omega)]
      rw [transcodeWithin_eq hn, transcode_eq hn]
      cases n with
      | value | action | unknown => rfl
      | sequence children =>
        simp only [Meaning.within_of_lt hk]
        exact congrArg Meaning.inOrder (List.map_congr_left hchild)
      | loop count body =>
        simp only [Meaning.within_of_lt hk, hchild body (List.mem_singleton_self _)]
      | block body => simp only [hchild body (List.mem_singleton_self _)]
      | untilEof body =>
        simp only [Meaning.within_of_lt hk, hchild body (List.mem_singleton_self _)]

/-- And so does a schema. -/
theorem Schema.transcodeAllWithin_of_depth (s : Schema) (config : Config) (input : List UInt8)
    (h : s.depth ≤ config.maxNesting) :
    s.transcodeAllWithin config input = s.transcodeAll config input := by
  have hroot : 0 + s.height s.root ≤ config.maxNesting := by rwa [Nat.zero_add]
  rw [transcodeAllWithin, transcodeAll, s.transcodeWithin_of_height config.framing input hroot]

end Transcoder

import Transcoder.Manifest
import Transcoder.Proofs.Schema.Accepting

/-!
# The schema of a tree

A tree is built children first, each node right after the trees below it. So the list of the nodes
is the list of the trees that they stand for, and a node's children are looked up in what is there
already. Names are looked at on the way down, before the nodes below are built.

Results:
* `Outline.building_build`: what one more tree does to a list of nodes that stand for trees.
* `Schema.Stands.outline?_eq`, `Schema.Stands.height_eq`: what a node stands for can be read off the
  schema, and is as high as its node.
* `Outline.schema_spec`: which trees make a schema, what it is, and the fault of the others.
-/
namespace Transcoder

theorem IntKind.name_of_ofName? {s : String} {k : IntKind} (h : ofName? s = some k) :
    k.name = s := by
  simpa using List.find?_some h

theorem IntKind.ofName?_name (k : IntKind) : ofName? k.name = some k := by
  cases k <;> rfl

/-! ## Trees -/

namespace Outline

/-- The trees right below. -/
def children : Outline → List Outline
  | value _ | action _ => []
  | sequence children => children
  | loop _ body | block body | untilEof body => [body]

/-- The name of a kind that stands at the top of the tree. -/
def kindName? : Outline → Option String
  | value kind => some kind
  | loop count _ => some count
  | _ => none

/-- The kind that a loop at the top of the tree counts with. -/
def count? : Outline → Option IntKind
  | loop count _ => IntKind.ofName? count
  | _ => none

variable {t c : Outline}

theorem sizeOf_child (h : c ∈ t.children) : sizeOf c < sizeOf t := by
  cases t with
  | value | action => cases h
  | sequence children =>
    have hlt : sizeOf c < sizeOf children := List.sizeOf_lt_of_mem h
    simp only [sequence.sizeOf_spec]
    omega
  | loop | block | untilEof =>
    cases List.mem_singleton.1 h
    simp only [loop.sizeOf_spec, block.sizeOf_spec, untilEof.sizeOf_spec]
    omega

/-- What holds of a tree if it holds of the trees right below, holds of every tree. -/
theorem of_children {motive : Outline → Prop}
    (h : ∀ t : Outline, (∀ c ∈ t.children, motive c) → motive t) (t : Outline) : motive t :=
  h t fun c _ => of_children h c
termination_by sizeOf t
decreasing_by exact sizeOf_child ‹_›

/-- The tree and all below, each after what is below it. -/
def postOrder (t : Outline) : List Outline :=
  (t.children.attach.flatMap fun c => c.val.postOrder) ++ [t]
termination_by sizeOf t
decreasing_by exact sizeOf_child c.property

/-- The names of kinds in a tree, the one at the top first. -/
def kindNames (t : Outline) : List String :=
  t.kindName?.toList ++ t.children.attach.flatMap fun c => c.val.kindNames
termination_by sizeOf t
decreasing_by exact sizeOf_child c.property

/-- The trees on the longest way down. -/
def height (t : Outline) : Nat :=
  (t.children.attach.map fun c => c.val.height).foldl max 0 + 1
termination_by sizeOf t
decreasing_by exact sizeOf_child c.property

theorem postOrder_eq (t : Outline) : t.postOrder = t.children.flatMap postOrder ++ [t] := by
  rw [postOrder, List.flatMap_def, List.attach_map_val, ← List.flatMap_def]

theorem kindNames_eq (t : Outline) :
    t.kindNames = t.kindName?.toList ++ t.children.flatMap kindNames := by
  rw [kindNames, List.flatMap_def, List.attach_map_val, ← List.flatMap_def]

theorem height_eq (t : Outline) : t.height = (t.children.map height).foldl max 0 + 1 := by
  rw [height, List.attach_map_val]

end Outline

/-! ## Nodes that stand for trees -/

/-- The tree that a node stands for if its children stand for `below`. -/
def Node.over? : Node → List Outline → Option Outline
  | value kind, [] => some (.value kind.name)
  | action id, [] => some (.action id)
  | sequence _, below => some (.sequence below)
  | loop count _, [body] => some (.loop count.name body)
  | block _, [body] => some (.block body)
  | untilEof _, [body] => some (.untilEof body)
  | _, _ => none

/-- The tree that a node of a schema stands for. -/
def Schema.outline? (s : Schema) (id : Nat) : Option Outline :=
  match _h : s.node? id with
  | none => none
  | some n => (n.children.attach.mapM fun c => s.outline? c.val).bind n.over?
termination_by id
decreasing_by exact s.child_lt _h c.property

theorem Schema.outline?_eq (s : Schema) (id : Nat) :
    s.outline? id = (s.node? id).bind fun n => (n.children.mapM s.outline?).bind n.over? := by
  rw [outline?]
  split
  · rename_i h
    rw [h, Option.bind_none]
  · rename_i n h
    rw [h, Option.bind_some, List.mapM_subtype (fun _ _ => rfl), List.unattach_attach]

/-- Node `n` stands for tree `t`, where what its children stand for is looked up in `trees`. -/
structure Node.Heads (trees : List Outline) (n : Node) (t : Outline) : Prop where
  headed : n.over? t.children = some t
  below : n.children.map (trees[·]?) = t.children.map some

/-- Each of the nodes stands for the tree at its place, its children being among those before. -/
structure Stand (nodes : Array Node) (trees : List Outline) : Prop where
  size : nodes.size = trees.length
  heads : ∀ (i : Nat) (n : Node) (t : Outline), nodes[i]? = some n → trees[i]? = some t →
    n.Heads (trees.take i) t

theorem mapM_eq_some {α β : Type} {f : α → Option β} {xs : List α} {ys : List β}
    (h : xs.map f = ys.map some) : xs.mapM f = some ys := by
  induction xs generalizing ys with
  | nil =>
    cases ys with
    | nil => rfl
    | cons => cases h
  | cons x xs ih =>
    cases ys with
    | nil => cases h
    | cons y ys =>
      rw [List.map_cons, List.map_cons, List.cons.injEq] at h
      rw [List.mapM_cons, h.1, ih h.2]
      rfl

namespace Node.Heads

variable {trees : List Outline} {n : Node} {t : Outline} {c : Nat}

/-- What is looked up for a child is right below. -/
theorem child (h : n.Heads trees t) (hc : c ∈ n.children) : ∃ u, trees[c]? = some u := by
  have hmem : trees[c]? ∈ t.children.map some := h.below ▸ List.mem_map_of_mem hc
  obtain ⟨u, -, hu⟩ := List.mem_map.1 hmem
  exact ⟨u, hu.symm⟩

theorem child_lt (h : n.Heads trees t) (hc : c ∈ n.children) : c < trees.length := by
  obtain ⟨u, hu⟩ := h.child hc
  exact (List.getElem?_eq_some_iff.1 hu).1

/-- What holds of every child and its tree holds of all in order. -/
theorem map_children {α : Type} {f : Nat → α} {g : Outline → α} (h : n.Heads trees t)
    (hfg : ∀ c ∈ n.children, ∀ u, trees[c]? = some u → f c = g u) :
    n.children.map f = t.children.map g := by
  have hbelow := h.below
  generalize n.children = cs at hbelow hfg
  generalize t.children = ts at hbelow
  induction cs generalizing ts with
  | nil =>
    cases ts with
    | nil => rfl
    | cons => cases hbelow
  | cons c cs ih =>
    cases ts with
    | nil => cases hbelow
    | cons u ts =>
      rw [List.map_cons, List.map_cons, List.cons.injEq] at hbelow
      rw [List.map_cons, List.map_cons, hfg c List.mem_cons_self u hbelow.1,
        ih (fun c hc => hfg c (List.mem_cons_of_mem _ hc)) ts hbelow.2]

/-- The loop at the top counts with the kind of that name. -/
theorem count?_eq (h : n.Heads trees t) : n.count? = t.count? := by
  have hover := h.headed
  generalize t.children = below at hover
  unfold over? at hover
  split at hover <;> cases hover
  case h_4 => exact (IntKind.ofName?_name _).symm
  all_goals rfl

/-- A node whose children come before it fits its place, unless it counts with a sign. -/
theorem fits_iff {i : Nat} (h : n.Heads (trees.take i) t) :
    n.Fits i ↔ ∀ kind ∈ t.count?, kind.signed = false := by
  rw [Node.Fits, h.count?_eq, and_iff_right_iff_imp]
  intro _ c hc
  have hlt := h.child_lt hc
  rw [List.length_take] at hlt
  omega

end Node.Heads

namespace Stand

variable {nodes : Array Node} {trees : List Outline} {n : Node} {t : Outline}

theorem empty : Stand #[] [] := ⟨rfl, by simp⟩

/-- One more node, for a tree of which what is right below is there. -/
theorem push (h : Stand nodes trees) (hn : n.Heads trees t) :
    Stand (nodes.push n) (trees ++ [t]) := by
  refine ⟨by simp [h.size], fun i m u hm hu => ?_⟩
  have hi : i < nodes.size + 1 := Array.size_push n ▸ (Array.getElem?_eq_some_iff.1 hm).1
  have hsize := h.size
  rw [List.take_append_of_le_length (by omega)]
  rcases Nat.lt_succ_iff_lt_or_eq.1 hi with hi | rfl
  · rw [Array.getElem?_push_lt hi, ← Array.getElem?_eq_getElem hi] at hm
    rw [List.getElem?_append_left (by omega)] at hu
    exact h.heads i m u hm hu
  · rw [Array.getElem?_push_size] at hm
    rw [hsize, List.getElem?_concat_length] at hu
    cases hm
    cases hu
    rwa [hsize, List.take_length]

end Stand

/-! ## Building -/

namespace Outline

/-- The first of the names that no kind has. -/
def unknown? (names : List String) : Option String :=
  names.find? fun name => (IntKind.ofName? name).isNone

/-- What building comes to: the names are looked at first, and if all are known, then the nodes
stand for the trees. -/
inductive Building {α : Type} (names : List String) (trees : List Outline) (good : α → Prop) :
    Except ManifestError (Array Node × α) → Prop
  | unknown {name : String} (h : unknown? names = some name) :
    Building names trees good (.error (.unknownKind name))
  | built {nodes : Array Node} {x : α} (h : unknown? names = none) (hs : Stand nodes trees)
    (hx : good x) : Building names trees good (.ok (nodes, x))

/-- Building a tree is looking up its name, building what is right below and adding one node. -/
inductive Builds (nodes : Array Node) (t : Outline) : Except ManifestError (Array Node × Nat) → Prop
  | unknown {name : String} (h : unknown? t.kindName?.toList = some name) :
    Builds nodes t (.error (.unknownKind name))
  | below {e : ManifestError} (h : unknown? t.kindName?.toList = none)
    (hall : buildAll nodes t.children = .error e) : Builds nodes t (.error e)
  | push {mid : Array Node} {n : Node} (h : unknown? t.kindName?.toList = none)
    (hall : buildAll nodes t.children = .ok (mid, n.children))
    (hover : n.over? t.children = some t) : Builds nodes t (.ok (mid.push n, mid.size))

theorem kindOf_spec (name : String) :
    (∃ kind, kindOf name = .ok kind ∧ kind.name = name ∧ unknown? [name] = none) ∨
      kindOf name = .error (.unknownKind name) ∧ unknown? [name] = some name := by
  rw [kindOf]
  cases h : IntKind.ofName? name with
  | none => exact .inr ⟨rfl, by simp [unknown?, h]⟩
  | some kind => exact .inl ⟨kind, rfl, IntKind.name_of_ofName? h, by simp [unknown?, h]⟩

theorem buildAll_of_error {nodes : Array Node} {t : Outline} {e : ManifestError}
    (h : build nodes t = .error e) (rest : List Outline) :
    buildAll nodes (t :: rest) = .error e := by
  rw [buildAll, h]
  rfl

theorem buildAll_of_ok {nodes mid : Array Node} {t : Outline} {id : Nat}
    (h : build nodes t = .ok (mid, id)) (rest : List Outline) :
    buildAll nodes (t :: rest) = (buildAll mid rest).map fun p => (p.1, id :: p.2) := by
  rw [buildAll, h]
  change (buildAll mid rest >>= _) = _
  cases buildAll mid rest <;> rfl

theorem builds_build (nodes : Array Node) (t : Outline) : Builds nodes t (build nodes t) := by
  cases t with
  | value kind =>
    rw [build]
    obtain ⟨k, hk, rfl, hnone⟩ | ⟨hk, hsome⟩ := kindOf_spec kind
    · rw [hk]
      exact .push (n := .value k) hnone rfl rfl
    · rw [hk]
      exact .unknown hsome
  | action id => exact .push (n := .action id) rfl rfl rfl
  | sequence children =>
    rw [build]
    cases hall : buildAll nodes children with
    | error e => exact .below rfl hall
    | ok p => exact .push (n := .sequence p.2) rfl hall rfl
  | loop count body =>
    rw [build]
    obtain ⟨k, hk, rfl, hnone⟩ | ⟨hk, hsome⟩ := kindOf_spec count
    · rw [hk]
      cases hbody : build nodes body with
      | error e => exact .below hnone (buildAll_of_error hbody [])
      | ok p => exact .push (n := .loop k p.2) hnone (buildAll_of_ok hbody []) rfl
    · rw [hk]
      exact .unknown hsome
  | block body =>
    rw [build]
    cases hbody : build nodes body with
    | error e => exact .below rfl (buildAll_of_error hbody [])
    | ok p => exact .push (n := .block p.2) rfl (buildAll_of_ok hbody []) rfl
  | untilEof body =>
    rw [build]
    cases hbody : build nodes body with
    | error e => exact .below rfl (buildAll_of_error hbody [])
    | ok p => exact .push (n := .untilEof p.2) rfl (buildAll_of_ok hbody []) rfl

/-- Building a tree adds it and all below, and its node is last. -/
abbrev Built (t : Outline) : Prop :=
  ∀ {nodes : Array Node} {trees : List Outline}, Stand nodes trees →
    Building t.kindNames (trees ++ t.postOrder)
      (fun id => id + 1 = (trees ++ t.postOrder).length) (build nodes t)

theorem getElem?_postOrder {trees : List Outline} {t : Outline} {id : Nat}
    (h : id + 1 = (trees ++ t.postOrder).length) : (trees ++ t.postOrder)[id]? = some t := by
  rw [postOrder_eq, ← List.append_assoc] at h ⊢
  rw [List.length_append, List.length_singleton, Nat.add_right_cancel_iff] at h
  rw [h, List.getElem?_concat_length]

theorem unknown?_append (xs ys : List String) :
    unknown? (xs ++ ys) = (unknown? xs).or (unknown? ys) :=
  List.find?_append

/-- So do trees, one after the other, and the numbers are those of their nodes. -/
theorem building_buildAll {ts : List Outline} (hts : ∀ t ∈ ts, t.Built) {nodes : Array Node}
    {trees : List Outline} (h : Stand nodes trees) :
    Building (ts.flatMap kindNames) (trees ++ ts.flatMap postOrder)
      (fun ids => ids.map ((trees ++ ts.flatMap postOrder)[·]?) = ts.map some)
      (buildAll nodes ts) := by
  induction ts generalizing nodes trees with
  | nil =>
    rw [buildAll]
    exact .built rfl (by simpa using h) rfl
  | cons t rest ih =>
    have hfirst := hts t List.mem_cons_self h
    rw [List.flatMap_cons, List.flatMap_cons, ← List.append_assoc]
    generalize hb : build nodes t = r at hfirst
    cases hfirst with
    | unknown hname =>
      rw [buildAll_of_error hb]
      exact .unknown (by rw [unknown?_append, hname]; rfl)
    | @built mid id hnone hs hid =>
      rw [buildAll_of_ok hb]
      have hrest := ih (fun t ht => hts t (List.mem_cons_of_mem _ ht)) hs
      generalize buildAll mid rest = r at hrest
      cases hrest with
      | unknown hname => exact .unknown (by rw [unknown?_append, hnone, hname]; rfl)
      | @built nodes' ids hnone' hs' hids =>
        refine .built (by rw [unknown?_append, hnone, hnone']; rfl) hs' ?_
        have hlt : id < (trees ++ t.postOrder).length := by omega
        rw [List.map_cons, List.map_cons, hids, List.getElem?_append_left hlt,
          getElem?_postOrder hid]

theorem building_build (t : Outline) : t.Built := by
  induction t using of_children with
  | h t ih =>
    intro nodes trees h
    have hall := building_buildAll ih h
    have hstep := builds_build nodes t
    rw [kindNames_eq, postOrder_eq, ← List.append_assoc]
    generalize build nodes t = r at hstep
    cases hstep with
    | unknown hname => exact .unknown (by rw [unknown?_append, hname]; rfl)
    | below hnone he =>
      rw [he] at hall
      cases hall with
      | unknown hname => exact .unknown (by rw [unknown?_append, hnone, hname]; rfl)
    | push hnone hok hover =>
      rw [hok] at hall
      cases hall with
      | built hnone' hs hids =>
        refine .built (by rw [unknown?_append, hnone, hnone']; rfl) (hs.push ⟨hover, hids⟩) ?_
        rw [List.length_append, ← hs.size]
        rfl

end Outline

/-! ## Reading a schema -/

namespace Stand

variable {s : Schema} {nodes : Array Node} {trees : List Outline} {n : Node} {t : Outline}
  {id root : Nat}

theorem node (h : Stand s.nodes trees) (ht : trees[id]? = some t) :
    ∃ n, s.node? id = some n ∧ n.Heads (trees.take id) t := by
  have hid := (List.getElem?_eq_some_iff.1 ht).1
  have hn := Array.getElem?_eq_getElem (h.size ▸ hid : id < s.nodes.size)
  exact ⟨_, hn, h.heads id _ t hn ht⟩

/-- What a node stands for can be read off the schema. -/
theorem outline?_eq (h : Stand s.nodes trees) (id : Nat) : s.outline? id = trees[id]? := by
  induction id using Nat.strongRecOn with
  | ind id ih =>
    rw [s.outline?_eq]
    cases ht : trees[id]? with
    | none =>
      have hn : s.node? id = none :=
        Array.getElem?_eq_none (h.size ▸ List.getElem?_eq_none_iff.1 ht)
      rw [hn, Option.bind_none]
    | some t =>
      obtain ⟨n, hn, hheads⟩ := h.node ht
      have hall : n.children.map s.outline? = t.children.map some := by
        refine hheads.map_children fun c hc u hu => ?_
        have hlt := s.child_lt hn hc
        rw [ih c hlt, ← List.getElem?_take_of_lt hlt, hu]
      rw [hn, Option.bind_some, mapM_eq_some hall, Option.bind_some, hheads.headed]

/-- And it is as high as its node. -/
theorem height_eq (h : Stand s.nodes trees) (ht : trees[id]? = some t) :
    s.height id = t.height := by
  induction id using Nat.strongRecOn generalizing t with
  | ind id ih =>
    obtain ⟨n, hn, hheads⟩ := h.node ht
    rw [Schema.height_eq hn, Outline.height_eq, hheads.map_children fun c hc u hu => ?_]
    have hlt := s.child_lt hn hc
    rw [List.getElem?_take_of_lt hlt] at hu
    exact ih c hlt hu

end Stand

namespace Outline

variable {tree : Outline} {s : Schema} {e : ManifestError}

/-- Why a tree makes no schema: the first name that no kind has, the top of a tree before what is
below it, or if there is none, the first loop that counts with a sign, as the nodes are built. -/
inductive FirstFault (tree : Outline) : ManifestError → Prop
  | unknown {before after : List String} {name : String}
    (h : tree.kindNames = before ++ name :: after)
    (hbefore : ∀ b ∈ before, ∃ kind, IntKind.ofName? b = some kind)
    (hname : IntKind.ofName? name = none) : FirstFault tree (.unknownKind name)
  | count {before after : List Outline} {t : Outline} {kind : IntKind}
    (hnames : ∀ name ∈ tree.kindNames, ∃ kind, IntKind.ofName? name = some kind)
    (h : tree.postOrder = before ++ t :: after)
    (hbefore : ∀ b ∈ before, ∀ kind ∈ b.count?, kind.signed = false)
    (hk : t.count? = some kind) (hs : kind.signed = true) :
    FirstFault tree (.schema (.signedCount kind))

/-- The schema has one node for each part of the tree, children first, and reads as the tree. -/
structure Drawn (tree : Outline) (s : Schema) : Prop where
  size : s.size = tree.postOrder.length
  outlines : ∀ id : Nat, s.outline? id = tree.postOrder[id]?
  last : s.root + 1 = s.size
  root : s.outline? s.root = some tree
  depth : s.depth = tree.height

theorem unknown?_eq_none {names : List String} :
    unknown? names = none ↔ ∀ name ∈ names, ∃ kind, IntKind.ofName? name = some kind := by
  simp [unknown?, Option.ne_none_iff_exists']

theorem unknown?_eq_some {names : List String} {name : String} :
    unknown? names = some name ↔ IntKind.ofName? name = none ∧ ∃ before after,
      names = before ++ name :: after ∧ ∀ b ∈ before, ∃ kind, IntKind.ofName? b = some kind := by
  simp [unknown?, List.find?_eq_some_iff_append, Option.isSome_iff_exists]

theorem schema_of_unknown {name : String} (h : unknown? tree.kindNames = some name) :
    tree.schema = .error (.unknownKind name) := by
  have hb := building_build tree .empty
  generalize hr : build #[] tree = r at hb
  cases hb with
  | unknown hname =>
    cases h.symm.trans hname
    rw [schema, hr]
    rfl
  | built hnone =>
    rw [h] at hnone
    cases hnone

theorem schema_of_known (h : unknown? tree.kindNames = none) :
    ∃ nodes root, Stand nodes tree.postOrder ∧ root + 1 = tree.postOrder.length ∧
      tree.schema = (Schema.ofNodes? nodes root).mapError .schema := by
  have hb := building_build tree .empty
  generalize hr : build #[] tree = r at hb
  cases hb with
  | unknown hname =>
    rw [h] at hname
    cases hname
  | @built nodes root _ hs hroot =>
    refine ⟨nodes, root, hs, hroot, ?_⟩
    rw [schema, hr]
    rfl

end Outline

namespace Stand

variable {nodes : Array Node} {trees : List Outline} {root : Nat} {e : SchemaError}

theorem fits_iff {i : Nat} {n : Node} {t : Outline} (h : Stand nodes trees)
    (hn : nodes[i]? = some n) (ht : trees[i]? = some t) :
    n.Fits i ↔ ∀ kind ∈ t.count?, kind.signed = false :=
  (h.heads i n t hn ht).fits_iff

/-- The first nodes fit their places if none of their trees counts with a sign. -/
theorem fits_take_iff {k : Nat} (h : Stand nodes trees) :
    (∀ i < k, ∀ n, nodes[i]? = some n → n.Fits i) ↔
      ∀ t ∈ trees.take k, ∀ kind ∈ t.count?, kind.signed = false := by
  constructor
  · intro hfits t ht
    obtain ⟨i, hi, rfl⟩ := List.mem_iff_getElem.1 ht
    rw [List.length_take] at hi
    have hn := Array.getElem?_eq_getElem (h.size ▸ (by omega : i < trees.length))
    rw [List.getElem_take]
    exact (h.fits_iff hn (List.getElem?_eq_getElem _)).1 (hfits i (by omega) _ hn)
  · intro hall i hi n hn
    have hlt : i < trees.length := h.size ▸ (Array.getElem?_eq_some_iff.1 hn).1
    refine (h.fits_iff hn (List.getElem?_eq_getElem hlt)).2 (hall _ ?_)
    exact List.mem_take_iff_getElem.2 ⟨i, by omega, rfl⟩

theorem wellFormed_iff (h : Stand nodes trees) (hroot : root < trees.length) :
    Schema.WellFormed nodes root ↔ ∀ t ∈ trees, ∀ kind ∈ t.count?, kind.signed = false := by
  have hall := h.fits_take_iff (k := trees.length)
  rw [List.take_length] at hall
  rw [← hall]
  refine ⟨fun hw i _ => hw.fits i, fun hfits => ⟨h.size ▸ hroot, fun i n hn => ?_⟩⟩
  exact hfits i (h.size ▸ (Array.getElem?_eq_some_iff.1 hn).1) n hn

/-- Nodes that stand for trees are refused for nothing but the first count with a sign. -/
theorem firstFault_iff (h : Stand nodes trees) (hroot : root < trees.length) :
    Schema.FirstFault nodes root e ↔ ∃ before t after kind, trees = before ++ t :: after ∧
      (∀ b ∈ before, ∀ kind ∈ b.count?, kind.signed = false) ∧ t.count? = some kind ∧
      kind.signed = true ∧ e = .signedCount kind := by
  have hsize := h.size
  constructor
  · intro hf
    cases hf with
    | empty | root => omega
    | @node i n _ _ hn hbefore hf =>
      have hi : i < trees.length := hsize ▸ (Array.getElem?_eq_some_iff.1 hn).1
      have hheads := h.heads i n trees[i] hn (List.getElem?_eq_getElem hi)
      have hbelow (c : Nat) (hc : c ∈ n.children) : c < i := by
        have hlt := hheads.child_lt hc
        rw [List.length_take] at hlt
        omega
      cases hf with
      | @unknown _ _ c hchildren _ hle =>
        have := hbelow c (hchildren ▸ List.mem_append_right _ List.mem_cons_self)
        omega
      | @forward _ _ c hchildren _ hle =>
        have := hbelow c (hchildren ▸ List.mem_append_right _ List.mem_cons_self)
        omega
      | count _ hk hs =>
        refine ⟨trees.take i, trees[i], trees.drop (i + 1), _, ?_, h.fits_take_iff.1 hbefore,
          hheads.count?_eq ▸ hk, hs, rfl⟩
        rw [List.getElem_cons_drop, List.take_append_drop]
  · rintro ⟨before, t, after, kind, rfl, hbefore, hk, hs, rfl⟩
    have ht : (before ++ t :: after)[before.length]? = some t := by
      rw [List.getElem?_append_right (Nat.le_refl _), Nat.sub_self, List.getElem?_cons_zero]
    have hlt : before.length < nodes.size := by
      rw [hsize, List.length_append, List.length_cons]
      omega
    have hn := Array.getElem?_eq_getElem hlt
    have hheads := h.heads _ _ t hn ht
    refine .node (hsize ▸ hroot) hn (h.fits_take_iff.2 ?_) (.count ?_ (hheads.count?_eq ▸ hk) hs)
    · rwa [List.take_left]
    · intro c hc
      have := hheads.child_lt hc
      rwa [List.take_left] at this

end Stand

namespace Outline

variable {tree : Outline} {s : Schema}

theorem Drawn.of_stand (h : Stand s.nodes tree.postOrder)
    (hroot : s.root + 1 = tree.postOrder.length) : tree.Drawn s := by
  have htree : tree.postOrder[s.root]? = some tree := by
    have hroot : s.root + 1 = ([] ++ tree.postOrder).length := hroot
    exact getElem?_postOrder hroot
  exact {
    size := h.size
    outlines := h.outline?_eq
    last := hroot.trans h.size.symm
    root := (h.outline?_eq _).trans htree
    depth := h.height_eq htree }

theorem schema_eq_error (tree : Outline) {e : ManifestError} :
    tree.schema = .error e ↔ tree.FirstFault e := by
  cases hnames : unknown? tree.kindNames with
  | some name =>
    obtain ⟨hname, before, after, hsplit, hbefore⟩ := unknown?_eq_some.1 hnames
    rw [schema_of_unknown hnames, Except.error.injEq]
    constructor
    · rintro rfl
      exact .unknown hsplit hbefore hname
    · intro h
      cases h with
      | unknown h hbefore hname =>
        have hfirst := unknown?_eq_some.2 ⟨hname, _, _, h, hbefore⟩
        rw [hnames, Option.some.injEq] at hfirst
        rw [hfirst]
      | count hall =>
        rw [unknown?_eq_none.2 hall] at hnames
        cases hnames
  | none =>
    obtain ⟨nodes, root, hs, hroot, hschema⟩ := schema_of_known hnames
    have hlt : root < tree.postOrder.length := by omega
    constructor
    · intro h
      rw [hschema] at h
      cases hof : Schema.ofNodes? nodes root with
      | ok s =>
        rw [hof] at h
        cases h
      | error e' =>
        rw [hof] at h
        cases h
        obtain ⟨before, t, after, kind, hsplit, hbefore, hk, hsigned, rfl⟩ :=
          (hs.firstFault_iff hlt).1 (Schema.ofNodes?_eq_error.1 hof)
        exact .count (unknown?_eq_none.1 hnames) hsplit hbefore hk hsigned
    · intro h
      cases h with
      | unknown h hbefore hname =>
        rw [unknown?_eq_some.2 ⟨hname, _, _, h, hbefore⟩] at hnames
        cases hnames
      | count _ h hbefore hk hsigned =>
        have hfault := (hs.firstFault_iff hlt).2 ⟨_, _, _, _, h, hbefore, hk, hsigned, rfl⟩
        rw [hschema, Schema.ofNodes?_eq_error.2 hfault]
        rfl

theorem drawn_of_schema (h : tree.schema = .ok s) :
    (∀ name ∈ tree.kindNames, ∃ kind, IntKind.ofName? name = some kind) ∧
      (∀ t ∈ tree.postOrder, ∀ kind ∈ t.count?, kind.signed = false) ∧ tree.Drawn s := by
  cases hnames : unknown? tree.kindNames with
  | some name =>
    rw [schema_of_unknown hnames] at h
    cases h
  | none =>
    obtain ⟨nodes, root, hs, hroot, hschema⟩ := schema_of_known hnames
    rw [hschema] at h
    cases hof : Schema.ofNodes? nodes root with
    | error e =>
      rw [hof] at h
      cases h
    | ok s' =>
      rw [hof] at h
      cases h
      obtain ⟨rfl, rfl⟩ := Schema.ofNodes?_eq_ok.1 hof
      refine ⟨unknown?_eq_none.1 hnames, ?_, .of_stand hs hroot⟩
      exact (hs.wellFormed_iff (by omega)).1 s.wellFormed

theorem exists_schema (hnames : ∀ name ∈ tree.kindNames, ∃ kind, IntKind.ofName? name = some kind)
    (hcounts : ∀ t ∈ tree.postOrder, ∀ kind ∈ t.count?, kind.signed = false) :
    ∃ s, tree.schema = .ok s := by
  obtain ⟨nodes, root, hs, hroot, hschema⟩ := schema_of_known (unknown?_eq_none.2 hnames)
  have hw : Schema.WellFormed nodes root := (hs.wellFormed_iff (by omega)).2 hcounts
  have hok : Schema.ofNodes? nodes root = .ok ⟨nodes, root, hw⟩ :=
    Schema.ofNodes?_eq_ok.2 ⟨rfl, rfl⟩
  refine ⟨⟨nodes, root, hw⟩, ?_⟩
  rw [hschema, hok]
  rfl

/-- A tree makes a schema exactly if all its names are those of kinds and no loop counts with a
sign. It is the tree, node for node, and as deep as the tree is high. Every other tree is refused
for its first fault, so never for what is wrong with its nodes but for a count. -/
theorem schema_spec (tree : Outline) :
    ((∃ s, tree.schema = .ok s) ↔
      (∀ name ∈ tree.kindNames, ∃ kind, IntKind.ofName? name = some kind) ∧
        ∀ t ∈ tree.postOrder, ∀ kind ∈ t.count?, kind.signed = false) ∧
      (∀ s, tree.schema = .ok s → tree.Drawn s) ∧
      (∀ e, tree.schema = .error e ↔ tree.FirstFault e) ∧
      ∀ cause, tree.schema = .error (.schema cause) → ∃ kind, cause = .signedCount kind := by
  refine ⟨⟨?_, fun ⟨hnames, hcounts⟩ => exists_schema hnames hcounts⟩,
    fun s h => (drawn_of_schema h).2.2, fun e => tree.schema_eq_error, fun cause h => ?_⟩
  · rintro ⟨s, h⟩
    obtain ⟨hnames, hcounts, -⟩ := drawn_of_schema h
    exact ⟨hnames, hcounts⟩
  · cases tree.schema_eq_error.1 h with
    | count => exact ⟨_, rfl⟩

-- the name of the count is looked at before those of the body
example : (Outline.loop "int7" (.value "int8")).schema = .error (.unknownKind "int7") := by rfl

end Outline

end Transcoder

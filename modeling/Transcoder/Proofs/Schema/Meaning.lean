import Transcoder.Engine.Basic
import Transcoder.Proofs.Block.Framing
import Transcoder.Proofs.Value.Completing

/-!
# What a schema means

A schema says how an input is transcoded, by recursion on its nodes: a node takes a piece of the
input and gives a piece of the output. Here is no stack, nothing is suspended, and a block is
written once its body is known. Of the stack of a machine no more is left than its depth, which a
node may exceed (`Schema.transcodeWithin`).

Results:
* `Schema.transcode`, `Schema.transcodeAll`: the meaning of a node and of a schema.
* `Schema.transcodeWithin`, `Schema.transcodeAllWithin`: the same with a limit on the nesting.
* `Meaning.value_eq_ok` and the like: what it takes for a piece to be transcoded.
* `Schema.inStep_transcodeWithin`: the output grows with the input that is taken, and only so.
-/
namespace Transcoder

/-- Where a piece is transcoded: from `position` on, inside the block ends `bounds`, innermost
first, to `address` of the output. -/
structure Place where
  bounds : List Position := []
  position : Nat := 0
  address : Nat := 0

/-- A piece that was transcoded: where the next one begins, and what came of it. -/
structure Piece where
  position : Nat
  output : List UInt8 := []
  values : List Decoded := []

namespace Piece

/-- One piece behind another. -/
def append (p q : Piece) : Piece := ⟨q.position, p.output ++ q.output, p.values ++ q.values⟩

end Piece

/-- The place behind a piece. -/
def Place.after (place : Place) (p : Piece) : Place :=
  { place with position := p.position, address := place.address + p.output.length }

/-- A way to transcode what stands at a place. -/
abbrev Meaning := Place → Except Failure Piece

namespace Meaning

/-- The rest of a piece follows behind it. -/
def follow (p : Piece) (rest : Meaning) : Meaning := fun place =>
  (rest (place.after p)).map p.append

def nothing : Meaning := fun place => .ok ⟨place.position, [], []⟩

/-- All of them in order. -/
def inOrder : List Meaning → Meaning
  | [] => nothing
  | f :: rest => fun place =>
    match f place with
    | .error x => .error x
    | .ok p => follow p (inOrder rest) place

/-- The number that stands at a place, and where it ends. -/
def number (input : List UInt8) (kind : IntKind) (place : Place) : Except Failure (UInt64 × Nat) :=
  match (Source.whole input).read place.bounds place.position (.start kind) with
  | (.ok word, position, _) => .ok (word, position)
  | (.error cause, _, _) => .error (.ofStream cause)

/-- Writes a number that was read at `start`, if its kind can say it and addresses are left for
it. -/
def emit (kind : IntKind) (word : UInt64) (start : Nat) : Meaning := fun place =>
  if kind.fits word then
    if place.address + (kind.bytes word).length ≤ addressLimit then
      .ok ⟨place.position, kind.bytes word, [⟨kind, word, start⟩]⟩
    else .error (.ofStream outOfSpace)
  else .error (.valueOutOfRange kind word)

/-- A number is read and written again, and `rest` says what comes behind it. -/
def value (input : List UInt8) (kind : IntKind) (rest : UInt64 → Meaning) : Meaning := fun place =>
  match number input kind place with
  | .error x => .error x
  | .ok (word, position) =>
    match emit kind word place.position { place with position } with
    | .error x => .error x
    | .ok p => follow p (rest word) place

/-- The body so many times. Every repetition but the last must consume something. -/
def repeated (id : Nat) (body : Meaning) : Nat → Meaning
  | 0 => nothing
  | 1 => body
  | n + 2 => fun place =>
    match body place with
    | .error x => .error x
    | .ok p =>
      if p.position = place.position then .error (.emptyLoopBody id)
      else follow p (repeated id body (n + 1)) place

/-- The body again and again, up to the innermost end. Every repetition must consume something. -/
def toEnd (input : List UInt8) (id : Nat) (body : Meaning) (place : Place) : Except Failure Piece :=
  if _hs : (Source.whole input).stop place.bounds ≤ .ofByte place.position then nothing place
  else
    match body place with
    | .error x => .error x
    | .ok p =>
      if _hp : p.position ≤ place.position then .error (.emptyLoopBody id)
      else (toEnd input id body (place.after p)).map p.append
termination_by ((Source.whole input).stop place.bounds).bits - 8 * place.position
decreasing_by
  have hb : (place.after p).bounds = place.bounds := rfl
  have hq : (place.after p).position = p.position := rfl
  rw [hb, hq]
  simp only [Position.le_def, Position.ofByte] at _hs
  omega

/-- A body that was transcoded, if it ends at `stop`, behind a header of the reserved width or the
shortest one, if the former can say its size. -/
def framed (framing : Framing) (stop : Position) (p : Piece) : Except Failure Piece :=
  let size := p.output.length
  let limit := headerLimit framing.reserved
  if Position.ofByte p.position ≠ stop then .error (.blockUnderrun stop (.ofByte p.position))
  else if limit < size then .error (.blockTooLarge size limit)
  else .ok { p with output := framing.header framing.reserved size ++ p.output }

/-- A body between `position` and `stop`, which must be inside the enclosing block. -/
def window (framing : Framing) (body : Meaning) (stop : Position) (position : Nat) : Meaning :=
  fun place =>
    let enclosing := place.bounds.headD .unbounded
    if ¬stop ≤ enclosing then .error (.pastBlockEnd stop enclosing)
    else if addressLimit < place.address + framing.reserved then .error (.ofStream outOfSpace)
    else
      match body ⟨stop :: place.bounds, position, place.address + framing.reserved⟩ with
      | .error x => .error x
      | .ok p => framed framing stop p

/-- A size, then a body that ends there. -/
def block (input : List UInt8) (framing : Framing) (body : Meaning) : Meaning := fun place =>
  match number input .varuint32 place with
  | .error x => .error x
  | .ok (size, position) =>
    window framing body (.ofByte (min (position + size.toNat) addressLimit)) position place

/-- With `k` tasks below it, a task stands on the stack only if there is room for more than `k`. -/
def within (limit k : Nat) (f : Meaning) : Meaning := fun place =>
  if k < limit then f place else .error (.nestingTooDeep limit)

end Meaning

namespace Schema

open Meaning

/-- What a node means. -/
def transcode (s : Schema) (framing : Framing) (input : List UInt8) (id : Nat) : Meaning :=
  match _h : s.node? id with
  | none => fun _ => .error (.invalidSchema (.unknownNode id))
  | some (.value kind) => value input kind fun _ => nothing
  | some (.action _) => nothing
  | some (.sequence children) =>
    inOrder (children.attach.map fun c => s.transcode framing input c.val)
  | some (.loop count body) =>
    value input count fun n => repeated id (s.transcode framing input body) n.toNat
  | some (.block body) => block input framing (s.transcode framing input body)
  | some (.untilEof body) => toEnd input id (s.transcode framing input body)
  | some (.unknown opcode) => fun _ => .error (.unsupported (.unknown opcode))
termination_by id
decreasing_by
  · exact s.child_lt _h c.property
  · exact s.child_lt _h (List.mem_singleton_self _)
  · exact s.child_lt _h (List.mem_singleton_self _)
  · exact s.child_lt _h (List.mem_singleton_self _)

/-- What a schema means: its root, and nothing behind it if the rest of the input is not let be. -/
def transcodeAll (s : Schema) (config : Config) (input : List UInt8) : Except Failure Piece :=
  match s.transcode config.framing input s.root {} with
  | .error x => .error x
  | .ok p =>
    if config.rejectTrailing ∧ p.position < input.length then
      .error (.trailingData (input.length - p.position))
    else .ok p

/-- What a node means to a machine that has `k` tasks below it and room for `limit` of them. -/
def transcodeWithin (s : Schema) (framing : Framing) (input : List UInt8) (limit k id : Nat) :
    Meaning :=
  match _h : s.node? id with
  | none => fun _ => .error (.invalidSchema (.unknownNode id))
  | some (.value kind) => value input kind fun _ => nothing
  | some (.action _) => nothing
  | some (.sequence children) =>
    within limit k <| inOrder <| children.attach.map fun c =>
      within limit (k + 1) (s.transcodeWithin framing input limit (k + 1) c.val)
  | some (.loop count body) =>
    value input count fun n => within limit k <|
      repeated id (within limit (k + 1) (s.transcodeWithin framing input limit (k + 1) body)) n.toNat
  | some (.block body) =>
    block input framing (within limit (k + 1) (s.transcodeWithin framing input limit (k + 1) body))
  | some (.untilEof body) =>
    within limit k <|
      toEnd input id (within limit (k + 1) (s.transcodeWithin framing input limit (k + 1) body))
  | some (.unknown opcode) => fun _ => .error (.unsupported (.unknown opcode))
termination_by id
decreasing_by
  · exact s.child_lt _h c.property
  · exact s.child_lt _h (List.mem_singleton_self _)
  · exact s.child_lt _h (List.mem_singleton_self _)
  · exact s.child_lt _h (List.mem_singleton_self _)

/-- What the child of a node means, with the task of the node on the stack below it. -/
def transcodeChild (s : Schema) (framing : Framing) (input : List UInt8) (limit k id : Nat) :
    Meaning := within limit (k + 1) (s.transcodeWithin framing input limit (k + 1) id)

/-- What a schema means with a limit on the nesting. -/
def transcodeAllWithin (s : Schema) (config : Config) (input : List UInt8) :
    Except Failure Piece :=
  match s.transcodeWithin config.framing input config.maxNesting 0 s.root {} with
  | .error x => .error x
  | .ok p =>
    if config.rejectTrailing ∧ p.position < input.length then
      .error (.trailingData (input.length - p.position))
    else .ok p

theorem transcode_none {s : Schema} {id : Nat} (hn : s.node? id = none) (framing : Framing)
    (input : List UInt8) :
    s.transcode framing input id = fun _ => .error (.invalidSchema (.unknownNode id)) := by
  rw [transcode]
  split <;> simp_all

/-- The meaning of a node, in terms of those of its children. -/
theorem transcode_eq {s : Schema} {id : Nat} {n : Node} (hn : s.node? id = some n)
    (framing : Framing) (input : List UInt8) :
    s.transcode framing input id =
      match n with
      | .value kind => value input kind fun _ => nothing
      | .action _ => nothing
      | .sequence children => inOrder (children.map (s.transcode framing input))
      | .loop count body =>
        value input count fun n => repeated id (s.transcode framing input body) n.toNat
      | .block body => block input framing (s.transcode framing input body)
      | .untilEof body => toEnd input id (s.transcode framing input body)
      | .unknown opcode => fun _ => .error (.unsupported (.unknown opcode)) := by
  rw [transcode]
  cases n <;> split <;> simp_all

theorem transcodeWithin_none {s : Schema} {id : Nat} (hn : s.node? id = none) (framing : Framing)
    (input : List UInt8) (limit k : Nat) : s.transcodeWithin framing input limit k id =
      fun _ => .error (.invalidSchema (.unknownNode id)) := by
  rw [transcodeWithin]
  split <;> simp_all

theorem transcodeWithin_eq {s : Schema} {id : Nat} {n : Node} (hn : s.node? id = some n)
    (framing : Framing) (input : List UInt8) (limit k : Nat) :
    s.transcodeWithin framing input limit k id =
      match n with
      | .value kind => value input kind fun _ => nothing
      | .action _ => nothing
      | .sequence children =>
        within limit k (inOrder (children.map (s.transcodeChild framing input limit k)))
      | .loop count body =>
        value input count fun n =>
          within limit k (repeated id (s.transcodeChild framing input limit k body) n.toNat)
      | .block body => block input framing (s.transcodeChild framing input limit k body)
      | .untilEof body =>
        within limit k (toEnd input id (s.transcodeChild framing input limit k body))
      | .unknown opcode => fun _ => .error (.unsupported (.unknown opcode)) := by
  rw [transcodeWithin]
  unfold transcodeChild
  cases n <;> split <;> simp_all

end Schema

/-! ## Success -/

namespace Meaning

variable {input : List UInt8} {place : Place} {p q : Piece} {f body : Meaning}
  {kind : IntKind} {word : UInt64} {position : Nat}

theorem within_eq_ok {limit k : Nat} : within limit k f place = .ok p ↔ k < limit ∧ f place = .ok p := by
  unfold within
  split <;> simp [*]

theorem follow_eq_ok {rest : Meaning} : follow p rest place = .ok q ↔
    ∃ q', rest (place.after p) = .ok q' ∧ p.append q' = q := by
  unfold follow
  cases rest (place.after p) <;> simp [Except.map]

theorem inOrder_cons_eq_ok {fs : List Meaning} : inOrder (f :: fs) place = .ok q ↔
    ∃ p, f place = .ok p ∧ ∃ q', inOrder fs (place.after p) = .ok q' ∧ p.append q' = q := by
  simp only [inOrder]
  cases f place <;> simp [follow_eq_ok]

/-- A number is read where bytes that complete it lie ahead. -/
theorem number_eq_ok : number input kind place = .ok (word, position) ↔
    ∃ bytes, (PartialValue.start kind).Completes bytes word ∧
      (Source.whole input).Offers place.bounds place.position bytes ∧
      position = place.position + bytes.length := by
  unfold number
  constructor
  · intro h
    split at h
    · rename_i hr
      simp only [Except.ok.injEq, Prod.mk.injEq] at h
      obtain ⟨rfl, rfl⟩ := h
      exact Source.completes_of_read hr
    · simp at h
  · rintro ⟨bytes, hc, ho, rfl⟩
    obtain ⟨p', hr⟩ := Source.read_of_completes hc ho
    simp only [hr]

theorem emit_eq_ok {start : Nat} : emit kind word start place = .ok p ↔
    kind.fits word = true ∧ place.address + (kind.bytes word).length ≤ addressLimit ∧
      ⟨place.position, kind.bytes word, [⟨kind, word, start⟩]⟩ = p := by
  unfold emit
  split
  · split <;> simp [*]
  · simp [*]

/-- The piece that a number is. -/
def said (kind : IntKind) (word : UInt64) (start position : Nat) : Piece :=
  ⟨position, kind.bytes word, [⟨kind, word, start⟩]⟩

theorem value_eq_ok {rest : UInt64 → Meaning} : value input kind rest place = .ok q ↔
    ∃ word position, number input kind place = .ok (word, position) ∧ kind.fits word = true ∧
      place.address + (kind.bytes word).length ≤ addressLimit ∧
      ∃ q', rest word (place.after (said kind word place.position position)) = .ok q' ∧
        (said kind word place.position position).append q' = q := by
  unfold value
  cases hn : number input kind place with
  | error x => simp
  | ok read =>
    obtain ⟨word, position⟩ := read
    simp only [Except.ok.injEq, Prod.mk.injEq]
    constructor
    · intro h
      split at h
      · simp at h
      · rename_i p hp
        obtain ⟨hf, ha, rfl⟩ := emit_eq_ok.1 hp
        exact ⟨word, position, ⟨rfl, rfl⟩, hf, ha, follow_eq_ok.1 h⟩
    · rintro ⟨_, _, ⟨rfl, rfl⟩, hf, ha, hrest⟩
      have hp : emit kind word place.position { place with position } = _ :=
        emit_eq_ok.2 ⟨hf, ha, rfl⟩
      simp only [hp]
      exact follow_eq_ok.2 hrest

theorem repeated_eq_ok {id n : Nat} : repeated id body (n + 2) place = .ok q ↔
    ∃ p, body place = .ok p ∧ p.position ≠ place.position ∧
      ∃ q', repeated id body (n + 1) (place.after p) = .ok q' ∧ p.append q' = q := by
  simp only [repeated]
  cases body place with
  | error x => simp
  | ok p =>
    by_cases hp : p.position = place.position <;> simp [hp, follow_eq_ok]

theorem toEnd_of_le {id : Nat}
    (hs : (Source.whole input).stop place.bounds ≤ .ofByte place.position) :
    toEnd input id body place = nothing place := by
  rw [toEnd, dif_pos hs]

theorem toEnd_eq_ok {id : Nat}
    (hs : ¬(Source.whole input).stop place.bounds ≤ .ofByte place.position) :
    toEnd input id body place = .ok q ↔ ∃ p, body place = .ok p ∧ place.position < p.position ∧
      ∃ q', toEnd input id body (place.after p) = .ok q' ∧ p.append q' = q := by
  rw [toEnd, dif_neg hs]
  cases body place with
  | error x => simp
  | ok p =>
    by_cases hp : p.position ≤ place.position
    · have hlt : ¬place.position < p.position := by omega
      simp [hp, hlt]
    · have hfollow : (toEnd input id body (place.after p)).map p.append = .ok q ↔ _ :=
        follow_eq_ok
      have hlt : place.position < p.position := by omega
      simp [hp, hlt, hfollow]

theorem framed_eq_ok {framing : Framing} {stop : Position} : framed framing stop p = .ok q ↔
    .ofByte p.position = stop ∧ p.output.length ≤ headerLimit framing.reserved ∧
      { p with output := framing.header framing.reserved p.output.length ++ p.output } = q := by
  simp only [framed]
  split
  · rename_i he
    exact ⟨nofun, fun h => absurd h.1 he⟩
  · rename_i he
    rw [and_iff_right (Decidable.not_not.1 he)]
    split
    · rename_i hl
      exact ⟨nofun, fun h => absurd h.1 (Nat.not_le.2 hl)⟩
    · rename_i hl
      rw [and_iff_right (Nat.not_lt.1 hl), Except.ok.injEq]

theorem window_eq_ok {framing : Framing} {stop : Position} :
    window framing body stop position place = .ok q ↔
      stop ≤ place.bounds.headD .unbounded ∧ place.address + framing.reserved ≤ addressLimit ∧
      ∃ p, body ⟨stop :: place.bounds, position, place.address + framing.reserved⟩ = .ok p ∧
        framed framing stop p = .ok q := by
  simp only [window]
  split
  · rename_i hle
    exact ⟨nofun, fun h => absurd h.1 hle⟩
  · rename_i hle
    rw [and_iff_right (Decidable.not_not.1 hle)]
    split
    · rename_i ha
      exact ⟨nofun, fun h => absurd h.1 (Nat.not_le.2 ha)⟩
    · rename_i ha
      rw [and_iff_right (Nat.not_lt.1 ha)]
      cases body ⟨stop :: place.bounds, position, place.address + framing.reserved⟩ <;> simp

theorem block_eq_ok {framing : Framing} : block input framing body place = .ok q ↔
    ∃ size position, number input .varuint32 place = .ok (size, position) ∧
      window framing body (.ofByte (min (position + size.toNat) addressLimit)) position place =
        .ok q := by
  unfold block
  rcases number input .varuint32 place with x | ⟨size, position⟩
  · simp
  · simp only [Except.ok.injEq, Prod.mk.injEq]
    exact ⟨fun h => ⟨size, position, ⟨rfl, rfl⟩, h⟩, fun ⟨_, _, ⟨rfl, rfl⟩, h⟩ => h⟩

end Meaning

/-! ## In step -/

/-- How a piece that begins at `place` goes on: not at all, and nothing comes of it, or over input
that is there and in front of the innermost end, and something comes of it. -/
inductive Piece.Moves (input : List UInt8) (place : Place) (p : Piece) : Prop
  | stays (position : p.position = place.position) (output : p.output = [])
  | goes (lt : place.position < p.position) (le : p.position ≤ input.length)
    (stop : .ofByte p.position ≤ (Source.whole input).stop place.bounds) (output : p.output ≠ [])

theorem Framing.header_ne_nil (f : Framing) {reserved : Nat} (hr : 0 < reserved) (size : Nat) :
    f.header reserved size ≠ [] := by
  apply List.ne_nil_of_length_pos
  unfold header
  split
  · exact Leb128.length_unsigned_pos size
  · rwa [Leb128.length_padded_of_pos hr]

theorem Piece.Moves.position_le {input : List UInt8} {place : Place} {p : Piece}
    (h : p.Moves input place) : place.position ≤ p.position := by
  cases h with
  | stays position => exact Nat.le_of_eq position.symm
  | goes lt => exact Nat.le_of_lt lt

namespace Meaning

variable {input : List UInt8} {place : Place} {p q : Piece} {f body : Meaning}

/-- The output grows with the input that is taken, and only so. -/
def InStep (input : List UInt8) (f : Meaning) : Prop :=
  ∀ place p, f place = .ok p → p.Moves input place

theorem moves_append (h : p.Moves input place) (k : q.Moves input (place.after p)) :
    (p.append q).Moves input place := by
  cases h with
  | stays hp ho =>
    cases k with
    | stays kp ko => exact .stays (kp.trans hp) (by simp [Piece.append, ho, ko])
    | goes lt le stop output =>
      exact .goes (hp ▸ lt) le stop (by simpa [Piece.append, ho] using output)
  | goes lt le stop output =>
    have hne : (p.append q).output ≠ [] := by simp [Piece.append, output]
    cases k with
    | stays kp ko =>
      have he : (p.append q).position = p.position := kp
      exact .goes (he ▸ lt) (he ▸ le) (he ▸ stop) hne
    | goes lt' le' stop' _ => exact .goes (Nat.lt_trans lt lt') le' stop' hne

theorem inStep_within {limit k : Nat} (h : f.InStep input) : (within limit k f).InStep input :=
  fun place p hp => h place p (within_eq_ok.1 hp).2

theorem inStep_nothing : nothing.InStep input := by
  intro place p h
  obtain rfl := Except.ok.inj h
  exact .stays rfl rfl

theorem inStep_inOrder {fs : List Meaning} (h : ∀ f ∈ fs, f.InStep input) :
    (inOrder fs).InStep input := by
  induction fs with
  | nil => exact inStep_nothing
  | cons f fs ih =>
    intro place q hq
    obtain ⟨p, hp, q', hq', rfl⟩ := inOrder_cons_eq_ok.1 hq
    exact moves_append (h f List.mem_cons_self place p hp)
      (ih (fun g hg => h g (List.mem_cons_of_mem _ hg)) _ _ hq')

/-- A number takes a byte at least, and gives one. -/
theorem moves_said {kind : IntKind} {word : UInt64} {position : Nat}
    (hn : number input kind place = .ok (word, position)) (hf : kind.fits word = true) :
    (said kind word place.position position).Moves input place := by
  obtain ⟨bytes, hc, ho, rfl⟩ := number_eq_ok.1 hn
  obtain ⟨hle, hstop⟩ := ho.le hc.ne_nil
  have hpos := List.length_pos_iff.2 hc.ne_nil
  exact .goes (by simp only [said]; omega) hle hstop (IntKind.completes_bytes hf).ne_nil

theorem inStep_value {kind : IntKind} {rest : UInt64 → Meaning} (h : ∀ w, (rest w).InStep input) :
    (value input kind rest).InStep input := by
  intro place q hq
  obtain ⟨word, position, hn, hf, -, q', hq', rfl⟩ := value_eq_ok.1 hq
  exact moves_append (moves_said hn hf) (h word _ _ hq')

theorem inStep_repeated {id : Nat} (h : body.InStep input) (n : Nat) :
    (repeated id body n).InStep input := by
  fun_induction repeated id body n with
  | case1 => exact inStep_nothing
  | case2 => exact h
  | case3 n ih =>
    intro place q hq
    obtain ⟨p, hp, -, q', hq', rfl⟩ := repeated_eq_ok.1 hq
    exact moves_append (h _ _ hp) (ih _ _ hq')

theorem inStep_toEnd {id : Nat} (h : body.InStep input) : InStep input (toEnd input id body) := by
  intro place q hq
  fun_induction toEnd input id body place generalizing q with
  | case1 place hs => exact inStep_nothing _ _ hq
  | case2 place hs x hx => simp at hq
  | case3 place hs p hp hle => simp at hq
  | case4 place hs p hp hle ih =>
    obtain ⟨q', hq', rfl⟩ := follow_eq_ok.1 hq
    exact moves_append (h _ _ hp) (ih _ hq')

/-- A block ends where its body does, which is in front of the ends around it. -/
theorem inStep_block {framing : Framing} (hr : 0 < framing.reserved) (h : body.InStep input) :
    (block input framing body).InStep input := by
  intro place q hq
  obtain ⟨size, position, hn, hw⟩ := block_eq_ok.1 hq
  obtain ⟨hle, -, p, hp, hf⟩ := window_eq_ok.1 hw
  obtain ⟨he, -, rfl⟩ := framed_eq_ok.1 hf
  obtain ⟨bytes, hc, ho, rfl⟩ := number_eq_ok.1 hn
  obtain ⟨hl, -⟩ := ho.le hc.ne_nil
  have hpos := List.length_pos_iff.2 hc.ne_nil
  have hlen : place.position < p.position ∧ p.position ≤ input.length := by
    cases h _ _ hp with
    | stays hstay =>
      rw [hstay]
      exact ⟨by simp only; omega, hl⟩
    | goes lt le => exact ⟨by simp only at lt; omega, le⟩
  refine .goes hlen.1 hlen.2 ?_ ?_
  · rw [← he] at hle
    rw [Source.stop, Source.endPosition]
    cases hb : place.bounds with
    | cons stop outer => rwa [hb] at hle
    | nil =>
      have hlim : p.position ≤ addressLimit := by
        simp only [Position.ofByte, Position.mk.injEq] at he
        omega
      simp only [Source.whole, List.headD_nil, if_true, Position.le_def, Position.ofByte]
      omega
  · exact fun hnil => framing.header_ne_nil hr _ (List.append_eq_nil_iff.1 hnil).1

end Meaning

/-- No node goes back in the input, or gives something for nothing. -/
theorem Schema.inStep_transcodeWithin (s : Schema) {framing : Framing} (hr : 0 < framing.reserved)
    (input : List UInt8) (limit k id : Nat) :
    (s.transcodeWithin framing input limit k id).InStep input := by
  induction id using Nat.strongRecOn generalizing k with
  | ind id ih =>
    cases hn : s.node? id with
    | none =>
      intro place p hp
      simp [transcodeWithin_none hn] at hp
    | some n =>
      have hc (c : Nat) (h : c ∈ n.children) :
          (s.transcodeChild framing input limit k c).InStep input :=
        Meaning.inStep_within (ih c (s.child_lt hn h) (k + 1))
      rw [transcodeWithin_eq hn]
      cases n with
      | value kind => exact Meaning.inStep_value fun _ => Meaning.inStep_nothing
      | action => exact Meaning.inStep_nothing
      | sequence children =>
        refine Meaning.inStep_within (Meaning.inStep_inOrder fun f hf => ?_)
        obtain ⟨c, hm, rfl⟩ := List.mem_map.1 hf
        exact hc c hm
      | loop count body =>
        have hf := hc body (List.mem_singleton_self _)
        exact Meaning.inStep_value fun n => Meaning.inStep_within (Meaning.inStep_repeated hf _)
      | block body => exact Meaning.inStep_block hr (hc body (List.mem_singleton_self _))
      | untilEof body =>
        exact Meaning.inStep_within (Meaning.inStep_toEnd (hc body (List.mem_singleton_self _)))
      | unknown opcode =>
        intro place p hp
        simp at hp

end Transcoder

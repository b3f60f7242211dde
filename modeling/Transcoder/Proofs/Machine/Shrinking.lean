import Transcoder.Proofs.Machine.Whole
import Transcoder.Proofs.Value.Rewriting

/-!
# Machines that minimize

A machine that gives blocks their shortest headers puts out no more than it has read, as long as no
kind in its schema pads its values. A value is written in no more bytes than it was read from. An
open block may be ahead of its input, since the header that is reserved for it may be wider than the
one that was read. But its body is not ahead of the body that was read, and what stands before it
leaves room for the shortest header of the size that was read (`Lags`). A body that is no larger than
that size has a header that is no longer, so when the block is closed it lags as well.

Results:
* `Lags.close`: a block that is closed fits where the one that was read did.
* `Machine.shrinks_step`: a step keeps the lag, and blocks are never too large for five chunks.
-/
namespace Transcoder

/-- No value and no count is of a kind that pads. -/
def Schema.Unpadded (s : Schema) : Prop :=
  ∀ node ∈ s.nodes, (∀ kind ∈ node.valueKind?, kind.pads = false) ∧
    ∀ kind ∈ node.count?, kind.pads = false

instance (s : Schema) : Decidable s.Unpadded :=
  inferInstanceAs (Decidable (∀ node ∈ s.nodes, (∀ kind ∈ node.valueKind?, kind.pads = false) ∧
    ∀ kind ∈ node.count?, kind.pads = false))

/-- The failure is that a block does not fit its header. -/
def Failure.oversized : Failure → Bool
  | blockTooLarge .. => true
  | _ => false

theorem Failure.oversized_ofStream (x : StreamError) : (ofStream x).oversized = false := by
  cases x <;> rfl

/-- Greater sizes have longer headers. -/
theorem Leb128.length_unsigned_mono {v w : Nat} (h : v ≤ w) :
    (unsigned v).length ≤ (unsigned w).length :=
  length_unsigned_le (length_unsigned_pos w) (Nat.lt_of_le_of_lt h (lt_of_length_unsigned w))

/-- Five chunks hold every size of 32 bits. -/
theorem le_headerLimit_of_five {size reserved : Nat} (hs : size < UInt32.size) (hr : 5 ≤ reserved) :
    size ≤ headerLimit reserved := by
  have hlimit : UInt32.size - 1 ≤ headerLimit reserved := by
    unfold headerLimit
    split
    · decide
    · have hle : 1 <<< (7 * 5) ≤ 1 <<< (7 * reserved) := Leb128.one_shiftLeft_le (by omega)
      have hfive : UInt32.size ≤ 1 <<< (7 * 5) := by decide
      omega
  omega

/-! ## Values that are cut off -/

theorem PartialValue.Begun.kind_eq {kind : IntKind} {begun : List UInt8} {p : PartialValue}
    (h : Begun kind begun p) : p.kind = kind := by
  induction h with
  | start => exact kind_start kind
  | @more _ p q b _ hf ih =>
    have hq := p.kind_of_feed b
    rw [hf] at hq
    exact hq.trans ih

/-- A value that is cut off was begun with the bytes up to there. -/
theorem Source.begun_of_read {src : Source} {bounds : List Position} {a a' : Nat}
    {p p' : PartialValue} {x : StreamError} (h : src.read bounds a p = (.error x, a', p'))
    (hx : x.suspends = true) : ∃ bytes, a' = a + bytes.length ∧ ∀ kind begun,
      PartialValue.Begun kind begun p → PartialValue.Begun kind (begun ++ bytes) p' := by
  rw [read_eq] at h
  cases hb : src.get bounds a with
  | error y =>
    simp only [hb, Prod.mk.injEq] at h
    obtain ⟨-, rfl, rfl⟩ := h
    exact ⟨[], rfl, fun _ _ hp => (List.append_nil _).symm ▸ hp⟩
  | ok b =>
    rw [hb] at h
    match hf : p.feed b with
    | (.error y, q) =>
      simp only [hf, Prod.mk.injEq, Except.error.injEq] at h
      have hn := StreamError.suspends_of_malformed (PartialValue.malformed_of_feed hf)
      rw [h.1, hx] at hn
      cases hn
    | (.ok (some w), q) => simp [hf] at h
    | (.ok none, q) =>
      have := PartialValue.remaining_lt_of_feed hf
      simp only [hf] at h
      obtain ⟨bytes, rfl, hbytes⟩ := begun_of_read h hx
      refine ⟨b :: bytes, by rw [List.length_cons]; omega, fun kind begun hp => ?_⟩
      rw [List.append_cons]
      exact hbytes kind _ (hp.more hf)
termination_by p.remaining

/-! ## The lag -/

/-- An output of `top` bytes lags behind an input that was read up to `position`, through all blocks
on the stack. Each body of the output lags behind the body of the input, and what stands before it,
with the shortest header for the size on the input, lags behind the input up to the body. -/
def Lags (reserved : Nat) : List Task → (top position : Nat) → Prop
  | [], top, position => top ≤ position
  | .block extent header :: rest, top, position =>
    header.reserved = reserved ∧ extent.size < UInt32.size ∧
      top + extent.bodyStart ≤ position + header.bodyStart ∧
      Lags reserved rest (header.start + (Leb128.unsigned extent.size).length) extent.bodyStart
  | _ :: rest, top, position => Lags reserved rest top position

section Lags

variable {reserved : Nat} {task : Task} {rest tasks : List Task} {top top' position position' : Nat}
  {extent : Extent} {header : OpenHeader}

theorem lags_cons (ht : task.header? = none) :
    Lags reserved (task :: rest) top position ↔ Lags reserved rest top position := by
  cases task with
  | visit | sequence | loop | untilEof => exact Iff.rfl
  | block => cases ht

/-- The output may grow by as much as is read. -/
theorem Lags.move (h : Lags reserved tasks top position)
    (hm : top' + position ≤ top + position') : Lags reserved tasks top' position' := by
  induction tasks with
  | nil =>
    have hle : top ≤ position := h
    show top' ≤ position'
    omega
  | cons task rest ih =>
    cases task with
    | visit | sequence | loop | untilEof => exact ih h
    | block extent header =>
      obtain ⟨hr, hs, hbody, hrest⟩ := h
      exact ⟨hr, hs, by omega, hrest⟩

/-- Outside all blocks the output is at most as long as what was read. -/
theorem Lags.le (h : Lags reserved tasks top position)
    (hn : tasks.filterMap Task.header? = []) : top ≤ position := by
  induction tasks with
  | nil => exact h
  | cons task rest ih =>
    cases task with
    | visit | sequence | loop | untilEof => exact ih h hn
    | block => simp [Task.header?] at hn

/-- A block goes on the stack, with a reserved header at the end of the output. -/
theorem Lags.opened {size : Nat} {stop : Position} (hs : size < UInt32.size)
    (hh : header.reserved = reserved) (hstop : stop.byte ≤ position + size)
    (h : Lags reserved rest (header.start + (Leb128.unsigned size).length) position) :
    Lags reserved (.block ⟨position, stop⟩ header :: rest) header.bodyStart position := by
  have hle : Extent.size ⟨position, stop⟩ ≤ size := by
    show stop.byte - position ≤ size
    omega
  have hl := Leb128.length_unsigned_mono hle
  exact ⟨hh, Nat.lt_of_le_of_lt hle hs, Nat.le_of_eq (Nat.add_comm ..),
    h.move (Nat.add_le_add_right (Nat.add_le_add_left hl _) _)⟩

/-- At the end of a block on the input, the block of the output is no larger, and with its shortest
header it lags behind the input. -/
theorem Lags.close (h : Lags reserved (.block extent header :: rest) top position)
    (hb : header.bodyStart ≤ top) (hp : position = extent.stop.byte) :
    bodySize header.start top header.reserved ≤ extent.size ∧
      Lags reserved rest (header.start +
        (Leb128.unsigned (bodySize header.start top header.reserved)).length +
        bodySize header.start top header.reserved) position := by
  obtain ⟨-, -, hbody, hrest⟩ := h
  have hsize : bodySize header.start top header.reserved = top - header.bodyStart := rfl
  have hextent : extent.size = position - extent.bodyStart := hp ▸ rfl
  have hle : bodySize header.start top header.reserved ≤ extent.size := by omega
  have hl := Leb128.length_unsigned_mono hle
  exact ⟨hle, hrest.move (by omega)⟩

end Lags

/-! ## Steps -/

/-- A part of the value was read, up to `position`. Its kind does not pad, and is that of sizes where
it is one. -/
structure Pending.Shrinks (p : Pending) (position : Nat) : Prop where
  unpadded : p.partialValue.kind.pads = false
  begun : ∃ begun, PartialValue.Begun p.partialValue.kind begun p.partialValue ∧
    position = p.address + begun.length
  size : ∀ body, p.goal = .blockSize body → p.partialValue.kind = .varuint32

namespace Machine

/-- Where the value in the making began, or else where the next one does. -/
def valueStart (m : Machine) : Nat :=
  match m.pending with
  | some p => p.address
  | none => m.position

/-- The output lags behind the values that were read. -/
structure Lagging (r : Rules) (m : Machine) : Prop where
  stack : Lags r.framing.reserved m.tasks m.output.length m.valueStart
  pending : ∀ p, m.pending = some p → p.Shrinks m.position

/-- A piece of a step leaves a lagging machine, or fails, but over no block if sizes have room. -/
def Shrinks {α : Type} (r : Rules) : EStateM.Result Failure Machine α → Prop
  | .ok _ m => m.Lagging r
  | .error x _ => 5 ≤ r.framing.reserved → x.oversized = false

variable {α β : Type} {r : Rules} {src : Source} {m m' : Machine}

theorem Shrinks.bind {act : Turn α} {next : α → Turn β} (h : Shrinks r (act m))
    (k : ∀ a m', m'.Lagging r → Shrinks r (next a m')) : Shrinks r ((act >>= next) m) := by
  simp only [Bind.bind, EStateM.bind]
  cases ha : act m with
  | error x m' =>
    rw [ha] at h
    exact h
  | ok a m' =>
    rw [ha] at h
    exact k a m' h

theorem Shrinks.answer {turn : Turn Unit} (h : Shrinks r (turn m)) (p : Progress) :
    Shrinks r ((do turn; return p : Turn Progress) m) := h.bind fun _ _ h => h

theorem lagging_of_lags (hp : m.pending = none)
    (h : Lags r.framing.reserved m.tasks m.output.length m.position) : m.Lagging r := by
  refine ⟨?_, fun p hp' => ?_⟩
  · rw [valueStart, hp]
    exact h
  · rw [hp] at hp'
    cases hp'

theorem Lagging.lags (h : m.Lagging r) (hp : m.pending = none) :
    Lags r.framing.reserved m.tasks m.output.length m.position := by
  have hs := h.stack
  rw [valueStart, hp] at hs
  exact hs

theorem Lagging.push {task : Task} (h : m.Lagging r) (ht : task.header? = none) :
    Lagging r { m with tasks := task :: m.tasks } := ⟨(lags_cons ht).2 h.stack, h.pending⟩

theorem Lagging.rest {task : Task} {rest : List Task} (h : m.Lagging r)
    (ht : m.tasks = task :: rest) (hn : task.header? = none) :
    Lagging r { m with tasks := rest } := by
  have hs := h.stack
  rw [ht, lags_cons hn] at hs
  exact ⟨hs, h.pending⟩

/-- No value begins behind the next byte. -/
theorem Lagging.valueStart_le (h : m.Lagging r) : m.valueStart ≤ m.position := by
  unfold valueStart
  split
  · rename_i p hp
    obtain ⟨begun, -, hb⟩ := (h.pending p hp).begun
    exact hb ▸ Nat.le_add_right ..
  · exact Nat.le_refl _

theorem shrinks_pushTask (task : Task) (h : Lagging r { m with tasks := task :: m.tasks }) :
    Shrinks r (pushTask r task m) := by
  unfold pushTask
  split
  · exact fun _ => rfl
  · exact h

theorem shrinks_beginValue {goal : Goal} {kind : IntKind} (h : m.Lagging r)
    (hp : m.pending = none) (hk : kind.pads = false)
    (hg : ∀ body, goal = .blockSize body → kind = .varuint32) :
    Shrinks r (beginValue goal kind m) := by
  refine ⟨h.lags hp, fun p hp' => ?_⟩
  obtain rfl := Option.some.inj hp'
  have hkind := PartialValue.kind_start kind
  refine ⟨hkind.symm ▸ hk, ⟨[], ?_, rfl⟩, fun body hb => hkind.trans (hg body hb)⟩
  simp only [hkind]
  exact .start

theorem shrinks_runAction (h : m.Lagging r) (action : Nat) :
    Shrinks r (runAction action m) := by
  unfold runAction
  cases m.hook with
  | none => exact h
  | some hook =>
    simp only
    split
    · exact ⟨h.stack, h.pending⟩
    · exact fun _ => rfl

/-- What a node reads itself is of a kind that does not pad. -/
theorem shrinks_visit (hu : r.schema.Unpadded) (h : m.Lagging r) (hp : m.pending = none)
    (id : Nat) : Shrinks r (visit r id m) := by
  unfold visit
  cases hn : r.schema.node? id with
  | none => exact fun _ => rfl
  | some node =>
    obtain ⟨hvalue, hcount⟩ := hu node (Array.mem_of_getElem? hn)
    cases node with
    | value kind => exact shrinks_beginValue h hp (hvalue kind rfl) fun _ hg => by cases hg
    | action action => exact shrinks_runAction h action
    | sequence | untilEof => exact shrinks_pushTask _ (h.push rfl)
    | loop count body => exact shrinks_beginValue h hp (hcount count rfl) fun _ hg => by cases hg
    | block body => exact shrinks_beginValue h hp rfl fun _ _ => rfl
    | unknown => exact fun _ => rfl

/-- A task is put back, and one for a child of its node on it. -/
theorem shrinks_again {task : Task} (h : m.Lagging r) (ht : task.header? = none) (child : Nat) :
    Shrinks r ((do putBack task; pushTask r (.visit child) : Turn Unit) m) := by
  have hback : Shrinks r (putBack task m) := h.push ht
  exact hback.bind fun _ _ h => shrinks_pushTask _ (h.push rfl)

theorem shrinks_nextChild (h : m.Lagging r) (children : List Nat) :
    Shrinks r (nextChild r children m) := by
  cases children with
  | nil => exact h
  | cons child rest => exact shrinks_again h rfl child

theorem shrinks_nextRepetition (h : m.Lagging r) (id body : Nat) (last : Option Position)
    (remaining : Nat) : Shrinks r (nextRepetition r id body last remaining m) := by
  cases remaining with
  | zero => exact h
  | succ remaining =>
    simp only [nextRepetition]
    split
    · exact fun _ => rfl
    · exact shrinks_again h rfl body

theorem shrinks_repeatToEnd (h : m.Lagging r) (id body : Nat) (last : Option Position) :
    Shrinks r (repeatToEnd r src id body last m) := by
  unfold repeatToEnd
  split
  · exact h
  · split
    · exact fun _ => rfl
    · split
      · exact h.push rfl
      · exact (shrinks_again h rfl body).answer .advanced

/-- The block is closed with a header that is no longer than the one that was read. -/
theorem shrinks_finishBlock {extent : Extent} {header : OpenHeader} {rest : List Task}
    (hm : r.framing.minimize = true) (h : m.Lagging r) (hp : m.pending = none)
    (ho : m.Orderly src.bytes.length) (ht : m.tasks = .block extent header :: rest) :
    Shrinks r (finishBlock r extent header { m with tasks := rest }) := by
  have hlags := h.lags hp
  rw [ht] at hlags
  rw [Orderly, ht] at ho
  obtain ⟨-, hb, outer, hbounds, -⟩ := ho
  unfold finishBlock
  by_cases hstop : Position.ofByte m.position = extent.stop
  · have hleave : leaveBlock extent { m with tasks := rest } =
        .ok () { m with tasks := rest, bounds := outer } := by
      rw [leaveBlock, if_pos hstop, hbounds]
    obtain ⟨hle, hrest⟩ := hlags.close hb (by rw [← hstop, Position.byte_ofByte])
    rw [bind_of_ok hleave]
    simp only [closeBlock]
    split
    · rename_i hlimit
      -- such a block is larger than the size that was read
      intro hr
      have hsize := le_headerLimit_of_five (Nat.lt_of_le_of_lt hle hlags.2.1) (hlags.1 ▸ hr)
      omega
    · refine lagging_of_lags hp (hrest.move ?_)
      have hstart : header.start ≤ m.output.length := by
        have : header.bodyStart = header.start + header.reserved := rfl
        omega
      simp only [Framing.close, Framing.header, hm, if_pos, List.length_append, List.length_take,
        List.length_drop, Nat.min_eq_left hstart, bodySize]
      omega
  · have hleave : leaveBlock extent { m with tasks := rest } = .error _ _ := if_neg hstop
    rw [bind_of_error hleave]
    exact fun _ => rfl

theorem shrinks_doTask {task : Task} {rest : List Task} (hu : r.schema.Unpadded)
    (hm : r.framing.minimize = true) (h : m.Lagging r) (hp : m.pending = none)
    (ho : m.Orderly src.bytes.length) (ht : m.tasks = task :: rest) :
    Shrinks r (doTask r src task { m with tasks := rest }) := by
  cases task with
  | visit id => exact (shrinks_visit hu (h.rest ht rfl) hp id).answer .advanced
  | sequence children => exact (shrinks_nextChild (h.rest ht rfl) children).answer .advanced
  | loop id body remaining last =>
    exact (shrinks_nextRepetition (h.rest ht rfl) id body last remaining).answer .advanced
  | block extent header => exact (shrinks_finishBlock hm h hp ho ht).answer .advanced
  | untilEof id body last => exact shrinks_repeatToEnd (h.rest ht rfl) id body last

/-- A value is written where there is room for it in the lag. -/
theorem shrinks_passOn {p : Pending} {word : UInt64} (hp : m.pending = none)
    (h : Lags r.framing.reserved m.tasks
      (m.output.length + (p.partialValue.kind.bytes word).length) m.position) :
    Shrinks r (passOn r p word m) := by
  have hwrite : Shrinks r (writeValue p.partialValue.kind word m) := by
    unfold writeValue
    split
    · split
      · refine lagging_of_lags hp ?_
        rw [List.length_append]
        exact h
      · exact fun _ => rfl
    · exact fun _ => rfl
  refine hwrite.bind fun _ m' h' => ?_
  unfold record
  split
  · exact ⟨h'.stack, h'.pending⟩
  · exact h'

theorem shrinks_pushBlock {extent : Extent} {header : OpenHeader} (body : Nat)
    (h : Lagging r { m with tasks := .block extent header :: m.tasks }) : Shrinks r ((do
      pushTask r (.block extent header)
      pushTask r (.visit body) : Turn Unit) m) :=
  (shrinks_pushTask _ h).bind fun _ _ h => shrinks_pushTask _ (h.push rfl)

/-- A block is opened where there is room for the shortest header of its size in the lag. -/
theorem shrinks_openBlock {size : Nat} (hp : m.pending = none) (hs : size < UInt32.size)
    (h : Lags r.framing.reserved m.tasks (m.output.length + (Leb128.unsigned size).length)
      m.position) (body : Nat) : Shrinks r ((do
      let extent ← enterBlock src size
      let header ← openBlock r
      pushTask r (.block extent header)
      pushTask r (.visit body) : Turn Unit) m) := by
  obtain ⟨stop, hstop⟩ : ∃ p, p = Position.ofByte (min (m.position + size) addressLimit) :=
    ⟨_, rfl⟩
  by_cases he : stop ≤ src.measure m.bounds
  · have he : enterBlock src size m =
        .ok ⟨m.position, stop⟩ { m with bounds := stop :: m.bounds } := by
      rw [hstop] at he ⊢
      exact if_pos he
    rw [bind_of_ok he]
    by_cases ho : m.output.length + (Leb128.padded r.framing.reserved 0).length ≤ addressLimit
    · have ho : openBlock r { m with bounds := stop :: m.bounds } = .ok _ _ := if_pos ho
      rw [bind_of_ok ho]
      have hbyte : stop.byte ≤ m.position + size := by
        rw [hstop, Position.byte_ofByte]
        exact Nat.min_le_left ..
      refine shrinks_pushBlock body (lagging_of_lags hp ?_)
      simp only [List.length_append, Leb128.length_padded_of_pos r.reserved_pos]
      exact Lags.opened hs rfl hbyte h
    · have ho : openBlock r { m with bounds := stop :: m.bounds } = .error _ _ := if_neg ho
      rw [bind_of_error ho]
      exact fun _ => rfl
  · have he : enterBlock src size m = .error _ _ := if_neg (hstop ▸ he)
    rw [bind_of_error he]
    exact fun _ => rfl

/-- What was read is put out in no more bytes, or is a size. -/
theorem shrinks_complete {p : Pending} {word : UInt64} (hp : m.pending = none)
    (hw : p.partialValue.kind.fits word = true)
    (hg : ∀ body, p.goal = .blockSize body → p.partialValue.kind = .varuint32)
    (h : Lags r.framing.reserved m.tasks
      (m.output.length + (p.partialValue.kind.bytes word).length) m.position) :
    Shrinks r (complete r src p word m) := by
  unfold complete
  cases hgoal : p.goal with
  | value => exact shrinks_passOn hp h
  | loopCount id body => exact (shrinks_passOn hp h).bind fun _ _ h => shrinks_pushTask _ (h.push rfl)
  | blockSize body =>
    rw [hg body hgoal] at hw h
    have hsize : word.toNat < 1 <<< 32 := of_decide_eq_true hw
    exact shrinks_openBlock hp hsize h body

theorem shrinks_readOn {p : Pending} (h : m.Lagging r) (hp : m.pending = some p) :
    Shrinks r (readOn r src p { m with pending := none }) := by
  obtain ⟨hk, ⟨begun, hb, hposition⟩, hg⟩ := h.pending p hp
  have hlags := h.stack
  simp only [valueStart, hp] at hlags
  unfold readOn
  split
  · rename_i word position q hr
    obtain ⟨bytes, hc, -, rfl⟩ := Source.completes_of_read hr
    have hwhole := hb.completes hc
    have hlen := hwhole.length_bytes_le hk
    have hfits := PartialValue.kind_start p.partialValue.kind ▸
      hwhole.fits (PartialValue.fair_start p.partialValue.kind)
    have hroom : Lags r.framing.reserved m.tasks
        (m.output.length + (p.partialValue.kind.bytes word).length) (m.position + bytes.length) := by
      rw [List.length_append] at hlen
      exact hlags.move (by omega)
    have hcomplete : Shrinks r (complete r src p word
      { m with pending := none, position := m.position + bytes.length }) :=
      shrinks_complete rfl hfits hg hroom
    exact hcomplete.answer .advanced
  · rename_i cause position q hr
    split
    · rename_i hx
      obtain ⟨bytes, rfl, hbytes⟩ := Source.begun_of_read hr hx
      have hq := hbytes _ begun hb
      have hkind := hq.kind_eq
      refine ⟨hlags, fun p' hp' => ?_⟩
      obtain rfl := Option.some.inj hp'
      refine ⟨hkind ▸ hk, ⟨begun ++ bytes, hkind.symm ▸ hq, ?_⟩, fun body hg' =>
        hkind.trans (hg body hg')⟩
      rw [List.length_append]
      simp only
      omega
    · exact fun _ => Failure.oversized_ofStream cause

theorem shrinks_checkTrailing (h : m.Lagging r) : Shrinks r (checkTrailing r src m) := by
  unfold checkTrailing
  split
  · exact h
  · split
    · exact fun _ => rfl
    · split <;> exact h

/-- A step keeps the output behind the input. It fails over no block if five chunks are reserved. -/
theorem shrinks_step (hu : r.schema.Unpadded) (hm : r.framing.minimize = true)
    (h : m.Lagging r) (ho : m.Orderly src.bytes.length) : Shrinks r (step r src m) := by
  cases hp : m.pending with
  | some p =>
    rw [step_of_pending hp]
    exact shrinks_readOn h hp
  | none =>
    cases ht : m.tasks with
    | nil =>
      rw [step_of_none hp ht]
      exact shrinks_checkTrailing h
    | cons task rest =>
      rw [step_of_task hp ht]
      exact shrinks_doTask hu hm h hp ho ht

end Machine

end Transcoder

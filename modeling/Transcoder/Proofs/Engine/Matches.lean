import Transcoder.Engine.Run
import Transcoder.Proofs.Machine.Order

/-!
# An engine does what its machine does

`Matches` ties an engine to the machine that it is without its tapes: the reader stands where the
machine does, the output tape carries the machine's output and every open header can still be
patched. `Tracks` says that a piece of an engine's step and the same piece of a machine's end alike.

Results:
* `Matches.step`: a step of an engine tracks that of its machine.
-/
namespace Transcoder

/-- The engine is the machine, on tapes. -/
structure Matches (s : Setting) (src : Source) (e : Engine) (m : Machine) : Prop where
  setting : e.setting = s
  input : Stands e.reader e.input src
  position : e.reader.address = m.position
  bounds : e.reader.bounds = m.bounds
  output : AtEnd e.writer e.output m.output
  tasks : e.tasks.map Task.flat = m.tasks
  pinned : ∀ h ∈ e.openHeaders, h.Pinned e.output
  pending : e.pending = m.pending
  hook : e.hook = m.hook
  calls : e.calls = m.calls
  values : e.values = m.values
  kept : e.output.start ≤ s.drained

/-- What is left of that once the engine is through. -/
structure Spent (s : Setting) (e : Engine) (m : Machine) : Prop where
  setting : e.setting = s
  output : e.output.Carries m.output
  tasks : e.tasks.map Task.flat = m.tasks
  calls : e.calls = m.calls
  values : e.values = m.values
  kept : e.output.start ≤ s.drained

/-- Two pieces of work end alike: both succeed, with results in `rel`, or both fail for one
reason. -/
def Tracks (s : Setting) (src : Source) {α β : Type} (rel : Engine → α → β → Prop) :
    EStateM.Result Failure Engine α → EStateM.Result Failure Machine β → Prop
  | .ok a e, .ok b m => rel e a b ∧ Matches s src e m
  | .error x e, .error y m => x = y ∧ Spent s e m
  | _, _ => False

/-- The results are equal. -/
def Same {α : Type} (_ : Engine) (a b : α) : Prop := a = b

section Tracks

variable {s : Setting} {src : Source} {α β γ δ : Type} {rel : Engine → α → β → Prop}
  {rel' : Engine → γ → δ → Prop}

theorem Tracks.ok {a : α} {b : β} {e : Engine} {m : Machine} (hr : rel e a b)
    (h : Matches s src e m) : Tracks s src rel (.ok a e) (.ok b m) := ⟨hr, h⟩

theorem Tracks.error {x : Failure} {e : Engine} {m : Machine} (h : Spent s e m) :
    Tracks s src rel (.error x e) (.error x m) := ⟨rfl, h⟩

theorem Tracks.bind {act : Stepping α} {turn : Turn β} {next : α → Stepping γ}
    {next' : β → Turn δ} {e : Engine} {m : Machine} (h : Tracks s src rel (act e) (turn m))
    (k : ∀ a b e' m', rel e' a b → Matches s src e' m' →
      Tracks s src rel' (next a e') (next' b m')) :
    Tracks s src rel' ((act >>= next) e) ((turn >>= next') m) := by
  simp only [Bind.bind, EStateM.bind]
  cases ha : act e with
  | ok a e' =>
    cases hb : turn m with
    | ok b m' =>
      rw [ha, hb] at h
      exact k a b e' m' h.1 h.2
    | error y m' =>
      rw [ha, hb] at h
      exact h.elim
  | error x e' =>
    cases hb : turn m with
    | ok b m' =>
      rw [ha, hb] at h
      exact h.elim
    | error y m' =>
      rw [ha, hb] at h
      exact h

theorem Tracks.of_ok {a : α} {e : Engine} {res : EStateM.Result Failure Machine β}
    (h : Tracks s src rel (.ok a e) res) :
    ∃ b m, res = .ok b m ∧ rel e a b ∧ Matches s src e m := by
  cases res with
  | ok b m => exact ⟨b, m, rfl, h⟩
  | error => exact h.elim

theorem Tracks.of_error {x : Failure} {e : Engine} {res : EStateM.Result Failure Machine β}
    (h : Tracks s src rel (.error x e) res) : ∃ m, res = .error x m ∧ Spent s e m := by
  cases res with
  | ok => exact h.elim
  | error y m =>
    obtain ⟨rfl, hs⟩ := h
    exact ⟨m, rfl, hs⟩

/-- A unit of work, and then a fixed answer. -/
theorem Tracks.answer {act : Stepping Unit} {turn : Turn Unit} {e : Engine} {m : Machine}
    (h : Tracks s src Same (act e) (turn m)) (p : Progress) :
    Tracks s src Same ((do act; return p : Stepping Progress) e)
      ((do turn; return p : Turn Progress) m) :=
  h.bind fun _ _ _ _ _ h' => .ok rfl h'

end Tracks

namespace Engine

variable {e : Engine} {α : Type} {act : Writing EncodeError α} {t : Tape} {w : Writer}

theorem writing_of_ok {a : α} (h : act (e.output, e.writer) = .ok a (t, w)) :
    writing act e = .ok a { e with output := t, writer := w } := by
  simp only [writing, h]

theorem writing_of_error {x : EncodeError} (h : act (e.output, e.writer) = .error x (t, w)) :
    writing act e = .error (.ofEncode x) { e with output := t, writer := w } := by
  simp only [writing, h]

theorem step_of_pending {p : Pending} (h : e.pending = some p) :
    step e = readOn p { e with pending := none } := by
  unfold step
  split <;> simp_all

theorem step_of_task {task : Task} {rest : List Task} (h : e.pending = none)
    (ht : e.tasks = task :: rest) : step e = doTask task { e with tasks := rest } := by
  unfold step
  split <;> simp_all

theorem step_of_none (h : e.pending = none) (ht : e.tasks = []) : step e = checkTrailing e := by
  unfold step
  split <;> simp_all

end Engine

namespace Matches

variable {s : Setting} {src : Source} {e : Engine} {m : Machine}

theorem spent (h : Matches s src e m) : Spent s e m :=
  ⟨h.setting, h.output.carries, h.tasks, h.calls, h.values, h.kept⟩

theorem failed {α β : Type} {rel : Engine → α → β → Prop} (h : Matches s src e m) (x : Failure) :
    Tracks s src rel (.error x e) (.error x m) := .error h.spent

theorem rules (h : Matches s src e m) : Rules.of e.schema e.config = s.rules := h.setting ▸ rfl

theorem config (h : Matches s src e m) : e.config = s.config := h.setting ▸ rfl

theorem schema (h : Matches s src e m) : e.schema = s.schema := h.setting ▸ rfl

theorem depth (h : Matches s src e m) : e.tasks.length = m.tasks.length := by
  rw [← h.tasks, List.length_map]

theorem here (h : Matches s src e m) : e.reader.position = .ofByte m.position := by
  have hb : e.reader.bits = [] := h.input.sound.bits
  simp only [Cursor.position, hb, List.length_nil, Nat.sub_zero, h.position, Position.ofByte]

theorem stop (h : Matches s src e m) : e.reader.stop e.input = src.stop m.bounds :=
  h.bounds ▸ h.input.stop

theorem available (h : Matches s src e m) :
    e.reader.available e.input = src.bytes.length - m.position := by
  rw [Cursor.available, h.input.carries.fill, h.position]

/-! ## Tasks -/

/-- A task is put on both stacks; if it closes a block, its header can be patched. -/
theorem push (h : Matches s src e m) (task : Task)
    (hp : ∀ hd, task.header? = some hd → hd.Pinned e.output) :
    Matches s src { e with tasks := task :: e.tasks } { m with tasks := task.flat :: m.tasks } := by
  refine { h with tasks := ?_, pinned := ?_ }
  · rw [List.map_cons, h.tasks]
  · intro hd hm
    simp only [Engine.openHeaders, List.filterMap_cons] at hm
    split at hm
    · exact h.pinned hd hm
    · rename_i hd' hh
      rcases List.mem_cons.1 hm with rfl | hm
      · exact hp hd hh
      · exact h.pinned hd hm

theorem putBack (h : Matches s src e m) (task : Task)
    (hp : ∀ hd, task.header? = some hd → hd.Pinned e.output) :
    Tracks s src Same (Engine.putBack task e) (Machine.putBack task.flat m) :=
  .ok rfl (h.push task hp)

theorem pushTask (h : Matches s src e m) (task : Task)
    (hp : ∀ hd, task.header? = some hd → hd.Pinned e.output) :
    Tracks s src Same (Engine.pushTask task e) (Machine.pushTask s.rules task.flat m) := by
  have hn : s.rules.maxNesting = e.config.maxNesting := by rw [h.config]; rfl
  unfold Engine.pushTask Machine.pushTask
  rw [h.depth, hn]
  split
  · exact h.failed _
  · exact .ok rfl (h.push task hp)

/-- The next task is taken off both stacks. -/
theorem pop (h : Matches s src e m) {task : Task} {rest : List Task} (ht : e.tasks = task :: rest) :
    Matches s src { e with tasks := rest } { m with tasks := rest.map Task.flat } := by
  refine { h with tasks := rfl, pinned := ?_ }
  intro hd hm
  apply h.pinned hd
  simp only [Engine.openHeaders, ht, List.filterMap_cons]
  split
  · exact hm
  · exact List.mem_cons_of_mem _ hm

/-! ## Output -/

/-- Both outputs get to be `out`. -/
theorem written (h : Matches s src e m) {t : Tape} {w : Writer} {out : List UInt8}
    (hw : AtEnd w t out) (hg : e.output.Grows t) :
    Matches s src { e with output := t, writer := w } { m with output := out } :=
  { h with
    output := hw
    pinned := fun hd hm => (h.pinned hd hm).keeps hg
    kept := hg.start.symm ▸ h.kept }

/-- The engine stops in the middle of its output. -/
theorem spoiled (h : Matches s src e m) {t : Tape} {w : Writer} {out : List UInt8}
    (hc : t.Carries out) (hg : e.output.Grows t) :
    Spent s { e with output := t, writer := w } { m with output := out } :=
  ⟨h.setting, hc, h.tasks, h.calls, h.values, hg.start.symm ▸ h.kept⟩

theorem writeValue (h : Matches s src e m) (kind : IntKind) (word : UInt64) :
    Tracks s src Same (Engine.writing (Cursor.writeValue kind word) e)
      (Machine.writeValue kind word m) := by
  unfold Machine.writeValue
  by_cases hf : kind.fits word = true
  · rw [if_pos hf]
    by_cases hl : m.output.length + (kind.bytes word).length ≤ addressLimit
    · obtain ⟨t, w, he, hw, hg⟩ := h.output.writeValue hf hl
      rw [if_pos hl, Engine.writing_of_ok he]
      exact .ok rfl (h.written hw hg)
    · obtain ⟨t, w, he, hc, hg⟩ := h.output.writeValue_outOfSpace hf (by omega)
      rw [if_neg hl, Engine.writing_of_error he]
      exact .error (h.spoiled hc hg)
  · have hf : kind.fits word = false := by simpa using hf
    rw [if_neg (by simp [hf]), Engine.writing_of_error (AtEnd.writeValue_misfit hf)]
    exact .error h.spent

/-- A header is reserved on both sides, and it can be patched. -/
theorem openBlock (h : Matches s src e m) :
    Tracks s src (fun e hd hd' => hd' = hd.flat ∧ hd.Pinned e.output) (Engine.openBlock e)
      (Machine.openBlock s.rules m) := by
  have hr : e.config.framing = s.rules.framing := by rw [h.config]; rfl
  unfold Engine.openBlock
  rw [hr]
  by_cases hl : m.output.length + (Leb128.padded s.rules.framing.reserved 0).length ≤ addressLimit
  · obtain ⟨t, w, he, hw, hg⟩ := h.output.beginBlock hl
    have hm : Machine.openBlock s.rules m = .ok _ _ := if_pos hl
    rw [hm, Engine.writing_of_ok he]
    refine .ok ⟨?_, ?_⟩ (h.written hw hg)
    · simp only [OpenHeader.flat, OpenHeader.start, h.output.atEnd]
    · exact ⟨h.output.sound.keeps hg, h.output.bounds, hg.start.symm ▸ h.output.start_le⟩
  · obtain ⟨t, w, he, hc, hg⟩ := h.output.beginBlock_outOfSpace (f := s.rules.framing) (by omega)
    have hm : Machine.openBlock s.rules m = .error _ _ := if_neg hl
    rw [hm, Engine.writing_of_error he]
    exact .error (h.spoiled hc hg)

/-- A block is closed on both sides, if its header can be patched and its body is there. -/
theorem closeBlock (h : Matches s src e m) {hd : OpenHeader} (hp : hd.Pinned e.output)
    (hr : 0 < hd.reserved) (hb : hd.bodyStart ≤ m.output.length) :
    Tracks s src Same (Engine.closeBlock hd e) (Machine.closeBlock s.rules hd.flat m) := by
  have hf : e.config.framing = s.rules.framing := by rw [h.config]; rfl
  by_cases hs : headerLimit hd.reserved < bodySize hd.start m.output.length hd.reserved
  · have he : Engine.closeBlock hd e = .error _ _ :=
      Engine.writing_of_error (discard_of_error (h.output.finishBlock_tooLarge hs))
    have hm : Machine.closeBlock s.rules hd.flat m = .error _ _ := if_pos hs
    rw [he, hm]
    exact .error h.spent
  · obtain ⟨t, w, he, hw, hg⟩ := h.output.finishBlock (f := e.config.framing) hp hr hb
      (by omega)
    have he : Engine.closeBlock hd e = .ok _ _ := Engine.writing_of_ok (discard_of_ok he)
    have hm : Machine.closeBlock s.rules hd.flat m = .ok _ _ := if_neg hs
    rw [he, hm]
    exact .ok rfl (h.written (hf ▸ hw) hg)

/-! ## Values, actions and blocks of the input -/

theorem record (h : Matches s src e m) (kind : IntKind) (word : UInt64) (address : Nat) :
    Tracks s src Same (Engine.record kind word address e)
      (Machine.record s.rules kind word address m) := by
  have hc : s.rules.collect = e.config.collect := by rw [h.config]; rfl
  unfold Engine.record Machine.record
  rw [hc]
  split
  · exact .ok rfl { h with values := by rw [h.values] }
  · exact .ok rfl h

theorem passOn (h : Matches s src e m) (p : Pending) (word : UInt64) :
    Tracks s src Same (Engine.passOn p word e) (Machine.passOn s.rules p word m) :=
  (h.writeValue p.partialValue.kind word).bind fun _ _ _ _ _ h' => h'.record _ _ _

theorem beginValue (h : Matches s src e m) (goal : Goal) (kind : IntKind) :
    Tracks s src Same (Engine.beginValue goal kind e) (Machine.beginValue goal kind m) :=
  .ok rfl { h with pending := by rw [h.position] }

theorem runAction (h : Matches s src e m) (action : Nat) :
    Tracks s src Same (Engine.runAction action e) (Machine.runAction action m) := by
  unfold Engine.runAction Machine.runAction
  rw [h.hook]
  cases m.hook with
  | none => exact .ok rfl h
  | some hook =>
    simp only [h.position, h.output.atEnd]
    have h' : Matches s src
        { e with
          hook := some { hook with asked := ⟨action, m.position, m.output.length⟩ :: hook.asked }
          calls := e.calls.push (⟨action, m.position, m.output.length⟩,
            hook.answer hook.asked ⟨action, m.position, m.output.length⟩) }
        { m with
          hook := some { hook with asked := ⟨action, m.position, m.output.length⟩ :: hook.asked }
          calls := m.calls.push (⟨action, m.position, m.output.length⟩,
            hook.answer hook.asked ⟨action, m.position, m.output.length⟩) } :=
      { h with hook := rfl, calls := by rw [h.calls] }
    split
    · exact .ok rfl h'
    · exact h'.failed _

/-- The innermost ends of the reader change. -/
theorem rebound (h : Matches s src e m) {bounds bounds' : List Position} (hb : bounds = bounds') :
    Matches s src { e with reader := { e.reader with bounds := bounds }.refresh e.input }
      { m with bounds := bounds' } :=
  { h with
    input := h.input.rebound bounds
    bounds := hb }

theorem enterBlock (h : Matches s src e m) (size : Nat) :
    Tracks s src Same (Engine.enterBlock size e) (Machine.enterBlock src size m) := by
  have hm : e.reader.stop e.input = src.measure m.bounds := h.bounds ▸ h.input.measure
  have hp : Position.ofByte (min (e.reader.address + size) (UInt64.size - 1)) =
      Position.ofByte (min (m.position + size) addressLimit) := by
    rw [h.position]
    rfl
  unfold Engine.enterBlock Cursor.enterSized Cursor.pushBound Machine.enterBlock
  simp only [hm, hp]
  by_cases hs : Position.ofByte (min (m.position + size) addressLimit) ≤ src.measure m.bounds
  · simp only [if_pos hs]
    exact .ok (by rw [h.position]; rfl) (h.rebound (by rw [h.bounds]))
  · simp only [if_neg hs]
    exact h.failed _

/-- Leaving a block does nothing to the output. -/
theorem leaveBlock (h : Matches s src e m) (extent : Extent) :
    Tracks s src (fun e' _ _ => e'.output = e.output) (Engine.leaveBlock extent e)
      (Machine.leaveBlock extent m) := by
  unfold Engine.leaveBlock Cursor.leave Cursor.popBound Machine.leaveBlock
  rw [h.here]
  by_cases hs : Position.ofByte m.position = extent.stop
  · rw [if_pos hs, if_pos hs]
    have hb := h.bounds
    cases hm : m.bounds with
    | nil =>
      rw [hm] at hb
      rw [hb]
      exact h.failed _
    | cons p outer =>
      rw [hm] at hb
      rw [hb]
      exact .ok rfl (h.rebound rfl)
  · rw [if_neg hs, if_neg hs]
    exact h.failed _

/-! ## Steps -/

/-- A task that closes no block. -/
theorem pushWork (h : Matches s src e m) {task : Task} (hf : task.flat = task)
    (hn : task.header? = none) :
    Tracks s src Same (Engine.pushTask task e) (Machine.pushTask s.rules task m) := by
  have := h.pushTask task (by simp [hn])
  rwa [hf] at this

theorem putBackWork (h : Matches s src e m) {task : Task} (hf : task.flat = task)
    (hn : task.header? = none) :
    Tracks s src Same (Engine.putBack task e) (Machine.putBack task m) := by
  have := h.putBack task (by simp [hn])
  rwa [hf] at this

theorem complete (h : Matches s src e m) (p : Pending) (word : UInt64) :
    Tracks s src Same (Engine.complete p word e) (Machine.complete s.rules src p word m) := by
  unfold Engine.complete Machine.complete
  cases p.goal with
  | value => exact h.passOn p word
  | loopCount id body =>
    exact (h.passOn p word).bind fun _ _ _ _ _ h => h.pushWork rfl rfl
  | blockSize body =>
    refine (h.enterBlock _).bind ?_
    intro extent extent' _ _ hx h
    refine h.openBlock.bind ?_
    intro hd hd' _ _ hh h
    obtain ⟨rfl, hp⟩ := hh
    obtain rfl : extent = extent' := hx
    refine (h.pushTask (.block extent hd) fun hd₁ e₁ => ?_).bind
      fun _ _ _ _ _ h => h.pushWork rfl rfl
    simp only [Task.header?, Option.some.injEq] at e₁
    exact e₁ ▸ hp

/-- Both read on in a value alike. -/
theorem resume (h : Matches s src e m) (p : PartialValue) :
    ∃ c, e.reader.resume e.input p = ((src.read m.bounds m.position p).1, c,
        (src.read m.bounds m.position p).2.2) ∧
      Matches s src { e with reader := c }
        { m with position := (src.read m.bounds m.position p).2.1 } := by
  obtain ⟨c, hc, hs, hb, ha⟩ := h.input.resume p
  rw [h.bounds, h.position] at hc ha
  exact ⟨c, hc, { h with input := hs, bounds := hb.trans h.bounds, position := ha }⟩

theorem readOn (h : Matches s src e m) (p : Pending) :
    Tracks s src Same (Engine.readOn p e) (Machine.readOn s.rules src p m) := by
  obtain ⟨c, hc, h'⟩ := h.resume p.partialValue
  unfold Engine.readOn Machine.readOn
  rw [hc]
  match hr : src.read m.bounds m.position p.partialValue with
  | (.ok word, position, _) =>
    rw [hr] at h'
    exact (h'.complete p word).answer .advanced
  | (.error cause, position, partialValue) =>
    rw [hr] at h'
    simp only
    by_cases hc : cause.suspends = true
    · rw [if_pos hc, if_pos hc]
      exact .ok rfl { h' with pending := rfl }
    · rw [if_neg hc, if_neg hc]
      exact h'.failed _

theorem visit (h : Matches s src e m) (id : Nat) :
    Tracks s src Same (Engine.visit id e) (Machine.visit s.rules id m) := by
  have hn : s.rules.schema.node? id = e.schema.node? id := by rw [h.schema]; rfl
  unfold Engine.visit Machine.visit
  rw [hn]
  cases e.schema.node? id with
  | none => exact h.failed _
  | some node =>
    cases node with
    | value kind => exact h.beginValue _ _
    | action action => exact h.runAction _
    | sequence children => exact h.pushWork rfl rfl
    | loop count body => exact h.beginValue _ _
    | block body => exact h.beginValue _ _
    | untilEof body => exact h.pushWork rfl rfl
    | unknown opcode => exact h.failed _

theorem nextChild (h : Matches s src e m) (children : List Nat) :
    Tracks s src Same (Engine.nextChild children e) (Machine.nextChild s.rules children m) := by
  cases children with
  | nil => exact .ok rfl h
  | cons child rest =>
    exact (h.putBackWork rfl rfl).bind fun _ _ _ _ _ h => h.pushWork rfl rfl

theorem nextRepetition (h : Matches s src e m) (id body : Nat) (last : Option Position)
    (remaining : Nat) : Tracks s src Same (Engine.nextRepetition id body last remaining e)
      (Machine.nextRepetition s.rules id body last remaining m) := by
  cases remaining with
  | zero => exact .ok rfl h
  | succ remaining =>
    simp only [Engine.nextRepetition, Machine.nextRepetition, h.here]
    by_cases hl : last = some (.ofByte m.position)
    · rw [if_pos hl, if_pos hl]
      exact h.failed _
    · rw [if_neg hl, if_neg hl]
      exact (h.putBackWork rfl rfl).bind fun _ _ _ _ _ h => h.pushWork rfl rfl

theorem finishBlock (h : Matches s src e m) (extent : Extent) {hd : OpenHeader}
    (hp : hd.Pinned e.output) (hr : 0 < hd.reserved) (hb : hd.bodyStart ≤ m.output.length) :
    Tracks s src Same (Engine.finishBlock extent hd e)
      (Machine.finishBlock s.rules extent hd.flat m) := by
  refine (h.leaveBlock extent).bind ?_
  intro _ _ e' m' ho h'
  have hl : m'.output.length = m.output.length := by
    rw [← h'.output.carries.fill, ho, h.output.carries.fill]
  exact h'.closeBlock (ho ▸ hp) hr (hl ▸ hb)

theorem repeatToEnd (h : Matches s src e m) (id body : Nat) (last : Option Position) :
    Tracks s src Same (Engine.repeatToEnd id body last e)
      (Machine.repeatToEnd s.rules src id body last m) := by
  unfold Engine.repeatToEnd Machine.repeatToEnd
  rw [h.here, h.stop, h.available, h.bounds]
  split
  · exact .ok rfl h
  · split
    · exact h.failed _
    · split
      · exact (h.putBackWork rfl rfl).bind fun _ _ _ _ _ h => .ok rfl h
      · refine (h.putBackWork rfl rfl).bind ?_
        intro _ _ _ _ _ h
        exact (h.pushWork rfl rfl).bind fun _ _ _ _ _ h => .ok rfl h

theorem checkTrailing (h : Matches s src e m) :
    Tracks s src Same (Engine.checkTrailing e) (Machine.checkTrailing s.rules src m) := by
  have hr : s.rules.rejectTrailing = e.config.rejectTrailing := by rw [h.config]; rfl
  have he : e.input.eof.isSome = src.closed := by
    rw [h.input.eof, Source.eof]
    cases src.closed <;> rfl
  unfold Engine.checkTrailing Machine.checkTrailing
  rw [h.available, hr, he]
  split
  · exact .ok rfl h
  · split
    · exact h.failed _
    · split
      · exact .ok rfl h
      · exact .ok rfl h

/-- One step, on a stack that fits the output. -/
theorem step {n : Nat} (h : Matches s src e m) (ho : m.Orderly n) :
    Tracks s src Same (Engine.step e) (Machine.step s.rules src m) := by
  have hp := h.pending
  have ht := h.tasks
  cases hm : m.pending with
  | some p =>
    rw [hm] at hp
    rw [Engine.step_of_pending hp, Machine.step_of_pending hm]
    have h' : Matches s src { e with pending := none } { m with pending := none } :=
      { h with pending := rfl }
    exact h'.readOn p
  | none =>
    rw [hm] at hp
    cases he : e.tasks with
    | nil =>
      rw [he] at ht
      rw [Engine.step_of_none hp he, Machine.step_of_none hm ht.symm]
      exact h.checkTrailing
    | cons task rest =>
      rw [he, List.map_cons] at ht
      rw [Engine.step_of_task hp he, Machine.step_of_task hm ht.symm]
      have h' := h.pop he
      cases task with
      | visit id => exact (h'.visit id).answer .advanced
      | sequence children => exact (h'.nextChild children).answer .advanced
      | loop id body remaining last =>
        exact (h'.nextRepetition id body last remaining).answer .advanced
      | block extent header =>
        rw [Machine.Orderly, ← ht] at ho
        have hp : header.Pinned e.output := h.pinned header (by
          simp [Engine.openHeaders, he, Task.header?])
        exact (h'.finishBlock extent hp ho.1 ho.2.1).answer .advanced
      | untilEof id body last => exact h'.repeatToEnd id body last

end Matches

/-- The outermost open block holds the output back. -/
theorem heldBelow_flat (tasks : List Task) (top : Nat) : heldBelow (tasks.map Task.flat) top =
    ((tasks.filterMap Task.header?).getLast?.map OpenHeader.start).getD top := by
  induction tasks generalizing top with
  | nil => rfl
  | cons task rest ih =>
    cases task with
    | visit | sequence | loop | untilEof => exact ih top
    | block extent header =>
      have hl : ((Task.block extent header :: rest).filterMap Task.header?).getLast? =
          some ((rest.filterMap Task.header?).getLast?.getD header) := List.getLast?_cons
      rw [hl]
      refine (ih header.start).trans ?_
      cases (rest.filterMap Task.header?).getLast? <;> rfl

/-- Both agree on how much output is final. -/
theorem Spent.drainableEnd {s : Setting} {e : Engine} {m : Machine} (h : Spent s e m) :
    e.drainableEnd = m.held := by
  rw [Engine.drainableEnd, Machine.held, ← h.tasks, heldBelow_flat, h.output.fill]
  unfold Engine.openHeaders
  cases (e.tasks.filterMap Task.header?).getLast? <;> rfl

end Transcoder

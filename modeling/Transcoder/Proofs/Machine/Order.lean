import Transcoder.Proofs.Machine.Basic

/-!
# The stack of a machine

The blocks on a stack lie in each other: outside in, each header starts behind the header around it,
and the innermost one has its body at the end of the output. `Stacked` says so, and that the blocks
are those the reader is in. Output before the outermost header is *held*, that is final.

Results:
* `Machine.leaves_step`: a step keeps the order of the stack, keeps the output that was final and
  takes nothing of it back.
-/
namespace Transcoder

/-- The stack `tasks` fits the block ends `bounds` of the input and an output of `top` bytes.
Outside all blocks, a loop to the end has begun its repetitions below the `n` bytes of the input. -/
def Stacked (n : Nat) : List Task → List Position → Nat → Prop
  | [], bounds, _ => bounds = []
  | .block extent header :: rest, bounds, top =>
    0 < header.reserved ∧ header.bodyStart ≤ top ∧
      ∃ outer, bounds = extent.stop :: outer ∧ Stacked n rest outer header.start
  | .untilEof _ _ last :: rest, bounds, top =>
    (bounds = [] → ∀ a, last = some (.ofByte a) → a < n) ∧ Stacked n rest bounds top
  | _ :: rest, bounds, top => Stacked n rest bounds top

/-- The start of the outermost block on the stack, else `top`. -/
def heldBelow : List Task → (top : Nat) → Nat
  | [], top => top
  | .block _ header :: rest, _ => heldBelow rest header.start
  | _ :: rest, top => heldBelow rest top

/-- A task that says nothing about blocks or earlier repetitions. -/
def Task.Plain : Task → Prop
  | .block .. => False
  | .untilEof _ _ (some _) => False
  | _ => True

namespace Stacked

variable {n n' : Nat} {tasks : List Task} {bounds : List Position} {top top' : Nat}

theorem mono (h : Stacked n tasks bounds top) (hn : n ≤ n') (ht : top ≤ top') :
    Stacked n' tasks bounds top' := by
  induction tasks generalizing bounds top top' with
  | nil => exact h
  | cons task rest ih =>
    cases task with
    | visit | sequence | loop => exact ih h ht
    | block extent header =>
      obtain ⟨hr, hb, outer, ho, hs⟩ := h
      exact ⟨hr, Nat.le_trans hb ht, outer, ho, ih hs (Nat.le_refl _)⟩
    | untilEof id body last =>
      obtain ⟨hl, hs⟩ := h
      exact ⟨fun hb a ha => Nat.lt_of_lt_of_le (hl hb a ha) hn, ih hs ht⟩

theorem heldBelow_le (h : Stacked n tasks bounds top) : heldBelow tasks top ≤ top := by
  induction tasks generalizing bounds top with
  | nil => exact Nat.le_refl _
  | cons task rest ih =>
    cases task with
    | visit | sequence | loop => exact ih h
    | block extent header =>
      obtain ⟨-, hb, outer, -, hs⟩ := h
      exact Nat.le_trans (ih hs) (Nat.le_trans (Nat.le_add_right ..) hb)
    | untilEof => exact ih h.2

theorem push {task : Task} (ht : task.Plain) (h : Stacked n tasks bounds top) :
    Stacked n (task :: tasks) bounds top := by
  cases task with
  | visit | sequence | loop => exact h
  | block => exact ht.elim
  | untilEof id body last =>
    cases last with
    | none => exact ⟨by simp, h⟩
    | some => exact ht.elim

/-- What is under a task that closes no block. -/
theorem tail {task : Task} (ht : task.header? = none) (h : Stacked n (task :: tasks) bounds top) :
    Stacked n tasks bounds top := by
  cases task with
  | visit | sequence | loop => exact h
  | block => simp [Task.header?] at ht
  | untilEof => exact h.2

/-- Outside all blocks, none is on the stack. -/
theorem headers_eq_nil (h : Stacked n tasks [] top) : tasks.filterMap Task.header? = [] := by
  induction tasks with
  | nil => rfl
  | cons task rest ih =>
    cases task with
    | visit | sequence | loop => exact ih h
    | block extent header =>
      obtain ⟨-, -, outer, hb, -⟩ := h
      cases hb
    | untilEof => exact ih h.2

end Stacked

theorem heldBelow_mono (tasks : List Task) {top top' : Nat} (h : top ≤ top') :
    heldBelow tasks top ≤ heldBelow tasks top' := by
  induction tasks generalizing top top' with
  | nil => exact h
  | cons task rest ih =>
    cases task with
    | visit | sequence | loop | untilEof => exact ih h
    | block => exact Nat.le_refl _

theorem heldBelow_cons {task : Task} (ht : task.header? = none) (tasks : List Task) (top : Nat) :
    heldBelow (task :: tasks) top = heldBelow tasks top := by
  cases task with
  | visit | sequence | loop | untilEof => rfl
  | block => simp [Task.header?] at ht

theorem Task.Plain.header? {task : Task} (ht : task.Plain) : task.header? = none := by
  cases task with
  | visit | sequence | loop | untilEof => rfl
  | block => exact ht.elim

namespace Machine

variable {n : Nat} {m m' m'' : Machine} {α β : Type}

/-- The stack fits the input and the output. -/
def Orderly (n : Nat) (m : Machine) : Prop := Stacked n m.tasks m.bounds m.output.length

/-- The stack fits the output. -/
def Loose (n : Nat) (m : Machine) : Prop := ∃ bounds, Stacked n m.tasks bounds m.output.length

theorem Orderly.loose (h : m.Orderly n) : m.Loose n := ⟨_, h⟩

/-- Output below this address is final. -/
def held (m : Machine) : Nat := heldBelow m.tasks m.output.length

theorem Loose.held_le (h : m.Loose n) : m.held ≤ m.output.length :=
  h.choose_spec.heldBelow_le

/-- What was final in `m` is so in `m'`. -/
structure Onward (m m' : Machine) : Prop where
  held : m.held ≤ m'.held
  final : m'.output.take m.held = m.output.take m.held

theorem Onward.refl (m : Machine) : Onward m m := ⟨Nat.le_refl _, rfl⟩

theorem Onward.trans (h : Onward m m') (k : Onward m' m'') : Onward m m'' := by
  refine ⟨Nat.le_trans h.held k.held, ?_⟩
  have := congrArg (List.take m.held) k.final
  rw [List.take_take, List.take_take, Nat.min_eq_left h.held] at this
  exact this.trans h.final

/-- Final output is the same in both. -/
theorem Onward.take_eq (h : Onward m m') {d : Nat} (hd : d ≤ m.held) :
    m'.output.take d = m.output.take d := by
  have := congrArg (List.take d) h.final
  rwa [List.take_take, List.take_take, Nat.min_eq_left hd] at this

/-- More output on the same stack. -/
theorem Onward.of_append (bytes : List UInt8) (h : m.Loose n) (ht : m'.tasks = m.tasks)
    (ho : m'.output = m.output ++ bytes) : Onward m m' := by
  constructor
  · rw [Machine.held, Machine.held, ht, ho, List.length_append]
    exact heldBelow_mono _ (Nat.le_add_right ..)
  · rw [ho, List.take_append_of_le_length h.held_le]

/-- What a piece of a step leaves of `m`, whether it succeeds or not. -/
def Leaves (n : Nat) (m : Machine) : EStateM.Result Failure Machine α → Prop
  | .ok _ m' => m'.Orderly n ∧ Onward m m'
  | .error _ m' => m'.Loose n ∧ Onward m m'

theorem Onward.leaves {res : EStateM.Result Failure Machine α} (h : Onward m m')
    (k : Leaves n m' res) : Leaves n m res := by
  cases res with
  | ok a m'' => exact ⟨k.1, h.trans k.2⟩
  | error x m'' => exact ⟨k.1, h.trans k.2⟩

theorem Leaves.bind {act : Turn α} {next : α → Turn β} (h : Leaves n m (act m))
    (k : ∀ a m', m'.Orderly n → Leaves n m' (next a m')) : Leaves n m ((act >>= next) m) := by
  simp only [Bind.bind, EStateM.bind]
  cases ha : act m with
  | error x m' =>
    rw [ha] at h
    exact h
  | ok a m' =>
    rw [ha] at h
    exact h.2.leaves (k a m' h.1)

theorem Leaves.answer {turn : Turn Unit} (h : Leaves n m (turn m')) (p : Progress) :
    Leaves n m ((do turn; return p : Turn Progress) m') := by
  simp only [Bind.bind, EStateM.bind]
  cases ht : turn m' with
  | ok u m'' =>
    rw [ht] at h
    exact h
  | error x m'' =>
    rw [ht] at h
    exact h

section Pieces

variable {r : Rules} {src : Source}

/-- Only things that the order does not look at have changed. -/
theorem Leaves.of_same (m' : Machine) (h : m.Orderly n) (ht : m'.tasks = m.tasks)
    (hb : m'.bounds = m.bounds)
    (ho : m'.output = m.output) : m'.Orderly n ∧ Onward m m' := by
  refine ⟨?_, .of_append [] h.loose ht (by rw [ho, List.append_nil])⟩
  rw [Orderly, ht, hb, ho]
  exact h

theorem leaves_failed (h : m.Orderly n) (x : Failure) :
    Leaves n m (.error x m : EStateM.Result Failure Machine α) := ⟨h.loose, .refl m⟩

theorem leaves_push {task : Task} (ht : task.header? = none)
    (hs : Stacked n (task :: m.tasks) m.bounds m.output.length) :
    Orderly n { m with tasks := task :: m.tasks } ∧
      Onward m { m with tasks := task :: m.tasks } := by
  refine ⟨hs, Nat.le_of_eq ?_, rfl⟩
  rw [held, held, heldBelow_cons ht]

theorem leaves_pushTask (h : m.Orderly n) (task : Task) (ht : task.Plain) :
    Leaves n m (pushTask r task m) := by
  unfold pushTask
  split
  · exact leaves_failed h _
  · exact leaves_push ht.header? (Stacked.push ht h)

theorem leaves_writeValue (h : m.Orderly n) (kind : IntKind) (word : UInt64) :
    Leaves n m (writeValue kind word m) := by
  unfold writeValue
  split
  · split
    · refine ⟨Stacked.mono h (Nat.le_refl _) ?_, .of_append _ h.loose rfl rfl⟩
      rw [List.length_append]
      exact Nat.le_add_right ..
    · exact leaves_failed h _
  · exact leaves_failed h _

theorem leaves_record (h : m.Orderly n) (kind : IntKind) (word : UInt64) (address : Nat) :
    Leaves n m (record r kind word address m) := by
  unfold record
  split
  · exact .of_same _ h rfl rfl rfl
  · exact ⟨h, .refl m⟩

theorem leaves_passOn (h : m.Orderly n) (p : Pending) (word : UInt64) :
    Leaves n m (passOn r p word m) :=
  (leaves_writeValue h _ _).bind fun _ _ h' => leaves_record h' _ _ _

theorem leaves_runAction (h : m.Orderly n) (action : Nat) : Leaves n m (runAction action m) := by
  unfold runAction
  cases m.hook with
  | none => exact ⟨h, .refl m⟩
  | some hook =>
    simp only
    split
    · exact .of_same _ h rfl rfl rfl
    · obtain ⟨ho, hn⟩ := Leaves.of_same { m with
        hook := some { hook with asked := ⟨action, m.position, m.output.length⟩ :: hook.asked }
        calls := m.calls.push (⟨action, m.position, m.output.length⟩,
          hook.answer hook.asked ⟨action, m.position, m.output.length⟩) } h rfl rfl rfl
      exact ⟨ho.loose, hn⟩

/-- A block goes on the stack once its header stands at the end of the output. -/
theorem leaves_pushBlock {bytes : List UInt8} {extent : Extent} {header : OpenHeader} {body : Nat}
    (h : m.Orderly n) (ht : m'.tasks = m.tasks) (hb : m'.bounds = extent.stop :: m.bounds)
    (ho : m'.output = m.output ++ bytes) (hs : header.start = m.output.length)
    (hr : 0 < header.reserved) (hl : header.reserved ≤ bytes.length) :
    Leaves n m ((do
      pushTask r (.block extent header)
      pushTask r (.visit body) : Turn Unit) m') := by
  have hlen : m'.output.length = m.output.length + bytes.length := by
    rw [ho, List.length_append]
  by_cases hp : r.maxNesting ≤ m'.tasks.length
  · rw [bind_of_error (pushTask_of_full hp)]
    refine ⟨⟨m.bounds, ?_⟩, .of_append _ h.loose ht ho⟩
    rw [ht, hlen]
    exact Stacked.mono h (Nat.le_refl _) (Nat.le_add_right ..)
  · rw [bind_of_ok (pushTask_of_room hp)]
    refine Onward.leaves ⟨?_, ?_⟩ (leaves_pushTask ?_ _ trivial)
    · rw [held, held, ht]
      exact heldBelow_mono _ (Nat.le_of_eq hs.symm)
    · show m'.output.take m.held = m.output.take m.held
      rw [ho, List.take_append_of_le_length h.loose.held_le]
    · refine ⟨hr, ?_, m.bounds, hb, ?_⟩
      · show header.start + header.reserved ≤ m'.output.length
        omega
      · rw [ht, hs]
        exact h

/-- A block is opened at the end of the output, inside all that are open. -/
theorem leaves_openBlock (h : m.Orderly n) (size body : Nat) :
    Leaves n m ((do
      let extent ← enterBlock src size
      let header ← openBlock r
      pushTask r (.block extent header)
      pushTask r (.visit body) : Turn Unit) m) := by
  have hl := Leb128.length_padded r.framing.reserved 0
  have hr := r.reserved_pos
  obtain ⟨stop, hstop⟩ : ∃ p, p = Position.ofByte (min (m.position + size) addressLimit) :=
    ⟨_, rfl⟩
  by_cases he : stop ≤ src.measure m.bounds
  · have he : enterBlock src size m =
        .ok ⟨m.position, stop⟩ { m with bounds := stop :: m.bounds } := by
      rw [hstop] at he ⊢
      exact if_pos he
    rw [bind_of_ok he]
    by_cases ho : m.output.length + (Leb128.padded r.framing.reserved 0).length ≤ addressLimit
    · have ho : openBlock r { m with bounds := stop :: m.bounds } = .ok _ _ := if_pos ho
      rw [bind_of_ok ho]
      exact leaves_pushBlock h rfl rfl rfl rfl hr (by simp only; omega)
    · have ho : openBlock r { m with bounds := stop :: m.bounds } = .error _ _ := if_neg ho
      rw [bind_of_error ho]
      refine ⟨⟨m.bounds, Stacked.mono h (Nat.le_refl _) ?_⟩, .of_append _ h.loose rfl rfl⟩
      rw [List.length_append]
      exact Nat.le_add_right ..
  · have he : enterBlock src size m = .error _ _ := if_neg (hstop ▸ he)
    rw [bind_of_error he]
    exact leaves_failed h _

/-- A block is closed; the output before it stays. -/
theorem leaves_finishBlock {extent : Extent} {header : OpenHeader} {rest : List Task}
    (h : m.Orderly n) (ht : m.tasks = .block extent header :: rest) :
    Leaves n m (finishBlock r extent header { m with tasks := rest }) := by
  rw [Orderly, ht] at h
  obtain ⟨hr, hb, outer, ho, hs⟩ := h
  have hstart : header.start ≤ header.bodyStart := Nat.le_add_right ..
  have hheld : m.held = heldBelow rest header.start := by rw [held, ht]; rfl
  -- nothing is written where the block cannot be closed
  have hfail (bounds : List Position) (x : Failure) : Leaves n m
      (.error x { m with tasks := rest, bounds } : EStateM.Result Failure Machine Unit) :=
    ⟨⟨outer, hs.mono (Nat.le_refl _) (Nat.le_trans hstart hb)⟩,
      hheld.symm ▸ heldBelow_mono rest (Nat.le_trans hstart hb), rfl⟩
  unfold finishBlock
  by_cases hp : Position.ofByte m.position = extent.stop
  · have hl : leaveBlock extent { m with tasks := rest } =
        .ok () { m with tasks := rest, bounds := outer } := by
      rw [leaveBlock, if_pos hp, ho]
    rw [bind_of_ok hl]
    simp only [closeBlock]
    split
    · exact hfail outer _
    · have hl : header.start ≤ (r.framing.close m.output header.start header.reserved).length := by
        simp only [Framing.close, List.length_append, List.length_take]
        omega
      refine ⟨hs.mono (Nat.le_refl _) hl, hheld.symm ▸ heldBelow_mono rest hl, ?_⟩
      rw [hheld]
      have hle := hs.heldBelow_le
      simp only [Framing.close, List.append_assoc]
      rw [List.take_append_of_le_length (by rw [List.length_take]; omega), List.take_take,
        Nat.min_eq_left hle]
  · have hl : leaveBlock extent { m with tasks := rest } = .error _ _ := if_neg hp
    rw [bind_of_error hl]
    exact hfail m.bounds _

theorem leaves_complete (h : m.Orderly n) (p : Pending) (word : UInt64) :
    Leaves n m (complete r src p word m) := by
  unfold complete
  cases p.goal with
  | value => exact leaves_passOn h p word
  | loopCount id body =>
    exact (leaves_passOn h p word).bind fun _ _ h => leaves_pushTask h _ trivial
  | blockSize body => exact leaves_openBlock h word.toNat body

theorem leaves_visit (h : m.Orderly n) (id : Nat) : Leaves n m (visit r id m) := by
  unfold visit
  cases r.schema.node? id with
  | none => exact leaves_failed h _
  | some node =>
    cases node with
    | value | loop | block => exact Leaves.of_same _ h rfl rfl rfl
    | action action => exact leaves_runAction h action
    | sequence | untilEof => exact leaves_pushTask h _ trivial
    | unknown => exact leaves_failed h _

theorem leaves_putBack (h : m.Orderly n) (task : Task) (ht : task.Plain) :
    Leaves n m (putBack task m) := leaves_push ht.header? (Stacked.push ht h)

theorem leaves_nextChild (h : m.Orderly n) (children : List Nat) :
    Leaves n m (nextChild r children m) := by
  cases children with
  | nil => exact ⟨h, .refl m⟩
  | cons child rest =>
    exact (leaves_putBack h (.sequence rest) trivial).bind fun _ _ h => leaves_pushTask h _ trivial

theorem leaves_nextRepetition (h : m.Orderly n) (id body : Nat) (last : Option Position)
    (remaining : Nat) : Leaves n m (nextRepetition r id body last remaining m) := by
  cases remaining with
  | zero => exact ⟨h, .refl m⟩
  | succ remaining =>
    simp only [nextRepetition]
    split
    · exact leaves_failed h _
    · exact (leaves_putBack h (.loop id body remaining _) trivial).bind fun _ _ h =>
        leaves_pushTask h _ trivial

theorem leaves_repeatToEnd {id body : Nat} {last : Option Position}
    (h : Stacked src.bytes.length (.untilEof id body last :: m.tasks) m.bounds m.output.length) :
    Leaves src.bytes.length m (repeatToEnd r src id body last m) := by
  unfold repeatToEnd
  split
  · exact ⟨h.2, .refl m⟩
  · split
    · exact leaves_failed h.2 _
    · split
      · exact leaves_push rfl h
      · rename_i hn
        have hs : Stacked src.bytes.length
            (.untilEof id body (some (.ofByte m.position)) :: m.tasks) m.bounds
            m.output.length := by
          refine ⟨fun hb a ha => ?_, h.2⟩
          have ha : m.position = a := by
            simp only [Option.some.injEq, Position.ofByte, Position.mk.injEq] at ha
            omega
          have hlt : ¬src.bytes.length - m.position = 0 := fun h0 => hn ⟨h0, hb⟩
          omega
        have hp : putBack (.untilEof id body (some (.ofByte m.position))) m = .ok () _ := rfl
        obtain ⟨ho, hn⟩ := leaves_push rfl hs
        rw [bind_of_ok hp]
        exact hn.leaves ((leaves_pushTask ho (.visit body) trivial).answer .advanced)

theorem leaves_readOn (h : m.Orderly n) (p : Pending) : Leaves n m (readOn r src p m) := by
  unfold readOn
  split
  · rename_i position _ _
    obtain ⟨ho, hn⟩ := Leaves.of_same { m with position } h rfl rfl rfl
    exact hn.leaves ((leaves_complete ho p _).answer .advanced)
  · split
    · exact Leaves.of_same _ h rfl rfl rfl
    · rename_i position _ _ _
      obtain ⟨ho, hn⟩ := Leaves.of_same { m with position } h rfl rfl rfl
      exact ⟨ho.loose, hn⟩

theorem leaves_checkTrailing (h : m.Orderly n) : Leaves n m (checkTrailing r src m) := by
  unfold checkTrailing
  split
  · exact ⟨h, .refl m⟩
  · split
    · exact leaves_failed h _
    · split
      · exact ⟨h, .refl m⟩
      · exact ⟨h, .refl m⟩

/-- A step keeps the order of the stack and all output that is final. -/
theorem leaves_step (h : m.Orderly src.bytes.length) :
    Leaves src.bytes.length m (step r src m) := by
  unfold step
  split
  · obtain ⟨ho, hn⟩ := Leaves.of_same { m with pending := none } h rfl rfl rfl
    exact hn.leaves (leaves_readOn ho _)
  · exact leaves_checkTrailing h
  · rename_i task rest _ ht
    -- a task that closes no block comes off the stack without more ado
    have hpop (hn : task.header? = none) :
        Orderly src.bytes.length { m with tasks := rest } ∧ Onward m { m with tasks := rest } := by
      rw [Orderly, ht] at h
      refine ⟨Stacked.tail hn h, Nat.le_of_eq ?_, rfl⟩
      rw [held, held, ht, heldBelow_cons hn]
    cases task with
    | visit id => exact (hpop rfl).2.leaves ((leaves_visit (hpop rfl).1 id).answer .advanced)
    | sequence children =>
      exact (hpop rfl).2.leaves ((leaves_nextChild (hpop rfl).1 children).answer .advanced)
    | loop id body remaining last =>
      exact (hpop rfl).2.leaves
        ((leaves_nextRepetition (hpop rfl).1 id body last remaining).answer .advanced)
    | block extent header => exact (leaves_finishBlock h ht).answer .advanced
    | untilEof id body last =>
      refine (hpop rfl).2.leaves (leaves_repeatToEnd ?_)
      rw [Orderly, ht] at h
      exact h

end Pieces

/-! ## Going on -/

variable {r : Rules} {src : Source} {k : Nat}

/-- `n` steps that get on lead from one machine to the other. -/
inductive Goes (r : Rules) (src : Source) : Nat → Machine → Machine → Prop
  | none (m : Machine) : Goes r src 0 m m
  | step {n : Nat} {m m' m'' : Machine} (h : step r src m = .ok .advanced m')
    (k : Goes r src n m' m'') : Goes r src (n + 1) m m''

theorem Goes.onward (h : Goes r src k m m') (ho : m.Orderly src.bytes.length) :
    m'.Orderly src.bytes.length ∧ m.Onward m' := by
  induction h with
  | none m => exact ⟨ho, .refl m⟩
  | step hs _ ih =>
    have hl := Machine.leaves_step (r := r) ho
    rw [hs] at hl
    obtain ⟨ho', hn⟩ := ih hl.1
    exact ⟨ho', hl.2.trans hn⟩

theorem Goes.snoc (h : Goes r src n m m') (hs : Machine.step r src m' = .ok .advanced m'') :
    Goes r src (n + 1) m m'' := by
  induction h with
  | none m => exact .step hs (.none m'')
  | step hm _ ih => exact .step hm (ih hs)

theorem Goes.append {j : Nat} (h : Goes r src n m m') (h' : Goes r src j m' m'') :
    Goes r src (n + j) m m'' := by
  induction h with
  | none => rwa [Nat.zero_add]
  | step hs _ ih => exact Nat.succ_add .. ▸ .step hs (ih h')

/-- A machine that stops has passed by wherever it went. -/
theorem Goes.through {j : Nat} (h : Goes r src n m m') (h' : Goes r src j m m'')
    (hs : ∀ m₁, Machine.step r src m'' ≠ .ok .advanced m₁) : ∃ k, Goes r src k m' m'' := by
  induction h generalizing j with
  | none m => exact ⟨j, h'⟩
  | step h _ ih =>
    cases h' with
    | none => exact absurd h (hs _)
    | step k h' =>
      rw [h] at k
      cases k
      exact ih h'

/-- Where a machine goes is determined, up to where it stops. -/
theorem Goes.meet {m₁ m₂ : Machine} {n₁ n₂ : Nat} (h₁ : Goes r src n₁ m m₁)
    (h₂ : Goes r src n₂ m m₂) (hs₁ : ∀ m', Machine.step r src m₁ ≠ .ok .advanced m')
    (hs₂ : ∀ m', Machine.step r src m₂ ≠ .ok .advanced m') : n₁ = n₂ ∧ m₁ = m₂ := by
  induction h₁ generalizing n₂ with
  | none m =>
    cases h₂ with
    | none => exact ⟨rfl, rfl⟩
    | step h => exact absurd h (hs₁ _)
  | step h _ ih =>
    cases h₂ with
    | none => exact absurd h (hs₂ _)
    | step h' k' =>
      rw [h] at h'
      simp only [EStateM.Result.ok.injEq, true_and] at h'
      subst h'
      obtain ⟨rfl, rfl⟩ := ih k' hs₁
      exact ⟨rfl, rfl⟩

end Machine

end Transcoder

import Transcoder.Engine.Step
import Transcoder.Proofs.Block.Framing

/-!
# Engines without tapes

A `Machine` does what an engine does, on a list of input bytes and a list of output bytes. It has
the same stack of tasks, but no pages, no cursors and nothing to drain, and of a configuration it
knows only its `Rules`. Each piece of its step is the piece of that name of an engine's step.
-/
namespace Transcoder

/-- The part of an engine that its steps leave alone. -/
structure Setting where
  schema : Schema
  config : Config
  status : Status
  drained : Nat
  nextStop : Nat
  steps : Nat

def Engine.setting (e : Engine) : Setting :=
  ⟨e.schema, e.config, e.status, e.drained, e.nextStop, e.steps⟩

/-- What a machine goes by. -/
structure Rules where
  schema : Schema
  framing : Framing
  rejectTrailing : Bool
  collect : Bool
  maxNesting : Nat
  reserved_pos : 0 < framing.reserved

theorem Config.framing_reserved_pos (c : Config) : 0 < c.framing.reserved :=
  Nat.lt_of_lt_of_le Nat.one_pos (Nat.le_max_right ..)

/-- What an engine with a schema and a configuration goes by. -/
def Rules.of (schema : Schema) (config : Config) : Rules where
  schema := schema
  framing := config.framing
  rejectTrailing := config.rejectTrailing
  collect := config.collect
  maxNesting := config.maxNesting
  reserved_pos := config.framing_reserved_pos

def Setting.rules (s : Setting) : Rules := .of s.schema s.config

/-- The header of a block, without what its cursor knows of a tape. -/
def OpenHeader.flat (h : OpenHeader) : OpenHeader :=
  ⟨{ grain := .byte, address := h.start }, h.reserved⟩

/-- A task, without what it knows of a tape. -/
def Task.flat : Task → Task
  | .block extent header => .block extent header.flat
  | task => task

structure Machine where
  /-- The address of the next byte of input. -/
  position : Nat := 0
  /-- The ends of the blocks of the input around it, innermost first. -/
  bounds : List Position := []
  output : List UInt8 := []
  tasks : List Task
  pending : Option Pending := none
  hook : Option Hook := none
  calls : Array (Call × Bool) := #[]
  values : Array Decoded := #[]

/-- A piece of a step of a machine. -/
abbrev Turn := EStateM Failure Machine

namespace Machine

variable (r : Rules) (src : Source)

def pushTask (task : Task) : Turn Unit := fun m =>
  if r.maxNesting ≤ m.tasks.length then .error (.nestingTooDeep r.maxNesting) m
  else .ok () { m with tasks := task :: m.tasks }

def putBack (task : Task) : Turn Unit := fun m => .ok () { m with tasks := task :: m.tasks }

/-- Adds a value to the output, whole or not at all. -/
def writeValue (kind : IntKind) (word : UInt64) : Turn Unit := fun m =>
  if kind.fits word then
    if m.output.length + (kind.bytes word).length ≤ addressLimit then
      .ok () { m with output := m.output ++ kind.bytes word }
    else .error (.ofStream outOfSpace) m
  else .error (.valueOutOfRange kind word) m

def record (kind : IntKind) (word : UInt64) (address : Nat) : Turn Unit := fun m =>
  if r.collect then .ok () { m with values := m.values.push ⟨kind, word, address⟩ } else .ok () m

def beginValue (goal : Goal) (kind : IntKind) : Turn Unit := fun m =>
  .ok () { m with pending := some ⟨goal, .start kind, m.position⟩ }

def enterBlock (size : Nat) : Turn Extent := fun m =>
  let stop := Position.ofByte (min (m.position + size) addressLimit)
  if stop ≤ src.measure m.bounds then .ok ⟨m.position, stop⟩ { m with bounds := stop :: m.bounds }
  else .error (.pastBlockEnd stop (src.measure m.bounds)) m

def leaveBlock (extent : Extent) : Turn Unit := fun m =>
  if Position.ofByte m.position = extent.stop then
    match m.bounds with
    | [] => .error (.stream .noEnclosingBlock) m
    | _ :: outer => .ok () { m with bounds := outer }
  else .error (.blockUnderrun extent.stop (.ofByte m.position)) m

/-- Adds an empty header to the output, or the part of it that addresses are left for. -/
def openBlock : Turn OpenHeader := fun m =>
  let header := Leb128.padded r.framing.reserved 0
  if m.output.length + header.length ≤ addressLimit then
    .ok ⟨{ grain := .byte, address := m.output.length }, r.framing.reserved⟩
      { m with output := m.output ++ header }
  else
    .error (.ofStream outOfSpace)
      { m with output := m.output ++ header.take (addressLimit - m.output.length) }

def closeBlock (header : OpenHeader) : Turn Unit := fun m =>
  let size := bodySize header.start m.output.length header.reserved
  if headerLimit header.reserved < size then
    .error (.blockTooLarge size (headerLimit header.reserved)) m
  else .ok () { m with output := r.framing.close m.output header.start header.reserved }

def passOn (p : Pending) (word : UInt64) : Turn Unit := do
  writeValue p.partialValue.kind word
  record r p.partialValue.kind word p.address

def complete (p : Pending) (word : UInt64) : Turn Unit :=
  match p.goal with
  | .value => passOn r p word
  | .loopCount id body => do
    passOn r p word
    pushTask r (.loop id body word.toNat none)
  | .blockSize body => do
    let extent ← enterBlock src word.toNat
    let header ← openBlock r
    pushTask r (.block extent header)
    pushTask r (.visit body)

def readOn (p : Pending) : Turn Progress := fun m =>
  match src.read m.bounds m.position p.partialValue with
  | (.ok word, position, _) =>
    (do complete r src p word; return .advanced : Turn Progress) { m with position }
  | (.error cause, position, partialValue) =>
    if cause.suspends then
      .ok .needInput { m with position, pending := some { p with partialValue } }
    else .error (.ofStream cause) { m with position }

def runAction (action : Nat) : Turn Unit := fun m =>
  match m.hook with
  | none => .ok () m
  | some hook =>
    let call : Call := ⟨action, m.position, m.output.length⟩
    let answer := hook.answer hook.asked call
    let m := { m with
      hook := some { hook with asked := call :: hook.asked }
      calls := m.calls.push (call, answer) }
    if answer then .ok () m else .error (.actionFailed action) m

def visit (id : Nat) : Turn Unit := fun m =>
  match r.schema.node? id with
  | none => .error (.invalidSchema (.unknownNode id)) m
  | some (.value kind) => beginValue .value kind m
  | some (.action action) => runAction action m
  | some (.sequence children) => pushTask r (.sequence children) m
  | some (.loop count body) => beginValue (.loopCount id body) count m
  | some (.block body) => beginValue (.blockSize body) .varuint32 m
  | some (.untilEof body) => pushTask r (.untilEof id body none) m
  | some (.unknown opcode) => .error (.unsupported (.unknown opcode)) m

def nextChild : List Nat → Turn Unit
  | [] => pure ()
  | child :: rest => do
    putBack (.sequence rest)
    pushTask r (.visit child)

def nextRepetition (id body : Nat) (last : Option Position) : (remaining : Nat) → Turn Unit
  | 0 => pure ()
  | remaining + 1 => fun m =>
    if last = some (.ofByte m.position) then .error (.emptyLoopBody id) m
    else (do
      putBack (.loop id body remaining (some (.ofByte m.position)))
      pushTask r (.visit body) : Turn Unit) m

def finishBlock (extent : Extent) (header : OpenHeader) : Turn Unit := do
  leaveBlock extent
  closeBlock r header

def repeatToEnd (id body : Nat) (last : Option Position) : Turn Progress := fun m =>
  if src.stop m.bounds ≤ .ofByte m.position then .ok .advanced m
  else if last = some (.ofByte m.position) then .error (.emptyLoopBody id) m
  else if src.bytes.length - m.position = 0 ∧ m.bounds = [] then
    (do putBack (.untilEof id body last); return .needInput : Turn Progress) m
  else (do
    putBack (.untilEof id body (some (.ofByte m.position)))
    pushTask r (.visit body)
    return .advanced : Turn Progress) m

def doTask : Task → Turn Progress
  | .visit id => do visit r id; return .advanced
  | .sequence children => do nextChild r children; return .advanced
  | .loop id body remaining last => do nextRepetition r id body last remaining; return .advanced
  | .block extent header => do finishBlock r extent header; return .advanced
  | .untilEof id body last => repeatToEnd r src id body last

def checkTrailing : Turn Progress := fun m =>
  if !r.rejectTrailing then .ok .done m
  else if 0 < src.bytes.length - m.position then
    .error (.trailingData (src.bytes.length - m.position)) m
  else if src.closed then .ok .done m
  else .ok .needInput m

/-- One step. -/
def step : Turn Progress := fun m =>
  match m.pending, m.tasks with
  | some p, _ => readOn r src p { m with pending := none }
  | none, [] => checkTrailing r src m
  | none, task :: rest => doTask r src task { m with tasks := rest }

variable {r src} {m : Machine}

theorem pushTask_of_room {task : Task} (h : ¬r.maxNesting ≤ m.tasks.length) :
    pushTask r task m = .ok () { m with tasks := task :: m.tasks } := if_neg h

theorem pushTask_of_full {task : Task} (h : r.maxNesting ≤ m.tasks.length) :
    pushTask r task m = .error (.nestingTooDeep r.maxNesting) m := if_pos h

theorem step_of_pending {p : Pending} (h : m.pending = some p) :
    step r src m = readOn r src p { m with pending := none } := by
  unfold step
  split <;> simp_all

theorem step_of_task {task : Task} {rest : List Task} (h : m.pending = none)
    (ht : m.tasks = task :: rest) : step r src m = doTask r src task { m with tasks := rest } := by
  unfold step
  split <;> simp_all

theorem step_of_none (h : m.pending = none) (ht : m.tasks = []) :
    step r src m = checkTrailing r src m := by
  unfold step
  split <;> simp_all

/-- A unit of work with a fixed answer. -/
theorem of_answer {turn : Turn Unit} {p q : Progress} {m' : Machine}
    (h : (do turn; return p : Turn Progress) m = .ok q m') : q = p ∧ turn m = .ok () m' := by
  simp only [bind, EStateM.bind] at h
  split at h
  · rename_i ht
    simp only [pure, EStateM.pure, EStateM.Result.ok.injEq] at h
    obtain ⟨rfl, rfl⟩ := h
    exact ⟨rfl, ht⟩
  · simp at h

/-- Only the look for trailing input tells that a machine is done. -/
theorem checkTrailing_of_done {m' : Machine} (h : step r src m = .ok .done m') :
    m.pending = none ∧ m.tasks = [] ∧ checkTrailing r src m = .ok .done m' := by
  cases hp : m.pending with
  | some p =>
    rw [step_of_pending hp, readOn] at h
    split at h
    · simpa using (of_answer h).1
    · split at h <;> simp at h
  | none =>
    cases ht : m.tasks with
    | nil =>
      rw [step_of_none hp ht] at h
      exact ⟨rfl, rfl, h⟩
    | cons task rest =>
      rw [step_of_task hp ht] at h
      cases task with
      | visit | sequence | loop | block => simpa using (of_answer h).1
      | untilEof id body last =>
        simp only [doTask, repeatToEnd] at h
        split at h
        · simp at h
        · split at h
          · simp at h
          · split at h
            · simpa using (of_answer h).1
            · change (do pushTask r (.visit body); return .advanced : Turn Progress) _ = _ at h
              simpa using (of_answer h).1

/-- Input behind the root node is let be, or there is none and none can come. -/
theorem of_checkTrailing {m' : Machine} (h : checkTrailing r src m = .ok .done m') : m' = m ∧
    (r.rejectTrailing = true → src.closed = true ∧ src.bytes.length ≤ m.position) := by
  unfold checkTrailing at h
  split at h
  · rename_i hr
    simp only [EStateM.Result.ok.injEq, true_and] at h
    exact ⟨h.symm, fun ht => by simp [ht] at hr⟩
  · split at h
    · simp at h
    · split at h
      · rename_i hc
        simp only [EStateM.Result.ok.injEq, true_and] at h
        exact ⟨h.symm, fun _ => ⟨hc, by omega⟩⟩
      · simp at h

/-- A machine is done when nothing is left to do. -/
theorem tasks_of_done {m' : Machine} (h : step r src m = .ok .done m') :
    m' = m ∧ m.tasks = [] := by
  obtain ⟨-, ht, hc⟩ := checkTrailing_of_done h
  exact ⟨(of_checkTrailing hc).1, ht⟩

/-- A block that cannot be closed leaves the output as it was. -/
theorem output_of_finishBlock_error {extent : Extent} {header : OpenHeader} {x : Failure}
    {m' : Machine} (h : finishBlock r extent header m = .error x m') : m'.output = m.output := by
  simp only [finishBlock, bind, EStateM.bind, leaveBlock, closeBlock] at h
  split at h
  · rename_i hl
    split at hl
    · split at hl
      · simp at hl
      · simp only [EStateM.Result.ok.injEq, true_and] at hl
        subst hl
        split at h
        · simp only [EStateM.Result.error.injEq] at h
          rw [← h.2]
        · simp at h
    · simp at hl
  · rename_i hl
    simp only [EStateM.Result.error.injEq] at h
    split at hl
    · split at hl
      · simp only [EStateM.Result.error.injEq] at hl
        rw [← h.2, ← hl.2]
      · simp at hl
    · simp only [EStateM.Result.error.injEq] at hl
      rw [← h.2, ← hl.2]

/-- A header that was reserved stands where the output ended. -/
theorem of_openBlock {header : OpenHeader} {m' : Machine} (h : openBlock r m = .ok header m') :
    header.start = m.output.length ∧ m.output.length < m'.output.length := by
  unfold openBlock at h
  simp only at h
  split at h
  · simp only [EStateM.Result.ok.injEq] at h
    obtain ⟨rfl, rfl⟩ := h
    refine ⟨rfl, ?_⟩
    simp only [List.length_append, Leb128.length_padded]
    omega
  · simp at h

end Machine

end Transcoder

import Transcoder.Proofs.Machine.Whole
import Transcoder.Proofs.Schema.Height

/-!
# Why a machine fails

A machine fails over its input, its schema or its host. For its own sake it fails in one case only:
where the output has come to the last address. The tasks on its stack go on to nodes of the schema,
and what it has read of a value is a number that its kind can say (`Sane`); so no node is unknown
and no value is out of range.

Results:
* `Machine.sound_step`: a step keeps that, or fails for a reason from outside.
* `Machine.excused_of_step`: what a step fails for, nodes of no known kind included.
-/
namespace Transcoder

/-- The input, the host or the configuration is to blame for the failure. -/
def Failure.external : Failure → Bool
  | pastBlockEnd .. | malformed _ | unexpectedEnd _ | trailingData _ | blockUnderrun ..
  | blockTooLarge .. | actionFailed _ | emptyLoopBody _ | nestingTooDeep _ => true
  | brokenCursor _ | unsupported _ | disposed | valueOutOfRange .. | notAccepted ..
  | invalidSchema _ | stream _ => false

/-- The nodes that a task goes on to. -/
def Task.nodes : Task → List Nat
  | visit id => [id]
  | sequence children => children
  | loop _ body _ _ | untilEof _ body _ => [body]
  | block .. => []

/-- The nodes that a value leads to. -/
def Goal.nodes : Goal → List Nat
  | value => []
  | loopCount _ body | blockSize body => [body]

/-- All of them are nodes of the schema. -/
def Schema.Knows (s : Schema) (ids : List Nat) : Prop := ∀ id ∈ ids, ∃ n, s.node? id = some n

theorem Schema.knows_nil (s : Schema) : s.Knows [] := fun _ h => nomatch h

theorem Schema.knows_children {s : Schema} {id : Nat} {n : Node} (h : s.node? id = some n) :
    s.Knows n.children := fun _ hc => s.node_of_child h hc

theorem Schema.knows_root (s : Schema) : s.Knows [s.root] := by
  intro id hid
  obtain rfl := List.mem_singleton.1 hid
  exact ⟨_, Array.getElem?_eq_getElem s.wellFormed.root_lt⟩

/-! ## Reading -/

namespace Source

variable {src : Source} {bounds : List Position} {a a' : Nat} {p p' : PartialValue}
  {x : StreamError}

theorem external_of_get (h : src.get bounds a = .error x) (hx : x.suspends = false) :
    (Failure.ofStream x).external = true := by
  unfold get at h
  split at h
  · split at h
    · simp at h
    · simp only [Except.error.injEq] at h
      split at h
      · subst h
        rfl
      · simp [← h, StreamError.suspends] at hx
  · simp only [Except.error.injEq] at h
    subst h
    cases bounds <;> rfl

theorem external_of_malformed (h : x.malformed = true) : (Failure.ofStream x).external = true := by
  cases x <;> first | rfl | simp [StreamError.malformed] at h

/-- A value cannot be read for what its bytes are, or for want of bytes. -/
theorem external_of_read (h : src.read bounds a p = (.error x, a', p')) (hx : x.suspends = false) :
    (Failure.ofStream x).external = true := by
  cases (stuck_of_read h).1 with
  | missing h => exact external_of_get h hx
  | spoilt h => exact external_of_malformed (PartialValue.malformed_of_feed h)

end Source

/-! ## Steps -/

namespace Machine

/-- Tasks and values lead to nodes of the schema, and the value in the making is one. -/
structure Sane (s : Schema) (m : Machine) : Prop where
  tasks : ∀ task ∈ m.tasks, s.Knows task.nodes
  pending : ∀ p, m.pending = some p → s.Knows p.goal.nodes ∧ p.partialValue.Fair

/-- The failure comes from outside, unless the output is as long as addresses go. -/
def Excused (x : Failure) (m : Machine) : Prop :=
  x.external = true ∨ x = .stream outOfSpace ∧ addressLimit < m.output.length + 10

/-- A piece of a step leaves the machine sane, or fails for a reason from outside. -/
def Sound {α : Type} (s : Schema) : EStateM.Result Failure Machine α → Prop
  | .ok _ m => m.Sane s
  | .error x m => Excused x m

variable {α β : Type} {s : Schema} {r : Rules} {src : Source} {m m' : Machine}

/-- Output that has no place left ends close to the last address. -/
theorem excused_of_length (h : addressLimit < m.output.length + 10) :
    Excused (.ofStream outOfSpace) m := .inr ⟨rfl, h⟩

theorem Sound.bind {act : Turn α} {next : α → Turn β} (h : Sound s (act m))
    (k : ∀ a m', m'.Sane s → Sound s (next a m')) : Sound s ((act >>= next) m) := by
  simp only [Bind.bind, EStateM.bind]
  cases ha : act m with
  | error x m' =>
    rw [ha] at h
    exact h
  | ok a m' =>
    rw [ha] at h
    exact k a m' h

theorem Sound.answer {turn : Turn Unit} (h : Sound s (turn m)) (p : Progress) :
    Sound s ((do turn; return p : Turn Progress) m) := h.bind fun _ _ h => h

theorem Sane.push (h : m.Sane s) (task : Task) (ht : s.Knows task.nodes) :
    Sane s { m with tasks := task :: m.tasks } :=
  ⟨fun t hm => (List.mem_cons.1 hm).elim (fun he => he ▸ ht) (h.tasks t), h.pending⟩

theorem Sane.rest {task : Task} {rest : List Task} (h : m.Sane s) (ht : m.tasks = task :: rest) :
    s.Knows task.nodes ∧ Sane s { m with tasks := rest } := by
  have hall := h.tasks
  rw [ht] at hall
  exact ⟨hall task (List.mem_cons_self ..), fun t hm => hall t (List.mem_cons_of_mem _ hm),
    h.pending⟩

theorem sound_pushTask (h : m.Sane s) (task : Task) (ht : s.Knows task.nodes) :
    Sound s (pushTask r task m) := by
  unfold pushTask
  split
  · exact .inl rfl
  · exact h.push task ht

theorem sound_writeValue {kind : IntKind} {word : UInt64} (h : m.Sane s)
    (hw : kind.fits word = true) : Sound s (writeValue kind word m) := by
  have hten : kind.maxLength ≤ 10 := by cases kind <;> decide
  have hl := IntKind.length_bytes_le hw
  rw [writeValue, if_pos hw]
  split
  · exact ⟨h.tasks, h.pending⟩
  · exact excused_of_length (by omega)

theorem sound_passOn {p : Pending} {word : UInt64} (h : m.Sane s)
    (hw : p.partialValue.kind.fits word = true) : Sound s (passOn r p word m) := by
  refine (sound_writeValue h hw).bind fun _ m' h' => ?_
  unfold record
  split
  · exact ⟨h'.tasks, h'.pending⟩
  · exact h'

theorem sound_enterBlock (h : m.Sane s) (size : Nat) : Sound s (enterBlock src size m) := by
  simp only [enterBlock]
  split
  · exact ⟨h.tasks, h.pending⟩
  · exact .inl rfl

theorem sound_openBlock (h : m.Sane s) : Sound s (openBlock r m) := by
  simp only [openBlock, Leb128.length_padded]
  split
  · exact ⟨h.tasks, h.pending⟩
  · refine excused_of_length ?_
    simp only [List.length_append, List.length_take, Leb128.length_padded]
    omega

/-- A value that was read is one of its kind. -/
theorem sound_complete {p : Pending} {word : UInt64} (h : m.Sane s) (hp : s.Knows p.goal.nodes)
    (hw : p.partialValue.kind.fits word = true) : Sound s (complete r src p word m) := by
  unfold complete
  cases hg : p.goal with
  | value => exact sound_passOn h hw
  | loopCount id body =>
    rw [hg] at hp
    exact (sound_passOn h hw).bind fun _ _ h => sound_pushTask h _ hp
  | blockSize body =>
    rw [hg] at hp
    exact (sound_enterBlock h _).bind fun _ _ h => (sound_openBlock h).bind fun _ _ h =>
      (sound_pushTask h (.block ..) s.knows_nil).bind fun _ _ h => sound_pushTask h (.visit body) hp

theorem sound_readOn {p : Pending} (h : m.Sane s) (hp : m.pending = some p) :
    Sound s (readOn r src p { m with pending := none }) := by
  obtain ⟨hg, hf⟩ := h.pending p hp
  unfold readOn
  split
  · rename_i word position q hr
    obtain ⟨bytes, hc, -⟩ := Source.completes_of_read hr
    have h' : Sane s { m with position, pending := none } := ⟨h.tasks, by simp⟩
    exact (sound_complete h' hg (hc.fits hf)).answer _
  · rename_i cause position q hr
    split
    · refine ⟨h.tasks, fun p' hp' => ?_⟩
      obtain rfl := Option.some.inj hp'
      exact ⟨hg, (Source.stuck_of_read hr).2 hf⟩
    · rename_i hx
      exact .inl (Source.external_of_read hr (by simpa using hx))

theorem sound_beginValue (h : m.Sane s) (goal : Goal) (hg : s.Knows goal.nodes) (kind : IntKind) :
    Sound s (beginValue goal kind m) := by
  refine ⟨h.tasks, fun p hp => ?_⟩
  obtain rfl := Option.some.inj hp
  exact ⟨hg, PartialValue.fair_start kind⟩

theorem sound_runAction (h : m.Sane s) (action : Nat) : Sound s (runAction action m) := by
  unfold runAction
  split
  · exact h
  · simp only
    split
    · exact ⟨h.tasks, h.pending⟩
    · exact .inl rfl

theorem sound_visit {id : Nat} {n : Node} (h : m.Sane r.schema) (hn : r.schema.node? id = some n)
    (hk : ∀ opcode, n ≠ .unknown opcode) : Sound r.schema (visit r id m) := by
  have hc := Schema.knows_children hn
  unfold visit
  rw [hn]
  cases n with
  | value kind => exact sound_beginValue h .value r.schema.knows_nil kind
  | action action => exact sound_runAction h action
  | sequence children => exact sound_pushTask h _ hc
  | loop count body => exact sound_beginValue h (.loopCount id body) hc count
  | block body => exact sound_beginValue h (.blockSize body) hc _
  | untilEof body => exact sound_pushTask h _ hc
  | unknown opcode => exact absurd rfl (hk opcode)

theorem sound_again {id : Nat} (h : m.Sane s) (task : Task) (ht : s.Knows task.nodes)
    (hid : s.Knows [id]) : Sound s ((do putBack task; pushTask r (.visit id) : Turn Unit) m) :=
  sound_pushTask (h.push task ht) (.visit id) hid

theorem sound_finishBlock {extent : Extent} {header : OpenHeader} (h : m.Sane s)
    (hb : m.bounds ≠ []) : Sound s (finishBlock r extent header m) := by
  have hleave : Sound s (leaveBlock extent m) := by
    unfold leaveBlock
    split
    · split
      · exact absurd ‹_› hb
      · exact ⟨h.tasks, h.pending⟩
    · exact .inl rfl
  refine hleave.bind fun _ m' h' => ?_
  simp only [closeBlock]
  split
  · exact .inl rfl
  · exact ⟨h'.tasks, h'.pending⟩

theorem sound_repeatToEnd {id body : Nat} {last : Option Position} (h : m.Sane s)
    (hb : s.Knows [body]) : Sound s (repeatToEnd r src id body last m) := by
  unfold repeatToEnd
  split
  · exact h
  · split
    · exact .inl rfl
    · split
      · exact h.push (.untilEof id body last) hb
      · exact (sound_again h (.untilEof id body _) hb hb).answer .advanced

theorem sound_checkTrailing (h : m.Sane s) : Sound s (checkTrailing r src m) := by
  unfold checkTrailing
  split
  · exact h
  · split
    · exact .inl rfl
    · split <;> exact h

/-- A step leaves the machine sane, or fails for a reason from outside, unless it comes to a node of
no known kind. -/
theorem sound_step (h : m.Sane r.schema) (ho : m.Orderly src.bytes.length)
    (hk : ∀ id rest, m.pending = none → m.tasks = .visit id :: rest →
      ∀ opcode, r.schema.node? id ≠ some (.unknown opcode)) : Sound r.schema (step r src m) := by
  cases hp : m.pending with
  | some p =>
    rw [step_of_pending hp]
    exact sound_readOn h hp
  | none =>
    cases ht : m.tasks with
    | nil =>
      rw [step_of_none hp ht]
      exact sound_checkTrailing h
    | cons task rest =>
      obtain ⟨hn, hrest⟩ := h.rest ht
      rw [step_of_task hp ht]
      cases task with
      | visit id =>
        obtain ⟨n, hid⟩ := hn id (List.mem_singleton_self id)
        exact (sound_visit hrest hid fun opcode he => hk id rest hp ht opcode (he ▸ hid)).answer _
      | sequence children =>
        refine Sound.answer ?_ _
        cases children with
        | nil => exact hrest
        | cons child children =>
          exact sound_again hrest _ (fun id hid => hn id (List.mem_cons_of_mem _ hid))
            fun id hid => hn id (List.mem_cons.2 (.inl (List.mem_singleton.1 hid)))
      | loop id body remaining last =>
        refine Sound.answer ?_ _
        cases remaining with
        | zero => exact hrest
        | succ remaining =>
          unfold nextRepetition
          simp only
          split
          · exact .inl rfl
          · exact sound_again hrest (.loop id body remaining _) hn hn
      | block extent header =>
        -- the stack is in order, so the reader is in the block that is to be closed
        rw [Orderly, ht] at ho
        obtain ⟨-, -, outer, hb, -⟩ := ho
        have hne : m.bounds ≠ [] := by simp [hb]
        exact (sound_finishBlock hrest hne).answer _
      | untilEof id body last => exact sound_repeatToEnd hrest hn

/-- A node of no known kind is not supported. -/
theorem step_unknown {id : Nat} {opcode : UInt8} {rest : List Task} (hp : m.pending = none)
    (ht : m.tasks = .visit id :: rest) (hn : r.schema.node? id = some (.unknown opcode)) :
    step r src m = .error (.unsupported (.unknown opcode)) { m with tasks := rest } := by
  rw [step_of_task hp ht]
  simp only [doTask, Bind.bind, EStateM.bind, visit, hn]

/-- The machine comes to a node of no known kind, which has that opcode. -/
def AtUnknown (s : Schema) (m : Machine) (opcode : UInt8) : Prop :=
  m.pending = none ∧ ∃ id rest, m.tasks = .visit id :: rest ∧
    s.node? id = some (.unknown opcode)

/-- A step fails for a reason from outside, or as a node of no known kind is not supported. -/
theorem excused_of_step {x : Failure} (h : m.Sane r.schema) (ho : m.Orderly src.bytes.length)
    (hs : step r src m = .error x m') : Excused x m' ∨
      ∃ opcode, m.AtUnknown r.schema opcode ∧ x = .unsupported (.unknown opcode) := by
  by_cases hk : ∃ opcode, m.AtUnknown r.schema opcode
  · obtain ⟨opcode, hp, id, rest, ht, hn⟩ := hk
    have hx := hs.symm.trans (step_unknown hp ht hn)
    exact .inr ⟨opcode, ⟨hp, id, rest, ht, hn⟩, (EStateM.Result.error.inj hx).1⟩
  · have hsound : Sound r.schema (step r src m) :=
      sound_step h ho fun id rest hp ht opcode hn => hk ⟨opcode, hp, id, rest, ht, hn⟩
    rw [hs] at hsound
    exact .inl hsound

/-- Machines stay sane. -/
theorem sane_step {p : Progress} (h : m.Sane r.schema) (ho : m.Orderly src.bytes.length)
    (hs : step r src m = .ok p m') : m'.Sane r.schema := by
  have hsound : Sound r.schema (step r src m) := by
    refine sound_step h ho fun id rest hp ht opcode hn => ?_
    rw [step_unknown hp ht hn] at hs
    simp at hs
  rwa [hs] at hsound

end Machine

end Transcoder

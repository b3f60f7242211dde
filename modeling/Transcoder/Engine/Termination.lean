import Transcoder.Cursor.Room
import Transcoder.Engine.Step

/-!
# Steps come to an end

A step that gets on takes input, or it takes work off the stack. `room` is the input that can still
be taken, `load` what the tasks can do at the reader's place; `descends_of_step` says that every
step lowers the pair of them. A loop does not spin: a repetition from where the last one began is a
failure, and so its body counts only once.
-/
namespace Transcoder

/-- The sum of `f` over a list. -/
def total {α : Type} (f : α → Nat) (xs : List α) : Nat := xs.foldr (fun x n => f x + n) 0

@[simp] theorem total_nil {α : Type} (f : α → Nat) : total f [] = 0 := rfl

@[simp] theorem total_cons {α : Type} (f : α → Nat) (x : α) (xs : List α) :
    total f (x :: xs) = f x + total f xs := rfl

/-- A bound on the tasks that a visit of a node comes to while no input is taken. -/
def Schema.weight (s : Schema) (id : Nat) : Nat :=
  match h : s.node? id with
  | none => 4
  | some n => 4 + total (fun c => 1 + s.weight c.val) n.children.attach
termination_by id
decreasing_by exact s.child_lt h c.property

theorem Schema.weight_eq {s : Schema} {id : Nat} {n : Node} (h : s.node? id = some n) :
    s.weight id = 4 + total (fun c => 1 + s.weight c) n.children := by
  rw [weight]
  split
  · simp_all
  · rename_i hn
    rw [h, Option.some.injEq] at hn
    subst hn
    simp [total]

/-- A bound on what a task comes to while the reader stays at `here`. -/
def Task.weight (s : Schema) (here : Position) : Task → Nat
  | visit id => s.weight id
  | sequence children => 1 + total (fun c => 1 + s.weight c) children
  | loop _ body _ last => if last = some here then 1 else 2 + s.weight body
  | block .. => 1
  | untilEof _ body last => if last = some here then 1 else 3 + s.weight body

/-- The parts of a step that succeed. -/
theorem Stepping.of_bind_ok {α β : Type} {act : Stepping α} {next : α → Stepping β}
    {e e'' : Engine} {b : β} (h : (act >>= next) e = .ok b e'') :
    ∃ a e', act e = .ok a e' ∧ next a e' = .ok b e'' := by
  simp only [bind, EStateM.bind] at h
  split at h
  · exact ⟨_, _, by assumption, h⟩
  · simp at h

namespace Engine

/-- Bits that the reader can still take. -/
def room (e : Engine) : Nat := e.reader.room e.input

/-- A bound on what all tasks come to while no input is taken. -/
def load (e : Engine) : Nat := total (Task.weight e.schema e.reader.position) e.tasks

/-- From `e` to `e'` input was taken, or less than `n` is left to do without any. -/
def Below (e e' : Engine) (n : Nat) : Prop := e'.room < e.room ∨ e'.room = e.room ∧ e'.load < n

/-- The reader has not moved and no input has come; only the stack may differ. -/
structure Stays (e e' : Engine) : Prop where
  schema : e'.schema = e.schema
  position : e'.reader.position = e.reader.position
  room : e'.room ≤ e.room

/-- And the stack is the same. -/
structure StaysAll (e e' : Engine) : Prop extends Stays e e' where
  tasks : e'.tasks = e.tasks

theorem Stays.trans {a b c : Engine} (h : Stays a b) (k : Stays b c) : Stays a c :=
  ⟨k.schema.trans h.schema, k.position.trans h.position, Nat.le_trans k.room h.room⟩

theorem StaysAll.refl (e : Engine) : StaysAll e e := ⟨⟨rfl, rfl, Nat.le_refl _⟩, rfl⟩

theorem StaysAll.trans {a b c : Engine} (h : StaysAll a b) (k : StaysAll b c) : StaysAll a c :=
  ⟨h.toStays.trans k.toStays, k.tasks.trans h.tasks⟩

section Parts

variable {e e' : Engine} {u : Unit}

theorem stays_of_pushTask {task : Task} (h : pushTask task e = .ok u e') :
    Stays e e' ∧ e'.tasks = task :: e.tasks := by
  unfold pushTask at h
  split at h
  · simp at h
  · simp only [EStateM.Result.ok.injEq, true_and] at h
    subst h
    exact ⟨⟨rfl, rfl, Nat.le_refl _⟩, rfl⟩

theorem stays_of_putBack {task : Task} (h : putBack task e = .ok u e') :
    Stays e e' ∧ e'.tasks = task :: e.tasks := by
  simp only [putBack, EStateM.Result.ok.injEq, true_and] at h
  subst h
  exact ⟨⟨rfl, rfl, Nat.le_refl _⟩, rfl⟩

theorem stays_of_writing {α : Type} {act : Writing EncodeError α} {a : α}
    (h : writing act e = .ok a e') : StaysAll e e' := by
  simp only [writing] at h
  split at h
  · simp only [EStateM.Result.ok.injEq] at h
    obtain ⟨-, rfl⟩ := h
    exact ⟨⟨rfl, rfl, Nat.le_refl _⟩, rfl⟩
  · simp at h

theorem stays_of_record {kind : IntKind} {word : UInt64} {address : Nat}
    (h : record kind word address e = .ok u e') : StaysAll e e' := by
  unfold record at h
  split at h <;> simp only [EStateM.Result.ok.injEq, true_and] at h <;> subst h <;> exact ⟨⟨rfl, rfl, Nat.le_refl _⟩, rfl⟩

theorem stays_of_beginValue {goal : Goal} {kind : IntKind}
    (h : beginValue goal kind e = .ok u e') : StaysAll e e' := by
  simp only [beginValue, EStateM.Result.ok.injEq, true_and] at h
  subst h
  exact ⟨⟨rfl, rfl, Nat.le_refl _⟩, rfl⟩

theorem stays_of_runAction {action : Nat} (h : runAction action e = .ok u e') :
    StaysAll e e' := by
  unfold runAction at h
  split at h
  · simp only [EStateM.Result.ok.injEq, true_and] at h
    subst h
    exact ⟨⟨rfl, rfl, Nat.le_refl _⟩, rfl⟩
  · simp only at h
    split at h
    · simp only [EStateM.Result.ok.injEq, true_and] at h
      subst h
      exact ⟨⟨rfl, rfl, Nat.le_refl _⟩, rfl⟩
    · simp at h

theorem stays_of_finishBlock {extent : Extent} {header : OpenHeader}
    (h : finishBlock extent header e = .ok u e') : StaysAll e e' := by
  obtain ⟨⟨⟩, d, hl, hc⟩ := Stepping.of_bind_ok h
  refine StaysAll.trans ?_ (stays_of_writing hc)
  unfold leaveBlock at hl
  split at hl
  · rename_i reader hr
    simp only [EStateM.Result.ok.injEq, true_and] at hl
    subst hl
    obtain ⟨hroom, hpos⟩ := Cursor.room_of_leave hr
    exact ⟨⟨rfl, hpos, hroom⟩, rfl⟩
  · simp at hl

theorem stays_of_passOn {p : Pending} {word : UInt64} (h : passOn p word e = .ok u e') :
    StaysAll e e' := by
  obtain ⟨⟨⟩, d, hw, hr⟩ := Stepping.of_bind_ok h
  exact (stays_of_writing hw).trans (stays_of_record hr)

/-- Completing a value takes no input and gives none back. -/
theorem room_le_of_complete {p : Pending} {word : UInt64} (h : complete p word e = .ok u e') :
    e'.room ≤ e.room := by
  cases hg : p.goal with
  | value =>
    simp only [complete, hg] at h
    exact (stays_of_passOn h).room
  | loopCount id body =>
    simp only [complete, hg] at h
    obtain ⟨⟨⟩, d, hw, hp⟩ := Stepping.of_bind_ok h
    exact ((stays_of_passOn hw).toStays.trans (stays_of_pushTask hp).1).room
  | blockSize body =>
    simp only [complete, hg] at h
    obtain ⟨extent, d, he, h⟩ := Stepping.of_bind_ok h
    obtain ⟨header, d', ho, h⟩ := Stepping.of_bind_ok h
    obtain ⟨⟨⟩, d'', hp, hv⟩ := Stepping.of_bind_ok h
    refine Nat.le_trans (((stays_of_writing ho).toStays.trans (stays_of_pushTask hp).1).trans
      (stays_of_pushTask hv).1).room ?_
    unfold enterBlock at he
    split at he
    · rename_i hr
      simp only [EStateM.Result.ok.injEq] at he
      obtain ⟨-, rfl⟩ := he
      exact Cursor.room_le_of_enterSized hr
    · simp at he

end Parts

/-! ## The tasks of a step -/

/-- The work of a stack at the reader of `e`. -/
def loadOf (e : Engine) (tasks : List Task) : Nat :=
  total (Task.weight e.schema e.reader.position) tasks

theorem load_eq (e : Engine) : e.load = e.loadOf e.tasks := rfl

@[simp] theorem loadOf_cons (e : Engine) (task : Task) (tasks : List Task) :
    e.loadOf (task :: tasks) = task.weight e.schema e.reader.position + e.loadOf tasks := by
  simp [loadOf]

/-- An engine that only has another stack, one that weighs less, has less to do. -/
theorem Below.of_stays {e e' : Engine} {tasks : List Task} {n : Nat} (h : Stays e e')
    (ht : e'.tasks = tasks) (hl : e.loadOf tasks < n) : Below e e' n := by
  have hload : e'.load = e.loadOf tasks := by
    simp only [load, loadOf, h.schema, h.position, ht]
  have := h.room
  unfold Below
  omega

/-- Nothing was taken and nothing added. -/
theorem Below.of_refl {e : Engine} {n : Nat} (h : e.load < n) : Below e e n := .inr ⟨rfl, h⟩

variable {e e' : Engine} {u : Unit}

theorem descends_of_visit {id : Nat} (h : visit id e = .ok u e') :
    Below e e' (e.schema.weight id + e.load) := by
  have pos : 4 ≤ e.schema.weight id := by
    rw [Schema.weight]
    split <;> omega
  have small : e.loadOf e.tasks < e.schema.weight id + e.load := by
    rw [← load_eq]
    omega
  have same (k : StaysAll e e') : Below e e' (e.schema.weight id + e.load) :=
    .of_stays k.toStays k.tasks small
  unfold visit at h
  split at h
  · simp at h
  · exact same (stays_of_beginValue h)
  · exact same (stays_of_runAction h)
  · rename_i children hn
    obtain ⟨hs, ht⟩ := stays_of_pushTask h
    refine .of_stays hs ht ?_
    rw [Schema.weight_eq hn, load_eq]
    simp only [loadOf_cons, Task.weight, Node.children]
    omega
  · exact same (stays_of_beginValue h)
  · exact same (stays_of_beginValue h)
  · rename_i body hn
    obtain ⟨hs, ht⟩ := stays_of_pushTask h
    refine .of_stays hs ht ?_
    rw [Schema.weight_eq hn, load_eq]
    simp only [loadOf_cons, Task.weight, Node.children, total_cons, total_nil,
      reduceCtorEq, if_false]
    omega
  · simp at h

theorem descends_of_nextChild {children : List Nat} (h : nextChild children e = .ok u e') :
    Below e e' ((Task.sequence children).weight e.schema e.reader.position + e.load) := by
  cases children with
  | nil =>
    simp only [nextChild, pure, EStateM.pure, EStateM.Result.ok.injEq, true_and] at h
    subst h
    exact .of_refl (by simp [Task.weight])
  | cons child rest =>
    obtain ⟨⟨⟩, d, hb, hv⟩ := Stepping.of_bind_ok h
    obtain ⟨hs, ht⟩ := stays_of_putBack hb
    obtain ⟨hs', ht'⟩ := stays_of_pushTask hv
    rw [ht] at ht'
    refine .of_stays (hs.trans hs') ht' ?_
    simp only [loadOf_cons, Task.weight, total_cons, ← load_eq]
    omega

/-- A repetition that began here weighs one. -/
theorem descends_of_repetition {again : Task} {id n : Nat}
    (h : (do putBack again; pushTask (.visit id) : Stepping Unit) e = .ok u e')
    (hw : again.weight e.schema e.reader.position = 1) (hn : 1 + e.schema.weight id < n) :
    Below e e' (n + e.load) := by
  obtain ⟨⟨⟩, d, hb, hv⟩ := Stepping.of_bind_ok h
  obtain ⟨hs, ht⟩ := stays_of_putBack hb
  obtain ⟨hs', ht'⟩ := stays_of_pushTask hv
  rw [ht] at ht'
  refine .of_stays (hs.trans hs') ht' ?_
  simp only [loadOf_cons, hw, ← load_eq]
  simp only [Task.weight]
  omega

theorem descends_of_nextRepetition {id body remaining : Nat} {last : Option Position}
    (h : nextRepetition id body last remaining e = .ok u e') :
    Below e e' ((Task.loop id body remaining last).weight e.schema e.reader.position + e.load) := by
  cases remaining with
  | zero =>
    simp only [nextRepetition, pure, EStateM.pure, EStateM.Result.ok.injEq, true_and] at h
    subst h
    refine .of_refl ?_
    simp only [Task.weight]
    split <;> omega
  | succ remaining =>
    simp only [nextRepetition] at h
    split at h
    · simp at h
    · rename_i hl
      refine descends_of_repetition h (by simp [Task.weight]) ?_
      simp only [Task.weight, if_neg hl]
      omega

theorem descends_of_repeatToEnd {id body : Nat} {last : Option Position}
    (h : repeatToEnd id body last e = .ok .advanced e') :
    Below e e' ((Task.untilEof id body last).weight e.schema e.reader.position + e.load) := by
  unfold repeatToEnd at h
  split at h
  · simp only [EStateM.Result.ok.injEq, true_and] at h
    subst h
    refine .of_refl ?_
    simp only [Task.weight]
    split <;> omega
  · split at h
    · simp at h
    · rename_i hl
      split at h
      · obtain ⟨⟨⟩, d, hb, hp⟩ := Stepping.of_bind_ok h
        simp [pure, EStateM.pure] at hp
      · obtain ⟨⟨⟩, d, hb, h⟩ := Stepping.of_bind_ok h
        obtain ⟨⟨⟩, d', hv, hp⟩ := Stepping.of_bind_ok h
        simp only [pure, EStateM.pure, EStateM.Result.ok.injEq, true_and] at hp
        subst hp
        have hr : EStateM.bind (putBack (.untilEof id body (some e.reader.position)))
            (fun _ => pushTask (.visit body)) e = .ok () d' := by
          simp only [EStateM.bind, hb, hv]
        refine descends_of_repetition hr (by simp [Task.weight]) ?_
        simp only [Task.weight, if_neg hl]
        omega

theorem descends_of_doTask {task : Task} (h : doTask task e = .ok .advanced e') :
    Below e e' (task.weight e.schema e.reader.position + e.load) := by
  cases task with
  | visit id =>
    obtain ⟨⟨⟩, d, hv, hp⟩ := Stepping.of_bind_ok h
    simp only [pure, EStateM.pure, EStateM.Result.ok.injEq, true_and] at hp
    exact hp ▸ descends_of_visit hv
  | sequence children =>
    obtain ⟨⟨⟩, d, hv, hp⟩ := Stepping.of_bind_ok h
    simp only [pure, EStateM.pure, EStateM.Result.ok.injEq, true_and] at hp
    exact hp ▸ descends_of_nextChild hv
  | loop id body remaining last =>
    obtain ⟨⟨⟩, d, hv, hp⟩ := Stepping.of_bind_ok h
    simp only [pure, EStateM.pure, EStateM.Result.ok.injEq, true_and] at hp
    exact hp ▸ descends_of_nextRepetition hv
  | block extent header =>
    obtain ⟨⟨⟩, d, hv, hp⟩ := Stepping.of_bind_ok h
    simp only [pure, EStateM.pure, EStateM.Result.ok.injEq, true_and] at hp
    subst hp
    have k := stays_of_finishBlock hv
    exact .of_stays k.toStays k.tasks (by simp only [Task.weight, load_eq]; omega)
  | untilEof id body last => exact descends_of_repeatToEnd h

/-- A step that gets on leaves less to do. -/
theorem descends_of_step (h : step e = .ok .advanced e') : Below e e' e.load := by
  unfold step at h
  split at h
  · unfold readOn at h
    split at h
    · rename_i hr
      obtain ⟨⟨⟩, d, hc, hp⟩ := Stepping.of_bind_ok h
      simp only [pure, EStateM.pure, EStateM.Result.ok.injEq, true_and] at hp
      subst hp
      exact .inl (Nat.lt_of_le_of_lt (room_le_of_complete hc) (Cursor.room_lt_of_resume hr))
    · split at h <;> simp at h
  · unfold checkTrailing at h
    split at h
    · simp at h
    · split at h
      · simp at h
      · split at h <;> simp at h
  · rename_i task rest ht
    have := descends_of_doTask h
    simp only [Below, room, load, ht, total_cons] at this ⊢
    exact this

end Engine

end Transcoder

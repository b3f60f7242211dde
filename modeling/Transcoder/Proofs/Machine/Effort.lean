import Transcoder.Engine.Termination
import Transcoder.Proofs.Machine.Whole

/-!
# How many steps a machine can make

A step that gets on takes input or leaves less to do where the reader stands. What there is to do
without input has a bound: the stack has a limit, and a task comes to no more than the nodes it
leads to. The bound knows nothing of what loops count, because a repetition that takes no input is
not followed by another. So the input that is left and the load together say how many steps are
left at most (`Machine.effort`).

Results:
* `Machine.effort_step`: every step that gets on lowers the effort.
* `Machine.Goes.effort`: so a machine makes no more steps than that.
-/
namespace Transcoder

/-! ## Weights -/

theorem total_le {α : Type} {f : α → Nat} {xs : List α} {n : Nat} (h : ∀ x ∈ xs, f x ≤ n) :
    total f xs ≤ xs.length * n := by
  induction xs with
  | nil => exact Nat.zero_le _
  | cons x xs ih =>
    have hx := h x (List.mem_cons_self ..)
    have hxs := ih fun y hy => h y (List.mem_cons_of_mem _ hy)
    rw [total_cons, List.length_cons, Nat.succ_mul]
    omega

/-- The most that a visit of one node comes to. -/
def Schema.heaviest (s : Schema) : Nat :=
  (List.range s.size).foldr (fun id n => max (s.weight id) n) 4

theorem Schema.weight_le_heaviest (s : Schema) (id : Nat) : s.weight id ≤ s.heaviest := by
  have hfold (ids : List Nat) : (∀ i ∈ ids, s.weight i ≤
      ids.foldr (fun id n => max (s.weight id) n) 4) ∧
        4 ≤ ids.foldr (fun id n => max (s.weight id) n) 4 := by
    induction ids with
    | nil => simp
    | cons i ids ih =>
      obtain ⟨hmem, h4⟩ := ih
      simp only [List.foldr_cons, List.mem_cons, forall_eq_or_imp]
      refine ⟨⟨Nat.le_max_left .., ?_⟩, ?_⟩
      · intro j hj
        have := hmem j hj
        omega
      · omega
  obtain ⟨hmem, h4⟩ := hfold (List.range s.size)
  by_cases hid : id < s.size
  · exact hmem id (List.mem_range.2 hid)
  · have hnone : s.node? id = none := Array.getElem?_eq_none (Nat.le_of_not_lt hid)
    have hw : s.weight id = 4 := by
      rw [Schema.weight]
      split
      · rfl
      · simp_all
    exact hw ▸ h4

namespace Task

/-- Wherever the reader stands, the task comes to no more than a visit and the steps around it. -/
def Light (s : Schema) (task : Task) : Prop := ∀ here, task.weight s here ≤ s.heaviest + 3

variable {s : Schema}

theorem light_visit (id : Nat) : (visit id).Light s := by
  intro here
  have := s.weight_le_heaviest id
  simp only [weight]
  omega

theorem light_loop (id body remaining : Nat) (last : Option Position) :
    (loop id body remaining last).Light s := by
  intro here
  have := s.weight_le_heaviest body
  simp only [weight]
  split <;> omega

theorem light_untilEof (id body : Nat) (last : Option Position) :
    (untilEof id body last).Light s := by
  intro here
  have := s.weight_le_heaviest body
  simp only [weight]
  split <;> omega

theorem light_block (extent : Extent) (header : OpenHeader) : (block extent header).Light s := by
  intro here
  simp only [weight]
  omega

theorem light_children {id : Nat} {children : List Nat}
    (h : s.node? id = some (.sequence children)) : (sequence children).Light s := by
  intro here
  have hle := s.weight_le_heaviest id
  rw [Schema.weight_eq h] at hle
  simp only [weight, Node.children] at hle ⊢
  omega

theorem light_rest {child : Nat} {rest : List Nat} (h : (sequence (child :: rest)).Light s) :
    (sequence rest).Light s := by
  intro here
  have := h here
  simp only [weight, total_cons] at this ⊢
  omega

end Task

/-! ## Load -/

/-- The tasks that may stand on the stack; the first one always may. -/
def Rules.depth (r : Rules) : Nat := max r.maxNesting 1

/-- A bound on what all tasks come to while no input is taken. -/
def Rules.capacity (r : Rules) : Nat := r.depth * (r.schema.heaviest + 3)

namespace Machine

variable {α β : Type} {r : Rules} {src : Source} {m m' : Machine} {a n : Nat}

/-- No more tasks stand on the stack than may, and none of them comes to too much. -/
structure Slight (r : Rules) (m : Machine) : Prop where
  depth : m.tasks.length ≤ r.depth
  light : ∀ task ∈ m.tasks, task.Light r.schema

/-- What all tasks come to where the reader stands. -/
def load (r : Rules) (m : Machine) : Nat :=
  total (Task.weight r.schema (.ofByte m.position)) m.tasks

theorem Slight.load_le (h : m.Slight r) : m.load r ≤ r.capacity :=
  Nat.le_trans (total_le fun task hm => h.light task hm _) (Nat.mul_le_mul_right _ h.depth)

theorem Slight.push {task : Task} (h : m.Slight r) (ht : task.Light r.schema)
    (hroom : m.tasks.length < r.depth) : Slight r { m with tasks := task :: m.tasks } :=
  ⟨hroom, fun t hm => (List.mem_cons.1 hm).elim (fun he => he ▸ ht) (h.light t)⟩

theorem Slight.rest {task : Task} {rest : List Task} (h : m.Slight r)
    (ht : m.tasks = task :: rest) : task.Light r.schema ∧ rest.length < r.depth ∧
      Slight r { m with tasks := rest } := by
  obtain ⟨hd, hl⟩ := h
  rw [ht] at hd hl
  rw [List.length_cons] at hd
  exact ⟨hl task (List.mem_cons_self ..), hd, Nat.le_of_succ_le hd,
    fun t hm => hl t (List.mem_cons_of_mem _ hm)⟩

/-- A piece of a step reads nothing and leaves a slight machine with less than `n` to do. -/
def Eases (r : Rules) (a n : Nat) : EStateM.Result Failure Machine α → Prop
  | .ok _ m' => m'.Slight r ∧ m'.position = a ∧ m'.load r < n
  | .error .. => True

theorem Eases.bind {act : Turn α} {next : α → Turn β} {k : Nat} (h : Eases r a k (act m))
    (hn : ∀ x m', m'.Slight r → m'.position = a → m'.load r < k → Eases r a n (next x m')) :
    Eases r a n ((act >>= next) m) := by
  simp only [Bind.bind, EStateM.bind]
  cases ha : act m with
  | error x m' => trivial
  | ok x m' =>
    rw [ha] at h
    exact hn x m' h.1 h.2.1 h.2.2

theorem eases_pushTask {task : Task} (h : m.Slight r) (ht : task.Light r.schema)
    (hl : m.tasks.length < r.depth →
      task.weight r.schema (.ofByte m.position) + m.load r < n) :
    Eases r m.position n (pushTask r task m) := by
  unfold pushTask
  split
  · trivial
  · rename_i hroom
    have hroom : m.tasks.length < r.depth :=
      Nat.lt_of_lt_of_le (Nat.lt_of_not_le hroom) (Nat.le_max_left ..)
    exact ⟨h.push ht hroom, rfl, hl hroom⟩

/-- A repetition or a child is visited, with what comes after it put back first. -/
theorem eases_again {again : Task} {id : Nat} (h : m.Slight r) (hroom : m.tasks.length < r.depth)
    (ht : again.Light r.schema)
    (hl : r.schema.weight id + again.weight r.schema (.ofByte m.position) + m.load r < n) :
    Eases r m.position n ((do putBack again; pushTask r (.visit id) : Turn Unit) m) := by
  have hput : putBack again m = .ok () { m with tasks := again :: m.tasks } := rfl
  rw [bind_of_ok hput]
  refine eases_pushTask (m := { m with tasks := again :: m.tasks }) (h.push ht hroom)
    (Task.light_visit id) fun _ => ?_
  simp only [load, total_cons, Task.weight] at hl ⊢
  omega

/-! ## The tasks of a step -/

theorem eases_runAction (h : m.Slight r) (hl : m.load r < n) (action : Nat) :
    Eases r m.position n (runAction action m) := by
  unfold runAction
  split
  · exact ⟨h, rfl, hl⟩
  · simp only
    split
    · exact ⟨⟨h.depth, h.light⟩, rfl, hl⟩
    · trivial

theorem eases_visit (h : m.Slight r) (id : Nat) :
    Eases r m.position (r.schema.weight id + m.load r) (visit r id m) := by
  have hpos : 4 ≤ r.schema.weight id := by
    rw [Schema.weight]
    split <;> omega
  have hl : m.load r < r.schema.weight id + m.load r := by omega
  unfold visit
  split
  · trivial
  · exact ⟨⟨h.depth, h.light⟩, rfl, hl⟩
  · exact eases_runAction h hl _
  · rename_i children hn
    apply eases_pushTask h (Task.light_children hn)
    intro _
    rw [Schema.weight_eq hn]
    simp only [Task.weight, Node.children]
    omega
  · exact ⟨⟨h.depth, h.light⟩, rfl, hl⟩
  · exact ⟨⟨h.depth, h.light⟩, rfl, hl⟩
  · rename_i body hn
    apply eases_pushTask h (Task.light_untilEof _ _ _)
    intro _
    rw [Schema.weight_eq hn]
    simp only [Task.weight, Node.children, total_cons, total_nil, reduceCtorEq, if_false]
    omega
  · trivial

theorem eases_nextChild {children : List Nat} (h : m.Slight r) (hroom : m.tasks.length < r.depth)
    (ht : (Task.sequence children).Light r.schema) :
    Eases r m.position ((Task.sequence children).weight r.schema (.ofByte m.position) + m.load r)
      (nextChild r children m) := by
  cases children with
  | nil =>
    refine ⟨h, rfl, ?_⟩
    simp only [Task.weight, total_nil]
    omega
  | cons child rest =>
    refine eases_again h hroom (Task.light_rest ht) ?_
    simp only [Task.weight, total_cons]
    omega

theorem eases_nextRepetition (h : m.Slight r) (hroom : m.tasks.length < r.depth)
    (id body remaining : Nat) (last : Option Position) : Eases r m.position
      ((Task.loop id body remaining last).weight r.schema (.ofByte m.position) + m.load r)
      (nextRepetition r id body last remaining m) := by
  cases remaining with
  | zero =>
    refine ⟨h, rfl, ?_⟩
    simp only [Task.weight]
    split <;> omega
  | succ remaining =>
    simp only [nextRepetition]
    split
    · trivial
    · rename_i hlast
      refine eases_again h hroom (Task.light_loop _ _ _ _) ?_
      simp only [Task.weight, if_neg hlast, if_true]
      omega

theorem eases_finishBlock (h : m.Slight r) (extent : Extent) (header : OpenHeader) :
    Eases r m.position (1 + m.load r) (finishBlock r extent header m) := by
  have hleave : Eases r m.position (1 + m.load r) (leaveBlock extent m) := by
    unfold leaveBlock
    split
    · split
      · trivial
      · exact ⟨⟨h.depth, h.light⟩, rfl, Nat.lt_add_of_pos_left Nat.one_pos⟩
    · trivial
  apply hleave.bind
  intro _ m' h' hp hl
  simp only [closeBlock]
  split
  · trivial
  · exact ⟨⟨h'.depth, h'.light⟩, hp, hl⟩

/-- A loop to the end has less left to do when it gets on, and as much when it waits. -/
theorem eases_repeatToEnd {id body : Nat} {last : Option Position} {p : Progress}
    (h : m.Slight r) (hroom : m.tasks.length < r.depth)
    (hs : repeatToEnd r src id body last m = .ok p m') :
    m'.Slight r ∧ m'.position = m.position ∧
      (m'.load r < (Task.untilEof id body last).weight r.schema (.ofByte m.position) + m.load r ∨
        p = .needInput ∧ m'.tasks = .untilEof id body last :: m.tasks) := by
  unfold repeatToEnd at hs
  split at hs
  · cases hs
    refine ⟨h, rfl, .inl ?_⟩
    simp only [Task.weight]
    split <;> omega
  · split at hs
    · cases hs
    · rename_i hlast
      split at hs
      · obtain ⟨rfl, hput⟩ := of_answer hs
        cases hput
        exact ⟨h.push (Task.light_untilEof _ _ _) hroom, rfl, .inr ⟨rfl, rfl⟩⟩
      · have hb : Eases r m.position
            ((Task.untilEof id body last).weight r.schema (.ofByte m.position) + m.load r)
            ((do
              putBack (.untilEof id body (some (.ofByte m.position)))
              pushTask r (.visit body) : Turn Unit) m) := by
          refine eases_again h hroom (Task.light_untilEof _ _ _) ?_
          simp only [Task.weight, if_neg hlast, if_true]
          omega
        have hs : (do
            (do
              putBack (.untilEof id body (some (.ofByte m.position)))
              pushTask r (.visit body) : Turn Unit)
            return .advanced : Turn Progress) m = .ok p m' := hs
        obtain ⟨rfl, ha⟩ := of_answer hs
        rw [ha] at hb
        exact ⟨hb.1, hb.2.1, .inl hb.2.2⟩

/-! ## Values -/

theorem eases_passOn (h : m.Slight r) (p : Pending) (word : UInt64) :
    Eases r m.position (r.capacity + 1) (passOn r p word m) := by
  have hn : m.load r < r.capacity + 1 := Nat.lt_succ_of_le h.load_le
  have hw : Eases r m.position (r.capacity + 1) (writeValue p.partialValue.kind word m) := by
    unfold writeValue
    split
    · split
      · exact ⟨⟨h.depth, h.light⟩, rfl, hn⟩
      · trivial
    · trivial
  apply hw.bind
  intro _ m' h' hp hl
  unfold record
  split
  · exact ⟨⟨h'.depth, h'.light⟩, hp, hl⟩
  · exact ⟨h', hp, hl⟩

theorem eases_newTask {task : Task} (h : m.Slight r) (ht : task.Light r.schema) :
    Eases r m.position (r.capacity + 1) (pushTask r task m) :=
  eases_pushTask h ht fun hroom => Nat.lt_succ_of_le (h.push ht hroom).load_le

/-- What a value is read for leaves a slight machine. -/
theorem eases_complete (h : m.Slight r) (p : Pending) (word : UInt64) :
    Eases r m.position (r.capacity + 1) (complete r src p word m) := by
  unfold complete
  cases p.goal with
  | value => exact eases_passOn h p word
  | loopCount id body =>
    exact (eases_passOn h p word).bind fun _ m' h' hp _ =>
      hp ▸ eases_newTask h' (Task.light_loop _ _ _ _)
  | blockSize body =>
    have henter : Eases r m.position (r.capacity + 1) (enterBlock src word.toNat m) := by
      simp only [enterBlock]
      split
      · exact ⟨⟨h.depth, h.light⟩, rfl, Nat.lt_succ_of_le h.load_le⟩
      · trivial
    apply henter.bind
    intro extent m₁ h₁ hp₁ hl₁
    have hopen : Eases r m.position (r.capacity + 1) (openBlock r m₁) := by
      simp only [openBlock]
      split
      · exact ⟨⟨h₁.depth, h₁.light⟩, hp₁, hl₁⟩
      · trivial
    apply hopen.bind
    intro header m₂ h₂ hp₂ _
    have hblock : Eases r m.position (r.capacity + 1) (pushTask r (.block extent header) m₂) :=
      hp₂ ▸ eases_newTask h₂ (Task.light_block _ _)
    exact hblock.bind fun _ m₃ h₃ hp₃ _ => hp₃ ▸ eases_newTask h₃ (Task.light_visit _)

/-! ## Steps -/

/-- From `m` to `m'` something was read, or taken from the load, or the step did not get on. -/
structure Lowers (r : Rules) (m : Machine) (p : Progress) (m' : Machine) :
    Prop where
  slight : m'.Slight r
  lower : m.position < m'.position ∨ m'.position = m.position ∧
    (m'.load r < m.load r ∨ p ≠ .advanced ∧ m'.load r = m.load r)

theorem Eases.lowers {m₀ : Machine} {turn : Turn Unit} {p : Progress}
    (he : Eases r m.position (m.load r) (turn m₀))
    (hs : (do turn; return .advanced : Turn Progress) m₀ = .ok p m') : Lowers r m p m' := by
  obtain ⟨-, ha⟩ := of_answer hs
  rw [ha] at he
  obtain ⟨h', hp', hl⟩ := he
  exact ⟨h', .inr ⟨hp', .inl hl⟩⟩

theorem lowers_readOn {q : Pending} {p : Progress} (h : m.Slight r)
    (hs : readOn r src q { m with pending := none } = .ok p m') : Lowers r m p m' := by
  have hle := (src.read_le m.bounds m.position q.partialValue).1
  unfold readOn at hs
  match hr : src.read m.bounds m.position q.partialValue with
  | (.ok word, a, v) =>
    obtain ⟨bytes, hc, -, ha⟩ := Source.completes_of_read hr
    have hpos := List.length_pos_iff.2 hc.ne_nil
    simp only [hr] at hs
    obtain ⟨-, hs⟩ := of_answer hs
    have he : Eases r a (r.capacity + 1)
        (complete r src q word { m with pending := none, position := a }) :=
      eases_complete (m := { m with pending := none, position := a }) ⟨h.depth, h.light⟩ q word
    rw [hs] at he
    obtain ⟨h', hp', -⟩ := he
    exact ⟨h', .inl (by omega)⟩
  | (.error cause, a, v) =>
    simp only [hr] at hs hle
    split at hs
    · cases hs
      refine ⟨⟨h.depth, h.light⟩, ?_⟩
      rcases Nat.lt_or_eq_of_le hle with hlt | heq
      · exact .inl hlt
      · subst heq
        exact .inr ⟨rfl, .inr ⟨by decide, rfl⟩⟩
    · cases hs

theorem lowers_checkTrailing {p : Progress} (h : m.Slight r)
    (hs : checkTrailing r src m = .ok p m') : Lowers r m p m' := by
  unfold checkTrailing at hs
  split at hs
  · cases hs
    exact ⟨h, .inr ⟨rfl, .inr ⟨by decide, rfl⟩⟩⟩
  · split at hs
    · cases hs
    · split at hs <;> cases hs <;> exact ⟨h, .inr ⟨rfl, .inr ⟨by decide, rfl⟩⟩⟩

/-- A step reads on, or it takes from the load, or it does not get on. -/
theorem lowers_step {p : Progress} (h : m.Slight r) (hs : step r src m = .ok p m') :
    Lowers r m p m' := by
  cases hp : m.pending with
  | some q => exact lowers_readOn h (step_of_pending hp ▸ hs)
  | none =>
    cases ht : m.tasks with
    | nil => exact lowers_checkTrailing h (step_of_none hp ht ▸ hs)
    | cons task rest =>
      obtain ⟨hlight, hroom, hrest⟩ := h.rest ht
      have hload : m.load r = task.weight r.schema (.ofByte m.position) +
          load r { m with tasks := rest } := by
        rw [load, ht, total_cons, load]
      rw [step_of_task hp ht] at hs
      cases task with
      | visit id =>
        have he := eases_visit hrest id
        exact (hload ▸ he).lowers hs
      | sequence children =>
        have he := eases_nextChild hrest hroom hlight
        exact (hload ▸ he).lowers hs
      | loop id body remaining last =>
        have he := eases_nextRepetition hrest hroom id body remaining last
        exact (hload ▸ he).lowers hs
      | block extent header =>
        have he := eases_finishBlock hrest extent header
        exact (hload ▸ he).lowers hs
      | untilEof id body last =>
        obtain ⟨h', hp', hl⟩ := eases_repeatToEnd hrest hroom hs
        refine ⟨h', .inr ⟨hp', ?_⟩⟩
        rcases hl with hl | ⟨rfl, htasks⟩
        · exact .inl (hload ▸ hl)
        · refine .inr ⟨by decide, ?_⟩
          rw [hload, load, htasks, total_cons, hp']
          rfl

/-- A bound on the steps that are left before `n` bytes are read. -/
def effort (r : Rules) (n : Nat) (m : Machine) : Nat :=
  (n - m.position) * (r.capacity + 1) + m.load r

/-- Input that is taken pays for any load. -/
theorem Slight.effort_lt {n : Nat} (h : m'.Slight r) (hp : m.position < m'.position)
    (hn : m'.position ≤ n) : m'.effort r n < m.effort r n := by
  have hl := h.load_le
  have hle : (n - m'.position + 1) * (r.capacity + 1) ≤ (n - m.position) * (r.capacity + 1) :=
    Nat.mul_le_mul_right _ (by omega)
  rw [Nat.succ_mul] at hle
  simp only [effort]
  omega

/-- No step makes the effort greater, and one that gets on makes it less. -/
theorem effort_step {n : Nat} {p : Progress} (h : m.Slight r)
    (hm : m.position ≤ src.bytes.length) (hn : src.bytes.length ≤ n)
    (hs : step r src m = .ok p m') :
    m'.effort r n ≤ m.effort r n ∧ (p = .advanced → m'.effort r n < m.effort r n) := by
  obtain ⟨h', hlt | ⟨hp, hl | ⟨hne, hl⟩⟩⟩ := lowers_step h hs
  · have := h'.effort_lt hlt (Nat.le_trans (inside_step hm hs) hn)
    exact ⟨Nat.le_of_lt this, fun _ => this⟩
  · simp only [effort, hp]
    omega
  · simp only [effort, hp, hl]
    exact ⟨Nat.le_refl _, fun he => absurd he hne⟩

/-- Every step on the way costs at least one. -/
theorem Goes.effort {k n : Nat} (hg : Goes r src k m m') (h : m.Slight r)
    (hm : m.position ≤ src.bytes.length) (hn : src.bytes.length ≤ n) :
    m'.Slight r ∧ m'.position ≤ src.bytes.length ∧ m'.effort r n + k ≤ m.effort r n := by
  induction hg with
  | none => exact ⟨h, hm, Nat.le_refl _⟩
  | step hs _ ih =>
    obtain ⟨-, hlt⟩ := effort_step h hm hn hs
    obtain ⟨h', hm', hle⟩ := ih (lowers_step h hs).slight (inside_step hm hs)
    have := hlt rfl
    exact ⟨h', hm', by omega⟩

end Machine

end Transcoder

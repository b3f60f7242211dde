import Transcoder.Proofs.Engine.Matches

/-!
# Runs of an engine and of its machine

`Follows` is the invariant of an engine that is not through: it matches a machine whose stack is in
order, and has handed out no more than what is final. `Rests` is what remains once it is through.
Every call keeps the one or turns it into the other.

Results:
* `Follows.of_step`, `Follows.of_run`: what an engine does, its machine does.
-/
namespace Transcoder

/-- The engine is at work as the machine, and only final output was handed out. -/
structure Follows (src : Source) (e : Engine) (m : Machine) : Prop where
  tied : Matches e.setting src e m
  orderly : m.Orderly src.bytes.length
  drained : e.drained ≤ m.held

/-- The engine is through, and only final output was handed out. -/
structure Rests (e : Engine) (m : Machine) : Prop where
  spent : Spent e.setting e m
  drained : e.drained ≤ m.held
  loose : ∃ n, m.Loose n

theorem Rests.held_le {e : Engine} {m : Machine} (h : Rests e m) : m.held ≤ m.output.length :=
  h.loose.choose_spec.held_le

/-- The engine reads its input as the machine does. Nothing is asked of its output. -/
structure Reads (src : Source) (e : Engine) (m : Machine) : Prop where
  stands : Stands e.reader e.input src
  position : e.reader.address = m.position
  bounds : e.reader.bounds = m.bounds
  pending : e.pending = m.pending

/-- What the engine goes by. -/
def Engine.rules (e : Engine) : Rules := .of e.schema e.config

/-- The state of an engine after a run. -/
def Outcome.status : Outcome → Status
  | waits wait => .waiting wait
  | finished => .finished
  | failed reason => .failed reason

theorem Outcome.status_injective {o o' : Outcome} (h : o.status = o'.status) : o = o' := by
  cases o <;> cases o' <;> simp_all [Outcome.status]

/-- How a run of an engine ends where its machine is `m`. -/
inductive Ends (r : Rules) (src : Source) (m : Machine) : Outcome → Engine → Prop
  | pressed {wait : Wait} {e : Engine} (hw : wait ≠ .input) (f : Follows src e m) :
    Ends r src m (.waits wait) e
  | starved {m' : Machine} {e : Engine} (hs : Machine.step r src m = .ok .needInput m')
    (f : Follows src e m') : Ends r src m (.waits .input) e
  | finished {m' : Machine} {e : Engine} (hs : Machine.step r src m = .ok .done m')
    (f : Rests e m') (he : e.output.eof = some m'.output.length) (ht : m'.tasks = [])
    (reads : Reads src e m') : Ends r src m .finished e
  | failed {m' : Machine} {x : Failure} {e : Engine} (hs : Machine.step r src m = .error x m')
    (f : Rests e m') : Ends r src m (.failed x) e

variable {src : Source} {e e' : Engine} {m m' : Machine}

theorem Follows.rests (h : Follows src e m) : Rests e m :=
  ⟨h.tied.spent, h.drained, _, h.orderly.loose⟩

theorem Follows.reads (h : Follows src e m) : Reads src e m :=
  ⟨h.tied.input, h.tied.position, h.tied.bounds, h.tied.pending⟩

/-- What `n` steps do to the rest of an engine. -/
structure Took (e : Engine) (n : Nat) (e' : Engine) : Prop where
  schema : e'.schema = e.schema
  config : e'.config = e.config
  drained : e'.drained = e.drained
  steps : e'.steps = e.steps + n

theorem Took.of_setting (h : e'.setting = e.setting) : Took e 0 e' :=
  ⟨congrArg Setting.schema h, congrArg Setting.config h, congrArg Setting.drained h,
    congrArg Setting.steps h⟩

theorem Took.rules {n : Nat} (h : Took e n e') : e'.rules = e.rules := by
  rw [Engine.rules, Engine.rules, h.schema, h.config]

/-- A step of an engine is the step of its machine. -/
theorem Follows.of_step {p : Progress} (h : Follows src e m) (he : Engine.step e = .ok p e') :
    ∃ m', Machine.step e.rules src m = .ok p m' ∧ e'.setting = e.setting ∧ Follows src e' m' ∧
      m.Onward m' := by
  have ht := h.tied.step h.orderly
  have hl := Machine.leaves_step (r := e.rules) h.orderly
  rw [he] at ht
  obtain ⟨p', m', hm, hp, hM⟩ := ht.of_ok
  obtain rfl : p = p' := hp
  have hm : Machine.step e.rules src m = .ok p m' := hm
  rw [hm] at hl
  have hd : e'.drained = e.drained := congrArg Setting.drained hM.setting
  exact ⟨m', hm, hM.setting,
    ⟨hM.setting.symm ▸ hM, hl.1, hd.symm ▸ Nat.le_trans h.drained hl.2.held⟩, hl.2⟩

/-- And so is a step that fails. -/
theorem Follows.of_step_error {x : Failure} (h : Follows src e m)
    (he : Engine.step e = .error x e') :
    ∃ m', Machine.step e.rules src m = .error x m' ∧ e'.setting = e.setting ∧ Rests e' m' ∧
      m.Onward m' := by
  have ht := h.tied.step h.orderly
  have hl := Machine.leaves_step (r := e.rules) h.orderly
  rw [he] at ht
  obtain ⟨m', hm, hS⟩ := ht.of_error
  have hm : Machine.step e.rules src m = .error x m' := hm
  rw [hm] at hl
  have hd : e'.drained = e.drained := congrArg Setting.drained hS.setting
  exact ⟨m', hm, hS.setting,
    ⟨hS.setting.symm ▸ hS, hd.symm ▸ Nat.le_trans h.drained hl.2.held, _, hl.1⟩, hl.2⟩

/-- The end of the output is fixed where it is. -/
theorem Follows.finishOutput (h : Follows src e m) : Engine.finishOutput e =
    .ok () { e with output := { e.output with eof := some m.output.length } } := by
  have hw : Writing.mapError EncodeError.stream Cursor.alignWriter (e.output, e.writer) =
      .ok () (e.output, e.writer) := by
    rw [Writing.mapError, Cursor.alignWriter, if_pos h.tied.output.sound.aligned]
  rw [Engine.finishOutput, Engine.writing_of_ok hw]
  simp only [Tape.fixEnd, Nat.lt_irrefl, if_false, h.tied.output.eof, h.tied.output.carries.fill]

/-- Counters and the state are nothing to what is done. -/
theorem Follows.retuned (h : Follows src e m) (status : Status) (nextStop steps : Nat) :
    Follows src { e with status, nextStop, steps } m :=
  ⟨{ h.tied with setting := rfl }, h.orderly, h.drained⟩

theorem Rests.retuned (h : Rests e m) (status : Status) (nextStop steps : Nat) :
    Rests { e with status, nextStop, steps } m :=
  ⟨{ h.spent with setting := rfl }, h.drained, h.loose⟩

/-- A run of an engine is as many steps of its machine as it counts. -/
theorem Follows.of_run (h : Follows src e m) :
    ∃ n m', Machine.Goes e.rules src n m m' ∧ Ends e.rules src m' e.run.1 e.run.2 ∧
      e.run.2.status = e.run.1.status ∧ Took e n e.run.2 := by
  fun_induction Engine.run e generalizing m with
  | case1 e wait hp =>
    have hw : wait ≠ .input := by
      rintro rfl
      unfold Engine.pressure? at hp
      split at hp
      · simp at hp
      · split at hp
        · simp at hp
        · split at hp <;> simp at hp
    exact ⟨0, m, .none m, .pressed hw (h.retuned _ _ _), rfl, ⟨rfl, rfl, rfl, rfl⟩⟩
  | case2 e hp e₁ hs _ ih =>
    obtain ⟨m₁, hm, hset, hf, -⟩ := h.of_step hs
    obtain ⟨n, m', hg, he, hs', ht'⟩ := ih (hf.retuned e₁.status e₁.nextStop (e₁.steps + 1))
    have ht := Took.of_setting hset
    have hr : Engine.rules { e₁ with steps := e₁.steps + 1 } = e.rules := ht.rules
    rw [hr] at hg he
    refine ⟨n + 1, m', .step hm hg, he, hs', ht'.schema.trans ht.schema, ht'.config.trans ht.config,
      ht'.drained.trans ht.drained, ht'.steps.trans ?_⟩
    have := ht.steps
    simp only
    omega
  | case3 e hp e₁ hs =>
    obtain ⟨m₁, hm, hset, hf, -⟩ := h.of_step hs
    have ht := Took.of_setting hset
    exact ⟨0, m, .none m, .starved hm (hf.retuned _ _ _), rfl, ⟨ht.1, ht.2, ht.3, ht.4⟩⟩
  | case4 e hp e₁ hs =>
    obtain ⟨m₁, hm, hset, hf, -⟩ := h.of_step hs
    have ht := Took.of_setting hset
    obtain ⟨rfl, hnil⟩ := Machine.tasks_of_done hm
    rw [hf.finishOutput]
    refine ⟨0, m₁, .none m₁, .finished hm ?_ rfl hnil ⟨hf.reads.1, hf.reads.2, hf.reads.3,
      hf.reads.4⟩, rfl, ⟨ht.1, ht.2, ht.3, ht.4⟩⟩
    have hr := hf.rests
    exact ⟨⟨rfl, ⟨hr.spent.output.whole, hr.spent.output.paged, hr.spent.output.fill,
      hr.spent.output.shows⟩, hr.spent.tasks, hr.spent.calls, hr.spent.values, hr.spent.kept⟩,
      hr.drained, hr.loose⟩
  | case5 e hp x e₁ hs =>
    obtain ⟨m₁, hm, hset, hf, -⟩ := h.of_step_error hs
    have ht := Took.of_setting hset
    exact ⟨0, m, .none m, .failed hm (hf.retuned _ _ _), rfl, ⟨ht.1, ht.2, ht.3, ht.4⟩⟩

end Transcoder

import Transcoder.Proofs.Engine.Invariants
import Transcoder.Proofs.Machine.Reasons

/-!
# Why an engine fails

An engine that fails has failed in a step of one of its runs, and later runs only say so again. The
machine that it works as is sane whatever was called before, so the step failed for a reason from
outside.

Results:
* `Engine.Calls.failed`: the run that failed, whenever it is reported.
* `Engine.failed_of_run`, `Engine.blames_of_step`: the step that failed, and what was wrong there.
* `Engine.fails_soundly`: no engine fails for its own sake.
-/
namespace Transcoder

theorem Machine.sane_new (schema : Schema) : (Machine.new schema).Sane schema :=
  ⟨fun _ ht => List.mem_singleton.1 ht ▸ schema.knows_root, nofun⟩

theorem Machine.invariant_sane (r : Rules) : Machine.Invariant r (Machine.Sane r.schema) :=
  ⟨sane_step, fun _ _ h => ⟨h.tasks, h.pending⟩⟩

namespace Engine

variable {r : Rules} {src src' : Source} {e e' : Engine} {m : Machine} {x : Failure}

/-! ## Runs -/

/-- The states of an engine between the steps of a run. -/
inductive Runs : Engine → Engine → Prop
  | here (e : Engine) : Runs e e
  | on {e e₁ e₂ : Engine} (hp : e.pressure? = none) (hs : e.step = .ok .advanced e₁)
    (h : Runs { e₁ with steps := e₁.steps + 1 } e₂) : Runs e e₂

/-- A run that fails has come to a step that does: the end of the output can always be fixed. -/
theorem failed_of_run (f : Follows src e m) (h : e.run.1 = .failed x) :
    ∃ e₁ e₂, Runs e e₁ ∧ e₁.step = .error x e₂ := by
  fun_induction Engine.run e generalizing m with
  | case1 | case3 => simp at h
  | case2 e hp e₁ hs _ ih =>
    obtain ⟨m₁, -, -, f₁, -⟩ := f.of_step hs
    obtain ⟨e₂, e₃, hr, he⟩ := ih (f₁.retuned e₁.status e₁.nextStop (e₁.steps + 1)) h
    exact ⟨e₂, e₃, .on hp hs hr, he⟩
  | case4 e hp e₁ hs =>
    obtain ⟨m₁, -, -, f₁, -⟩ := f.of_step hs
    simp [f₁.finishOutput, conclude] at h
  | case5 e hp y e₁ hs =>
    obtain rfl := Outcome.failed.inj h
    exact ⟨e, e₁, .here e, hs⟩

/-- Every state of a run is that of a machine that its invariants hold for. -/
theorem Runs.follows {I : Machine → Prop} (hi : Machine.Invariant r I) (h : Runs e e')
    (f : Follows src e m) (rules : e.rules = r) (inv : I m) :
    ∃ m', Follows src e' m' ∧ I m' ∧ e'.rules = r := by
  induction h generalizing m with
  | here => exact ⟨m, f, inv, rules⟩
  | @on e e₁ e₂ _ hs _ ih =>
    obtain ⟨m₁, hm, hset, f₁, -⟩ := f.of_step hs
    exact ih (f₁.retuned _ _ _) ((Took.of_setting hset).rules.trans rules)
      (hi.step inv f.orderly (rules ▸ hm))

/-! ## The run that fails -/

/-- An engine that has failed did so in a run. -/
theorem Calls.failed (h : Calls e src e' src') (live : e.status.phase.terminal = false)
    (hs : e'.status = .failed x) : ∃ e₀ src₀, Calls e src e₀ src₀ ∧
      Calls (e₀.perform .resume).2 src₀ e' src' ∧ e₀.status.phase.terminal = false ∧
      e₀.resume.1 = .failed x := by
  induction h with
  | none => simp [hs, Status.phase, Phase.terminal] at live
  | @more e' src src' hc request ih =>
    cases ht : e'.status.phase.terminal with
    | true =>
      have hst : (e'.perform request).2.status = e'.status := by
        by_cases hq : request = .resume
        · rw [hq]
          exact congrArg Engine.status (resume_of_terminal ht)
        · exact status_perform hq
      obtain ⟨e₀, src₀, hc₀, hc₁, hrest⟩ := ih (hst ▸ hs)
      exact ⟨e₀, src₀, hc₀, hc₁.more request, hrest⟩
    | false =>
      by_cases hq : request = .resume
      · subst hq
        have hst : e'.resume.1.status = .failed x := e'.status_resume ▸ hs
        refine ⟨e', src', hc, ?_, ht, ?_⟩
        · rw [told_of_input (q := .resume) rfl rfl]
          exact .none _ _
        · cases ho : e'.resume.1 <;> simp_all [Outcome.status]
      · rw [status_perform hq] at hs
        simp [hs, Status.phase, Phase.terminal] at ht

/-- The step that failed, and the machine that the engine worked as there. -/
theorem Calls.failing_step {schema : Schema} {config : Config} {I : Machine → Prop}
    (h : Calls (new schema config) { bytes := [] } e src) (hs : e.status = .failed x)
    (hi : Machine.Invariant (.of schema config) I) (hnew : I (.new schema)) :
    ∃ e₀ src₀ e₁ e₂ m, Calls (new schema config) { bytes := [] } e₀ src₀ ∧
      Calls (e₀.perform .resume).2 src₀ e src ∧ e₀.status.phase.terminal = false ∧
      Runs { e₀ with status := .running } e₁ ∧ e₁.step = .error x e₂ ∧
      Follows src₀ e₁ m ∧ I m ∧ e₁.rules = .of schema config := by
  obtain ⟨e₀, src₀, hc₀, hc, live, hr₀⟩ := h.failed rfl hs
  cases hc₀.holds hi (.new schema config hnew) with
  | rests ends => simp [live] at ends
  | works _ rules f inv =>
    have f₀ := f.retuned .running e₀.nextStop e₀.steps
    rw [resume_of_live live] at hr₀
    obtain ⟨e₁, e₂, hruns, hstep⟩ := failed_of_run f₀ hr₀
    obtain ⟨m₁, f₁, inv₁, rules₁⟩ := hruns.follows hi f₀ rules inv
    exact ⟨e₀, src₀, e₁, e₂, m₁, hc₀, hc, live, hruns, hstep, f₁, inv₁, rules₁⟩

/-- What is wrong where a step of an engine fails. -/
inductive Blames (schema : Schema) (e e' : Engine) : Failure → Prop
  /-- The input, the host or the configuration. -/
  | outside {x : Failure} (h : x.external = true) : Blames schema e e' x
  /-- The output, which is about as long as 64-bit addresses go. -/
  | length (h : addressLimit < e'.output.fill + 10) : Blames schema e e' (.stream outOfSpace)
  /-- The node that is next, which is of no known kind. -/
  | node {id : Nat} {opcode : UInt8} {rest : List Task} (hp : e.pending = none)
    (ht : e.tasks = .visit id :: rest) (hn : schema.node? id = some (.unknown opcode)) :
    Blames schema e e' (.unsupported (.unknown opcode))

theorem visit_of_flat {tasks : List Task} {rest : List Task} {id : Nat}
    (h : tasks.map Task.flat = .visit id :: rest) : ∃ rest', tasks = .visit id :: rest' := by
  cases tasks with
  | nil => simp at h
  | cons task tasks =>
    obtain ⟨ht, -⟩ := List.cons.inj h
    cases task with
    | visit => exact ⟨tasks, ht ▸ rfl⟩
    | sequence | loop | untilEof => simp [Task.flat] at ht
    | block => simp [Task.flat] at ht

/-- The step of a sane machine's engine that fails. -/
theorem blames_of_step (f : Follows src e m) (sane : m.Sane e.schema)
    (h : e.step = .error x e') : Blames e.schema e e' x := by
  obtain ⟨m', hm, -, rests, -⟩ := f.of_step_error h
  rcases Machine.excused_of_step sane f.orderly hm with (hx | ⟨rfl, hl⟩) |
    ⟨opcode, ⟨hp, id, rest, ht, hn⟩, rfl⟩
  · exact .outside hx
  · exact .length (by rwa [rests.spent.output.fill])
  · obtain ⟨rest', ht'⟩ := visit_of_flat (f.tied.tasks.trans ht)
    exact .node (f.tied.pending.trans hp) ht' hn

/-- An engine never fails for its own sake. Whatever was called before, the reason of a failure is a
step of a run that found its input, its host or its configuration at fault, or came to a node of no
known kind, or had no addresses left for the output. -/
theorem fails_soundly (schema : Schema) (config : Config) {reason : Failure}
    (h : Calls (new schema config) { bytes := [] } e src) (hr : e.resume.1 = .failed reason) :
    ∃ e₀ src₀ e₁ e₂, Calls (new schema config) { bytes := [] } e₀ src₀ ∧
      Calls (e₀.perform .resume).2 src₀ e.resume.2 src ∧ e₀.status.phase.terminal = false ∧
      Runs { e₀ with status := .running } e₁ ∧ e₁.step = .error reason e₂ ∧
      Blames schema e₁ e₂ reason := by
  have hcalls : Calls (new schema config) { bytes := [] } e.resume.2 src := by
    have h' := h.more .resume
    rwa [told_of_input (q := .resume) rfl rfl] at h'
  obtain ⟨e₀, src₀, hc₀, hc, live, hr₀⟩ :=
    hcalls.failed rfl (x := reason) (by rw [status_resume, hr]; rfl)
  have hi := Machine.invariant_sane (.of schema config)
  cases hc₀.holds hi (.new schema config (Machine.sane_new schema)) with
  | rests ends => simp [live] at ends
  | works _ rules f sane =>
    have f₀ := f.retuned .running e₀.nextStop e₀.steps
    rw [resume_of_live live] at hr₀
    obtain ⟨e₁, e₂, hruns, hstep⟩ := failed_of_run f₀ hr₀
    obtain ⟨m₁, f₁, sane₁, rules₁⟩ := hruns.follows hi f₀ rules sane
    have hschema : e₁.schema = schema := congrArg Rules.schema rules₁
    subst hschema
    exact ⟨e₀, src₀, e₁, e₂, hc₀, hc, live, hruns, hstep, blames_of_step f₁ sane₁ hstep⟩

end Engine

/-- A node of no known kind. -/
def Schema.strange : Schema := ⟨#[.unknown 0x40], 0, Schema.wellFormed_of_fault? (by decide)⟩

namespace Engine

/-- An engine for a node of no known kind fails there. -/
theorem fails_soundly_strange : (new .strange {}).resume.1 = .failed (.unsupported (.unknown 0x40)) ∧
    ∃ e₁ e₂ : Engine, e₁.step = .error (.unsupported (.unknown 0x40)) e₂ ∧
      Blames .strange e₁ e₂ (.unsupported (.unknown 0x40)) := by
  have hr : (new .strange {}).resume.1 = .failed (.unsupported (.unknown 0x40)) :=
    of_runWithin (f := (·.1)) 2 rfl (by decide +kernel)
  obtain ⟨-, -, e₁, e₂, -, -, -, -, hs, hb⟩ := fails_soundly .strange {} (.none _ _) hr
  exact ⟨hr, e₁, e₂, hs, hb⟩

end Engine

end Transcoder

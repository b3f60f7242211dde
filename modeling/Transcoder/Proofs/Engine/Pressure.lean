import Transcoder.Proofs.Engine.Finality

/-!
# Engines under the pressure of their output

Before each step an engine looks at how much output is waiting. What it looks at does not move with
what it asks for: a block holds back what can be drained, a block that closes may shorten the
output, and the host drains when it likes.

Results:
* `Follows.eased`: what a run leaves behind of its output, by induction on the steps.
* `Tells.paced`: the same for an engine at any time, with what is asked of it in between.
* `minds_output`: from the first request on.
-/
namespace Transcoder

open Engine

variable {src : Source} {e e' : Engine} {m : Machine} {wait : Wait}

namespace Engine

/-! ## The look at the output -/

theorem of_pressure (h : e.pressure? = some wait) : wait ≠ .input ∧ 0 < e.pendingOutput ∧
    (wait = .outputReady → e.nextStop ≤ e.drainableEnd) := by
  unfold pressure? at h
  split at h
  · simp at h
  · have hp : 0 < e.pendingOutput := by
      unfold pendingOutput
      omega
    split at h
    · obtain rfl := Option.some.inj h
      exact ⟨by decide, hp, by simp⟩
    · split at h
      · rename_i hready
        obtain rfl := Option.some.inj h
        exact ⟨by decide, hp, fun _ => hready.2⟩
      · simp at h

/-- An engine that goes on with output to drain has room for more. -/
theorem below_of_calm (h : e.pressure? = none) (hp : 0 < e.pendingOutput) :
    e.output.fill - e.drained < e.config.maxBuffered := by
  unfold pendingOutput at hp
  unfold pressure? at h
  rw [if_neg (by omega)] at h
  split at h
  · simp at h
  · omega

theorem calm_of_drained (h : e.pendingOutput = 0) : e.pressure? = none := by
  unfold pendingOutput at h
  exact if_pos (by omega)

/-! ## Steps that do not get on -/

theorem of_answer {act : Stepping Unit} {p q : Progress}
    (h : (do act; return p : Stepping Progress) e = .ok q e') : q = p := by
  obtain ⟨_, e₁, -, h⟩ := of_bind_ok h
  exact (EStateM.Result.ok.inj h).1.symm

/-- A step that does not get on leaves the output and the stack as they were. -/
theorem of_idle {p : Progress} (h : e.step = .ok p e') (hi : p ≠ .advanced) :
    e'.output = e.output ∧ e'.tasks = e.tasks := by
  cases hp : e.pending with
  | some pending =>
    rw [step_of_pending hp, readOn] at h
    split at h
    · exact absurd (of_answer h) hi
    · split at h
      · obtain ⟨-, rfl⟩ := EStateM.Result.ok.inj h
        exact ⟨rfl, rfl⟩
      · simp at h
  | none =>
    cases ht : e.tasks with
    | nil =>
      have h : e.checkTrailing = .ok p e' := (step_of_none hp ht).symm.trans h
      obtain rfl : e' = e := by
        unfold checkTrailing at h
        split at h
        · exact (EStateM.Result.ok.inj h).2.symm
        · split at h
          · simp at h
          · split at h <;> exact (EStateM.Result.ok.inj h).2.symm
      exact ⟨rfl, ht⟩
    | cons task rest =>
      rw [step_of_task hp ht] at h
      cases task with
      | visit | sequence | loop | block => exact absurd (of_answer h) hi
      | untilEof id body last =>
        simp only [doTask, repeatToEnd] at h
        split at h
        · exact absurd (EStateM.Result.ok.inj h).1.symm hi
        · split at h
          · simp at h
          · split at h
            · -- the loop is put back as it was
              obtain ⟨_, e₁, hback, h⟩ := of_bind_ok h
              obtain ⟨-, rfl⟩ := EStateM.Result.ok.inj hback
              obtain ⟨-, rfl⟩ := EStateM.Result.ok.inj h
              exact ⟨rfl, rfl⟩
            · obtain ⟨_, e₁, -, h⟩ := of_bind_ok h
              exact absurd (of_answer h) hi

/-! ## Runs -/

/-- What a run of `e` leaves, where it ends in `e'`. -/
structure Eased (e : Engine) (outcome : Outcome) (e' : Engine) : Prop where
  config : e'.config = e.config
  /-- The mark for the next stop is only ever raised. -/
  nextStop : e.nextStop ≤ e'.nextStop
  steps : e.steps ≤ e'.steps
  offers : ∀ wait, outcome = .waits wait → wait ≠ .input → 0 < e'.pendingOutput
  room : outcome = .waits .input ∨ outcome = .finished → 0 < e'.pendingOutput →
    e'.output.fill - e'.drained < e.config.maxBuffered
  reached : outcome = .waits .outputReady → e.nextStop ≤ e'.drainableEnd
  raised : outcome = .waits .outputReady →
    e'.drainableEnd + max (e.config.outputChunk.getD 0) 1 ≤ e'.nextStop

theorem eased_stopFor (h : e.pressure? = some wait) : Eased e (.waits wait) (e.stopFor wait) := by
  obtain ⟨hw, hp, hready⟩ := of_pressure h
  refine ⟨rfl, ?_, Nat.le_refl _, fun _ _ _ => hp, ?_, ?_, ?_⟩
  · simp only [stopFor]
    split
    · rename_i hr
      exact Nat.le_trans (hready hr) (Nat.le_add_right ..)
    · exact Nat.le_refl _
  · simp [hw]
  · rw [Outcome.waits.injEq]
    exact hready
  · rw [Outcome.waits.injEq]
    rintro rfl
    exact Nat.le_refl _

/-- Where a run ends on its own, the output is that of the calm engine before the end. -/
theorem eased_of_calm {outcome : Outcome} (h : e.pressure? = none) (config : e'.config = e.config)
    (nextStop : e'.nextStop = e.nextStop) (steps : e'.steps = e.steps)
    (hw : ∀ wait, outcome = .waits wait → wait = .input)
    (same : outcome = .waits .input ∨ outcome = .finished → e'.output.fill = e.output.fill ∧
      e'.tasks = e.tasks ∧ e'.drained = e.drained) : Eased e outcome e' := by
  refine ⟨config, Nat.le_of_eq nextStop.symm, Nat.le_of_eq steps.symm,
    fun wait ho hne => absurd (hw wait ho) hne, fun ho hp => ?_, fun ho => ?_, fun ho => ?_⟩
  · obtain ⟨hfill, htasks, hdrained⟩ := same ho
    have hpending : e'.pendingOutput = e.pendingOutput := by
      rw [pendingOutput, drainableEnd, openHeaders, hfill, htasks, hdrained]
      rfl
    rw [hfill, hdrained]
    exact below_of_calm h (hpending ▸ hp)
  · exact absurd (hw _ ho) (by decide)
  · exact absurd (hw _ ho) (by decide)

end Engine

theorem Follows.eased (f : Follows src e m) : Eased e e.run.1 e.run.2 := by
  fun_induction run e generalizing m with
  | case1 e wait hp => exact eased_stopFor hp
  | case2 e hp e₁ hs _ ih =>
    obtain ⟨m₁, -, hset, f₁, -⟩ := f.of_step hs
    have hrest := ih (f₁.retuned e₁.status e₁.nextStop (e₁.steps + 1))
    have hconfig : e₁.config = e.config := congrArg Setting.config hset
    have hstop : e₁.nextStop = e.nextStop := congrArg Setting.nextStop hset
    have hsteps : e₁.steps = e.steps := congrArg Setting.steps hset
    refine ⟨hrest.config.trans hconfig, hstop ▸ hrest.nextStop, ?_, hrest.offers, ?_, ?_, ?_⟩
    · exact Nat.le_trans (hsteps ▸ Nat.le_succ _) hrest.steps
    · exact hconfig ▸ hrest.room
    · exact hstop ▸ hrest.reached
    · exact hconfig ▸ hrest.raised
  | case3 e hp e₁ hs =>
    obtain ⟨m₁, -, hset, -⟩ := f.of_step hs
    obtain ⟨houtput, htasks⟩ := of_idle hs (by decide)
    refine eased_of_calm hp (congrArg Setting.config hset) (congrArg Setting.nextStop hset)
      (congrArg Setting.steps hset) (by simp) fun _ => ?_
    exact ⟨congrArg Tape.fill houtput, htasks, congrArg Setting.drained hset⟩
  | case4 e hp e₁ hs =>
    obtain ⟨m₁, -, hset, f₁, -⟩ := f.of_step hs
    obtain ⟨houtput, htasks⟩ := of_idle hs (by decide)
    have hfill : e₁.output.fill = e.output.fill := congrArg Tape.fill houtput
    rw [f₁.finishOutput]
    exact eased_of_calm hp (congrArg Setting.config hset) (congrArg Setting.nextStop hset)
      (congrArg Setting.steps hset) (by simp [conclude])
      fun _ => ⟨hfill, htasks, congrArg Setting.drained hset⟩
  | case5 e hp x e₁ hs =>
    obtain ⟨m₁, -, hset, -⟩ := f.of_step_error hs
    exact eased_of_calm hp (congrArg Setting.config hset) (congrArg Setting.nextStop hset)
      (congrArg Setting.steps hset) (by simp [conclude]) (by simp [conclude])

/-- A run of a calm engine gets on, or it is over for want of input or for good. -/
theorem Follows.moves (f : Follows src e m) (h : e.pressure? = none) : e.steps < e.run.2.steps ∨
    e.run.1 = .waits .input ∨ e.run.1 = .finished ∨ ∃ reason, e.run.1 = .failed reason := by
  rw [run]
  split
  · simp_all
  · split
    · rename_i e₁ hs
      obtain ⟨m₁, -, hset, f₁, -⟩ := f.of_step hs
      have hsteps : e₁.steps = e.steps := congrArg Setting.steps hset
      have hrest := (Follows.eased (f₁.retuned e₁.status e₁.nextStop (e₁.steps + 1))).steps
      exact .inl (Nat.lt_of_lt_of_le (hsteps ▸ Nat.lt_succ_self _) hrest)
    · exact .inr (.inl rfl)
    · unfold conclude
      split
      · exact .inr (.inr (.inl rfl))
      · exact .inr (.inr (.inr ⟨_, rfl⟩))
    · exact .inr (.inr (.inr ⟨_, rfl⟩))

/-! ## Requests -/

/-- A run, of an engine that is not through. -/
theorem Tells.eased (h : Tells e m) (live : e.status.phase.terminal = false) :
    Eased e e.resume.1 e.resume.2 := by
  cases h with
  | works src hs f =>
    rw [resume_of_live live]
    have k := Follows.eased (f.retuned .running e.nextStop e.steps)
    exact ⟨k.config, k.nextStop, k.steps, k.offers, k.room, k.reached, k.raised⟩
  | rests ht => simp [live] at ht

/-- A run that stops for now was one of an engine that was not through. -/
theorem Engine.live_of_waits (h : e.resume.1 = .waits wait) : e.status.phase.terminal = false := by
  apply Bool.eq_false_iff.2
  intro ht
  have hs := e.status_resume
  rw [resume_of_terminal ht, h] at hs
  simp [hs, Outcome.status, Status.phase, Phase.terminal] at ht

theorem Tells.performAll (h : Tells e m) (requests : List Request) :
    ∃ m', Tells (e.performAll requests) m' := by
  induction requests generalizing e m with
  | nil => exact ⟨m, h⟩
  | cons request rest ih =>
    obtain ⟨m', k, -⟩ := h.perform request
    exact ih k

/-- The mark for the next stop is only ever raised, whatever is asked. -/
theorem Tells.nextStop_le (h : Tells e m) (requests : List Request) :
    e.nextStop ≤ (e.performAll requests).nextStop ∧
      (e.performAll requests).config = e.config := by
  induction requests generalizing e m with
  | nil => exact ⟨Nat.le_refl _, rfl⟩
  | cons request rest ih =>
    obtain ⟨m', k, -⟩ := h.perform request
    obtain ⟨hn, hc⟩ := ih k
    have hone : e.nextStop ≤ (e.perform request).2.nextStop ∧
        (e.perform request).2.config = e.config := by
      by_cases hq : request = .resume
      · subst hq
        show e.nextStop ≤ e.resume.2.nextStop ∧ e.resume.2.config = e.config
        cases live : e.status.phase.terminal with
        | true =>
          rw [resume_of_terminal live]
          exact ⟨Nat.le_refl _, rfl⟩
        | false => exact ⟨(h.eased live).nextStop, (h.eased live).config⟩
      · obtain ⟨input, output, drained, hook, values, he⟩ := e.perform_other hq
        rw [he]
        exact ⟨Nat.le_refl _, rfl⟩
    exact ⟨Nat.le_trans hone.1 hn, hc.trans hone.2⟩

/-- The request hands out all that can be drained. -/
def Engine.Request.Empties (e : Engine) : Request → Prop
  | .drainAll => True
  | .drain max => e.pendingOutput ≤ max
  | _ => False

theorem Tells.empty (h : Tells e m) {request : Request} (hq : request.Empties e) :
    (e.perform request).2.pendingOutput = 0 ∧ ∃ piece, (e.perform request).1 = .bytes piece := by
  have hall : e.perform request = e.drainAll.map .ofBytes id := by
    cases request with
    | drainAll => rfl
    | drain max => rw [Engine.perform, drain, drainAll, Nat.min_eq_left hq]
    | _ => exact hq.elim
  have hd := h.rested.drained
  have hp : e.pendingOutput = m.held - e.drained := by rw [pendingOutput, h.drainableEnd]
  obtain ⟨t, he, k⟩ := h.handOut (show e.drained + e.pendingOutput ≤ m.held by omega)
  rw [hall, drainAll, he]
  refine ⟨?_, _, rfl⟩
  show pendingOutput { e with drained := e.drained + e.pendingOutput, output := t } = 0
  rw [pendingOutput, k.drainableEnd]
  simp only
  omega

/-- Without a run, no output comes up. -/
theorem Tells.still_empty (h : Tells e m) (h0 : e.pendingOutput = 0) {request : Request}
    (hq : request ≠ .resume) : (e.perform request).2.pendingOutput = 0 := by
  have quiet (hq : request.intake = true) : (e.perform request).2.pendingOutput = 0 := by
    obtain ⟨answer, t, he, -⟩ := h.intake hq
    rw [he]
    exact h0
  cases request with
  | supply | commit | close => exact quiet rfl
  | resume => exact absurd rfl hq
  | drain max =>
    rw [Engine.perform, drain, h0, Nat.zero_min]
    exact h0
  | drainAll =>
    rw [Engine.perform, drainAll, h0]
    exact h0
  | setHook | takeValues => exact h0

theorem Tells.stays_empty (h : Tells e m) (h0 : e.pendingOutput = 0) {requests : List Request}
    (hr : .resume ∉ requests) : (e.performAll requests).pendingOutput = 0 := by
  induction requests generalizing e m with
  | nil => exact h0
  | cons request rest ih =>
    obtain ⟨m', k, -⟩ := h.perform request
    have hq : request ≠ .resume := fun hq => hr (hq ▸ List.mem_cons_self)
    exact ih k (h.still_empty h0 hq) fun hm => hr (List.mem_cons_of_mem _ hm)

/-- How an engine minds its output. -/
structure Engine.Paced (config : Config) (e : Engine) : Prop where
  /-- A stop for output leaves some to drain. -/
  offers : ∀ wait, e.resume.1 = .waits wait → wait ≠ .input → 0 < e.resume.2.pendingOutput
  /-- An engine that comes to ask for input, or to its end, with output to drain, holds less of it
  than it may. -/
  room : e.status.phase.terminal = false →
    e.resume.1 = .waits .input ∨ e.resume.1 = .finished → 0 < e.resume.2.pendingOutput →
    e.resume.2.output.fill - e.resume.2.drained < config.maxBuffered
  /-- From one chunk that is announced to any later one, a whole chunk more can be drained. -/
  chunks : ∀ n later, config.outputChunk = some n → e.resume.1 = .waits .outputReady →
    (e.resume.2.performAll later).resume.1 = .waits .outputReady →
    e.resume.2.drainableEnd + max n 1 ≤ (e.resume.2.performAll later).resume.2.drainableEnd
  /-- All that can be drained is handed out on request. The next run, unless the engine is through,
  then gets on or is over for another reason than output. -/
  moves : ∀ request later, request.Empties e → .resume ∉ later →
    let drained := (e.perform request).2.performAll later
    (∃ piece, (e.perform request).1 = .bytes piece) ∧
    (drained.status.phase.terminal = false → drained.steps < drained.resume.2.steps ∨
      drained.resume.1 = .waits .input ∨ drained.resume.1 = .finished ∨
      ∃ reason, drained.resume.1 = .failed reason)

theorem Tells.paced (h : Tells e m) : Paced e.config e := by
  refine ⟨fun wait ho => (h.eased (live_of_waits ho)).offers wait ho,
    fun live => (h.eased live).room, fun n later hc ho ho' => ?_, fun request later hq hr => ?_⟩
  · obtain ⟨m₁, k₁, -⟩ := h.resume
    obtain ⟨m₂, k₂⟩ := k₁.performAll later
    have hfirst := (h.eased (live_of_waits ho)).raised ho
    rw [hc, Option.getD_some] at hfirst
    calc e.resume.2.drainableEnd + max n 1
      _ ≤ e.resume.2.nextStop := hfirst
      _ ≤ (e.resume.2.performAll later).nextStop := (k₁.nextStop_le later).1
      _ ≤ _ := (k₂.eased (live_of_waits ho')).reached ho'
  · intro drained
    obtain ⟨h0, hpiece⟩ := h.empty hq
    refine ⟨hpiece, fun live => ?_⟩
    obtain ⟨m₁, k₁, -⟩ := h.perform request
    have hcalm : drained.pressure? = none := calm_of_drained (k₁.stays_empty h0 hr)
    obtain ⟨m₂, k₂⟩ := k₁.performAll later
    cases k₂ with
    | works src hs f =>
      rw [resume_of_live live]
      exact Follows.moves (f.retuned .running drained.nextStop drained.steps) hcalm
    | rests ht => exact absurd (live.symm.trans ht) (by decide)

/-- An engine minds its output, whatever is asked of it from the first request on. -/
theorem Engine.minds_output (schema : Schema) (config : Config) (requests : List Request) :
    Paced config ((new schema config).performAll requests) := by
  have hstart : Tells (new schema config) (.new schema) :=
    .works { bytes := [] } rfl (.new schema config)
  obtain ⟨m, k⟩ := hstart.performAll requests
  have hconfig := (hstart.nextStop_le requests).2
  have hpaced := k.paced
  rwa [hconfig] at hpaced

/-- Two bytes make two chunks, each announced once, the second after the first was drained. -/
theorem Engine.minds_output_twoBytes :
    let e := (new .twoBytes { pageSize := 4, outputChunk := some 1 }).performAll [.supply [1, 2]]
    let drained := e.resume.2.performAll [.drainAll]
    e.resume.1 = .waits .outputReady ∧ 0 < e.resume.2.pendingOutput ∧
      drained.resume.1 = .waits .outputReady ∧
      e.resume.2.drainableEnd + 1 ≤ drained.resume.2.drainableEnd := by
  intro e drained
  have hpaced := minds_output .twoBytes { pageSize := 4, outputChunk := some 1 } [.supply [1, 2]]
  have hfirst : e.resume.1 = .waits .outputReady :=
    of_runWithin (f := (·.1)) 9 rfl (by decide +kernel)
  have hlive : drained.status.phase.terminal = false := by
    have hs : drained.status = e.resume.2.status := by
      show (e.resume.2.perform .drainAll).2.status = _
      exact status_perform (by simp)
    rw [hs, status_resume, hfirst]
    rfl
  have hwithin : (runWithin 9 { drained with status := .running }).map (·.1) =
      some (.waits .outputReady) :=
    of_runWithin (e := e) (f := fun res => (runWithin 9
      { res.2.performAll [.drainAll] with status := .running }).map (·.1)) 9 rfl (by decide +kernel)
  have hsecond : drained.resume.1 = .waits .outputReady := of_runWithin (f := (·.1)) 9 hlive hwithin
  exact ⟨hfirst, hpaced.offers _ hfirst (by decide), hsecond,
    hpaced.chunks 1 [.drainAll] rfl hfirst hsecond⟩

end Transcoder

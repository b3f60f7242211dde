import Transcoder.Proofs.Engine.Failing
import Transcoder.Proofs.Engine.Finality
import Transcoder.Proofs.Machine.Shrinking

/-!
# Engines that minimize

An engine that gives blocks their shortest headers works as a machine whose output lags behind its
input, whatever was called before. So whenever it stops outside all blocks, and when it has finished,
what it put out is no longer than what it read.

Results:
* `Engine.finished_of_run`: the step that a run finishes with.
* `Engine.behind_of_resume`: where a run stops outside all blocks, the output is not ahead.
* `Engine.shrinks_soundly`: no run puts out more than it reads, and none fails over a block that is
  too large for a header of five chunks.
-/
namespace Transcoder

theorem Machine.lagging_new (schema : Schema) (config : Config) :
    (Machine.new schema).Lagging (.of schema config) := lagging_of_lags rfl (Nat.le_refl 0)

theorem Machine.invariant_lagging {r : Rules} (hu : r.schema.Unpadded)
    (hm : r.framing.minimize = true) : Machine.Invariant r (Machine.Lagging r) := by
  refine ⟨fun h ho hs => ?_, fun _ _ h => ⟨h.stack, h.pending⟩⟩
  have hstep := shrinks_step hu hm h ho
  rw [hs] at hstep
  exact hstep

namespace Engine

variable {r : Rules} {src : Source} {e e' : Engine} {m : Machine} {handed handed' : List UInt8}

/-- The writer is at the end of the output, and not ahead of the reader. -/
structure Behind (e : Engine) : Prop where
  fill : e.output.fill = e.writer.address
  le : e.writer.address ≤ e.reader.address

theorem Behind.of_unmoved (h : Behind e) (hu : Unmoved e handed e' handed') : Behind e' :=
  ⟨by rw [hu.fill, hu.writer, h.fill], by rw [hu.writer, hu.reader]; exact h.le⟩

/-- Outside all blocks, an engine is not ahead where its machine lags. -/
theorem behind_of_follows (f : Follows src e m) (h : m.Lagging r) (ho : e.openHeaders = []) :
    e.Behind := by
  have hfill := f.tied.output.carries.fill
  have hend := f.tied.output.atEnd
  have hlags := h.stack.le (f.rests.spent.openHeaders_eq_nil.1 ho)
  have hstart := h.valueStart_le
  have hposition := f.tied.position
  exact ⟨by rw [hfill, hend], by omega⟩

/-! ## Where runs stop -/

/-- A run that finishes has come to a step that does, and then only the end of its output is fixed. -/
theorem finished_of_run (f : Follows src e m) (h : e.run.1 = .finished) :
    ∃ e₁ e₂ output, Runs e e₁ ∧ e₁.step = .ok .done e₂ ∧ output.fill = e₂.output.fill ∧
      e.run.2 = { e₂ with output, status := .finished } := by
  fun_induction Engine.run e generalizing m with
  | case1 | case3 | case5 => simp [conclude] at h
  | case2 e hp e₁ hs _ ih =>
    obtain ⟨m₁, -, -, f₁, -⟩ := f.of_step hs
    obtain ⟨e₂, e₃, output, hr, he, hrest⟩ :=
      ih (f₁.retuned e₁.status e₁.nextStop (e₁.steps + 1)) h
    exact ⟨e₂, e₃, output, .on hp hs hr, he, hrest⟩
  | case4 e hp e₁ hs =>
    obtain ⟨m₁, -, -, f₁, -⟩ := f.of_step hs
    rw [f₁.finishOutput]
    exact ⟨e, e₁, { e₁.output with eof := some m₁.output.length }, .here e, hs, rfl, rfl⟩

/-- Where a run stops outside all blocks and has not failed, the engine is not ahead. -/
theorem behind_of_resume (hi : Machine.Invariant r (Machine.Lagging r))
    (h : Holds r (Machine.Lagging r) src e) (live : e.status.phase.terminal = false)
    (hn : ∀ reason, e.resume.1 ≠ .failed reason) (ho : e.resume.2.openHeaders = []) :
    e.resume.2.Behind := by
  obtain ⟨m, hends, inv, horderly, -⟩ := h.of_resume hi live
  cases h with
  | rests ends => simp [live] at ends
  | works _ rules f₀ inv₀ =>
    have f₀ := f₀.retuned .running e.nextStop e.steps
    rw [resume_of_live live] at hn ho hends ⊢
    generalize hrun : run { e with status := .running } = result at hn ho hends ⊢
    obtain ⟨outcome, e'⟩ := result
    cases hends with
    | pressed _ f => exact behind_of_follows f inv ho
    | starved hs f => exact behind_of_follows f (hi.step inv horderly hs) ho
    | failed => exact absurd rfl (hn _)
    | finished =>
      obtain ⟨e₁, e₂, output, hruns, hdone, hfill, he⟩ := finished_of_run f₀ (by rw [hrun])
      obtain ⟨m₁, f₁, inv₁, rules₁⟩ := hruns.follows hi f₀ rules inv₀
      obtain ⟨m₂, hm, -, f₂, -⟩ := f₁.of_step hdone
      have hb := behind_of_follows f₂ (hi.step inv₁ f₁.orderly (rules₁ ▸ hm)) (by
        rw [hrun] at he
        rw [he] at ho
        exact ho)
      rw [hrun] at he
      rw [he]
      exact ⟨hfill.trans hb.fill, hb.le⟩

/-! ## Runs after any requests -/

variable {schema : Schema} {config : Config} {requests : List Request}

/-- An engine that has finished is as the run left it that finished. -/
theorem finishing_run (h : ((new schema config).performAll requests).status = .finished) :
    ∃ front handed handed', (((new schema config).performAll front).status.phase.terminal = false ∧
      ((new schema config).performAll front).resume.1 = .finished) ∧
      Unmoved ((new schema config).performAll front).resume.2 handed
        ((new schema config).performAll requests) handed' := by
  obtain ⟨front, rest, rfl, live, hend⟩ := ended (e := new schema config) rfl (by rw [h]; rfl)
  obtain ⟨src, hcalls⟩ := (Calls.none (new schema config) { bytes := [] }).performAll front
  obtain ⟨m, hends, -, ho, hst, -⟩ := (Holds.called hcalls).of_resume (invariant_true _) live
  obtain ⟨last, k, -⟩ := Tells.of_ends hends hst ho
  have hall : (new schema config).performAll (front ++ .resume :: rest) =
      ((new schema config).performAll front).resume.2.performAll rest := by
    rw [performAll_append]
    rfl
  have hu := performAll_unmoved k.rested hend rest
  rw [← hall] at hu
  refine ⟨front, _, _, ⟨live, ?_⟩, hu⟩
  have hfinished : _ = Outcome.status .finished := hst.symm.trans (hu.status.symm.trans h)
  exact Outcome.status_injective hfinished

/-- An engine that is through and has not failed has finished. -/
theorem finished_of_resume (ht : e.status.phase.terminal = true)
    (hn : ∀ reason, e.resume.1 ≠ .failed reason) : e.status = .finished := by
  cases hs : e.status with
  | finished => rfl
  | failed reason =>
    have hr : e.resume.1 = .failed reason := by rw [resume, hs]
    exact absurd hr (hn reason)
  | created | running | waiting =>
    rw [hs] at ht
    cases ht

theorem behind_of_live (hu : schema.Unpadded) (hm : config.minimize = true)
    (live : ((new schema config).performAll requests).status.phase.terminal = false)
    (hn : ∀ reason, ((new schema config).performAll requests).resume.1 ≠ .failed reason)
    (ho : ((new schema config).performAll requests).resume.2.openHeaders = []) :
    ((new schema config).performAll requests).resume.2.Behind := by
  have hi : Machine.Invariant (.of schema config) (Machine.Lagging (.of schema config)) :=
    Machine.invariant_lagging hu hm
  obtain ⟨src, hcalls⟩ := (Calls.none (new schema config) { bytes := [] }).performAll requests
  have hholds := hcalls.holds hi (.new schema config (Machine.lagging_new schema config))
  exact behind_of_resume hi hholds live hn ho

/-- Where a new engine comes to outside all blocks, without having failed, it is not ahead. -/
theorem behind_after (hu : schema.Unpadded) (hm : config.minimize = true)
    (hn : ∀ reason, ((new schema config).performAll requests).resume.1 ≠ .failed reason)
    (ho : ((new schema config).performAll requests).resume.2.openHeaders = []) :
    ((new schema config).performAll requests).resume.2.Behind := by
  cases live : ((new schema config).performAll requests).status.phase.terminal with
  | false => exact behind_of_live hu hm live hn ho
  | true =>
    have hfinished := finished_of_resume live hn
    have hsettled := settled_after hfinished
    obtain ⟨front, handed, handed', ⟨hlive, hresume⟩, hunmoved⟩ := finishing_run hfinished
    have hfront : ((new schema config).performAll front).resume.2.Behind := by
      refine behind_of_live hu hm hlive (fun reason => by simp [hresume]) ?_
      rw [openHeaders, ← hunmoved.tasks, hsettled.tasks]
      rfl
    rw [resume_of_terminal live]
    exact hfront.of_unmoved hunmoved

/-- No run of a new engine fails over the size of a block, if five chunks are reserved for it. -/
theorem not_oversized_after (hu : schema.Unpadded) (hm : config.minimize = true)
    (h5 : 5 ≤ config.reserved) {x : Failure}
    (hx : ((new schema config).performAll requests).status = .failed x) : x.oversized = false := by
  obtain ⟨src, hcalls⟩ := (Calls.none (new schema config) { bytes := [] }).performAll requests
  obtain ⟨-, src₀, e₁, e₂, m, -, -, -, -, hstep, f, hlags, hrules⟩ := hcalls.failing_step hx
    (Machine.invariant_lagging hu hm) (Machine.lagging_new schema config)
  obtain ⟨m', hmachine, -⟩ := f.of_step_error hstep
  rw [hrules] at hmachine
  have hshrinks := Machine.shrinks_step hu hm hlags f.orderly
  rw [hmachine] at hshrinks
  exact hshrinks (Nat.le_trans h5 (Nat.le_max_left ..))

/-- A transcoder that minimizes never makes more of its input. The schema may have no values and no
counts of kinds that pad. Then, whatever was called before: when a run has finished, all that was put
out is no longer than what was read; where a run stops outside all blocks and has not failed, the
writer is not ahead of the reader; and if five chunks or more are reserved, no run fails over the
size of a block. -/
theorem shrinks_soundly (schema : Schema) (config : Config) (requests : List Request)
    (hu : schema.Unpadded) (hm : config.minimize = true) :
    let e := (new schema config).performAll requests
    let handed := (new schema config).handedOut requests
    (e.resume.1 = .finished → (e.resume.2.stream handed).length ≤ e.resume.2.reader.address) ∧
    ((∀ reason, e.resume.1 ≠ .failed reason) → e.resume.2.openHeaders = [] →
      e.resume.2.writer.address ≤ e.resume.2.reader.address) ∧
    (5 ≤ config.reserved → ∀ size limit, e.resume.1 ≠ .failed (.blockTooLarge size limit)) := by
  intro e handed
  have hresume : (new schema config).performAll (requests ++ [.resume]) = e.resume.2 :=
    performAll_append _ requests [.resume]
  have hstatus : e.resume.2.status = e.resume.1.status := e.status_resume
  refine ⟨fun hf => ?_, fun hn ho => (behind_after hu hm hn ho).le, fun h5 size limit hx => ?_⟩
  · have hsettled : Settled e.resume.2 := by
      rw [← hresume]
      exact settled_after (by rw [hresume, hstatus, hf]; rfl)
    have hbehind : e.resume.2.Behind := by
      refine behind_after hu hm (fun reason => by simp [e, hf]) ?_
      rw [openHeaders, hsettled.tasks]
      rfl
    have hhistory := (History.none (new schema config)).performAll (requests ++ [.resume])
    have hlength := (History.final (.none _) hhistory).2.1.length
    have hnone : (new schema config).handedOut (requests ++ [.resume]) = handed := by
      rw [handedOut_append]
      exact List.append_nil handed
    rw [hresume, hnone, List.nil_append, List.nil_append, hbehind.fill] at hlength
    exact hlength ▸ hbehind.le
  · have hfailed : ((new schema config).performAll (requests ++ [.resume])).status =
        .failed (.blockTooLarge size limit) := by
      rw [hresume, hstatus, hx]
      rfl
    have hshort := not_oversized_after hu hm h5 hfailed
    cases hshort

/-- The padded size of a block of two bytes is read, and the shortest one is put out. -/
theorem shrinks_soundly_padded :
    let e := (new .bytes { pageSize := 4 }).performAll [.supply [0x82, 0x00, 7, 8], .close]
    Schema.Unpadded .bytes ∧ e.resume.1 = .finished ∧ (e.resume.2.stream []).length ≤ 4 ∧
      e.resume.2.writer.address ≤ 4 := by
  intro e
  have hu : Schema.Unpadded .bytes := by decide
  obtain ⟨hlength, haddress, -⟩ := shrinks_soundly .bytes { pageSize := 4 }
    [.supply [0x82, 0x00, 7, 8], .close] hu rfl
  have hf : e.resume.1 = .finished := of_runWithin (f := (·.1)) 20 rfl (by decide +kernel)
  have ho : e.resume.2.openHeaders = [] :=
    of_runWithin (f := (·.2.openHeaders)) 20 rfl (by decide +kernel)
  have hread : e.resume.2.reader.address = 4 :=
    of_runWithin (f := (·.2.reader.address)) 20 rfl (by decide +kernel)
  exact ⟨hu, hf, hread ▸ hlength hf, hread ▸ haddress (fun reason => by simp [e, hf]) ho⟩

end Engine

end Transcoder

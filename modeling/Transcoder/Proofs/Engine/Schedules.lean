import Transcoder.Proofs.Engine.Calls
import Transcoder.Proofs.Machine.Whole

/-!
# Schedules

Whoever works with an engine cuts the input into pieces and drains the output as it likes, and sets
the sizes of pages and buffers. `Plays` says what it may do: supply the input piece by piece,
resume, drain, and close the input once all of it came and the engine asked for more.

What becomes of the engine depends on none of that. Its machine goes the way of the machine with the
whole input, and asked for more it stands where that one passes by (`Course`).

Results:
* `Plays.agree`: two plays of one input that have come to their end have come to the same end.
-/
namespace Transcoder

/-- An engine, and how far a caller has come with it. -/
structure Stage where
  engine : Engine
  /-- The input that was supplied. -/
  came : List UInt8 := []
  /-- The output that was handed out. -/
  handed : List UInt8 := []
  /-- The engine was resumed on that, and asked for more. -/
  asked : Bool := false
  /-- The engine was told that no more comes. -/
  closed : Bool := false

namespace Stage

/-- The stage after a request for output. -/
def after (s : Stage) (request : Engine.Request) : Stage :=
  { s with
    engine := (s.engine.perform request).2
    handed := s.handed ++ (s.engine.perform request).1.handed }

/-- What a caller may do that has `input` for the engine. -/
inductive Next (input : List UInt8) (s : Stage) : Stage → Prop
  /-- The next piece is supplied, and it is not empty. -/
  | supply (request : Engine.Request) (hp : request.input ≠ [])
      (hi : s.came ++ request.input <+: input) (hd : (s.engine.perform request).1 = .done) :
    Next input s { s with
      engine := (s.engine.perform request).2
      came := s.came ++ request.input
      asked := false }
  /-- All came, and the engine asked for more. -/
  | close (request : Engine.Request) (hr : request.closes = true) (ha : s.asked = true)
      (hc : s.came = input) (hd : (s.engine.perform request).1 = .done) :
    Next input s { s with engine := (s.engine.perform request).2, asked := false, closed := true }
  | resume : Next input s { s with
      engine := (s.engine.perform .resume).2
      asked := s.engine.resume.1 = .waits .input }
  | drain (max : Nat) : Next input s (s.after (.drain max))
  | drainAll : Next input s (s.after .drainAll)

end Stage

/-- Any number of these, one after the other. -/
inductive Plays (input : List UInt8) (s : Stage) : Stage → Prop
  | none : Plays input s s
  | more {s' s'' : Stage} (h : Plays input s s') (hn : s'.Next input s'') : Plays input s s''

/-! ## Stages on that way -/

/-- The machine came to its end in `m'`, in that state. -/
inductive Machine.Concludes (r : Rules) (i : List UInt8) (m m' : Machine) : Status → Prop
  | finished (h : Machine.step r (.whole i) m = .ok .done m') (ht : m'.tasks = []) :
    Concludes r i m m' .finished
  | failed {x y : Failure} (h : Machine.step r (.whole i) m = .error y m')
    (hx : y.uncounted = x.uncounted) : Concludes r i m m' (.failed x)

/-- Where an engine stands on the way of the machine with the whole input: at a machine that goes on
as that one does, or where it ends. -/
inductive Course (r : Rules) (i : List UInt8) (start : Machine) (s : Stage) : Prop
  | works {m mc : Machine} (live : s.engine.status.phase.terminal = false)
    (f : Follows { bytes := s.came, closed := s.closed } s.engine m) (rules : s.engine.rules = r)
    (goes : Machine.Goes r (.whole i) s.engine.steps start mc)
    (same : Machine.step r (.whole i) m = Machine.step r (.whole i) mc) (came : s.came <+: i)
    (settled : m.Settled i s.came s.closed)
    (asked : s.asked = true → s.closed = false ∧ s.came.length ≤ m.position)
    (handed : s.handed = m.output.take s.engine.drained)
  | rests {m mc : Machine} (ends : s.engine.status.phase.terminal = true) (f : Rests s.engine m)
    (goes : Machine.Goes r (.whole i) s.engine.steps start mc)
    (concludes : mc.Concludes r i m s.engine.status)
    (handed : s.handed = m.output.take s.engine.drained)
    (whole : s.came = i → ∀ {x}, s.engine.status = .failed x →
      Machine.step r (.whole i) mc = .error x m)
    (read : s.engine.status = .finished → s.engine.reader.address = m.position)

variable {r : Rules} {i : List UInt8} {start : Machine} {s s' : Stage}

theorem Machine.Concludes.stops {m m' : Machine} {status : Status}
    (h : m.Concludes r i m' status) (m'' : Machine) :
    Machine.step r (.whole i) m ≠ .ok .advanced m'' := by
  cases h with
  | finished hs => simp [hs]
  | failed hs => simp [hs]

/-- There is one end only. -/
theorem Machine.Concludes.meet {m m₁ m₂ : Machine} {status₁ status₂ : Status}
    (h₁ : m.Concludes r i m₁ status₁) (h₂ : m.Concludes r i m₂ status₂) :
    m₁ = m₂ ∧ status₁.uncounted = status₂.uncounted := by
  cases h₁ with
  | finished hs₁ =>
    cases h₂ with
    | finished hs₂ =>
      rw [hs₁] at hs₂
      simp only [EStateM.Result.ok.injEq, true_and] at hs₂
      exact ⟨hs₂, rfl⟩
    | failed hs₂ => simp [hs₁] at hs₂
  | failed hs₁ hu₁ =>
    cases h₂ with
    | finished hs₂ => simp [hs₁] at hs₂
    | failed hs₂ hu₂ =>
      rw [hs₁] at hs₂
      simp only [EStateM.Result.error.injEq] at hs₂
      obtain ⟨rfl, rfl⟩ := hs₂
      exact ⟨rfl, congrArg Status.failed (hu₁.symm.trans hu₂)⟩

theorem Machine.Concludes.tasks {m m' : Machine} (h : m.Concludes r i m' .finished) :
    m'.tasks = [] := by
  cases h with
  | finished _ ht => exact ht

/-- A request brings its bytes only to an engine that takes them. -/
theorem Engine.append_of_done {e : Engine} {request : Engine.Request} (hp : request.input ≠ [])
    (hd : (e.perform request).1 = .done) : e.status.phase.acceptsInput = true ∧
      (e.perform request).2 = (e.append request.input).2 := by
  by_cases ha : e.status.phase.acceptsInput = true
  · refine ⟨ha, ?_⟩
    cases request with
    | supply bytes =>
      have hp : bytes ≠ [] := hp
      simp [Engine.perform, Engine.supply, Engine.checkIntake, ha, hp, Engine.Request.input]
    | commit buffer count =>
      have hp : buffer.take count ≠ [] := hp
      simp only [Engine.perform, Engine.commit, Engine.checkIntake, ha, if_true, List.isEmpty_iff,
        hp, if_false, Engine.Request.input]
      rfl
    | _ => exact absurd rfl hp
  · cases request with
    | supply bytes =>
      simp [Engine.perform, Engine.supply, Engine.checkIntake, ha, Engine.Answer.ofUnit] at hd
    | commit buffer count =>
      simp [Engine.perform, Engine.commit, Engine.checkIntake, ha, Engine.Answer.ofUnit] at hd
    | _ => exact absurd rfl hp

theorem Engine.close_of_done {e : Engine} {request : Engine.Request} (hr : request.closes = true)
    (hd : (e.perform request).1 = .done) : e.status.phase.acceptsInput = true ∧
      (e.perform request).2 = e.close.2 := by
  by_cases ha : e.status.phase.acceptsInput = true
  · refine ⟨ha, ?_⟩
    cases request with
    | supply bytes =>
      have hr : bytes.isEmpty = true := hr
      simp only [Engine.perform, Engine.supply, Engine.checkIntake, ha, if_true, hr]
      rfl
    | close => rfl
    | _ => simp [Engine.Request.closes] at hr
  · cases request with
    | supply bytes =>
      simp [Engine.perform, Engine.supply, Engine.checkIntake, ha, Engine.Answer.ofUnit] at hd
    | close =>
      simp [Engine.perform, Engine.close, Engine.checkIntake, ha, Engine.Answer.ofUnit] at hd
    | _ => simp [Engine.Request.closes] at hr

/-- What holds however much is handed out holds after every drain. -/
theorem Stage.of_handOut {P : Stage → Prop} {s : Stage} (h : ∀ {count},
    count ≤ s.engine.pendingOutput → ∃ piece e, s.engine.handOut count = (.ok piece, e) ∧
      P { s with engine := e, handed := s.handed ++ piece }) :
    (∀ max, P (s.after (.drain max))) ∧ P (s.after .drainAll) := by
  constructor
  · intro max
    obtain ⟨piece, e, he, h'⟩ := h (Nat.min_le_left s.engine.pendingOutput max)
    have he : s.engine.perform (.drain max) = (.bytes piece, e) := by
      rw [Engine.perform, Engine.drain, he]
      rfl
    rw [Stage.after, he]
    exact h'
  · obtain ⟨piece, e, he, h'⟩ := h (Nat.le_refl s.engine.pendingOutput)
    have he : s.engine.perform .drainAll = (.bytes piece, e) := by
      rw [Engine.perform, Engine.drainAll, he]
      rfl
    rw [Stage.after, he]
    exact h'

/-- A drain hands out what comes next. -/
theorem Course.handOut (h : Course r i start s) {count : Nat}
    (hc : count ≤ s.engine.pendingOutput) : ∃ piece e, s.engine.handOut count = (.ok piece, e) ∧
      Course r i start { s with engine := e, handed := s.handed ++ piece } := by
  cases h with
  | works live f rules goes same came settled asked handed =>
    have hp : s.engine.pendingOutput = s.engine.drainableEnd - s.engine.drained := rfl
    have hd := f.drained
    rw [f.rests.spent.drainableEnd] at hp
    obtain ⟨t, ht, f'⟩ := f.handOut (show s.engine.drained + count ≤ _ by omega)
    refine ⟨_, _, ht, .works live f' rules goes same came settled asked ?_⟩
    rw [handed, ← List.take_add]
  | rests ends f goes concludes handed whole read =>
    have hp : s.engine.pendingOutput = s.engine.drainableEnd - s.engine.drained := rfl
    have hd := f.drained
    rw [f.spent.drainableEnd] at hp
    obtain ⟨t, ht, f', he⟩ := f.handOut (show s.engine.drained + count ≤ _ by omega)
    refine ⟨_, _, ht, .rests ends f' goes concludes ?_ whole read⟩
    rw [handed, ← List.take_add]

namespace Course

theorem supply (h : Course r i start s) {request : Engine.Request} (hp : request.input ≠ [])
    (hi : s.came ++ request.input <+: i) (hd : (s.engine.perform request).1 = .done) :
    Course r i start { s with
      engine := (s.engine.perform request).2
      came := s.came ++ request.input
      asked := false } := by
  obtain ⟨ha, he⟩ := Engine.append_of_done hp hd
  cases h with
  | works live f rules goes same came settled asked handed =>
    have hopen : s.closed = false := by
      cases hc : s.closed with
      | false => rfl
      | true =>
        -- nothing is left to come
        have hl := hi.length_le
        rw [(settled hc).1, List.length_append] at hl
        have := List.length_pos_iff.2 hp
        omega
    obtain ⟨t, ht, f'⟩ := f.append hopen request.input
    rw [he, ht]
    exact .works live f' rules goes same hi (fun hc => by simp [hopen] at hc) nofun handed
  | rests ends =>
    cases hs : s.engine.status.phase <;> simp [hs, Phase.acceptsInput, Phase.terminal] at ha ends

theorem close (h : Course r i start s) {request : Engine.Request} (hr : request.closes = true)
    (ha : s.asked = true) (hc : s.came = i) (hd : (s.engine.perform request).1 = .done) :
    Course r i start { s with
      engine := (s.engine.perform request).2
      asked := false
      closed := true } := by
  obtain ⟨hacc, he⟩ := Engine.close_of_done hr hd
  cases h with
  | works live f rules goes same came settled asked handed =>
    obtain ⟨t, ht, f'⟩ := f.close hacc
    rw [he, ht]
    exact .works live f' rules goes same came (fun _ => ⟨hc, hc ▸ (asked ha).2⟩) nofun handed
  | rests ends =>
    cases hs : s.engine.status.phase <;> simp [hs, Phase.acceptsInput, Phase.terminal] at hacc ends

/-- Where a run ends, the engine is still on its way, or where that ends. -/
theorem of_ends {o : Outcome} {e : Engine} {m mc : Machine}
    (h : Ends r { bytes := s.came, closed := s.closed } m o e) (hs : e.status = o.status)
    (rules : e.rules = r) (goes : Machine.Goes r (.whole i) e.steps start mc)
    (same : Machine.step r (.whole i) m = Machine.step r (.whole i) mc) (came : s.came <+: i)
    (ho : m.Orderly s.came.length) (settled : m.Settled i s.came s.closed)
    (hd : e.drained ≤ m.held) (handed : s.handed = m.output.take e.drained) :
    Course r i start { s with engine := e, asked := o = .waits .input } := by
  have hfore := Machine.foretells (r := r) came ho settled
  have hleaves : Machine.Leaves s.came.length m
      (Machine.step r { bytes := s.came, closed := s.closed } m) := Machine.leaves_step ho
  have hh {m' : Machine} (h : m.Onward m') : s.handed = m'.output.take e.drained := by
    rw [handed, h.take_eq hd]
  cases h with
  | pressed hw f =>
    refine .works (by rw [hs]; rfl) f rules goes same came settled ?_ handed
    simp [hw]
  | starved hm f =>
    -- an engine that knows the end asks for nothing
    have hopen : s.closed = false := by
      cases hc : s.closed with
      | false => rfl
      | true =>
        obtain ⟨hj, hp⟩ := settled hc
        rw [hc, hj, (Machine.step_closed hp).1] at hm
        exact absurd hm Machine.ne_needInput_whole
    rw [hm] at hfore hleaves
    exact .works (by rw [hs]; rfl) f rules goes (hfore.2.trans same) came (settled.step hm)
      (fun _ => ⟨hopen, hfore.1⟩) (hh hleaves.2)
  | finished hm f he hnil reads =>
    rw [hm] at hfore hleaves
    have hs : e.status = .finished := hs
    refine .rests (by rw [hs]; rfl) f goes ?_ (hh hleaves.2) (fun _ _ h => by simp [hs] at h)
      fun _ => reads.position
    rw [hs]
    exact .finished (same ▸ hfore) hnil
  | failed hm f =>
    rw [hm] at hfore hleaves
    obtain ⟨y, hy, hu, hall⟩ := hfore
    have hs : e.status = .failed _ := hs
    refine .rests (by rw [hs]; rfl) f goes ?_ (hh hleaves.2) (fun hc z hz => ?_)
      fun h => by simp [hs] at h
    · rw [hs]
      exact .failed (same ▸ hy) hu
    · obtain rfl := Status.failed.inj (hs.symm.trans hz)
      exact hall (congrArg List.length hc) ▸ same ▸ hy

theorem resume (h : Course r i start s) : Course r i start { s with
    engine := (s.engine.perform .resume).2
    asked := s.engine.resume.1 = .waits .input } := by
  show Course r i start
    { s with engine := s.engine.resume.2, asked := s.engine.resume.1 = .waits .input }
  cases h with
  | rests ends f goes concludes handed whole read =>
    rw [Engine.resume_of_terminal ends]
    exact .rests ends f goes concludes handed whole read
  | works live f rules goes same came settled asked handed =>
    obtain ⟨n, m₁, hg, hends, hst, ht⟩ :=
      (f.retuned .running s.engine.nextStop s.engine.steps).of_run
    have hrules : Engine.rules { s.engine with status := .running } = r := rules
    obtain ⟨ho, hn⟩ := hg.onward f.orderly
    rw [hrules] at hg hends
    obtain ⟨settled₁, mc₁, goes₁, same₁⟩ := hg.whole came f.orderly settled goes same
    rw [Engine.resume_of_live live]
    generalize Engine.run { s.engine with status := .running } = res at *
    obtain ⟨o, e⟩ := res
    have hsteps : e.steps = s.engine.steps + n := ht.steps
    have hdrained : e.drained = s.engine.drained := ht.drained
    have hd : s.engine.drained ≤ m₁.held := Nat.le_trans f.drained hn.held
    exact of_ends hends hst (ht.rules.trans hrules) (hsteps ▸ goes₁) same₁ came ho settled₁
      (hdrained ▸ hd) (by rw [handed, hdrained, hn.take_eq f.drained])

theorem next (h : Course r i start s) (hn : s.Next i s') : Course r i start s' := by
  cases hn with
  | supply request hp hi hd => exact h.supply hp hi hd
  | close request hr ha hc hd => exact h.close hr ha hc hd
  | resume => exact h.resume
  | drain max => exact (Stage.of_handOut fun hc => h.handOut hc).1 max
  | drainAll => exact (Stage.of_handOut fun hc => h.handOut hc).2

theorem plays (h : Course r i start s) (hp : Plays i s s') : Course r i start s' := by
  induction hp with
  | none => exact h
  | more _ hn ih => exact ih.next hn

/-- A new engine stands where the way of its machine begins. -/
theorem new (schema : Schema) (config : Config) (hook : Option Hook) (i : List UInt8) :
    Course (.of schema config) i { Machine.new schema with hook }
      { engine := { Engine.new schema config with hook } } := by
  have f := Follows.new schema config
  have f' : Follows { bytes := [] } { Engine.new schema config with hook }
      { Machine.new schema with hook } :=
    ⟨{ f.tied with setting := rfl, hook := rfl }, f.orderly, f.drained⟩
  exact .works rfl f' rfl (.none _) rfl List.nil_prefix nofun nofun rfl

end Course

/-- Two plays of one input that have come to their end have come to the same end: whatever the
pieces, the drains and the sizes of pages and buffers were, all that can be told of the engines is
the same. -/
theorem Plays.agree {schema : Schema} {config : Config} {pageSize maxBuffered : Nat}
    {outputChunk : Option Nat} {hook : Option Hook} {input : List UInt8} {s s' : Stage}
    (h : Plays input { engine := { Engine.new schema config with hook } } s)
    (h' : Plays input { engine := { Engine.new schema
      { config with pageSize, maxBuffered, outputChunk } with hook } } s')
    (ht : s.engine.status.phase.terminal = true) (ht' : s'.engine.status.phase.terminal = true) :
    s.engine.status.uncounted = s'.engine.status.uncounted ∧
      (s.engine.status = .finished → ∃ last last', s.engine.drainAll.1 = .ok last ∧
        s'.engine.drainAll.1 = .ok last' ∧ s.handed ++ last = s'.handed ++ last') ∧
      s.engine.values = s'.engine.values ∧ s.engine.calls = s'.engine.calls ∧
      s.engine.steps = s'.engine.steps := by
  have c := (Course.new schema config hook input).plays h
  have c' := (Course.new schema { config with pageSize, maxBuffered, outputChunk } hook
    input).plays h'
  cases c with
  | works live => simp [live] at ht
  | rests _ f goes concludes handed =>
    cases c' with
    | works live => simp [live] at ht'
    | rests _ f' goes' concludes' handed' =>
      obtain ⟨hn, rfl⟩ := goes.meet goes' concludes.stops concludes'.stops
      obtain ⟨rfl, hst⟩ := concludes.meet concludes'
      refine ⟨hst, fun hf => ?_, f.spent.values.trans f'.spent.values.symm,
        f.spent.calls.trans f'.spent.calls.symm, hn⟩
      rw [hf] at concludes
      obtain ⟨last, hl, ho⟩ := f.drainAll concludes.tasks
      obtain ⟨last', hl', ho'⟩ := f'.drainAll concludes.tasks
      exact ⟨last, last', hl, hl', by rw [handed, handed', ho, ho']⟩

/-- Two bytes, one after the other. -/
def Schema.twoBytes : Schema :=
  ⟨#[.value .uint8, .sequence [0, 0]], 1, Schema.wellFormed_of_fault? (by decide)⟩

/-- A new engine for two bytes. -/
def Stage.twoBytes (pageSize : Nat) : Stage :=
  { engine := .new .twoBytes ({ pageSize, rejectTrailing := false }) }

/-- Both bytes come at once or one by one, to an engine with large pages and to one with small
ones. -/
theorem Plays.agree_twoBytes : ∃ s s',
    Plays [1, 2] (.twoBytes 4) s ∧ Plays [1, 2] (.twoBytes 1) s' ∧
    s.engine.status = .finished ∧ s.engine.steps = s'.engine.steps := by
  have p : Plays [1, 2] (.twoBytes 4) _ :=
    (Plays.none.more (.supply (.supply [1, 2]) (by decide) (by decide) rfl)).more .resume
  have p' : Plays [1, 2] (.twoBytes 1) _ :=
    ((Plays.none.more (.supply (.supply [1]) (by decide) (by decide) rfl)).more
      (.supply (.supply [2]) (by decide) (by decide) rfl)).more .resume
  have hs (e : Engine) (he : e.status = .created)
      (h : (Engine.runWithin 9 { e with status := .running }).map (·.2.status) = some .finished) :
      e.resume.2.status = .finished :=
    Engine.of_runWithin (f := (·.2.status)) 9 (by rw [he]; rfl) h
  have h := hs ((Stage.twoBytes 4).engine.perform (.supply [1, 2])).2 rfl (by decide +kernel)
  have h' := hs (((Stage.twoBytes 1).engine.perform (.supply [1])).2.perform (.supply [2])).2 rfl
    (by decide +kernel)
  refine ⟨_, _, p, p', h, ?_⟩
  exact (agree p p' (congrArg (·.phase.terminal) h) (congrArg (·.phase.terminal) h')).2.2.2.2

end Transcoder

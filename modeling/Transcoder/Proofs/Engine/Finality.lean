import Transcoder.Proofs.Engine.Draining
import Transcoder.Proofs.Engine.Asking
import Transcoder.Proofs.Engine.Unpatched

/-!
# The ends of an engine

An engine that has finished has done all that it began, on both sides, and one that has finished or
failed stays as it is. What it began is kept in books of its own, since the stack alone does not tell:
a block of the input counts from the step that enters it until the step that leaves it, the header of
a block of the output from the step that reserves it until the step that patches it.

Results:
* `performAll_unmoved`: requests to an engine that is through change nothing but what was drained.
* `entered_after`: the blocks of the input that were not left are those on the stack.
* `finishes_soundly`: both, from the first request on.
-/
namespace Transcoder.Engine

/-- The engine after requests, one after the other. -/
def performAll (e : Engine) (requests : List Request) : Engine :=
  requests.foldl (fun e request => (e.perform request).2) e

/-- All that requests hand out, one after the other. -/
def handedOut : Engine → List Request → List UInt8
  | _, [] => []
  | e, request :: rest => (e.perform request).1.handed ++ handedOut (e.perform request).2 rest

theorem performAll_append (e : Engine) (front back : List Request) :
    e.performAll (front ++ back) = (e.performAll front).performAll back := List.foldl_append

theorem handedOut_append (e : Engine) (front back : List Request) :
    e.handedOut (front ++ back) = e.handedOut front ++ (e.performAll front).handedOut back := by
  induction front generalizing e with
  | nil => rfl
  | cons request rest ih =>
    rw [List.cons_append, handedOut, handedOut, ih, List.append_assoc]
    rfl

/-! ## Blocks of the input -/

/-- The extent that the next step enters, if it enters one. -/
def enters? (e : Engine) : Option Extent :=
  match e.pending with
  | some ⟨.blockSize _, partialValue, _⟩ =>
    match e.reader.resume e.input partialValue with
    | (.ok word, reader, _) =>
      match enterBlock word.toNat { e with reader, pending := none } with
      | .ok extent _ => some extent
      | .error .. => none
    | _ => none
  | _ => none

/-- The extent that the next step leaves, if it leaves one. -/
def leaves? (e : Engine) : Option Extent :=
  match e.pending, e.tasks with
  | none, .block extent _ :: rest =>
    match leaveBlock extent { e with tasks := rest } with
    | .ok .. => some extent
    | .error .. => none
  | _, _ => none

/-- The extents that were entered and not left, latest first, after a step of `e`. -/
def cross (e : Engine) (extents : List Extent) : List Extent :=
  match e.leaves? with
  | some extent => extents.erase extent
  | none => e.enters?.toList ++ extents

section Notes

variable {α : Type}

/-- What is noted at each step of a run of `e`. -/
def noteRun (note : Engine → α → α) (e : Engine) (a : α) : α :=
  match e.pressure? with
  | some _ => a
  | none =>
    match h : e.step with
    | .ok .advanced e' =>
      have : Below e e' e.load := descends_of_step h
      noteRun note { e' with steps := e'.steps + 1 } (note e a)
    | _ => note e a
termination_by (e.room, e.load)
decreasing_by
  rw [Prod.lex_def]
  exact this

/-- What is noted at each step that a request causes. -/
def noteCall (note : Engine → α → α) (e : Engine) (a : α) : Request → α
  | .resume => if e.status.phase.terminal then a else noteRun note { e with status := .running } a
  | _ => a

/-- What is noted at each step that requests cause. -/
def noteAll (note : Engine → α → α) : Engine → α → List Request → α
  | _, a, [] => a
  | e, a, request :: rest => noteAll note (e.perform request).2 (noteCall note e a request) rest

end Notes

/-- The extents of the input that a new engine has entered and not left after `requests`. -/
def entered (schema : Schema) (config : Config) (requests : List Request) : List Extent :=
  noteAll cross (new schema config) [] requests

/-- The headers of the output that it has reserved and not patched. -/
def unpatched (schema : Schema) (config : Config) (requests : List Request) : List OpenHeader :=
  (after schema config requests).2

/-! ## Engines that are through -/

/-- Nothing that tells how a run went is different, its stream with `handed'` handed out included. -/
structure Unmoved (e : Engine) (handed : List UInt8) (e' : Engine) (handed' : List UInt8) :
    Prop where
  status : e'.status = e.status
  reader : e'.reader = e.reader
  input : e'.input = e.input
  writer : e'.writer = e.writer
  tasks : e'.tasks = e.tasks
  pending : e'.pending = e.pending
  steps : e'.steps = e.steps
  calls : e'.calls = e.calls
  config : e'.config = e.config
  fill : e'.output.fill = e.output.fill
  eof : e'.output.eof = e.output.eof
  stream : e'.stream handed' = e.stream handed

variable {src src' : Source} {e e' e'' : Engine} {m m' : Machine} {handed handed' handed'' : List UInt8}

theorem Unmoved.refl (e : Engine) (handed : List UInt8) : Unmoved e handed e handed :=
  ⟨rfl, rfl, rfl, rfl, rfl, rfl, rfl, rfl, rfl, rfl, rfl, rfl⟩

theorem Unmoved.trans (h : Unmoved e handed e' handed') (k : Unmoved e' handed' e'' handed'') :
    Unmoved e handed e'' handed'' :=
  ⟨k.status.trans h.status, k.reader.trans h.reader, k.input.trans h.input,
    k.writer.trans h.writer, k.tasks.trans h.tasks, k.pending.trans h.pending,
    k.steps.trans h.steps, k.calls.trans h.calls, k.config.trans h.config, k.fill.trans h.fill,
    k.eof.trans h.eof, k.stream.trans h.stream⟩

/-- The tape of the output is evicted, the hook and the values change: all that can still happen. -/
theorem unmoved_of_rests {output : Tape} {drained : Nat} {hook : Option Hook}
    {values : Array Decoded} (f : Rests e m)
    (f' : Rests { e with output, drained, hook, values } m') (ho : m'.output = m.output)
    (he : output.eof = e.output.eof) : Unmoved e (m.output.take e.drained)
      { e with output, drained, hook, values } (m.output.take drained) := by
  have hfill := f'.spent.output.fill
  have hstream := stream_of_rests f'
  rw [ho] at hfill hstream
  exact ⟨rfl, rfl, rfl, rfl, rfl, rfl, rfl, rfl, rfl, hfill.trans f.spent.output.fill.symm, he,
    hstream.trans (stream_of_rests f).symm⟩

/-- A request to an engine that is through. -/
theorem perform_unmoved (f : Rests e m) (ht : e.status.phase.terminal = true) (request : Request) :
    ∃ m', Rests (e.perform request).2 m' ∧ m'.output = m.output ∧
      m.output.take e.drained ++ (e.perform request).1.handed =
        m.output.take (e.perform request).2.drained ∧
      Unmoved e (m.output.take e.drained) (e.perform request).2
        (m.output.take (e.perform request).2.drained) := by
  have quiet (hq : request.intake = true) : ∃ m', Rests (e.perform request).2 m' ∧
      m'.output = m.output ∧ m.output.take e.drained ++ (e.perform request).1.handed =
        m.output.take (e.perform request).2.drained ∧
      Unmoved e (m.output.take e.drained) (e.perform request).2
        (m.output.take (e.perform request).2.drained) := by
    obtain ⟨x, hx⟩ := perform_refused hq (acceptsInput_of_terminal ht)
    rw [hx]
    exact ⟨m, f, rfl, List.append_nil _, .refl ..⟩
  have out {count : Nat} (hc : count ≤ e.pendingOutput) : ∃ m', Rests (e.handOut count).2 m' ∧
      m'.output = m.output ∧
      m.output.take e.drained ++ (Answer.ofBytes (e.handOut count).1).handed =
        m.output.take (e.handOut count).2.drained ∧
      Unmoved e (m.output.take e.drained) (e.handOut count).2
        (m.output.take (e.handOut count).2.drained) := by
    have hd := f.drained
    have hp : e.pendingOutput = m.held - e.drained := by rw [pendingOutput, f.spent.drainableEnd]
    obtain ⟨t, he, f', heof⟩ := f.handOut (show e.drained + count ≤ m.held by omega)
    rw [he]
    exact ⟨m, f', rfl, List.take_add.symm, unmoved_of_rests f f' rfl heof⟩
  cases request with
  | supply | commit | close => exact quiet rfl
  | resume =>
    rw [show (e.perform .resume).2 = e from resume_of_terminal ht]
    exact ⟨m, f, rfl, List.append_nil _, .refl ..⟩
  | drain max => exact out (Nat.min_le_left ..)
  | drainAll => exact out (Nat.le_refl _)
  | setHook hook =>
    have f' : Rests { e with hook := some hook } m := ⟨{ f.spent with setting := rfl }, f.2, f.3⟩
    exact ⟨m, f', rfl, List.append_nil _, unmoved_of_rests f f' rfl rfl⟩
  | takeValues =>
    have f' : Rests { e with values := #[] } { m with values := #[] } :=
      ⟨{ f.spent with setting := rfl, values := rfl }, f.2, f.3⟩
    exact ⟨_, f', rfl, List.append_nil _, unmoved_of_rests f f' rfl rfl⟩

theorem performAll_unmoved (f : Rests e m) (ht : e.status.phase.terminal = true)
    (requests : List Request) : Unmoved e (m.output.take e.drained) (e.performAll requests)
      (m.output.take e.drained ++ e.handedOut requests) := by
  induction requests generalizing e m with
  | nil =>
    rw [handedOut, List.append_nil]
    exact .refl ..
  | cons request rest ih =>
    obtain ⟨m', f', ho, hd, hu⟩ := perform_unmoved f ht request
    have hrest := ih f' (hu.status ▸ ht)
    rw [ho, ← hd, List.append_assoc] at hrest
    exact (hd ▸ hu).trans hrest

/-- An engine that is through takes no input, and says again how it came to be. -/
structure Deaf (e : Engine) : Prop where
  resume : e.resume.2 = e ∧ e.resume.1.status = e.status
  supply : ∀ bytes, e.supply bytes = (.error (.notAccepted .supply e.status.phase), e)
  commit : ∀ buffer count, e.commit buffer count =
    (.error (.notAccepted .supply e.status.phase), e)
  close : e.close = (.error (.notAccepted .close e.status.phase), e)

theorem deaf_of_terminal (ht : e.status.phase.terminal = true) : Deaf e := by
  have ha := acceptsInput_of_terminal ht
  have hs := e.status_resume
  rw [resume_of_terminal ht] at hs
  refine ⟨⟨resume_of_terminal ht, hs.symm⟩, fun bytes => ?_, fun buffer count => ?_, ?_⟩
  · simp [Engine.supply, checkIntake, ha]
  · simp [Engine.commit, checkIntake, ha]
  · simp [Engine.close, checkIntake, ha]

/-! ## Steps and runs that cross blocks -/

/-- The extents on the stack, innermost first. -/
def extents (e : Engine) : List Extent := e.blocks.map Prod.fst

theorem of_pushTask {task : Task} {u : Unit} (h : pushTask task e = .ok u e') :
    e' = { e with tasks := task :: e.tasks } := by
  unfold pushTask at h
  split at h
  · simp at h
  · simp only [EStateM.Result.ok.injEq] at h
    exact h.2.symm

/-- Where a size is complete and the step succeeds, its block is on the stack. -/
theorem cross_of_opens {p : Pending} {body : Nat} (hp : e.pending = some p)
    (hg : p.goal = .blockSize body) {progress : Progress} (h : e.step = .ok progress e') :
    e.cross e.extents = e'.extents := by
  obtain ⟨goal, partialValue, address⟩ := p
  obtain rfl : goal = .blockSize body := hg
  have hleave : e.leaves? = none := by
    unfold leaves?
    rw [hp]
  rw [step_of_pending hp] at h
  rw [cross, hleave]
  unfold enters?
  rw [hp]
  unfold readOn at h
  match hr : e.reader.resume e.input partialValue with
  | (.error cause, reader, q) =>
    simp only [hr] at h ⊢
    split at h
    · simp only [EStateM.Result.ok.injEq] at h
      rw [← h.2]
      rfl
    · simp at h
  | (.ok word, reader, q) =>
    simp only [hr, complete, bind_assoc] at h ⊢
    obtain ⟨extent, e₁, henter, h⟩ := of_bind_ok h
    obtain ⟨header, e₂, hopen, h⟩ := of_bind_ok h
    obtain ⟨_, e₃, hblock, h⟩ := of_bind_ok h
    obtain ⟨_, e₄, hbody, h⟩ := of_bind_ok h
    have h₁ : e₁.blocks = e.blocks := congrArg (List.filterMap Task.block?) (of_enterBlock henter).1
    have h₂ : Spares e (openBlock e₁) := spares_writing _ h₁
    rw [hopen] at h₂
    have h₂ : e₂.blocks = e.blocks := h₂
    obtain rfl := of_pushTask hblock
    obtain rfl := of_pushTask hbody
    have h : e' = _ := (EStateM.Result.ok.inj h).2.symm
    subst h
    simp only [henter]
    exact congrArg (fun blocks => extent :: blocks.map Prod.fst) h₂.symm

theorem leaves?_of_block {extent : Extent} {header : OpenHeader} {rest : List Task}
    (hp : e.pending = none) (ht : e.tasks = .block extent header :: rest) :
    e.leaves? = match leaveBlock extent { e with tasks := rest } with
      | .ok .. => some extent
      | .error .. => none := by
  unfold leaves?
  split <;> simp_all

theorem cross_of_closes {extent : Extent} {header : OpenHeader} {rest : List Task}
    (hp : e.pending = none) (ht : e.tasks = .block extent header :: rest) {progress : Progress}
    (h : e.step = .ok progress e') : e.cross e.extents = e'.extents := by
  rw [step_of_task hp ht] at h
  have hspares := spares_finishBlock (e := { e with tasks := rest }) extent header rfl
  obtain ⟨_, e₁, hfinish, h⟩ := of_bind_ok h
  obtain ⟨_, e₂, hleave, -⟩ := of_bind_ok hfinish
  rw [hfinish] at hspares
  have h : e' = e₁ := (EStateM.Result.ok.inj h).2.symm
  subst h
  have hleaves : e.leaves? = some extent := by rw [leaves?_of_block hp ht, hleave]
  have hblocks : e.blocks = (extent, header) :: rest.filterMap Task.block? := by
    rw [blocks, ht]
    rfl
  have hrest : e'.blocks = rest.filterMap Task.block? := hspares
  rw [cross, hleaves, extents, extents, hblocks, hrest, List.map_cons]
  exact List.erase_cons_head ..

/-- After a step that succeeds, the extents that were not left are those on the stack. -/
theorem cross_step {progress : Progress} (h : e.step = .ok progress e') :
    e.cross e.extents = e'.extents := by
  cases touches e with
  | opens hp hg => exact cross_of_opens hp hg h
  | closes hp ht => exact cross_of_closes hp ht h
  | spares hg ht =>
    have hs := spares_step hg ht
    rw [h] at hs
    have henter : e.enters? = none := by
      unfold enters?
      split
      · rename_i body _ _ hp
        exact absurd rfl (hg _ hp body)
      · rfl
    have hleave : e.leaves? = none := by
      unfold leaves?
      split
      · rename_i hp htasks
        have := ht _ (by rw [htasks]; rfl) hp
        simp [Task.block?] at this
      · rfl
    rw [cross, hleave, henter, extents, extents, show e'.blocks = e.blocks from hs]
    rfl

theorem noteRun_eq {α : Type} (note : Engine → α → α) (e : Engine) (a : α) : noteRun note e a =
    match e.pressure? with
    | some _ => a
    | none =>
      match e.step with
      | .ok .advanced e' => noteRun note { e' with steps := e'.steps + 1 } (note e a)
      | _ => note e a := by
  rw [noteRun]
  split
  · rfl
  · split <;> simp_all

theorem cross_run (f : Follows src e m) (hs : ∀ reason, e.run.1 ≠ .failed reason) :
    noteRun cross e e.extents = e.run.2.extents := by
  rw [noteRun_eq]
  fun_induction run e generalizing m with
  | case1 e wait hp =>
    rw [hp]
    rfl
  | case2 e hp e₁ h _ ih =>
    obtain ⟨m₁, -, -, f₁, -⟩ := f.of_step h
    have hi := ih (f₁.retuned e₁.status e₁.nextStop (e₁.steps + 1)) hs
    rw [← noteRun_eq] at hi
    rw [hp, h]
    simp only
    rw [cross_step h]
    exact hi
  | case3 e hp e₁ h =>
    have hc := cross_step h
    rw [hp, h]
    exact hc
  | case4 e hp e₁ h =>
    obtain ⟨m₁, -, -, f₁, -⟩ := f.of_step h
    have hc := cross_step h
    rw [hp, h, f₁.finishOutput]
    exact hc
  | case5 e hp x e₁ h => exact absurd rfl (hs x)

/-- The extents that were not left are those on the stack, unless the engine has failed. -/
def Crosses (e : Engine) (extents : List Extent) : Prop :=
  (∀ reason, e.status ≠ .failed reason) → extents = e.extents

theorem Crosses.perform {extents : List Extent} (h : Crosses e extents) (k : Tells e m)
    (request : Request) : Crosses (e.perform request).2 (noteCall cross e extents request) := by
  by_cases hq : request = .resume
  · subst hq
    show Crosses e.resume.2 (if e.status.phase.terminal then extents
      else noteRun cross { e with status := .running } extents)
    cases k with
    | works src hs f =>
      rw [resume_of_live hs, if_neg (by simp [hs])]
      intro hn
      have ho : extents = e.extents := h fun reason hr => by
        simp [hr, Status.phase, Phase.terminal] at hs
      rw [ho]
      refine cross_run (f.retuned .running e.nextStop e.steps) fun reason hr => hn reason ?_
      rw [status_run, hr]
      rfl
    | rests hs f hf =>
      rw [resume_of_terminal hs, if_pos hs]
      exact h
  · have hn : noteCall cross e extents request = extents := by
      cases request <;> first | rfl | exact absurd rfl hq
    obtain ⟨input, output, drained, hook, values, he⟩ := e.perform_other hq
    rw [hn, he]
    exact h

theorem entered_after (requests : List Request) {extents : List Extent} (h : Crosses e extents)
    (k : Tells e m) : Crosses (e.performAll requests) (noteAll cross e extents requests) := by
  induction requests generalizing e m extents with
  | nil => exact h
  | cons request rest ih =>
    obtain ⟨m', k', -⟩ := k.perform request
    exact ih (h.perform k request) k'

/-! ## The run that ends -/

/-- Books that are kept beside an engine are nothing to it. -/
theorem fst_foldl {α : Type} {f : Engine × α → Request → Engine × α}
    (hf : ∀ s request, (f s request).1 = (s.1.perform request).2) (requests : List Request)
    (start : Engine × α) : (requests.foldl f start).1 = performAll start.1 requests := by
  induction requests generalizing start with
  | nil => rfl
  | cons request rest ih =>
    rw [List.foldl_cons, ih, hf]
    rfl

theorem after_fst (schema : Schema) (config : Config) (requests : List Request) :
    (after schema config requests).1 = performAll (new schema config) requests :=
  fst_foldl (fun _ _ => rfl) requests _

theorem Calls.performAll (h : Calls e src e' src') (requests : List Request) :
    ∃ src'', Calls e src (e'.performAll requests) src'' := by
  induction requests generalizing e' src' with
  | nil => exact ⟨src', h⟩
  | cons request rest ih => exact ih (h.more request)

/-- An engine came to its end in one of its runs. -/
theorem ended {requests : List Request} (live : e.status.phase.terminal = false)
    (h : (e.performAll requests).status.phase.terminal = true) : ∃ front rest,
      requests = front ++ .resume :: rest ∧ (e.performAll front).status.phase.terminal = false ∧
      (e.performAll front).resume.2.status.phase.terminal = true := by
  induction requests generalizing e with
  | nil => simp [Engine.performAll, live] at h
  | cons request rest ih =>
    cases ht : (e.perform request).2.status.phase.terminal with
    | true =>
      by_cases hq : request = .resume
      · subst hq
        exact ⟨[], rest, rfl, live, ht⟩
      · rw [status_perform hq, live] at ht
        simp at ht
    | false =>
      obtain ⟨front, rest', hrest, hlive, hend⟩ := ih ht h
      exact ⟨request :: front, rest', by rw [hrest]; rfl, hlive, hend⟩

/-- What an engine has done when it has finished. -/
structure Settled (e : Engine) : Prop where
  tasks : e.tasks = []
  pending : e.pending = none
  depth : e.reader.bounds = []
  fixed : e.output.eof = some e.output.fill
  trailing : e.config.rejectTrailing = true →
    e.input.eof = some e.input.fill ∧ e.reader.position = .ofByte e.input.fill

theorem Settled.of_unmoved (h : Settled e) (hu : Unmoved e handed e' handed') : Settled e' :=
  ⟨hu.tasks.trans h.tasks, hu.pending.trans h.pending, hu.reader ▸ h.depth,
    by rw [hu.eof, hu.fill, h.fixed], by rw [hu.config, hu.input, hu.reader]; exact h.trailing⟩

/-- Where a run finishes, everything is done. -/
theorem settled_of_ends {r : Rules} (h : Ends r src m .finished e) (hr : e.rules = r)
    (ho : m.Orderly src.bytes.length) : Settled e := by
  cases h with
  | @finished m' _ hs f he ht reads =>
    obtain ⟨hpending, -, hc⟩ := Machine.checkTrailing_of_done hs
    obtain ⟨rfl, htrailing⟩ := Machine.of_checkTrailing hc
    have hstack : m'.bounds = [] := by
      rw [Machine.Orderly, ht] at ho
      exact ho
    have htasks : e.tasks.map Task.flat = [] := f.spent.tasks.trans ht
    refine ⟨List.map_eq_nil_iff.1 htasks, reads.pending.trans hpending, reads.bounds.trans hstack,
      by rw [he, f.spent.output.fill], fun hreject => ?_⟩
    obtain ⟨hclosed, hle⟩ := htrailing (hr ▸ hreject)
    have hfill := reads.stands.carries.fill
    have hposition := reads.position
    have hin := reads.stands.le
    have hbits : e.reader.bits = [] := reads.stands.sound.bits
    refine ⟨?_, ?_⟩
    · rw [reads.stands.eof, Source.eof, if_pos hclosed, hfill]
    · simp only [Cursor.position, Position.ofByte, hbits, List.length_nil, Nat.sub_zero]
      congr 2
      omega

/-- An engine that has finished has done all that it began. -/
theorem settled_after {schema : Schema} {config : Config} {requests : List Request}
    (h : ((new schema config).performAll requests).status = .finished) :
    Settled ((new schema config).performAll requests) := by
  obtain ⟨front, rest, rfl, live, hend⟩ := ended (e := new schema config) rfl (by rw [h]; rfl)
  obtain ⟨src, hcalls⟩ := (Calls.none (new schema config) { bytes := [] }).performAll front
  have hholds := Holds.called hcalls
  obtain ⟨m, hends, -, ho, hst, hr⟩ := hholds.of_resume (invariant_true _) live
  generalize he : (new schema config).performAll front = e at *
  have hall : (new schema config).performAll (front ++ .resume :: rest) =
      e.resume.2.performAll rest := by
    rw [performAll_append, he]
    rfl
  rw [hall] at h ⊢
  obtain ⟨last, k, -⟩ := Tells.of_ends hends hst ho
  have hu := performAll_unmoved k.rested hend rest
  refine Settled.of_unmoved ?_ hu
  have hfinished : e.resume.1 = .finished := by
    rw [hu.status, hst] at h
    cases ho : e.resume.1 <;> simp_all [Outcome.status]
  rw [hfinished] at hends
  exact settled_of_ends hends hr ho

/-- Requests are a history, with what they hand out. -/
theorem History.performAll (h : History e handed e') (requests : List Request) :
    History e (handed ++ e'.handedOut requests) (e'.performAll requests) := by
  induction requests generalizing e' handed with
  | nil =>
    rw [handedOut, List.append_nil]
    exact h
  | cons request rest ih =>
    rw [handedOut, ← List.append_assoc]
    exact ih (h.more (.call e' request))

/-- An engine finishes soundly and its ends are final. Whatever was asked of it from the first request
on: when it has finished, nothing is left to do, every block of the input that it entered was left,
every header that it reserved was patched, its output is fixed where it ends and, if trailing input is
rejected, the input has ended where it reads. And when it has finished or failed, then no more
requests change how its run went; they are told the same outcome and may drain, but bring no input. -/
theorem finishes_soundly (schema : Schema) (config : Config) (requests : List Request) :
    let e := (new schema config).performAll requests
    let handed := (new schema config).handedOut requests
    (e.status = .finished → Settled e ∧ entered schema config requests = [] ∧
      unpatched schema config requests = []) ∧
    (e.status.phase.terminal = true → ∀ more,
      Unmoved e handed (e.performAll more) (handed ++ e.handedOut more) ∧
      (e.performAll more).resume.1 = e.resume.1 ∧ Deaf (e.performAll more)) := by
  intro e handed
  have hstart : Tells (new schema config) (.new schema) :=
    .works { bytes := [] } rfl (.new schema config)
  refine ⟨fun hf => ?_, fun ht more => ?_⟩
  · have hs : Settled e := settled_after hf
    have hcross : Crosses e (entered schema config requests) :=
      entered_after requests (fun _ => rfl) hstart
    obtain ⟨m, k, hacc⟩ := accounts_after schema config requests
    rw [after_fst] at hacc
    refine ⟨hs, ?_, ?_⟩
    · rw [hcross (by simp [hf]), extents, blocks, hs.tasks]
      rfl
    · cases hacc with
      | all _ ho =>
        rw [unpatched, ho, openHeaders, hs.tasks]
        rfl
      | failed reason hr => simp [e, hr] at hf
  · have hhistory := (History.none (new schema config)).performAll requests
    rw [List.nil_append] at hhistory
    obtain ⟨m, k, -, hhanded⟩ := hhistory.tells hstart
    have hhanded : handed = m.output.take e.drained := hhanded
    have hu := performAll_unmoved k.rested ht more
    rw [← hhanded] at hu
    have hd : Deaf (e.performAll more) := deaf_of_terminal (hu.status ▸ ht)
    refine ⟨hu, ?_, hd⟩
    have hs := hd.resume.2.trans (hu.status.trans (deaf_of_terminal ht).resume.2.symm)
    exact Outcome.status_injective hs

/-- A byte in a block is transcoded to the end, and nothing more happens. -/
theorem finishes_soundly_boxed :
    let e := (new boxed { pageSize := 4 }).performAll [.supply [1, 7], .close, .resume]
    e.status = .finished ∧ Settled e ∧
      entered boxed { pageSize := 4 } [.supply [1, 7], .close, .resume] = [] ∧
      (e.performAll [.supply [9], .drainAll]).resume.1 = e.resume.1 := by
  intro e
  obtain ⟨h1, h2⟩ := finishes_soundly boxed { pageSize := 4 } [.supply [1, 7], .close, .resume]
  let fed := (new boxed { pageSize := 4 }).performAll [.supply [1, 7], .close]
  have hrun : fed.resume.2.status = .finished :=
    of_runWithin (f := (·.2.status)) 9 rfl (by decide +kernel)
  have hs : e.status = .finished := hrun
  obtain ⟨hsettled, hentered, -⟩ := h1 hs
  have ht : e.status.phase.terminal = true := by rw [hs]; rfl
  exact ⟨hs, hsettled, hentered, (h2 ht [.supply [9], .drainAll]).2.1⟩

end Transcoder.Engine

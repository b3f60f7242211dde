import Transcoder.Proofs.Engine.Follows

/-!
# Calls of an engine

Whatever is asked of an engine, it goes on as a machine or rests as one: `Tells` is kept by every
call. Output that is handed out is output of the machine, in order.

Results:
* `Follows.new`, `Tells.perform`: an engine tells its machine from the start on and after each call.
* `Tells.handOut`: final output can always be handed out.
-/
namespace Transcoder

/-- The machine of a new engine. -/
def Machine.new (schema : Schema) : Machine := { tasks := [.visit schema.root] }

theorem Machine.orderly_new (schema : Schema) (hook : Option Hook) (n : Nat) :
    Orderly n { Machine.new schema with hook } := rfl

theorem Follows.new (schema : Schema) (config : Config) :
    Follows { bytes := [] } (.new schema config) (.new schema) := by
  have hc : (Tape.blank config.pageSize).Carries [] :=
    ⟨rfl, Nat.dvd_zero _, rfl, fun a _ ha => absurd ha (Nat.not_lt_zero a)⟩
  have h0 : (Tape.blank config.pageSize).start = 0 := Nat.zero_mul _
  refine ⟨⟨rfl, ⟨rfl, ?_, hc, rfl, ?_, ?_⟩, h0, rfl, ⟨⟨?_, rfl, hc, rfl, ?_, ?_⟩, rfl, ?_⟩, rfl, ?_,
    rfl, rfl, rfl, rfl, ?_⟩, rfl, Nat.zero_le _⟩
  · exact Cursor.sound_fresh _ [] _
  · exact Nat.le_refl _
  · exact Nat.le_of_eq h0
  · exact Cursor.sound_fresh _ [] _
  · exact Nat.le_of_eq h0
  · exact Nat.le_refl _
  · exact Nat.zero_le _
  · intro h hm
    simp [Engine.new, Engine.openHeaders, Task.header?] at hm
  · exact Nat.le_of_eq h0

/-- The engine is at work as the machine, or through with it. -/
inductive Tells (e : Engine) (m : Machine) : Prop
  | works (src : Source) (hs : e.status.phase.terminal = false) (f : Follows src e m)
  | rests (hs : e.status.phase.terminal = true) (f : Rests e m)
    (hf : e.status = .finished → e.output.eof = some m.output.length ∧ m.tasks = [])

variable {src : Source} {e e' : Engine} {m m' : Machine}

/-! ## Input -/

/-- More bytes come to an engine that is not told their end. -/
theorem Follows.append (h : Follows src e m) (hc : src.closed = false) (bytes : List UInt8) :
    ∃ t, e.append bytes = (.ok (), { e with input := t }) ∧
      Follows { src with bytes := src.bytes ++ bytes } { e with input := t } m := by
  obtain ⟨t, ha, hs⟩ := h.tied.input.evict.append hc bytes
  refine ⟨t, by rw [Engine.append, ha], { h.tied with setting := rfl, input := hs }, ?_, h.drained⟩
  refine Stacked.mono h.orderly ?_ (Nat.le_refl _)
  rw [List.length_append]
  exact Nat.le_add_right ..

/-- Bytes behind the end are refused; at most pages are given up. -/
theorem Follows.append_closed (h : Follows src e m) (hc : src.closed = true) {bytes : List UInt8}
    (hb : bytes ≠ []) : ∃ x t, e.append bytes = (.error x, { e with input := t }) ∧
      Follows src { e with input := t } m := by
  obtain ⟨x, ha⟩ := h.tied.input.evict.append_closed hc hb
  refine ⟨.ofStream x, e.input.evict e.reader.page.toList e.reader.address, ?_,
    { h.tied with setting := rfl, input := h.tied.input.evict }, h.orderly, h.drained⟩
  rw [Engine.append, ha]

/-- An engine that takes input is told the end of it. -/
theorem Follows.close (h : Follows src e m) (hs : e.status.phase.acceptsInput = true) :
    ∃ t, e.close = (.ok (), { e with input := t }) ∧
      Follows { src with closed := true } { e with input := t } m := by
  obtain ⟨t, ht, hi⟩ := h.tied.input.fixEnd
  refine ⟨t, ?_, { h.tied with setting := rfl, input := hi }, h.orderly, h.drained⟩
  rw [Engine.close, Engine.checkIntake, if_pos hs]
  simp only [ht]

/-! ## Requests about the input -/

/-- The bytes of input that a request brings. -/
def Engine.Request.input : Engine.Request → List UInt8
  | .supply bytes => bytes
  | .commit buffer count => buffer.take count
  | _ => []

/-- A request that says that no more input comes. -/
def Engine.Request.closes : Engine.Request → Bool
  | .close => true
  | .supply bytes => bytes.isEmpty
  | _ => false

/-- The request is about the input. -/
def Engine.Request.intake : Engine.Request → Bool
  | .supply _ | .commit .. | .close => true
  | _ => false

/-- What an engine knows of its input after a request and its answer. -/
def Source.told (src : Source) (request : Engine.Request) : Engine.Answer → Source
  | .done => { src with
      bytes := src.bytes ++ request.input
      closed := src.closed || request.closes }
  | _ => src

/-- The bytes that an answer hands out. -/
def Engine.Answer.handed : Engine.Answer → List UInt8
  | .bytes piece => piece
  | _ => []

@[simp] theorem Engine.Answer.handed_ofUnit (r : Except Failure Unit) : (ofUnit r).handed = [] := by
  cases r <;> rfl

theorem Engine.acceptsInput_of_terminal (h : e.status.phase.terminal = true) :
    e.status.phase.acceptsInput = false := by
  cases hp : e.status.phase <;> simp [hp, Phase.acceptsInput, Phase.terminal] at h ⊢

/-- Where no input is taken, nothing happens. -/
theorem Engine.perform_refused {request : Engine.Request} (hq : request.intake = true)
    (ha : e.status.phase.acceptsInput = false) : ∃ x, e.perform request = (.refused x, e) := by
  cases request with
  | supply bytes =>
    refine ⟨.notAccepted .supply e.status.phase, ?_⟩
    simp [perform, supply, checkIntake, ha, Answer.ofUnit]
  | commit buffer count =>
    refine ⟨.notAccepted .supply e.status.phase, ?_⟩
    simp [perform, commit, checkIntake, ha, Answer.ofUnit]
  | close =>
    refine ⟨.notAccepted .close e.status.phase, ?_⟩
    simp [perform, close, checkIntake, ha, Answer.ofUnit]
  | _ => simp [Request.intake] at hq

/-- Bytes are taken, or refused behind the end. -/
theorem Follows.take (h : Follows src e m) {bytes : List UInt8} (hb : bytes ≠ []) :
    ∃ r t, e.append bytes = (r, { e with input := t }) ∧
      (r = .ok () ∧ Follows { src with bytes := src.bytes ++ bytes } { e with input := t } m ∨
        ∃ x, r = .error x ∧ Follows src { e with input := t } m) := by
  by_cases hc : src.closed = true
  · obtain ⟨x, t, ha, f⟩ := h.append_closed hc hb
    exact ⟨_, t, ha, .inr ⟨x, rfl, f⟩⟩
  · obtain ⟨t, ha, f⟩ := h.append (by simpa using hc) bytes
    exact ⟨_, t, ha, .inl ⟨rfl, f⟩⟩

/-- An engine at work is told of its input, and that is all that happens. -/
theorem Follows.intake (h : Follows src e m) {request : Engine.Request}
    (hq : request.intake = true) : ∃ answer t, e.perform request = (answer, { e with input := t }) ∧
      answer.handed = [] ∧ Follows (src.told request answer) { e with input := t } m := by
  by_cases ha : e.status.phase.acceptsInput = true
  · -- bytes that a request brings, if it brings any
    have bring {bytes : List UInt8} (hb : bytes ≠ []) (hi : request.input = bytes)
        (hc : request.closes = false) (hp : e.perform request = (e.append bytes).map .ofUnit id) :
        ∃ answer t, e.perform request = (answer, { e with input := t }) ∧ answer.handed = [] ∧
          Follows (src.told request answer) { e with input := t } m := by
      obtain ⟨_, t, he, ⟨rfl, f⟩ | ⟨x, rfl, f⟩⟩ := h.take hb
      · refine ⟨.done, t, by rw [hp, he]; rfl, rfl, ?_⟩
        simpa only [Source.told, hi, hc, Bool.or_false] using f
      · exact ⟨.refused x, t, by rw [hp, he]; rfl, rfl, f⟩
    have shut (hi : request.input = []) (hc : request.closes = true)
        (hp : e.perform request = e.close.map .ofUnit id) :
        ∃ answer t, e.perform request = (answer, { e with input := t }) ∧ answer.handed = [] ∧
          Follows (src.told request answer) { e with input := t } m := by
      obtain ⟨t, he, f⟩ := h.close ha
      refine ⟨.done, t, by rw [hp, he]; rfl, rfl, ?_⟩
      simpa only [Source.told, hi, hc, Bool.or_true, List.append_nil] using f
    cases request with
    | supply bytes =>
      by_cases hb : bytes = []
      · exact shut hb (by simp [Engine.Request.closes, hb])
          (by simp [Engine.perform, Engine.supply, Engine.checkIntake, ha, hb])
      · exact bring hb rfl (by simp [Engine.Request.closes, hb])
          (by simp [Engine.perform, Engine.supply, Engine.checkIntake, ha, hb])
    | commit buffer count =>
      by_cases hb : buffer.take count = []
      · refine ⟨.done, e.input, ?_, rfl, ?_⟩
        · simp [Engine.perform, Engine.commit, Engine.checkIntake, ha, hb, Engine.Answer.ofUnit]
        · simpa only [Source.told, Engine.Request.input, Engine.Request.closes, hb,
            List.append_nil, Bool.or_false] using h
      · exact bring hb rfl rfl
          (by simp [Engine.perform, Engine.commit, Engine.checkIntake, ha, hb])
    | close => exact shut rfl rfl rfl
    | _ => simp [Engine.Request.intake] at hq
  · obtain ⟨x, hx⟩ := Engine.perform_refused hq (by simpa using ha)
    exact ⟨_, e.input, hx, rfl, h⟩

/-- An engine that takes input, and knows of no end, is supplied with it. -/
theorem Follows.takes (h : Follows src e m) (ha : e.status.phase.acceptsInput = true)
    (hc : src.closed = false) (bytes : List UInt8) : (e.perform (.supply bytes)).1 = .done := by
  simp only [Engine.perform, Engine.supply, Engine.checkIntake, if_pos ha]
  by_cases hb : bytes = []
  · obtain ⟨t, ht, -⟩ := h.close ha
    rw [if_pos (by rw [hb]; rfl), ht]
    rfl
  · obtain ⟨t, ht, -⟩ := h.append hc bytes
    rw [if_neg (by simpa using hb), ht]
    rfl

/-! ## Output -/

/-- Every open block begins at or behind the output that is final. -/
theorem Stacked.heldBelow_le_start {n : Nat} {tasks : List Task} {bounds : List Position}
    {top : Nat} (h : Stacked n tasks bounds top) {header : OpenHeader}
    (hm : header ∈ tasks.filterMap Task.header?) : heldBelow tasks top ≤ header.start := by
  induction tasks generalizing bounds top with
  | nil => simp at hm
  | cons task rest ih =>
    cases task with
    | visit | sequence | loop => exact ih h hm
    | untilEof => exact ih h.2 hm
    | block extent hd =>
      obtain ⟨-, -, outer, -, hs⟩ := h
      rcases List.mem_cons.1 hm with rfl | hm
      · exact hs.heldBelow_le
      · exact ih hs hm

theorem flat_headers (tasks : List Task) : (tasks.map Task.flat).filterMap Task.header? =
    (tasks.filterMap Task.header?).map OpenHeader.flat := by
  induction tasks with
  | nil => rfl
  | cons task rest ih =>
    cases task with
    | visit | sequence | loop | untilEof => exact ih
    | block extent header => exact congrArg (header.flat :: ·) ih

/-- No block is open, on the stack of the engine or on that of its machine. -/
theorem Spent.openHeaders_eq_nil {s : Setting} (h : Spent s e m) :
    e.openHeaders = [] ↔ m.tasks.filterMap Task.header? = [] := by
  rw [← h.tasks, flat_headers, List.map_eq_nil_iff]
  rfl

theorem Rests.held_le_start (h : Rests e m) {header : OpenHeader} (hm : header ∈ e.openHeaders) :
    m.held ≤ header.start := by
  obtain ⟨n, bounds, hs⟩ := h.loose
  have hm : header.flat ∈ m.tasks.filterMap Task.header? := by
    rw [← h.spent.tasks, flat_headers]
    exact List.mem_map_of_mem hm
  have hle : m.held ≤ header.flat.start := hs.heldBelow_le_start hm
  exact hle

/-- What an engine hands out, and the engine after it. -/
theorem Rests.handOut (h : Rests e m) {count : Nat} (hc : e.drained + count ≤ m.held) :
    ∃ t, e.handOut count = (.ok ((m.output.drop e.drained).take count),
        { e with drained := e.drained + count, output := t }) ∧
      Rests { e with drained := e.drained + count, output := t } m ∧ t.eof = e.output.eof := by
  have hl := h.held_le
  have hk : e.output.start ≤ e.drained := h.spent.kept
  unfold Engine.handOut
  by_cases h0 : count = 0
  · subst h0
    exact ⟨e.output, by simp, ⟨h.spent, h.drained, h.loose⟩, rfl⟩
  · rw [if_neg h0, h.spent.output.copyOut hk (by omega)]
    refine ⟨_, rfl, ⟨⟨rfl, h.spent.output.evict _ _, h.spent.tasks, h.spent.calls, h.spent.values,
      ?_⟩, hc, h.loose⟩, rfl⟩
    exact Tape.start_evict_le _ _ (Nat.le_trans hk (Nat.le_add_right ..)) (Nat.le_refl _)

/-- Once nothing is left to do, one more drain hands out the rest. -/
theorem Rests.drainAll (h : Rests e m) (ht : m.tasks = []) :
    ∃ last, e.drainAll.1 = .ok last ∧ m.output.take e.drained ++ last = m.output := by
  have hheld : m.held = m.output.length := by rw [Machine.held, ht]; rfl
  have hp : e.pendingOutput = m.held - e.drained := by
    rw [Engine.pendingOutput, h.spent.drainableEnd]
  have hd := h.drained
  obtain ⟨t, he, -⟩ := h.handOut (show e.drained + e.pendingOutput ≤ m.held by omega)
  refine ⟨_, congrArg Prod.fst he, ?_⟩
  have hlast : (m.output.drop e.drained).take e.pendingOutput = m.output.drop e.drained := by
    apply List.take_of_length_le
    rw [List.length_drop]
    omega
  rw [hlast, List.take_append_drop]

theorem Follows.handOut (h : Follows src e m) {count : Nat} (hc : e.drained + count ≤ m.held) :
    ∃ t, e.handOut count = (.ok ((m.output.drop e.drained).take count),
        { e with drained := e.drained + count, output := t }) ∧
      Follows src { e with drained := e.drained + count, output := t } m := by
  have hl := h.orderly.loose.held_le
  have hk : e.output.start ≤ e.drained := h.tied.kept
  unfold Engine.handOut
  by_cases h0 : count = 0
  · subst h0
    exact ⟨e.output, by simp, h⟩
  · rw [if_neg h0, h.tied.output.carries.copyOut hk (by omega)]
    refine ⟨_, rfl, ⟨{ h.tied with setting := rfl, output := ?_, pinned := ?_, kept := ?_ },
      h.orderly, hc⟩⟩
    · have hw := h.tied.output
      exact ⟨⟨hw.sound.evict (by simp +contextual [Engine.heldOutput]) _, hw.bounds,
        hw.carries.evict _ _, hw.eof, Tape.start_evict_le _ _ hw.start_le (by
          rw [hw.atEnd]
          omega), hw.le⟩, hw.atEnd, hw.room⟩
    · intro hd hm
      have hp := h.tied.pinned hd hm
      have hs : m.held ≤ hd.flat.start := by
        have : hd.flat ∈ m.tasks.filterMap Task.header? := by
          rw [← h.tied.tasks, flat_headers]
          exact List.mem_map_of_mem hm
        exact Stacked.heldBelow_le_start h.orderly this
      refine ⟨hp.sound.evict (fun p e => ?_) _, hp.bounds, Tape.start_evict_le _ _ hp.start_le ?_⟩
      · simp only [Engine.heldOutput, List.mem_append, List.mem_filterMap]
        exact .inr ⟨hd, hm, e⟩
      · exact Nat.le_trans hc hs
    · exact Tape.start_evict_le _ _ (Nat.le_trans hk (Nat.le_add_right ..)) (Nat.le_refl _)

/-! ## All calls -/

theorem Engine.resume_of_live (h : e.status.phase.terminal = false) :
    e.resume = Engine.run { e with status := .running } := by
  unfold Engine.resume
  split <;> rename_i he <;> simp [he, Status.phase, Phase.terminal] at h ⊢

theorem Engine.resume_of_terminal (h : e.status.phase.terminal = true) : e.resume.2 = e := by
  unfold Engine.resume
  split
  · rfl
  · rfl
  · cases hs : e.status <;> simp_all [Status.phase, Phase.terminal]

theorem Engine.status_run (e : Engine) : e.run.2.status = e.run.1.status := by
  fun_induction Engine.run e with
  | case1 e wait hp => rfl
  | case2 e hp e₁ hs _ ih => exact ih
  | case3 e hp e₁ hs => rfl
  | case4 e hp e₁ hs =>
    unfold Engine.conclude
    split <;> rfl
  | case5 e hp x e₁ hs => rfl

/-- A run leaves the state that it reports. -/
theorem Engine.status_resume (e : Engine) : e.resume.2.status = e.resume.1.status := by
  unfold Engine.resume
  split
  · rename_i h
    exact h
  · rename_i h
    exact h
  · exact status_run _

theorem Engine.status_handOut (e : Engine) (count : Nat) :
    (e.handOut count).2.status = e.status := by
  unfold Engine.handOut
  split
  · rfl
  · split <;> rfl

/-- All but a run only take input, hand out output or change the hook and the values. -/
theorem Engine.perform_other {request : Engine.Request} (hq : request ≠ .resume) :
    ∃ input output drained hook values,
      (e.perform request).2 = { e with input, output, drained, hook, values } := by
  have happend (bytes : List UInt8) : ∃ input, (e.append bytes).2 = { e with input } := by
    unfold Engine.append
    split <;> exact ⟨_, rfl⟩
  have hclose : ∃ input, e.close.2 = { e with input } := by
    unfold Engine.close
    split
    · exact ⟨e.input, rfl⟩
    · split
      · exact ⟨_, rfl⟩
      · exact ⟨e.input, rfl⟩
  have hout (count : Nat) : ∃ output drained, (e.handOut count).2 = { e with output, drained } := by
    unfold Engine.handOut
    split
    · exact ⟨e.output, e.drained, rfl⟩
    · split
      · exact ⟨e.output, e.drained, rfl⟩
      · exact ⟨_, _, rfl⟩
  cases request with
  | supply bytes =>
    simp only [Engine.perform, Engine.supply, Prod.map_snd, id]
    split
    · exact ⟨e.input, e.output, e.drained, e.hook, e.values, rfl⟩
    · split
      · obtain ⟨input, h⟩ := hclose
        exact ⟨input, e.output, e.drained, e.hook, e.values, h⟩
      · obtain ⟨input, h⟩ := happend bytes
        exact ⟨input, e.output, e.drained, e.hook, e.values, h⟩
  | commit buffer count =>
    simp only [Engine.perform, Engine.commit, Prod.map_snd, id]
    split
    · exact ⟨e.input, e.output, e.drained, e.hook, e.values, rfl⟩
    · split
      · exact ⟨e.input, e.output, e.drained, e.hook, e.values, rfl⟩
      · obtain ⟨input, h⟩ := happend (buffer.take count)
        exact ⟨input, e.output, e.drained, e.hook, e.values, h⟩
  | close =>
    obtain ⟨input, h⟩ := hclose
    exact ⟨input, e.output, e.drained, e.hook, e.values, h⟩
  | resume => exact absurd rfl hq
  | drain max =>
    obtain ⟨output, drained, h⟩ := hout (min e.pendingOutput max)
    exact ⟨e.input, output, drained, e.hook, e.values, h⟩
  | drainAll =>
    obtain ⟨output, drained, h⟩ := hout e.pendingOutput
    exact ⟨e.input, output, drained, e.hook, e.values, h⟩
  | setHook hook => exact ⟨e.input, e.output, e.drained, some hook, e.values, rfl⟩
  | takeValues => exact ⟨e.input, e.output, e.drained, e.hook, #[], rfl⟩

/-- Only a run changes the state. -/
theorem Engine.status_perform {request : Engine.Request} (hq : request ≠ .resume) :
    (e.perform request).2.status = e.status := by
  obtain ⟨input, output, drained, hook, values, h⟩ := e.perform_other hq
  rw [h]

/-- A run that takes less than `n` steps, and nothing of a longer one. -/
def Engine.runWithin : Nat → Engine → Option (Outcome × Engine)
  | 0, _ => none
  | n + 1, e =>
    match e.pressure? with
    | some wait => some (.waits wait, e.stopFor wait)
    | none =>
      match e.step with
      | .ok .advanced e' => runWithin n { e' with steps := e'.steps + 1 }
      | .ok .needInput e => some (.waits .input, { e with status := .waiting .input })
      | .ok .done e => some (conclude (finishOutput e))
      | .error reason e => some (conclude (.error reason e))

theorem Engine.run_of_runWithin {n : Nat} {res : Outcome × Engine} (h : runWithin n e = some res) :
    e.run = res := by
  fun_induction run e generalizing n with
  | case1 e wait hp =>
    cases n with
    | zero => simp [runWithin] at h
    | succ n => simpa only [runWithin, hp, Option.some.injEq] using h
  | case2 e hp e₁ hs _ ih =>
    cases n with
    | zero => simp [runWithin] at h
    | succ n =>
      simp only [runWithin, hp, hs] at h
      exact ih h
  | case3 e hp e₁ hs | case4 e hp e₁ hs | case5 e hp x e₁ hs =>
    cases n with
    | zero => simp [runWithin] at h
    | succ n => simpa only [runWithin, hp, hs, Option.some.injEq] using h

/-- What can be told of a short run. -/
theorem Engine.of_runWithin {α : Type} {f : Outcome × Engine → α} {a : α} (n : Nat)
    (ht : e.status.phase.terminal = false)
    (h : (runWithin n { e with status := .running }).map f = some a) : f e.resume = a := by
  obtain ⟨res, hr, ha⟩ := Option.map_eq_some_iff.1 h
  rw [resume_of_live ht, run_of_runWithin hr]
  exact ha

namespace Tells

theorem rested (h : Tells e m) : Rests e m := by
  cases h with
  | works src hs f => exact f.rests
  | rests hs f hf => exact f

/-- Output below this address is final, to the engine and to the machine. -/
theorem drainableEnd (h : Tells e m) : e.drainableEnd = m.held := h.rested.spent.drainableEnd

/-- Every block on the stack begins at or behind the output that is final. -/
theorem drainableEnd_le (h : Tells e m) {header : OpenHeader} (hm : header ∈ e.openHeaders) :
    e.drainableEnd ≤ header.start := by
  rw [h.drainableEnd]
  exact h.rested.held_le_start hm

/-- What an engine hands out is what comes next in the output of its machine. -/
theorem handOut (h : Tells e m) {count : Nat} (hc : e.drained + count ≤ m.held) :
    ∃ t, e.handOut count = (.ok ((m.output.drop e.drained).take count),
        { e with drained := e.drained + count, output := t }) ∧
      Tells { e with drained := e.drained + count, output := t } m := by
  cases h with
  | works src hs f =>
    obtain ⟨t, ht, f'⟩ := f.handOut hc
    exact ⟨t, ht, .works src hs f'⟩
  | rests hs f hf =>
    obtain ⟨t, ht, f', he⟩ := f.handOut hc
    exact ⟨t, ht, .rests hs f' fun h => ⟨he.trans (hf h).1, (hf h).2⟩⟩

/-- An engine that is through takes no input. -/
theorem intake (h : Tells e m) {request : Engine.Request} (hq : request.intake = true) :
    ∃ answer t, e.perform request = (answer, { e with input := t }) ∧ answer.handed = [] ∧
      Tells { e with input := t } m := by
  cases h with
  | works src hs f =>
    obtain ⟨answer, t, he, ha, f'⟩ := f.intake hq
    exact ⟨answer, t, he, ha, .works _ hs f'⟩
  | rests hs f hf =>
    obtain ⟨x, hx⟩ := Engine.perform_refused hq (Engine.acceptsInput_of_terminal hs)
    exact ⟨_, e.input, hx, rfl, .rests hs f hf⟩

/-- Where a run ends, the engine tells a machine that has gone on. -/
theorem of_ends {r : Rules} {o : Outcome} (h : Ends r src m o e) (hs : e.status = o.status)
    (ho : m.Orderly src.bytes.length) : ∃ m', Tells e m' ∧ m.Onward m' := by
  have hl := Machine.leaves_step (r := r) ho
  cases h with
  | pressed hw f => exact ⟨m, .works src (by rw [hs]; rfl) f, .refl m⟩
  | starved hm f =>
    rw [hm] at hl
    exact ⟨_, .works src (by rw [hs]; rfl) f, hl.2⟩
  | finished hm f he ht =>
    rw [hm] at hl
    exact ⟨_, .rests (by rw [hs]; rfl) f fun _ => ⟨he, ht⟩, hl.2⟩
  | failed hm f =>
    rw [hm] at hl
    exact ⟨_, .rests (by rw [hs]; rfl) f (by rw [hs]; simp [Outcome.status]), hl.2⟩

/-- A run goes on from what is final. -/
theorem resume (h : Tells e m) : ∃ m', Tells e.resume.2 m' ∧ m.Onward m' ∧
    e.resume.2.drained = e.drained := by
  cases h with
  | works src hs f =>
    obtain ⟨n, m₁, hg, hends, hst, ht⟩ := (f.retuned .running e.nextStop e.steps).of_run
    obtain ⟨ho, hn⟩ := hg.onward f.orderly
    obtain ⟨m', k, hn'⟩ := of_ends hends hst ho
    rw [Engine.resume_of_live hs]
    exact ⟨m', k, hn.trans hn', ht.drained⟩
  | rests hs f hf =>
    rw [Engine.resume_of_terminal hs]
    exact ⟨m, .rests hs f hf, .refl m, rfl⟩

/-- Every call keeps what is final, and what it hands out comes next in the output. -/
theorem perform (h : Tells e m) (request : Engine.Request) :
    ∃ m', Tells (e.perform request).2 m' ∧ m.Onward m' ∧
      e.drained ≤ (e.perform request).2.drained ∧ (e.perform request).2.drained ≤ m.held ∧
      (e.perform request).1.handed =
        (m.output.drop e.drained).take ((e.perform request).2.drained - e.drained) := by
  have hd := h.drainableEnd
  have hk := h.rested.drained
  have hp : e.pendingOutput = e.drainableEnd - e.drained := rfl
  have quiet (hq : request.intake = true) : ∃ m', Tells (e.perform request).2 m' ∧ m.Onward m' ∧
      e.drained ≤ (e.perform request).2.drained ∧ (e.perform request).2.drained ≤ m.held ∧
      (e.perform request).1.handed =
        (m.output.drop e.drained).take ((e.perform request).2.drained - e.drained) := by
    obtain ⟨answer, t, he, ha, k⟩ := h.intake hq
    rw [he]
    exact ⟨m, k, .refl m, Nat.le_refl _, hk, by simp [ha]⟩
  cases request with
  | supply | commit | close => exact quiet rfl
  | resume =>
    obtain ⟨m', k, hn, hd⟩ := h.resume
    refine ⟨m', k, hn, Nat.le_of_eq hd.symm, hd.symm ▸ hk, ?_⟩
    have : (e.perform .resume).2.drained - e.drained = 0 := by
      show e.resume.2.drained - e.drained = 0
      omega
    rw [this, List.take_zero]
    rfl
  | drain max =>
    obtain ⟨t, he, k⟩ := h.handOut (show e.drained + min e.pendingOutput max ≤ m.held by omega)
    rw [Engine.perform, Engine.drain, he]
    exact ⟨m, k, .refl m, Nat.le_add_right .., k.rested.drained, by
      simp [Engine.Answer.ofBytes, Engine.Answer.handed]⟩
  | drainAll =>
    obtain ⟨t, he, k⟩ := h.handOut (show e.drained + e.pendingOutput ≤ m.held by omega)
    rw [Engine.perform, Engine.drainAll, he]
    exact ⟨m, k, .refl m, Nat.le_add_right .., k.rested.drained, by
      simp [Engine.Answer.ofBytes, Engine.Answer.handed]⟩
  | setHook hook =>
    refine ⟨{ m with hook := some hook }, ?_, ⟨Nat.le_refl _, rfl⟩, Nat.le_refl _, hk, ?_⟩
    · cases h with
      | works src hs f =>
        exact .works src hs ⟨{ f.tied with setting := rfl, hook := rfl }, f.orderly, f.drained⟩
      | rests hs f hf => exact .rests hs ⟨{ f.spent with setting := rfl }, f.drained, f.loose⟩ hf
    · simp [Engine.perform, Engine.Answer.handed]
  | takeValues =>
    refine ⟨{ m with values := #[] }, ?_, ⟨Nat.le_refl _, rfl⟩, Nat.le_refl _, hk, ?_⟩
    · cases h with
      | works src hs f =>
        exact .works src hs ⟨{ f.tied with setting := rfl, values := rfl }, f.orderly, f.drained⟩
      | rests hs f hf =>
        exact .rests hs ⟨{ f.spent with setting := rfl, values := rfl }, f.drained, f.loose⟩ hf
    · simp [Engine.perform, Engine.Answer.handed]

end Tells

end Transcoder

import Transcoder.Proofs.Engine.Calls

/-!
# Output that is handed out

Between its calls, and between the steps of a run, an engine may patch the headers of blocks, move
their bodies and cut the output off. None of that reaches output that can be drained.

The stream of an engine is what it handed out so far and, behind that, what stands on its tape.

Results:
* `History.final`: through every history of calls and steps, what is handed out is the front of the
  stream, draining never fails, and the part of the stream that can be drained never changes.
-/
namespace Transcoder.Engine

/-- What an engine put out: the bytes that it handed out and those that are still on its tape. -/
def stream (e : Engine) (handed : List UInt8) : List UInt8 :=
  handed ++ (List.range' e.drained (e.output.fill - e.drained)).map e.output.byteAt

/-- What can happen to an engine, and the bytes that it hands out: a call, or, while it is not
through, the beginning of a run and each of its steps. -/
inductive Move : Engine → List UInt8 → Engine → Prop
  | call (e : Engine) (request : Request) :
    Move e (e.perform request).1.handed (e.perform request).2
  | start (e : Engine) (h : e.status.phase.terminal = false) :
    Move e [] { e with status := .running }
  | step {e e' : Engine} (h : e.status.phase.terminal = false) (hs : e.step = .ok .advanced e') :
    Move e [] { e' with steps := e'.steps + 1 }

/-- Moves one after the other, and all that they hand out. -/
inductive History : Engine → List UInt8 → Engine → Prop
  | none (e : Engine) : History e [] e
  | more {e e' e'' : Engine} {handed piece : List UInt8} (h : History e handed e')
    (hm : Move e' piece e'') : History e (handed ++ piece) e''

/-- What was handed out is the front of the stream, the rest is on the tape, and draining works. -/
structure Faithful (e : Engine) (handed : List UInt8) : Prop where
  /-- Each byte was handed out once, in order. -/
  front : handed = (e.stream handed).take e.drained
  drained : handed.length = e.drained
  length : (e.stream handed).length = e.output.fill
  /-- Bytes that were handed out and are still on the tape have not changed there. -/
  shown : ∀ a, e.output.start ≤ a → a < e.output.fill → e.output.byte? a = (e.stream handed)[a]?
  drains : ∀ max, (e.drain max).1 =
    .ok (((e.stream handed).drop e.drained).take (min e.pendingOutput max))
  drainsAll : e.drainAll.1 = .ok (((e.stream handed).drop e.drained).take e.pendingOutput)
  /-- Once the engine has finished, one more drain hands out the rest. -/
  whole : e.status = .finished → e.output.eof = some e.output.fill ∧
    ∃ last, e.drainAll.1 = .ok last ∧ handed ++ last = e.stream handed

variable {e e' : Engine} {m : Machine} {handed more piece : List UInt8}

/-- The stream of an engine is the output of its machine. -/
theorem stream_of_rests (hr : Rests e m) : e.stream (m.output.take e.drained) = m.output := by
  have hd := Nat.le_trans hr.drained hr.held_le
  have hk : e.output.start ≤ e.drained := hr.spent.kept
  have hrest : (List.range' e.drained (e.output.fill - e.drained)).map e.output.byteAt =
      m.output.drop e.drained := by
    apply List.ext_getElem
    · rw [List.length_map, List.length_range', List.length_drop, hr.spent.output.fill]
    · intro i h1 h2
      rw [List.length_drop] at h2
      have hb := hr.spent.output.shows (e.drained + i) (by omega) (by omega)
      rw [List.getElem_map, List.getElem_range', Nat.one_mul, Tape.byteAt, hb, List.getElem_drop,
        List.getElem?_eq_getElem (by omega), Option.getD_some]
  rw [stream, hrest, List.take_append_drop]

theorem stream_eq (h : Tells e m) : e.stream (m.output.take e.drained) = m.output :=
  stream_of_rests h.rested

/-- One move keeps what is final and hands out what comes next. -/
theorem Move.tells (hm : Move e piece e') (h : Tells e m) : ∃ m', Tells e' m' ∧ m.Onward m' ∧
    m.output.take e.drained ++ piece = m'.output.take e'.drained := by
  cases hm with
  | call request =>
    obtain ⟨m', k, hn, h1, h2, hp⟩ := h.perform request
    refine ⟨m', k, hn, ?_⟩
    rw [hp, hn.take_eq h2, ← List.take_add, Nat.add_sub_cancel' h1]
  | start hs =>
    cases h with
    | works src _ f =>
      exact ⟨m, .works src rfl (f.retuned .running e.nextStop e.steps), .refl m, List.append_nil _⟩
    | rests ht => simp [hs] at ht
  | step hs he =>
    cases h with
    | works src _ f =>
      obtain ⟨m', hm, hset, f', hn⟩ := f.of_step he
      have ht := Took.of_setting hset
      have hst := congrArg Setting.status hset
      refine ⟨m', .works src ?_ (f'.retuned _ _ _), hn, ?_⟩
      · exact (congrArg (fun s => s.phase.terminal) hst).trans hs
      · rw [List.append_nil, ← hn.take_eq f.drained]
        exact congrArg (m'.output.take ·) ht.drained.symm
    | rests ht => simp [hs] at ht

theorem History.tells (hh : History e more e') (h : Tells e m) : ∃ m', Tells e' m' ∧
    m.Onward m' ∧ m.output.take e.drained ++ more = m'.output.take e'.drained := by
  induction hh with
  | none => exact ⟨m, h, .refl m, List.append_nil _⟩
  | more _ hm ih =>
    obtain ⟨m₁, h₁, hn₁, ho₁⟩ := ih
    obtain ⟨m₂, h₂, hn₂, ho₂⟩ := hm.tells h₁
    exact ⟨m₂, h₂, hn₁.trans hn₂, by rw [← List.append_assoc, ho₁, ho₂]⟩

theorem faithful (h : Tells e m) : e.Faithful (m.output.take e.drained) := by
  have hr := h.rested
  have hl := hr.held_le
  have hd := hr.drained
  have hp : e.pendingOutput = m.held - e.drained := by rw [pendingOutput, h.drainableEnd]
  have hdrain (count : Nat) (hc : count ≤ e.pendingOutput) : (e.handOut count).1 =
      .ok (((e.stream (m.output.take e.drained)).drop e.drained).take count) := by
    obtain ⟨t, ht, -⟩ := h.handOut (show e.drained + count ≤ m.held by omega)
    rw [ht, stream_eq h]
  refine ⟨by rw [stream_eq h], ?_, ?_, ?_, fun max => hdrain _ (Nat.min_le_left ..),
    hdrain _ (Nat.le_refl _), fun hf => ?_⟩
  · rw [List.length_take]
    omega
  · rw [stream_eq h, hr.spent.output.fill]
  · intro a h1 h2
    rw [hr.spent.output.fill] at h2
    rw [stream_eq h, hr.spent.output.shows a h1 h2]
  · cases h with
    | works src ht => simp [hf, Status.phase, Phase.terminal] at ht
    | rests hs f he =>
      obtain ⟨heof, ht⟩ := he hf
      obtain ⟨last, hl, ho⟩ := f.drainAll ht
      exact ⟨by rw [heof, f.spent.output.fill], last, hl, by rw [stream_eq (.rests hs f he), ho]⟩

/-- Whatever happens to an engine, what it hands out is the front of its stream, and the part of the
stream that can be drained is final. -/
theorem History.final {schema : Schema} {config : Config}
    (h : History (new schema config) handed e) (h' : History e more e') :
    e.Faithful handed ∧ e'.Faithful (handed ++ more) ∧ e.drainableEnd ≤ e'.drainableEnd ∧
      (e'.stream (handed ++ more)).take e.drainableEnd =
        (e.stream handed).take e.drainableEnd := by
  have h0 : Tells (new schema config) (.new schema) :=
    .works { bytes := [] } rfl (.new schema config)
  obtain ⟨m, hm, -, ho⟩ := h.tells h0
  obtain ⟨m', hm', hn, ho'⟩ := h'.tells hm
  have ho : handed = m.output.take e.drained := ho
  subst ho
  rw [ho', stream_eq hm, stream_eq hm', hm.drainableEnd, hm'.drainableEnd]
  exact ⟨faithful hm, faithful hm', hn.held, hn.final⟩

/-- One byte is supplied and transcoded, and then all output is drained. -/
theorem History.final_oneByte :
    let e := new ⟨#[.value .uint8], 0, Schema.wellFormed_of_fault? (by decide)⟩ { pageSize := 4 }
    let ran := ((e.perform (.supply [7])).2.perform .resume).2
    ∃ handed, ran.Faithful handed ∧
      (ran.perform .drainAll).2.Faithful (handed ++ (ran.perform .drainAll).1.handed) := by
  intro e ran
  have h : History e _ ran := ((History.none e).more (.call e (.supply [7]))).more (.call _ .resume)
  have h' := (History.none ran).more (.call ran .drainAll)
  rw [List.nil_append] at h'
  obtain ⟨hf, hf', -⟩ := History.final h h'
  exact ⟨_, hf, hf'⟩

end Transcoder.Engine

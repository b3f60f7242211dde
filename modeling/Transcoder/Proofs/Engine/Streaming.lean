import Transcoder.Proofs.Engine.Recursion
import Transcoder.Proofs.Engine.Finality

/-!
# Runs on chunks and runs between a source and a sink

The two loops drain at different moments: one after every resume, the other not after the one that
fails. Their results are told by one trail, so what is left to show is what the requests on that
trail do to a new engine: that they are taken, what they hand out, and that an engine that fails has
handed out nothing behind the header of a block that was not patched.

Results:
* `drained_le_unpatched`: what was handed out before a run ends in front of every header that the
  run leaves unpatched.
* `Trail.sound`: what the requests on a trail do.
* `stream_agrees`: the two loops agree.
-/
namespace Transcoder.Engine

variable {schema : Schema} {config : Config} {src src' : Source} {e e' : Engine} {m : Machine}

/-! ## Headers that a run leaves -/

/-- A header that the next step reserves stands where the output ends. -/
theorem start_of_begins (f : Follows src e m) {header : OpenHeader}
    (h : e.begins? = some header) : header.start = m.output.length := by
  cases hp : e.pending with
  | none => simp [begins?_of_none hp] at h
  | some p =>
    obtain ⟨goal, partialValue, address⟩ := p
    by_cases hg : ∃ body, goal = .blockSize body
    · obtain ⟨body, rfl⟩ := hg
      have hM : Matches e.setting src { e with pending := none } { m with pending := none } :=
        { f.tied with setting := rfl, pending := rfl }
      obtain ⟨c, hc, hM⟩ := hM.resume partialValue
      cases hr : (src.read m.bounds m.position partialValue).1 with
      | error x =>
        rw [hr] at hc
        simp [begins?_of_unread hp hc] at h
      | ok word =>
        rw [hr] at hc
        rw [begins?_of_size hp hc] at h
        cases he : enterBlock word.toNat { e with reader := c, pending := none } with
        | error x e₁ => simp [bind_of_error he] at h
        | ok extent e₁ =>
          rw [bind_of_ok he] at h
          have ht := hM.enterBlock word.toNat
          rw [he] at ht
          obtain ⟨_, m₁, -, -, hM₁⟩ := ht.of_ok
          have hout : m₁.output.length = m.output.length := by
            rw [← hM₁.output.carries.fill, (of_enterBlock he).2, f.tied.output.carries.fill]
          have htrack := hM₁.openBlock
          cases hop : openBlock e₁ with
          | error x e₂ => simp [hop] at h
          | ok header' e₂ =>
            rw [hop] at h htrack
            obtain rfl := Option.some.inj h
            obtain ⟨_, m₂, hm, ⟨rfl, -⟩, -⟩ := htrack.of_ok
            exact (Machine.of_openBlock hm).1.trans hout
    · have hnone := begins?_of_goal hp (fun body he => hg ⟨body, he⟩)
      simp [hnone] at h

/-- What was handed out ends in front of every header that the next step leaves unpatched. -/
theorem drained_le_book (f : Follows src e m) {header : OpenHeader}
    (h : header ∈ e.book e.openHeaders) : e.drained ≤ header.start := by
  have hopen (hm : header ∈ e.openHeaders) : e.drained ≤ header.start :=
    Nat.le_trans f.drained (f.rests.held_le_start hm)
  unfold book at h
  split at h
  · exact hopen (List.mem_of_mem_erase h)
  · rcases List.mem_append.1 h with h | h
    · rw [start_of_begins f (Option.mem_toList.1 h)]
      exact Nat.le_trans f.drained f.orderly.loose.held_le
    · exact hopen h

theorem drained_le_bookRun (f : Follows src e m) {header : OpenHeader}
    (h : header ∈ e.bookRun e.openHeaders) : e.drained ≤ header.start := by
  rw [bookRun_eq] at h
  fun_induction run e generalizing m with
  | case1 e wait hp =>
    rw [hp] at h
    exact Nat.le_trans f.drained (f.rests.held_le_start h)
  | case2 e hp e₁ hs _ ih =>
    have hb := leaves_step f
    obtain ⟨m₁, -, hset, f₁, -⟩ := f.of_step hs
    rw [hs] at hb
    rw [hp, hs] at h
    simp only at h
    rw [show e.book e.openHeaders = e₁.openHeaders from hb, bookRun_eq] at h
    have hle := ih (f₁.retuned e₁.status e₁.nextStop (e₁.steps + 1)) h
    exact (Took.of_setting hset).drained ▸ hle
  | case3 e hp e₁ hs | case4 e hp e₁ hs | case5 e hp x e₁ hs =>
    rw [hp, hs] at h
    exact drained_le_book f h

/-- What was handed out before a run ends in front of every header that is unpatched behind it. -/
theorem drained_le_unpatched {requests : List Request}
    (live : ((new schema config).performAll requests).status.phase.terminal = false)
    {header : OpenHeader} (h : header ∈ unpatched schema config (requests ++ [.resume])) :
    ((new schema config).performAll requests).drained ≤ header.start := by
  obtain ⟨m, k, hacc⟩ := accounts_after schema config requests
  have hfst := after_fst schema config requests
  rw [unpatched, after, List.foldl_append] at h
  have h : header ∈ (after schema config requests).1.bookCall (after schema config requests).2
    .resume := h
  rw [hfst] at k hacc h
  cases k with
  | rests ends => simp [live] at ends
  | works src hs f =>
    cases hacc with
    | failed reason hr => simp [hr, Status.phase, Phase.terminal] at live
    | all _ ho =>
      have h : header ∈ if _ then _ else bookRun { (new schema config).performAll requests with
        status := .running } _ := h
      rw [if_neg (by simp [live]), ho] at h
      exact drained_le_bookRun (f.retuned .running _ _) h

/-! ## The requests on a trail -/

/-- What an engine knows of its input after it was fed chunks; an empty one is the end. -/
def fed (src : Source) (chunks : List (List UInt8)) : Source :=
  { src with
    bytes := src.bytes ++ chunks.flatten
    closed := src.closed || chunks.any List.isEmpty }

theorem fed_nil (src : Source) : fed src [] = src := by simp [fed]

theorem fed_cons (src : Source) (chunk : List UInt8) (chunks : List (List UInt8)) :
    fed (fed src [chunk]) chunks = fed src (chunk :: chunks) := by
  simp [fed, List.append_assoc, Bool.or_assoc]

theorem told_supply (src : Source) (chunk : List UInt8) :
    src.told (.supply chunk) .done = fed src [chunk] := by
  simp [Source.told, fed, Request.input, Request.closes]

/-- What the requests on a trail do to an engine that knows `src` of its input. -/
structure Trail.Sound (schema : Schema) (config : Config) (e : Engine) (src : Source) (t : Trail) :
    Prop where
  performs : e.performAll t.requests = t.engine
  hands : e.handedOut t.requests = t.pieces.flatten
  calls : Calls (new schema config) { bytes := [] } t.engine (fed src t.taken)
  asks : t.stop = .needInput →
    t.engine.status = .waiting .input ∧ (fed src t.taken).closed = false
  finishes : t.stop = .finished → t.engine.status = .finished
  /-- An engine that fails does so in the last run. -/
  fails : ∀ reason, t.stop = .failed reason → t.engine.status = .failed reason ∧
    ∃ front, t.requests = front ++ [.resume] ∧
      (e.performAll front).status.phase.terminal = false

theorem Calls.tells (h : Calls e src e' src') (k : Tells e m) : ∃ m', Tells e' m' := by
  induction h with
  | none => exact ⟨m, k⟩
  | more _ request ih =>
    obtain ⟨m₁, k₁⟩ := ih
    obtain ⟨m₂, k₂, -⟩ := k₁.perform request
    exact ⟨m₂, k₂⟩

/-- A run, and the drain behind it. -/
theorem round_of_calls (h : Calls (new schema config) { bytes := [] } e src) {o : Outcome}
    {e₁ : Engine} (hr : e.resume = (o, e₁)) :
    Calls (new schema config) { bytes := [] } e₁ src ∧ e₁.status = o.status ∧
      ∃ piece e₂, e₁.drainAll = (.ok piece, e₂) ∧ e₂.status = o.status ∧
        Calls (new schema config) { bytes := [] } e₂ src := by
  have h₁ := h.more .resume
  rw [told_of_input (q := .resume) rfl rfl, show (e.perform .resume).2 = e₁ by rw [perform, hr]; rfl]
    at h₁
  have hst := e.status_resume
  rw [hr] at hst
  obtain ⟨m, k⟩ := h₁.tells (.works { bytes := [] } rfl (.new schema config))
  have hdrain := (faithful k).drainsAll
  have h₂ := h₁.more .drainAll
  rw [told_of_input (q := .drainAll) rfl rfl] at h₂
  have hst₂ := e₁.status_handOut e₁.pendingOutput
  refine ⟨h₁, hst, _, e₁.drainAll.2, Prod.ext hdrain rfl, hst₂.trans hst, h₂⟩

theorem pumpRequests_succ (rounds : Nat) (stop : Stop) :
    pumpRequests (rounds + 1) stop = .resume :: .drainAll :: pumpRequests rounds stop := by
  cases stop <;> simp [pumpRequests, List.replicate_succ]

/-- A run and a drain come before other requests. -/
theorem performAll_round {o : Outcome} {e₁ e₂ : Engine} {piece : List UInt8}
    (hr : e.resume = (o, e₁)) (hd : e₁.drainAll = (.ok piece, e₂)) (rest : List Request) :
    e.performAll (.resume :: .drainAll :: rest) = e₂.performAll rest ∧
      e.handedOut (.resume :: .drainAll :: rest) = piece ++ e₂.handedOut rest := by
  have hresume : e.perform .resume = (.outcome o, e₁) := by
    rw [perform, hr]
    rfl
  have hdrain : e₁.perform .drainAll = (.bytes piece, e₂) := by
    rw [perform, hd]
    rfl
  constructor
  · rw [performAll, List.foldl_cons, hresume, List.foldl_cons, hdrain]
    rfl
  · rw [handedOut, hresume, handedOut, hdrain]
    rfl

/-- A round more, in front of a trail that takes no chunks. -/
theorem Trail.Sound.round {o : Outcome} {e₁ e₂ : Engine} {piece : List UInt8}
    {pieces : Array (List UInt8)} {stop : Stop} (hr : e.resume = (o, e₁))
    (hd : e₁.drainAll = (.ok piece, e₂))
    (h : Trail.Sound schema config e₂ src (.last (pieces, stop, e'))) :
    Trail.Sound schema config e src (.last (#[piece] ++ pieces, stop, e')) := by
  have hsize : (#[piece] ++ pieces).size = pieces.size + 1 := by simp [Nat.add_comm]
  have hround := performAll_round hr hd (pumpRequests pieces.size stop)
  refine ⟨?_, ?_, h.calls, h.asks, h.finishes, fun reason hs => ?_⟩
  · simp only [last, hsize, pumpRequests_succ]
    exact hround.1.trans h.performs
  · have hhands : e₂.handedOut (pumpRequests pieces.size stop) = pieces.toList.flatten := h.hands
    simp only [last, hsize, pumpRequests_succ, hround.2, hhands]
    simp
  · obtain ⟨hst, front, hfront, live⟩ := h.fails reason hs
    have hfront : pumpRequests pieces.size stop = front ++ [.resume] := hfront
    refine ⟨hst, .resume :: .drainAll :: front, ?_, ?_⟩
    · simp only [last, hsize, pumpRequests_succ, hfront]
      rfl
    · rw [(performAll_round hr hd front).1]
      exact live

/-- An engine that is not asked anything. -/
theorem Trail.Sound.idle {stop : Stop} (h : Calls (new schema config) { bytes := [] } e src)
    (ha : stop = .needInput → e.status = .waiting .input ∧ src.closed = false)
    (hd : stop = .finished → e.status = .finished) (hf : ∀ reason, stop ≠ .failed reason) :
    Trail.Sound schema config e src (.last (#[], stop, e)) := by
  have hnone : pumpRequests 0 stop = [] := by
    cases stop with
    | failed reason => exact absurd rfl (hf reason)
    | needInput | finished => rfl
  refine ⟨?_, ?_, by rw [last, fed_nil]; exact h, ?_, hd, fun reason hs => absurd hs (hf reason)⟩
  · rw [last, List.size_toArray, List.length_nil, hnone]
    rfl
  · rw [last, List.size_toArray, List.length_nil, hnone]
    rfl
  · rw [last, fed_nil]
    exact ha

/-- An engine that is pumped. -/
theorem Trail.Sound.of_pump (h : Calls (new schema config) { bytes := [] } e src)
    (live : e.status.phase.terminal = false) :
    Trail.Sound schema config e src (.last (e.pump #[])) := by
  -- a pump that goes on has drained something, so the induction is on one that has drained anything
  have back : Array (List UInt8) := #[]
  fun_induction pump e back generalizing src with
  | case1 e back reason e₁ hr =>
    obtain ⟨h₁, hst, -⟩ := round_of_calls h hr
    rw [pump_eq, hr]
    refine ⟨?_, ?_, by rw [last, fed_nil]; exact h₁, by simp [last], by simp [last], ?_⟩
    · simp [last, pumpRequests, performAll, perform, hr]
    · simp [last, pumpRequests, handedOut, perform, hr, Answer.handed]
    · rintro _ ⟨⟩
      exact ⟨hst, [], rfl, live⟩
  | case2 e back e₁ hr piece e₂ hd =>
    obtain ⟨-, -, _, _, hd', hst, h₂⟩ := round_of_calls h hr
    obtain ⟨rfl, rfl⟩ : _ ∧ _ := by simpa [hd] using hd'
    have hidle : Trail.Sound schema config e₂ src (.last (#[], .finished, e₂)) :=
      .idle h₂ (by simp) (fun _ => hst) (by simp)
    rw [pump_eq, hr]
    simp only [hd]
    exact hidle.round hr hd
  | case3 e back e₁ hr x e₂ hd =>
    obtain ⟨-, -, piece, e₃, hd', -⟩ := round_of_calls h hr
    simp [hd] at hd'
  | case4 e back wait e₁ hr x e₂ hd =>
    obtain ⟨-, -, piece, e₃, hd', -⟩ := round_of_calls h hr
    simp [hd] at hd'
  | case5 e back e₁ piece e₂ hd hr =>
    obtain ⟨-, -, _, _, hd', hst, h₂⟩ := round_of_calls h hr
    obtain ⟨rfl, rfl⟩ : _ ∧ _ := by simpa [hd] using hd'
    have hopen := ((Holds.called h).asks (by rw [hr])).2.2.1
    have hidle : Trail.Sound schema config e₂ src (.last (#[], .needInput, e₂)) :=
      .idle h₂ (fun _ => ⟨hst, hopen⟩) (by simp) (by simp)
    rw [pump_eq, hr]
    simp only [hd]
    exact hidle.round hr hd
  | case6 e back wait e₁ hr piece e₂ hd hw _ _ ih =>
    obtain ⟨-, -, _, _, hd', hst, h₂⟩ := round_of_calls h hr
    obtain ⟨rfl, rfl⟩ : _ ∧ _ := by simpa [hd] using hd'
    have hpump : e.pump #[] = e₂.pump #[piece] := by
      rw [pump_eq, hr]
      cases wait with
      | input => exact absurd rfl hw
      | outputSpace | outputReady => simp only [hd, List.push_toArray, List.nil_append]
    rw [hpump, pump_append]
    exact (ih h₂ (by rw [hst]; rfl)).round hr hd

/-- A chunk that the engine asks for, in front of a trail. -/
theorem Trail.Sound.before {e₁ : Engine} {pieces : Array (List UInt8)} {chunk : List UInt8}
    {t : Trail} (hp : Trail.Sound schema config e src (.last (pieces, .needInput, e₁)))
    (hd : (e₁.perform (.supply chunk)).1 = .done)
    (h : Trail.Sound schema config (e₁.perform (.supply chunk)).2 (fed src [chunk]) t) :
    Trail.Sound schema config e src (t.before pieces chunk) := by
  have hperforms : e.performAll (pumpRequests pieces.size .needInput) = e₁ := hp.performs
  have hhands : e.handedOut (pumpRequests pieces.size .needInput) = pieces.toList.flatten :=
    hp.hands
  have hall (requests : List Request) :
      e.performAll (pumpRequests pieces.size .needInput ++ .supply chunk :: requests) =
        (e₁.perform (.supply chunk)).2.performAll requests := by
    rw [performAll_append, hperforms]
    rfl
  refine ⟨(hall _).trans h.performs, ?_, ?_, fun hs => ?_, h.finishes, fun reason hs => ?_⟩
  · simp only [Trail.before, handedOut_append, hperforms, hhands, handedOut, hd, h.hands]
    simp [Answer.handed]
  · rw [Trail.before, ← fed_cons]
    exact h.calls
  · rw [Trail.before, ← fed_cons]
    exact h.asks hs
  · obtain ⟨hst, front, hfront, live⟩ := h.fails reason hs
    refine ⟨hst, pumpRequests pieces.size .needInput ++ .supply chunk :: front, ?_, ?_⟩
    · simp [Trail.before, hfront]
    · rw [hall]
      exact live

/-- An engine that is pumped and fed whenever it asks. -/
theorem Trail.sound (h : Calls (new schema config) { bytes := [] } e src)
    (live : e.status.phase.terminal = false) (chunks : List (List UInt8)) :
    Trail.Sound schema config e src (e.trail chunks) := by
  induction chunks generalizing e src with
  | nil =>
    rw [trail]
    exact .of_pump h live
  | cons chunk rest ih =>
    have hpump := Sound.of_pump h live
    rcases hp : e.pump #[] with ⟨pieces, stop, e₁⟩
    rw [hp] at hpump
    by_cases hs : stop = .needInput
    · subst hs
      obtain ⟨hst, hopen⟩ : e₁.status = .waiting .input ∧ (fed src []).closed = false :=
        hpump.asks rfl
      have hcalls : Calls (new schema config) { bytes := [] } e₁ (fed src []) := hpump.calls
      rw [fed_nil] at hcalls hopen
      have hd : (e₁.perform (.supply chunk)).1 = .done := by
        cases Holds.called hcalls with
        | works _ _ f => exact f.takes (by rw [hst]; rfl) hopen chunk
        | rests ends => simp [hst, Status.phase, Phase.terminal] at ends
      have h₂ := hcalls.more (.supply chunk)
      rw [hd, told_supply] at h₂
      rw [trail_of_ask hp (supply_of_done hd)]
      refine hpump.before hd (ih h₂ ?_)
      rw [status_perform (by simp), hst]
      rfl
    · rw [trail_of_stop hp hs]
      exact hpump

/-! ## Both runs -/

/-- The chunks that are taken are the first, and all of them if the engine asks in the end. -/
theorem taken_prefix (e : Engine) (chunks : List (List UInt8)) :
    (e.trail chunks).taken <+: chunks ∧
      ((e.trail chunks).stop = .needInput → (e.trail chunks).taken = chunks) := by
  induction chunks generalizing e with
  | nil =>
    rw [trail]
    exact ⟨List.nil_prefix, fun _ => rfl⟩
  | cons chunk rest ih =>
    rcases hp : e.pump #[] with ⟨pieces, stop, e₁⟩
    by_cases hs : stop = .needInput
    · subst hs
      rcases hs : e₁.supply chunk with ⟨_ | _, e₂⟩
      · rw [trail_of_refused hp hs]
        exact ⟨(List.prefix_cons_inj chunk).2 List.nil_prefix, fun h => by simp [Trail.before] at h⟩
      · rw [trail_of_ask hp hs]
        obtain ⟨hfirst, hall⟩ := ih e₂
        exact ⟨(List.prefix_cons_inj chunk).2 hfirst, fun h => congrArg (chunk :: ·) (hall h)⟩
    · rw [trail_of_stop hp hs]
      exact ⟨List.nil_prefix, fun h => absurd h hs⟩

/-- Where the end was taken, everything was. -/
theorem taken_of_closed {pieces taken : List (List UInt8)} (hp : ∀ piece ∈ pieces, piece ≠ [])
    (ht : taken <+: pieces ++ [[]]) (hc : taken.any List.isEmpty = true) :
    taken = pieces ++ [[]] := by
  obtain ⟨chunk, hmem, hempty⟩ := List.any_eq_true.1 hc
  rcases List.prefix_concat_iff.1 ht with h | h
  · exact h
  · exact absurd (List.isEmpty_iff.1 hempty) (hp chunk (h.subset hmem))

/-- What a run between a source and a sink gives, if the run on chunks gives `transcript`. -/
structure SameResult (config : Config) (pieces : List (List UInt8)) (t : Trail)
    (transcript : Transcript) (run : Except StreamFailure Engine × Traffic) : Prop where
  result : run.1 = .ok t.engine
  values : t.engine.values = transcript.values
  written : run.2.writes.toList.flatten = transcript.output
  writtenTotal : run.2.written = transcript.output.length
  taken : t.taken <+: pieces ++ [[]]
  gotten : run.2.gotten = t.taken.flatten.length
  gottenAll : config.rejectTrailing = true → run.2.gotten = pieces.flatten.length

/-- What it gives, if the run on chunks fails. -/
structure SameFailure (schema : Schema) (config : Config) (t : Trail) (reason : Failure)
    (run : Except StreamFailure Engine × Traffic) : Prop where
  result : run.1 = .error (.engine reason)
  performs : (new schema config).performAll t.requests = t.engine
  written : run.2.writes.toList.flatten = (new schema config).handedOut t.requests
  /-- The run on chunks drains once more, and that works. -/
  drains : ∃ last, t.engine.drainAll.1 = .ok last ∧
    (new schema config).handedOut (t.requests ++ [.drainAll]) = run.2.writes.toList.flatten ++ last
  patched : ∀ header ∈ unpatched schema config t.requests, run.2.written ≤ header.start

/-- All that was drained before the last run is in front of the headers that it leaves. -/
theorem handedOut_le_unpatched {requests : List Request}
    (live : ((new schema config).performAll requests).status.phase.terminal = false)
    {header : OpenHeader} (h : header ∈ unpatched schema config (requests ++ [.resume])) :
    ((new schema config).handedOut (requests ++ [.resume])).length ≤ header.start := by
  have hhistory := (History.none (new schema config)).performAll requests
  obtain ⟨m, k, -, hhanded⟩ :=
    hhistory.tells (.works { bytes := [] } rfl (.new schema config))
  have hdrained := (faithful k).drained
  rw [← hhanded] at hdrained
  have hhands : (new schema config).handedOut (requests ++ [.resume]) =
      (new schema config).handedOut requests := by
    rw [handedOut_append]
    simp [handedOut, perform, Answer.handed]
  rw [hhands]
  exact Nat.le_trans (Nat.le_of_eq hdrained) (drained_le_unpatched live h)

/-- Where input behind the root is rejected, an engine finishes only once it was told the end. -/
theorem closed_of_finished (h : Calls (new schema config) { bytes := [] } e src)
    (hs : e.status = .finished) (hr : config.rejectTrailing = true) : src.closed = true := by
  cases Holds.called h with
  | works live => simp [hs, Status.phase, Phase.terminal] at live
  | rests ends rules inv orderly stops f output =>
    rw [hs] at stops
    cases stops with
    | finished hstep =>
      obtain ⟨-, -, hc⟩ := Machine.checkTrailing_of_done hstep
      exact ((Machine.of_checkTrailing hc).2 hr).1

theorem writes_flatten (t : Trail) : (t.traffic {}).writes.toList.flatten = t.pieces.flatten := by
  simp [Trail.traffic, List.flatten_filter_not_isEmpty]

theorem sameResult_of_sound {pieces : List (List UInt8)} {t : Trail} {transcript : Transcript}
    (h : Trail.Sound schema config (new schema config) { bytes := [] } t)
    (hp : ∀ piece ∈ pieces, piece ≠ []) (ht : t.taken <+: pieces ++ [[]])
    (hr : t.result #[] = .ok transcript) :
    SameResult config pieces t transcript (t.outcome, t.traffic {}) := by
  have hs := Trail.stop_of_result hr
  rw [Trail.result, hs] at hr
  obtain rfl := Except.ok.inj hr
  refine ⟨by rw [Trail.outcome, hs], rfl, writes_flatten t, ?_, ht, t.gotten_eq, fun hreject => ?_⟩
  · rw [Traffic.written_eq, writes_flatten]
    rfl
  · have hclosed := closed_of_finished h.calls (h.finishes hs) hreject
    rw [t.gotten_eq, taken_of_closed hp ht (by simpa [fed] using hclosed)]
    simp

theorem sameFailure_of_sound {t : Trail} {reason : Failure}
    (h : Trail.Sound schema config (new schema config) { bytes := [] } t)
    (hn : t.stop ≠ .needInput) (hr : t.result #[] = .error reason) :
    SameFailure schema config t reason (t.outcome, t.traffic {}) := by
  obtain hs : t.stop = .failed reason := by
    unfold Trail.result at hr
    split at hr
    · rw [← Except.error.inj hr]
      assumption
    · simp at hr
    · exact absurd ‹_› hn
  obtain ⟨-, front, hfront, live⟩ := h.fails reason hs
  have hhands : (t.traffic {}).writes.toList.flatten = (new schema config).handedOut t.requests :=
    (writes_flatten t).trans h.hands.symm
  obtain ⟨m, k⟩ := h.calls.tells (.works { bytes := [] } rfl (.new schema config))
  have hdrain := (faithful k).drainsAll
  refine ⟨by rw [Trail.outcome, hs], h.performs, hhands, ⟨_, hdrain, ?_⟩, fun header hh => ?_⟩
  · rw [handedOut_append, h.performs, hhands, handedOut, handedOut, List.append_nil]
    congr 1
    show (Answer.ofBytes t.engine.drainAll.1).handed = _
    rw [hdrain]
    rfl
  · rw [Traffic.written_eq, hhands, hfront]
    rw [hfront] at hh
    exact handedOut_le_unpatched live hh

/-- The two loops agree. A run on pieces of input and a run that is given them by a source, with a sink
that takes all, succeed together, with the same output and values, and the source has then given the
pieces that were taken, all of them if trailing input is rejected. If they fail, they do so for the
same reason; what was written by then is what was drained before the last run, and ends in front of
every block that this run has left without its size. -/
theorem stream_agrees (schema : Schema) (config : Config) (pieces : List (List UInt8))
    (hp : ∀ piece ∈ pieces, piece ≠ []) :
    (∀ transcript, runChunks schema config pieces = .ok transcript →
      SameResult config pieces ((new schema config).trail (pieces ++ [[]])) transcript
        (runStream schema config { pieces })) ∧
    ∀ reason, runChunks schema config pieces = .error reason →
      SameFailure schema config ((new schema config).trail (pieces ++ [[]])) reason
        (runStream schema config { pieces }) := by
  have hfilter : pieces.filter (!·.isEmpty) = pieces :=
    List.filter_eq_self.2 fun piece hmem => by simp [hp piece hmem]
  have hsound := Trail.sound (.none (new schema config) { bytes := [] }) rfl (pieces ++ [[]])
  obtain ⟨hfirst, hall⟩ := taken_prefix (new schema config) (pieces ++ [[]])
  rw [runStream, relay_eq_trail _ rfl rfl, runChunks, feed_eq_trail, hfilter]
  generalize (new schema config).trail (pieces ++ [[]]) = t at *
  -- an engine that has taken them all was told the end, and asks no more
  have hstop : t.stop ≠ .needInput := fun hs => by
    have hopen := (hsound.asks hs).2
    rw [hall hs] at hopen
    simp [fed] at hopen
  exact ⟨fun _ => sameResult_of_sound hsound hp hfirst, fun _ => sameFailure_of_sound hsound hstop⟩

/-- A byte in a block goes through; a block that is left too early makes both runs fail. -/
theorem stream_agrees_boxed :
    (∃ transcript, transcript.output = [1, 7] ∧
      SameResult {} [[1], [7]] ((new boxed {}).trail [[1], [7], []]) transcript
        (runStream boxed {} { pieces := [[1], [7]] })) ∧
    SameFailure boxed {} ((new boxed {}).trail [[2, 0xAA], [0xBB], []])
      (.blockUnderrun (.ofByte 3) (.ofByte 2))
      (runStream boxed {} { pieces := [[2, 0xAA], [0xBB]] }) := by
  obtain ⟨transcript, h, hout⟩ := runChunks_of_meant boxed {} [[1], [7]]
    (show _ = Except.ok [1, 7] by decide +kernel)
  obtain ⟨x, hx, hname⟩ := runChunks_of_refused boxed {} [[2, 0xAA], [0xBB]]
    (show _ = Except.error (.blockUnderrun (.ofByte 3) (.ofByte 2)) by decide +kernel)
  obtain rfl : x = .blockUnderrun (.ofByte 3) (.ofByte 2) := by
    cases x <;> simp_all [Failure.uncounted]
  exact ⟨⟨transcript, hout,
      (stream_agrees boxed {} [[1], [7]] (by decide)).1 transcript h⟩,
    (stream_agrees boxed {} [[2, 0xAA], [0xBB]] (by decide)).2 _ hx⟩

end Transcoder.Engine

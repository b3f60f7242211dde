import Transcoder.Proofs.Engine.Feeding
import Transcoder.Proofs.Engine.Schedules
import Transcoder.Proofs.Machine.Visits
import Transcoder.Proofs.Schema.Height

/-!
# Runs on chunks and the meaning of a schema

An engine that is fed in chunks stays on the way of the machine with the whole input
(`Course.feed`), and that machine ends where the meaning of the schema says (`Machine.concludes`).

Results:
* `Engine.runChunks_means`: a run on chunks puts out what the schema means within the limit on
  nesting.
* `Engine.runChunks_eq`: under a limit that the schema keeps, that is what the schema means.
-/
namespace Transcoder

open Engine

variable {r : Rules} {i : List UInt8} {start : Machine} {s₀ s : Stage}

/-! ## Pumping -/

/-- What a stage is after its engine was pumped. -/
inductive Pumped (s : Stage) : Array (List UInt8) × Stop × Engine → Prop
  | needInput {pieces : Array (List UInt8)} (hs : s.engine.status = .waiting .input)
    (ha : s.asked = true) (hp : pieces.toList.flatten = s.handed) :
    Pumped s (pieces, .needInput, s.engine)
  | finished {pieces : Array (List UInt8)} (hs : s.engine.status = .finished)
    (hp : pieces.toList.flatten = s.handed) (ho : s.engine.pendingOutput = 0) :
    Pumped s (pieces, .finished, s.engine)
  | failed {pieces : Array (List UInt8)} {reason : Failure}
    (hs : s.engine.status = .failed reason) (hp : pieces.toList.flatten = s.handed) :
    Pumped s (pieces, .failed reason, s.engine)

/-- A run leaves the engine in the state that it reports. -/
theorem Course.resumed (c : Course r i start s) {o : Outcome} {e : Engine}
    (hr : s.engine.resume = (o, e)) : e.status = o.status ∧
      Course r i start { s with engine := e, asked := o = .waits .input } := by
  have hst := s.engine.status_resume
  have hc := c.resume
  rw [show (s.engine.perform .resume).2 = s.engine.resume.2 from rfl] at hc
  rw [hr] at hst hc
  exact ⟨hst, hc⟩

/-- And it can hand out all that is final. -/
theorem Course.round (c : Course r i start s) {o : Outcome} {e : Engine}
    (hr : s.engine.resume = (o, e)) : ∃ piece e', e.drainAll = (.ok piece, e') ∧
      e'.status = o.status ∧ e'.pendingOutput = 0 ∧ Course r i start
        { s with engine := e', asked := o = .waits .input, handed := s.handed ++ piece } := by
  obtain ⟨hst, hc⟩ := c.resumed hr
  obtain ⟨piece, e', hd, hc'⟩ := hc.handOut (Nat.le_refl _)
  have hst' : e'.status = e.status := by
    have h := e.status_handOut e.pendingOutput
    rwa [hd] at h
  exact ⟨piece, e', hd, hst'.trans hst, (pendingOutput_of_drainAll hd).1, hc'⟩

/-- To pump is to resume and to hand out, again and again. -/
theorem Course.pump (c : Course r i start s) (pieces : Array (List UInt8))
    (hp : pieces.toList.flatten = s.handed) : ∃ s', Course r i start s' ∧
      s'.came = s.came ∧ s'.closed = s.closed ∧ Pumped s' (s.engine.pump pieces) := by
  obtain ⟨e, he⟩ : ∃ e, e = s.engine := ⟨_, rfl⟩
  rw [← he]
  fun_induction Engine.pump e pieces generalizing s with
  | case1 e pieces reason e₁ hr =>
    subst he
    obtain ⟨hst, hc⟩ := c.resumed hr
    exact ⟨_, hc, rfl, rfl, .failed hst hp⟩
  | case2 e pieces e₁ hr piece e₂ hd =>
    subst he
    obtain ⟨piece', e', hd', hst, ho, hc⟩ := c.round hr
    obtain ⟨rfl, rfl⟩ : piece = piece' ∧ e₂ = e' := by simpa [hd] using hd'
    exact ⟨_, hc, rfl, rfl, .finished hst (by simp [hp]) ho⟩
  | case3 e pieces e₁ hr x e₂ hd =>
    subst he
    obtain ⟨piece', e', hd', -⟩ := c.round hr
    simp [hd] at hd'
  | case4 e pieces wait e₁ hr x e₂ hd =>
    subst he
    obtain ⟨piece', e', hd', -⟩ := c.round hr
    simp [hd] at hd'
  | case5 e pieces e₁ piece e₂ hd hr =>
    subst he
    obtain ⟨piece', e', hd', hst, -, hc⟩ := c.round hr
    obtain ⟨rfl, rfl⟩ : piece = piece' ∧ e₂ = e' := by simpa [hd] using hd'
    exact ⟨_, hc, rfl, rfl, .needInput hst (by simp) (by simp [hp])⟩
  | case6 e pieces wait e₁ hr piece e₂ hd hw _ _ ih =>
    subst he
    obtain ⟨piece', e', hd', -, -, hc⟩ := c.round hr
    obtain ⟨rfl, rfl⟩ : piece = piece' ∧ e₂ = e' := by simpa [hd] using hd'
    have := ih hc (by simp [hp]) rfl
    exact this

/-! ## Feeding -/

/-- What a stage is after its engine was fed. -/
inductive Fed (s : Stage) : Except Failure Transcript → Prop
  | ok {t : Transcript} (hs : s.engine.status = .finished) (ho : s.engine.pendingOutput = 0)
    (output : t.output = s.handed) (values : t.values = s.engine.values) : Fed s (.ok t)
  | error {x : Failure} (hs : s.engine.status = .failed x) : Fed s (.error x)

theorem Engine.supply_of_done {e : Engine} {bytes : List UInt8}
    (h : (e.perform (.supply bytes)).1 = .done) :
    e.supply bytes = (.ok (), (e.perform (.supply bytes)).2) := by
  simp only [perform] at h ⊢
  generalize e.supply bytes = res at h ⊢
  obtain ⟨_ | _, e'⟩ := res
  · simp [Answer.ofUnit] at h
  · rfl

/-- An engine that waits for input takes it. -/
theorem Course.takes (c : Course r i start s) (hs : s.engine.status = .waiting .input)
    (hc : s.closed = false) (bytes : List UInt8) :
    (s.engine.perform (.supply bytes)).1 = .done := by
  have ha : s.engine.status.phase.acceptsInput = true := by rw [hs]; rfl
  cases c with
  | rests ends => simp [hs, Status.phase, Phase.terminal] at ends
  | works live f => exact f.takes ha hc bytes

/-- An engine that knows the end does not ask for more. -/
theorem Course.asks_open (c : Course r i start s) (hs : s.engine.status = .waiting .input)
    (ha : s.asked = true) : s.closed = false := by
  cases c with
  | rests ends => simp [hs, Status.phase, Phase.terminal] at ends
  | works live f rules goes same came settled asked handed => exact (asked ha).1

/-- A stage whose engine is the one that a trail ends with, and nothing is left to drain. -/
structure Trailed (s s' : Stage) (t : Trail) : Prop where
  engine : t.engine = s'.engine
  handed : s'.handed = s.handed ++ t.pieces.flatten
  ends : t.stop = .finished ∧ s'.engine.status = .finished ∧ s'.engine.pendingOutput = 0 ∨
    ∃ reason, t.stop = .failed reason ∧ s'.engine.status = .failed reason

/-- An engine that was pumped is through, or `k` says what is to be done with what it asks for. -/
theorem Course.trailed (c : Course r i start s) (chunks : List (List UInt8))
    (k : ∀ s₁ pieces, Course r i start s₁ → s₁.came = s.came → s₁.closed = s.closed →
      s₁.engine.status = .waiting .input → s₁.asked = true →
      s₁.handed = s.handed ++ pieces.toList.flatten →
      s.engine.pump #[] = (pieces, .needInput, s₁.engine) →
      ∃ s', Course r i start s' ∧ Trailed s s' (s.engine.trail chunks)) :
    ∃ s', Course r i start s' ∧ Trailed s s' (s.engine.trail chunks) := by
  obtain ⟨s₁, c₁, hcame, hclosed, h₁⟩ := c.pump #[s.handed] (by simp)
  rw [pump_append] at h₁
  rcases hp : s.engine.pump #[] with ⟨pieces, stop, e₁⟩
  rw [hp] at h₁
  cases h₁ with
  | needInput hs ha hp₁ => exact k s₁ pieces c₁ hcame hclosed hs ha (by simp [← hp₁]) hp
  | finished hs hp₁ ho =>
    refine ⟨s₁, c₁, ?_⟩
    rw [trail_of_stop hp (by simp)]
    exact ⟨rfl, by simp [← hp₁, Trail.last], .inl ⟨rfl, hs, ho⟩⟩
  | failed hs hp₁ =>
    refine ⟨s₁, c₁, ?_⟩
    rw [trail_of_stop hp (by simp)]
    exact ⟨rfl, by simp [← hp₁, Trail.last], .inr ⟨_, rfl, hs⟩⟩

/-- What is handed out from a stage on that comes behind another. -/
theorem Trailed.before {s₁ s' : Stage} {t : Trail} {pieces : Array (List UInt8)}
    (h : Trailed s₁ s' t) (ho : s₁.handed = s.handed ++ pieces.toList.flatten)
    (chunk : List UInt8) : Trailed s s' (t.before pieces chunk) :=
  ⟨h.engine, by simp [h.handed, ho, Trail.before], h.ends⟩

/-- To feed is to pump and to supply what is left, chunk by chunk. -/
theorem Course.trail (c : Course r i start s) (ho : s.closed = false) (chunks : List (List UInt8))
    (hn : ∀ chunk ∈ chunks, chunk ≠ []) (hi : s.came ++ chunks.flatten = i) :
    ∃ s', Course r i start s' ∧ Trailed s s' (s.engine.trail (chunks ++ [[]])) := by
  induction chunks generalizing s with
  | nil =>
    refine c.trailed _ ?_
    intro s₁ pieces c₁ hcame hclosed hs ha hout hp
    have hd := c₁.takes hs (hclosed.trans ho) []
    have hall : s₁.came = i := by simpa [hcame] using hi
    rw [List.nil_append, trail_of_ask hp (supply_of_done hd)]
    -- the engine was told the end, so it is through when it was pumped
    have hc : (Engine.Request.supply []).closes = true := rfl
    obtain ⟨s', c', h⟩ := (c₁.close hc ha hall hd).trailed [] fun s₂ _ c₂ _ hclosed hs ha _ _ => by
      have := c₂.asks_open hs ha
      rw [hclosed] at this
      exact absurd this nofun
    exact ⟨s', c', h.before hout []⟩
  | cons chunk rest ih =>
    refine c.trailed _ ?_
    intro s₁ pieces c₁ hcame hclosed hs ha hout hp
    have hd := c₁.takes hs (hclosed.trans ho) chunk
    have hi₁ : s₁.came ++ chunk ++ rest.flatten = i := by simpa [hcame] using hi
    have hc : (Engine.Request.supply chunk).input ≠ [] := hn chunk List.mem_cons_self
    have c₂ := c₁.supply hc (hi₁ ▸ List.prefix_append ..) hd
    rw [List.cons_append, trail_of_ask hp (supply_of_done hd)]
    obtain ⟨s', c', h⟩ :=
      ih c₂ (hclosed.trans ho) (fun c hc => hn c (List.mem_cons_of_mem _ hc)) hi₁
    exact ⟨s', c', h.before hout chunk⟩

/-- What a run on chunks gives is what a trail tells. -/
theorem Course.feed (c : Course r i start s) (pieces : Array (List UInt8))
    (hp : pieces.toList.flatten = s.handed) (ho : s.closed = false) (chunks : List (List UInt8))
    (hn : ∀ chunk ∈ chunks, chunk ≠ []) (hi : s.came ++ chunks.flatten = i) :
    ∃ s', Course r i start s' ∧ Fed s' (s.engine.feed pieces (chunks ++ [[]])) := by
  obtain ⟨s', c', h⟩ := c.trail ho chunks hn hi
  refine ⟨s', c', ?_⟩
  rw [feed_eq_trail, Trail.result]
  obtain ⟨hstop, hs, hnone⟩ | ⟨reason, hstop, hs⟩ := h.ends
  · rw [hstop]
    refine .ok hs hnone ?_ (by rw [h.engine])
    rw [List.flatten_append, hp, h.handed]
  · rw [hstop]
    exact .error hs

/-! ## The machine with the whole input -/

/-- What the end of a machine has to do with the meaning of its schema. -/
inductive Machine.Means (r : Rules) (m : Machine) : Except Failure Piece → Status → Prop
  | finished {p : Piece} (output : m.output = p.output)
    (values : m.values.toList = if r.collect then p.values else [])
    (position : m.position = p.position) : Means r m (.ok p) .finished
  | failed (x : Failure) : Means r m (.error x) (.failed x)

/-- Behind the root, it depends on the rest of the input whether all went well. -/
theorem Machine.step_through (schema : Schema) (config : Config) (i : List UInt8) {m : Machine}
    (hp : m.pending = none) (ht : m.tasks = []) : Machine.step (.of schema config) (.whole i) m =
      if config.rejectTrailing ∧ m.position < i.length then
        .error (.trailingData (i.length - m.position)) m
      else .ok .done m := by
  rw [step_of_none hp ht, checkTrailing]
  cases hr : config.rejectTrailing with
  | false => simp [Rules.of, hr]
  | true =>
    have hlt : 0 < i.length - m.position ↔ m.position < i.length := by omega
    simp [Rules.of, hr, Source.whole, hlt]

/-- The machine comes to an end, and that is what the schema means within the limit. -/
theorem Machine.concludes (schema : Schema) (config : Config) (i : List UInt8) :
    ∃ n m m' status, Machine.Goes (.of schema config) (.whole i) n (.new schema) m ∧
      m.Concludes (.of schema config) i m' status ∧
      m'.Means (.of schema config) (schema.transcodeAllWithin config i) status := by
  have hv := Machine.performs_visit (.of schema config) i 0 schema.root { tasks := [] } ⟨rfl, rfl⟩
    rfl
  have hroot : (Rules.of schema config).schema.transcodeWithin (Rules.of schema config).framing i
      (Rules.of schema config).maxNesting 0 schema.root (Machine.place { tasks := [] }) =
        schema.transcodeWithin config.framing i config.maxNesting 0 schema.root {} := rfl
  rw [hroot] at hv
  unfold Schema.transcodeAllWithin
  cases hp : schema.transcodeWithin config.framing i config.maxNesting 0 schema.root {} with
  | error x =>
    rw [hp] at hv
    obtain ⟨n, m, m', hg, hs⟩ := hv
    exact ⟨n, m, m', _, hg, .failed hs rfl, .failed x⟩
  | ok p =>
    rw [hp] at hv
    obtain ⟨n, hg⟩ := hv
    obtain ⟨m, hm⟩ : ∃ m, m = Machine.took (.of schema config) { tasks := [] } p := ⟨_, rfl⟩
    have hs := Machine.step_through schema config i (m := m) (hm ▸ rfl) (hm ▸ rfl)
    rw [show m.position = p.position from hm ▸ rfl] at hs
    by_cases htrail : config.rejectTrailing ∧ p.position < i.length
    · rw [if_pos htrail] at hs
      simp only [if_pos htrail]
      exact ⟨n, m, m, _, hm ▸ hg, .failed hs rfl, .failed _⟩
    · rw [if_neg htrail] at hs
      simp only [if_neg htrail]
      refine ⟨n, m, m, _, hm ▸ hg, .finished hs (hm ▸ rfl), .finished (hm ▸ rfl) ?_ (hm ▸ rfl)⟩
      rw [hm, Machine.took]
      split <;> simp

/-! ## Runs on chunks -/

/-- A run on chunks puts out what the schema means for all of them within the limit, or fails as it
says. -/
theorem Engine.runChunks_means (schema : Schema) (config : Config) (chunks : List (List UInt8)) :
    ((runChunks schema config chunks).map fun t => (t.output, t.values.toList)).mapError
        Failure.uncounted =
      ((schema.transcodeAllWithin config chunks.flatten).map fun p =>
        (p.output, if config.collect then p.values else [])).mapError Failure.uncounted := by
  obtain ⟨n, m, m', status, hg, hc, hm⟩ := Machine.concludes schema config chunks.flatten
  obtain ⟨s, c, hf⟩ := (Course.new schema config none chunks.flatten).feed #[] rfl rfl
    (chunks.filter (!·.isEmpty)) (by simp) List.flatten_filter_not_isEmpty
  have hf : Fed s (runChunks schema config chunks) := hf
  generalize runChunks schema config chunks = res at hf
  generalize schema.transcodeAllWithin config chunks.flatten = meant at hm
  cases c with
  | works live =>
    cases hf with
    | ok hs => simp [hs, Status.phase, Phase.terminal] at live
    | error hs => simp [hs, Status.phase, Phase.terminal] at live
  | rests ends f goes concludes handed =>
    obtain ⟨-, rfl⟩ := goes.meet hg concludes.stops hc.stops
    obtain ⟨rfl, hst⟩ := concludes.meet hc
    cases hf with
    | ok hs ho output values =>
      rw [hs] at concludes hst
      cases hm with
      | failed => simp [Status.uncounted] at hst
      | @finished p hout hvalues =>
        obtain ⟨last, hl, hlast⟩ := f.drainAll concludes.tasks
        have hnone : last = [] := by
          rw [drainAll, ho] at hl
          exact (Except.ok.inj hl).symm
        rw [hnone, List.append_nil] at hlast
        rw [Except.map, Except.map, output, handed, hlast, hout, values, f.spent.values, hvalues]
        rfl
    | error hs =>
      rw [hs] at hst
      cases hm with
      | finished => simp [Status.uncounted] at hst
      | failed y =>
        simp only [Status.uncounted, Status.failed.injEq] at hst
        exact congrArg Except.error hst

/-- What a schema means can be computed and compared. -/
instance decEqExcept {ε α : Type} [DecidableEq ε] [DecidableEq α] : DecidableEq (Except ε α)
  | .ok a, .ok b => decidable_of_iff (a = b) (by simp)
  | .error x, .error y => decidable_of_iff (x = y) (by simp)
  | .ok _, .error _ | .error _, .ok _ => isFalse (by simp)

/-- What the schema means to put out, a run on chunks puts out. -/
theorem Engine.runChunks_of_meant (schema : Schema) (config : Config) (chunks : List (List UInt8))
    {output : List UInt8}
    (h : (schema.transcodeAllWithin config chunks.flatten).map Piece.output = .ok output) :
    ∃ t, runChunks schema config chunks = .ok t ∧ t.output = output := by
  have hmeant := runChunks_means schema config chunks
  cases hp : schema.transcodeAllWithin config chunks.flatten with
  | error x => simp [hp, Except.map] at h
  | ok p =>
    rw [hp] at hmeant h
    cases hres : runChunks schema config chunks with
    | ok t =>
      rw [hres] at hmeant
      exact ⟨t, rfl, (congrArg Prod.fst (Except.ok.inj hmeant)).trans (Except.ok.inj h)⟩
    | error x =>
      rw [hres] at hmeant
      have hmeant : Except.error x.uncounted = Except.ok _ := hmeant
      simp at hmeant

/-- Where it means to fail, a run on chunks fails. -/
theorem Engine.runChunks_of_refused (schema : Schema) (config : Config)
    (chunks : List (List UInt8)) {x : Failure}
    (h : (schema.transcodeAllWithin config chunks.flatten).map Piece.output = .error x) :
    ∃ y, runChunks schema config chunks = .error y ∧ y.uncounted = x.uncounted := by
  have hmeant := runChunks_means schema config chunks
  cases hp : schema.transcodeAllWithin config chunks.flatten with
  | ok p => simp [hp, Except.map] at h
  | error x' =>
    rw [hp] at hmeant h
    obtain rfl := Except.error.inj h
    cases hres : runChunks schema config chunks with
    | ok t =>
      rw [hres] at hmeant
      have hmeant : Except.ok _ = Except.error x'.uncounted := hmeant
      simp at hmeant
    | error y =>
      rw [hres] at hmeant
      exact ⟨y, rfl, Except.error.inj hmeant⟩

/-- A run on chunks puts out what the schema means for all of them, or fails as it says. -/
theorem Engine.runChunks_eq (schema : Schema) (config : Config) (chunks : List (List UInt8))
    (h : schema.depth ≤ config.maxNesting) :
    ((runChunks schema config chunks).map fun t => (t.output, t.values.toList)).mapError
        Failure.uncounted =
      ((schema.transcodeAll config chunks.flatten).map fun p =>
        (p.output, if config.collect then p.values else [])).mapError Failure.uncounted := by
  rw [← schema.transcodeAllWithin_of_depth config chunks.flatten h]
  exact runChunks_means schema config chunks

/-- A block of bytes. -/
def Schema.bytes : Schema :=
  ⟨#[.value .uint8, .untilEof 0, .block 1], 2, Schema.wellFormed_of_fault? (by decide)⟩

/-- The size of a block has a byte more than it needs, and comes byte by byte. -/
theorem Engine.runChunks_bytes : Schema.bytes.depth ≤ Config.maxNesting {} ∧
    (((runChunks .bytes { collect := true } [[0x82], [], [0x00], [7, 8]]).map fun t =>
        (t.output, t.values.toList)).mapError Failure.uncounted).toOption =
      some ([2, 7, 8], [⟨.uint8, 7, 2⟩, ⟨.uint8, 8, 3⟩]) := by
  have h : Schema.bytes.depth ≤ Config.maxNesting {} := by decide +kernel
  refine ⟨h, ?_⟩
  rw [runChunks_eq .bytes { collect := true } [[0x82], [], [0x00], [7, 8]] h]
  decide +kernel

end Transcoder

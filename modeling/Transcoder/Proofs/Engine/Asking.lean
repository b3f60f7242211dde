import Transcoder.Proofs.Engine.Invariants
import Transcoder.Proofs.Engine.Recursion

/-!
# When an engine asks for input

An engine asks for input when a value is cut off, at the end of a loop up to the end of the input,
and behind the root, if nothing may follow it. Each of the three has come to the last byte that was
supplied, and none of them is the end of the input.

Results:
* `Machine.open_of_needInput`: the step that asks, wherever it is.
* `Engine.Holds.asks`: the engine that asks, in all its states.
* `Engine.asks_soundly`: the same, and when chunks are fed to it.
-/
namespace Transcoder

/-! ## The step that asks -/

namespace Machine

variable {r : Rules} {src : Source} {m m' : Machine}

theorem open_of_repeatToEnd {id body : Nat} {last : Option Position}
    (h : repeatToEnd r src id body last m = .ok .needInput m') :
    src.closed = false ∧ src.bytes.length ≤ m'.position := by
  unfold repeatToEnd at h
  split at h
  · simp at h
  · rename_i hstop
    split at h
    · simp at h
    · split at h
      · rename_i hend
        obtain ⟨-, hm⟩ := of_answer h
        simp only [putBack, EStateM.Result.ok.injEq, true_and] at hm
        have hle : src.bytes.length ≤ m.position := by omega
        refine ⟨?_, hm ▸ hle⟩
        -- an input that had ended there would have ended the loop
        apply Bool.eq_false_iff.2
        intro hc
        apply hstop
        rw [hend.2, Source.stop, List.headD_nil, Source.endPosition, hc, if_pos rfl]
        refine Nat.mul_le_mul_left 8 ?_
        split <;> omega
      · change (do pushTask r (.visit body); return .advanced : Turn Progress) _ = _ at h
        exact absurd (of_answer h).1 (by decide)

/-- Whichever step asks for input, all of it was read, and more may come. -/
theorem open_of_needInput (h : step r src m = .ok .needInput m') :
    src.closed = false ∧ src.bytes.length ≤ m'.position := by
  cases hp : m.pending with
  | some p =>
    rw [step_of_pending hp, readOn] at h
    split at h
    · exact absurd (of_answer h).1 (by decide)
    · rename_i hread
      split at h
      · rename_i hx
        simp only [EStateM.Result.ok.injEq, true_and] at h
        rw [← h]
        exact Source.open_of_read hread hx
      · simp at h
  | none =>
    cases ht : m.tasks with
    | nil =>
      rw [step_of_none hp ht, checkTrailing] at h
      split at h
      · simp at h
      · split at h
        · simp at h
        · split at h
          · simp at h
          · simp only [EStateM.Result.ok.injEq, true_and] at h
            exact ⟨by simpa using ‹¬src.closed = true›, h ▸ by omega⟩
    | cons task rest =>
      rw [step_of_task hp ht] at h
      cases task with
      | visit | sequence | loop | block => exact absurd (of_answer h).1 (by decide)
      | untilEof id body last => exact open_of_repeatToEnd h

end Machine

/-! ## The engine that asks -/

namespace Engine

variable {r : Rules} {src src' : Source} {e e' : Engine}

theorem invariant_true (r : Rules) : Machine.Invariant r fun _ => True :=
  ⟨fun _ _ _ => trivial, fun _ _ _ => trivial⟩

/-- An engine that asks for input has read all that it was told of, and knows of no end. -/
theorem Holds.asks (h : Holds r (fun _ => True) src e) (hr : e.resume.1 = .waits .input) :
    e.resume.2.reader.address = src.bytes.length ∧
      e.resume.2.reader.available e.resume.2.input = 0 ∧ src.closed = false ∧
      e.resume.2.input.eof = none ∧ e.resume.2.status = .waiting .input := by
  have hst : e.resume.2.status = .waiting .input := by rw [status_resume, hr]; rfl
  cases ht : e.status.phase.terminal with
  | true =>
    rw [resume_of_terminal ht] at hst
    simp [hst, Status.phase, Phase.terminal] at ht
  | false =>
    obtain ⟨m, hends, -⟩ := h.of_resume (invariant_true r) ht
    rw [hr] at hends
    cases hends with
    | pressed hw => exact absurd rfl hw
    | @starved m' _ hs f =>
      obtain ⟨hc, hle⟩ := Machine.open_of_needInput hs
      have hpos := f.tied.position
      have hread := f.tied.input.le
      refine ⟨by omega, ?_, hc, ?_, hst⟩
      · rw [f.tied.available]
        omega
      · rw [f.tied.input.eof, Source.eof, hc, if_neg Bool.false_ne_true]

/-- The end of the input is not forgotten. -/
theorem told_closed (hc : src.closed = true) (request : Request) (answer : Answer) :
    (src.told request answer).closed = true := by
  cases answer <;> simp [Source.told, hc]

theorem Calls.closed (h : Calls e src e' src') (hc : src.closed = true) : src'.closed = true := by
  induction h with
  | none => exact hc
  | more _ request ih => exact told_closed (ih hc) request _

/-- To pump is to call, until the engine asks. -/
theorem Calls.pump {a : Engine} {s : Source} {pieces pieces' : Array (List UInt8)}
    (h : Calls a s e src) (hp : e.pump pieces = (pieces', .needInput, e')) :
    Calls a s e' src ∧ e'.status = .waiting .input ∧
      ∃ asking, Calls a s asking src ∧ asking.resume.1 = .waits .input := by
  have told {e : Engine} {src : Source} {q : Request} (h : Calls a s e src) (hi : q.input = [])
      (hc : q.closes = false) : Calls a s (e.perform q).2 src := by
    have h' := h.more q
    rwa [told_of_input hi hc] at h'
  fun_induction Engine.pump e pieces with
  | case1 | case2 | case3 | case4 => simp at hp
  | case5 e pieces e₁ piece e₂ hd hr =>
    simp only [Prod.mk.injEq, true_and] at hp
    obtain ⟨-, rfl⟩ := hp
    have hask : e.resume.1 = .waits .input := by rw [hr]
    have he : e₁ = (e.perform .resume).2 := by rw [perform, hr]; rfl
    have he₂ : e₂ = (e₁.perform .drainAll).2 := by rw [perform, hd]; rfl
    have hst := e₁.status_handOut e₁.pendingOutput
    have hres := e.status_resume
    rw [← drainAll, hd] at hst
    rw [hr] at hres
    exact ⟨he₂ ▸ told (he ▸ told h rfl rfl) rfl rfl, hst.trans hres, e, h, hask⟩
  | case6 e pieces wait e₁ hr piece e₂ hd hw _ _ ih =>
    have he : e₁ = (e.perform .resume).2 := by rw [perform, hr]; rfl
    have he₂ : e₂ = (e₁.perform .drainAll).2 := by rw [perform, hd]; rfl
    exact ih (he₂ ▸ told (he ▸ told h rfl rfl) rfl rfl) hp

/-- The moments of a run on chunks when the engine asks: the output so far, the engine, and the
chunks that were not supplied yet. -/
inductive Asks (schema : Schema) (config : Config) (chunks : List (List UInt8)) :
    Array (List UInt8) → Engine → List (List UInt8) → Prop
  | first {pieces : Array (List UInt8)} {e : Engine}
    (h : (new schema config).pump #[] = (pieces, .needInput, e)) :
    Asks schema config chunks pieces e (chunks.filter (!·.isEmpty) ++ [[]])
  | next {pieces pieces' : Array (List UInt8)} {e e₁ e' : Engine} {chunk : List UInt8}
    {rest : List (List UInt8)} (h : Asks schema config chunks pieces e (chunk :: rest))
    (hs : e.supply chunk = (.ok (), e₁)) (hp : e₁.pump pieces = (pieces', .needInput, e')) :
    Asks schema config chunks pieces' e' rest

/-- Where a run on chunks stands when the engine asks: the chunks that are left end with the end of
the input, and the run goes on once the next one is supplied. -/
structure Awaits (schema : Schema) (config : Config) (chunks : List (List UInt8))
    (pieces : Array (List UInt8)) (e : Engine) (rest : List (List UInt8)) : Prop where
  calls : ∃ src, Calls (new schema config) { bytes := [] } e src ∧ src.closed = false
  waits : e.status = .waiting .input
  left : ∃ front, rest = front ++ [[]] ∧ ∀ chunk ∈ front, chunk ≠ []
  runs : ∀ {chunk rest' e₁}, rest = chunk :: rest' → e.supply chunk = (.ok (), e₁) →
    runChunks schema config chunks = e₁.feed pieces rest'

variable {schema : Schema} {config : Config} {chunks rest : List (List UInt8)}
  {pieces : Array (List UInt8)}

theorem Holds.called (h : Calls (Engine.new schema config) { bytes := [] } e src) :
    Holds (.of schema config) (fun _ => True) src e :=
  h.holds (invariant_true _) (.new schema config trivial)

/-- The engine that waits takes what comes next. -/
theorem Awaits.takes (h : Awaits schema config chunks pieces e rest) (chunk : List UInt8) :
    (e.perform (.supply chunk)).1 = .done := by
  obtain ⟨src, hcalls, hc⟩ := h.calls
  cases Holds.called hcalls with
  | works live rules f => exact f.takes (by rw [h.waits]; rfl) hc chunk
  | rests ends => simp [h.waits, Status.phase, Phase.terminal] at ends

theorem feed_of_supply {e e₁ e₂ : Engine} {pieces pieces₁ : Array (List UInt8)}
    {chunk : List UInt8} {rest : List (List UInt8)}
    (h : e.pump pieces = (pieces₁, .needInput, e₁)) (hs : e₁.supply chunk = (.ok (), e₂)) :
    e.feed pieces (chunk :: rest) = e₂.feed pieces₁ rest := by
  rw [feed.eq_def, h]
  simp only [hs]

/-- Whenever the engine asks, it waits for what is left. -/
theorem Asks.awaits (h : Asks schema config chunks pieces e rest) :
    Awaits schema config chunks pieces e rest := by
  induction h with
  | @first pieces e hp =>
    obtain ⟨hcalls, hw, asking, hask, hr⟩ := (Calls.none _ _).pump hp
    refine ⟨⟨_, hcalls, ((Holds.called hask).asks hr).2.2.1⟩, hw, ⟨_, rfl, by simp⟩, ?_⟩
    intro chunk rest' e₁ hrest hs
    rw [runChunks, hrest]
    exact feed_of_supply hp hs
  | @next pieces pieces' e e₁ e' chunk rest h hs hp ih =>
    obtain ⟨src, hcalls, -⟩ := ih.calls
    have he : e₁ = (e.perform (.supply chunk)).2 := by rw [perform, hs]; rfl
    have hcalls₁ := he ▸ hcalls.more (.supply chunk)
    rw [ih.takes] at hcalls₁
    obtain ⟨hcalls', hw, asking, hask, hr⟩ := hcalls₁.pump hp
    have hopen := ((Holds.called hask).asks hr).2.2.1
    refine ⟨⟨_, hcalls', hopen⟩, hw, ?_, ?_⟩
    · -- the end of the input is not among the chunks that were supplied
      obtain ⟨front, hfront, hne⟩ := ih.left
      cases front with
      | nil =>
        obtain ⟨rfl, -⟩ := List.cons.inj hfront
        simp [Source.told, Request.closes] at hopen
      | cons c front =>
        obtain ⟨rfl, rfl⟩ := List.cons.inj hfront
        exact ⟨front, rfl, fun c hc => hne c (List.mem_cons_of_mem _ hc)⟩
    · intro chunk' rest' e₂ hrest hs'
      rw [ih.runs rfl hs, hrest]
      exact feed_of_supply hp hs'

/-- Input is asked for soundly. Whatever was called before, an engine that asks for input has read
all that it was told of, and knows of no end; once it was told the end, it does not ask again. While
chunks are fed to it, there is something left to supply whenever it asks, be it the end, and it takes
that. -/
theorem asks_soundly (schema : Schema) (config : Config) :
    (∀ e src, Calls (new schema config) { bytes := [] } e src → e.resume.1 = .waits .input →
      e.resume.2.reader.address = src.bytes.length ∧
        e.resume.2.reader.available e.resume.2.input = 0 ∧ src.closed = false ∧
        e.resume.2.input.eof = none) ∧
    (∀ e src request e' src', Calls (new schema config) { bytes := [] } e src →
      request.closes = true → (e.perform request).1 = .done →
      Calls (e.perform request).2 (src.told request .done) e' src' →
        e'.resume.1 ≠ .waits .input) ∧
    ∀ chunks pieces e rest, Asks schema config chunks pieces e rest →
      ∃ chunk rest' e', rest = chunk :: rest' ∧ e.supply chunk = (.ok (), e') ∧
        runChunks schema config chunks = e'.feed pieces rest' := by
  refine ⟨fun e src h hr => ?_, fun e src request e' src' h hq hd h' hr => ?_,
    fun chunks pieces e rest h => ?_⟩
  · obtain ⟨h1, h2, h3, h4, -⟩ := (Holds.called h).asks hr
    exact ⟨h1, h2, h3, h4⟩
  · have hend : src'.closed = true := h'.closed (by simp [Source.told, hq])
    have hall := (Holds.called h).perform (invariant_true _) request
    rw [hd] at hall
    have := ((h'.holds (invariant_true (.of schema config)) hall).asks hr).2.2.1
    simp [hend] at this
  · have ha := h.awaits
    obtain ⟨front, hfront, -⟩ := ha.left
    obtain ⟨chunk, rest', hrest⟩ : ∃ chunk rest', rest = chunk :: rest' := by
      cases front with
      | nil => exact ⟨_, _, hfront⟩
      | cons => exact ⟨_, _, hfront⟩
    have hs := supply_of_done (ha.takes chunk)
    exact ⟨chunk, rest', _, hrest, hs, ha.runs hrest hs⟩

theorem pump_of_asks (pieces : Array (List UInt8)) (hr : e.resume.1 = .waits .input)
    (h0 : e.resume.2.pendingOutput = 0) :
    e.pump pieces = (pieces.push [], .needInput, e.resume.2) := by
  have hd : e.resume.2.drainAll = (.ok [], e.resume.2) := by rw [drainAll, h0]; rfl
  rw [pump.eq_def]
  split
  · rename_i hp
    simp [hp] at hr
  · rename_i hp
    simp [hp] at hr
  · rename_i hp
    rw [hp] at hr hd
    obtain rfl := Outcome.waits.inj hr
    split
    · rename_i hx
      simp [hx] at hd
    · rename_i hx
      rw [hx] at hd
      simp only [Prod.mk.injEq, Except.ok.injEq] at hd
      rw [dif_pos rfl, hd.1, hd.2, hp]

/-- An engine for two bytes asks after the first of them, not again once it was told the end, and
in a run on chunks it asks for the first of them. -/
theorem asks_soundly_twoBytes :
    let e := ((new .twoBytes { pageSize := 4 }).perform (.supply [1])).2
    let closed := (e.resume.2.perform .close).2
    e.resume.1 = .waits .input ∧ e.resume.2.reader.address = 1 ∧
      closed.resume.1 ≠ .waits .input ∧
      ∃ e e' : Engine, e.supply [1] = (.ok (), e') ∧
        runChunks .twoBytes { pageSize := 4 } [[1]] = e'.feed #[[]] [[]] := by
  intro e closed
  obtain ⟨h1, h2, h3⟩ := asks_soundly .twoBytes { pageSize := 4 }
  have hcalls : Calls (new .twoBytes { pageSize := 4 }) { bytes := [] } e { bytes := [1] } :=
    (Calls.none _ _).more (.supply [1])
  have hr : e.resume.1 = .waits .input := of_runWithin (f := (·.1)) 9 rfl (by decide +kernel)
  have hok : e.resume.2.close.1.toOption = some () :=
    of_runWithin (f := (·.2.close.1.toOption)) 9 rfl (by decide +kernel)
  have hd : (e.resume.2.perform .close).1 = .done := by
    show Answer.ofUnit e.resume.2.close.1 = .done
    cases hc : e.resume.2.close.1 with
    | ok => rfl
    | error => simp [hc, Except.toOption] at hok
  have hnew : (new .twoBytes { pageSize := 4 }).resume.1 = .waits .input ∧
      (new .twoBytes { pageSize := 4 }).resume.2.pendingOutput = 0 :=
    ⟨of_runWithin (f := (·.1)) 9 rfl (by decide +kernel),
      of_runWithin (f := (·.2.pendingOutput)) 9 rfl (by decide +kernel)⟩
  refine ⟨hr, (h1 e _ hcalls hr).1, ?_, ?_⟩
  · exact h2 _ { bytes := [1] } .close _ _ (hcalls.more .resume) rfl hd (.none _ _)
  · obtain ⟨chunk, rest', e', hrest, hs, hf⟩ :=
      h3 [[1]] _ _ _ (.first (pump_of_asks #[] hnew.1 hnew.2))
    obtain ⟨rfl, rfl⟩ := List.cons.inj hrest
    exact ⟨_, e', hs, hf⟩

end Engine

end Transcoder

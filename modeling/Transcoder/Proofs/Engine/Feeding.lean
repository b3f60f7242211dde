import Transcoder.Engine.Stream

/-!
# What happens while an engine is fed

An engine that is fed chunk by chunk makes the same requests whoever feeds it. `trail` records them,
and what came of them; a run on chunks and a run between a source and a sink both read their results
off that record.

Results:
* `feed_eq_trail`: the result of a run on chunks.
* `relay_eq_trail`: the result and the traffic of a run between a source and a sink that never fail.
-/
namespace Transcoder

theorem Traffic.written_eq (t : Traffic) : t.written = t.writes.toList.flatten.length := by
  rw [Traffic.written, ← Array.foldl_toList, List.length_flatten, List.sum_eq_foldl,
    List.foldl_map]

/-- A sink with room for all takes all pieces but empty ones. -/
theorem Traffic.write_eq (t : Traffic) (pieces : List (List UInt8)) : t.write none pieces =
    (true, { t with writes := t.writes ++ (pieces.filter (!·.isEmpty)).toArray }) := by
  induction pieces generalizing t with
  | nil => simp [Traffic.write]
  | cons piece rest ih =>
    rw [Traffic.write]
    by_cases hp : piece.isEmpty
    · rw [if_pos hp, ih, List.filter_cons_of_neg (by simpa using hp)]
    · rw [if_neg hp, if_neg (by simp), ih, List.filter_cons_of_pos (by simpa using hp)]
      simp

namespace Engine

/-- What happens while an engine is pumped and fed. -/
structure Trail where
  /-- What is asked of the engine. -/
  requests : List Request
  /-- What each drain gives. -/
  pieces : List (List UInt8)
  /-- The chunks that the engine is fed. -/
  taken : List (List UInt8)
  stop : Stop
  engine : Engine

/-- Each resume is followed by a drain, but one that fails ends it all. -/
def pumpRequests (rounds : Nat) : Stop → List Request
  | .failed _ => (List.replicate rounds [.resume, .drainAll]).flatten ++ [.resume]
  | _ => (List.replicate rounds [.resume, .drainAll]).flatten

namespace Trail

/-- The engine is not fed any more. -/
def last : Array (List UInt8) × Stop × Engine → Trail
  | (pieces, stop, e) => ⟨pumpRequests pieces.size stop, pieces.toList, [], stop, e⟩

/-- The engine has asked for `chunk`, and then goes on. -/
def before (pieces : Array (List UInt8)) (chunk : List UInt8) (t : Trail) : Trail where
  requests := pumpRequests pieces.size .needInput ++ .supply chunk :: t.requests
  pieces := pieces.toList ++ t.pieces
  taken := chunk :: t.taken
  stop := t.stop
  engine := t.engine

end Trail

/-- What happens while an engine is pumped, and is fed the next of `chunks` whenever it asks. -/
def trail (e : Engine) : List (List UInt8) → Trail
  | [] => .last (e.pump #[])
  | chunk :: rest =>
    match e.pump #[] with
    | (pieces, .needInput, e) =>
      match e.supply chunk with
      | (.ok (), e) => (trail e rest).before pieces chunk
      | (.error reason, e) => Trail.before pieces chunk ⟨[], [], [], .failed reason, e⟩
    | stopped => .last stopped

/-- What a run on chunks gives, with `pieces` put out before. -/
def Trail.result (t : Trail) (pieces : Array (List UInt8)) : Except Failure Transcript :=
  match t.stop with
  | .failed reason => .error reason
  | .finished => .ok ⟨(pieces.toList ++ t.pieces).flatten, t.engine.values,
      pieces.size + t.pieces.length⟩
  | .needInput => .error (.unexpectedEnd t.engine.reader.address)

theorem Trail.stop_of_result {t : Trail} {pieces : Array (List UInt8)} {transcript : Transcript}
    (h : t.result pieces = .ok transcript) : t.stop = .finished := by
  unfold result at h
  split at h <;> simp_all

variable {e e₁ e₂ : Engine} {pieces : Array (List UInt8)} {chunk : List UInt8}
  {rest : List (List UInt8)} {stop : Stop}

/-- One round of a pump. -/
theorem pump_eq (e : Engine) (pieces : Array (List UInt8)) : e.pump pieces =
    match e.resume with
    | (.failed reason, e) => (pieces, .failed reason, e)
    | (outcome, e) =>
      match e.drainAll with
      | (.error reason, e) => (pieces, .failed reason, e)
      | (.ok piece, e) =>
        match outcome with
        | .waits .input => (pieces.push piece, .needInput, e)
        | .waits _ => e.pump (pieces.push piece)
        | _ => (pieces.push piece, .finished, e) := by
  fun_cases pump e pieces with
  | case1 reason e₁ hr => simp only [hr]
  | case2 e₁ hr piece e₂ hd => simp only [hr, hd]
  | case3 e₁ hr x e₂ hd => simp only [hr, hd]
  | case4 wait e₁ hr x e₂ hd => simp only [hr, hd]
  | case5 e₁ piece e₂ hd hr => simp only [hr, hd]
  | case6 wait e₁ hr piece e₂ hd hw =>
    cases wait with
    | input => exact absurd rfl hw
    | outputSpace | outputReady => simp only [hr, hd]

/-- What was drained before is nothing to a pump. -/
theorem pump_append (e : Engine) (pieces : Array (List UInt8)) : e.pump pieces =
    (pieces ++ (e.pump #[]).1, (e.pump #[]).2) := by
  suffices h : ∀ front back, e.pump (front ++ back) =
      (front ++ (e.pump back).1, (e.pump back).2) by
    simpa using h pieces #[]
  intro front back
  fun_induction pump e back with
  | case1 e back reason e₁ hr => simp only [pump_eq e, hr]
  | case2 e back e₁ hr piece e₂ hd => simp only [pump_eq e, hr, hd, Array.push_append]
  | case3 e back e₁ hr x e₂ hd => simp only [pump_eq e, hr, hd]
  | case4 e back wait e₁ hr x e₂ hd => simp only [pump_eq e, hr, hd]
  | case5 e back e₁ piece e₂ hd hr => simp only [pump_eq e, hr, hd, Array.push_append]
  | case6 e back wait e₁ hr piece e₂ hd hw _ _ ih =>
    rw [← ih]
    cases wait with
    | input => exact absurd rfl hw
    | outputSpace | outputReady => simp only [pump_eq e, hr, hd, Array.push_append]

/-- An engine that does not ask is not fed. -/
theorem trail_of_stop {chunks : List (List UInt8)} (h : e.pump #[] = (pieces, stop, e₁))
    (hs : stop ≠ .needInput) : e.trail chunks = .last (pieces, stop, e₁) := by
  cases chunks with
  | nil => rw [trail, h]
  | cons chunk rest =>
    rw [trail, h]
    cases stop with
    | needInput => exact absurd rfl hs
    | finished | failed => rfl

/-- One that asks goes on with the next chunk. -/
theorem trail_of_ask (h : e.pump #[] = (pieces, .needInput, e₁))
    (hs : e₁.supply chunk = (.ok (), e₂)) :
    e.trail (chunk :: rest) = (trail e₂ rest).before pieces chunk := by
  rw [trail, h]
  simp only [hs]

theorem trail_of_refused {reason : Failure} (h : e.pump #[] = (pieces, .needInput, e₁))
    (hs : e₁.supply chunk = (.error reason, e₂)) : e.trail (chunk :: rest) =
      Trail.before pieces chunk ⟨[], [], [], .failed reason, e₂⟩ := by
  rw [trail, h]
  simp only [hs]

/-- What a run on chunks gives is told by its trail. -/
theorem feed_eq_trail (e : Engine) (pieces : Array (List UInt8)) (chunks : List (List UInt8)) :
    e.feed pieces chunks = (e.trail chunks).result pieces := by
  induction chunks generalizing e pieces with
  | nil =>
    rw [feed.eq_def, pump_append, trail]
    rcases e.pump #[] with ⟨out, stop, e₁⟩
    cases stop <;> simp [Trail.last, Trail.result]
  | cons chunk rest ih =>
    rw [feed.eq_def, pump_append]
    rcases hp : e.pump #[] with ⟨out, stop, e₁⟩
    by_cases hs : stop = .needInput
    · subst hs
      rcases hs : e₁.supply chunk with ⟨_ | _, e₂⟩
      · rw [trail_of_refused hp hs]
        simp only [hs]
        rfl
      · rw [trail_of_ask hp hs]
        simp only [hs, ih]
        simp [Trail.result, Trail.before, Nat.add_assoc]
    · rw [trail_of_stop hp hs]
      cases stop with
      | needInput => exact absurd rfl hs
      | finished | failed => simp [Trail.last, Trail.result]

/-! ## Between a source and a sink -/

/-- What a run between a source and a sink gives. -/
def Trail.outcome (t : Trail) : Except StreamFailure Engine :=
  match t.stop with
  | .failed reason => .error (.engine reason)
  | .finished => .ok t.engine
  | .needInput => .error (.engine (.unexpectedEnd t.engine.reader.address))

/-- What crosses the two ends, and what crossed them before. -/
def Trail.traffic (t : Trail) (traffic : Traffic) : Traffic where
  reads := traffic.reads ++ (t.taken.map List.length).toArray
  writes := traffic.writes ++ (t.pieces.filter (!·.isEmpty)).toArray

theorem Trail.gotten_eq (t : Trail) : (t.traffic {}).gotten = t.taken.flatten.length := by
  rw [Traffic.gotten, ← Array.foldl_toList, List.length_flatten, List.sum_eq_foldl]
  simp [traffic]

/-- The result and the traffic of a run between a source and a sink that never fail are told by its
trail. -/
theorem relay_eq_trail (link : Link) (hs : link.sourceFails = false) (hr : link.room = none)
    (e : Engine) (traffic : Traffic) (chunks : List (List UInt8)) :
    relay link e traffic chunks = ((e.trail chunks).outcome, (e.trail chunks).traffic traffic) := by
  induction chunks generalizing e traffic with
  | nil =>
    rw [relay.eq_def, pumpInto, hr, trail]
    rcases e.pump #[] with ⟨out, stop, e₁⟩
    simp only [Traffic.write_eq]
    cases stop <;> simp [Trail.last, Trail.outcome, Trail.traffic]
  | cons chunk rest ih =>
    rw [relay.eq_def, pumpInto, hr]
    rcases hp : e.pump #[] with ⟨out, stop, e₁⟩
    simp only [Traffic.write_eq]
    by_cases hstop : stop = .needInput
    · subst hstop
      rcases hsup : e₁.supply chunk with ⟨_ | _, e₂⟩
      · rw [trail_of_refused hp hsup]
        simp [hs, hsup, Trail.outcome, Trail.traffic, Trail.before, Traffic.read]
      · rw [trail_of_ask hp hsup]
        simp [hs, hsup, ih, Trail.outcome, Trail.traffic, Trail.before, Traffic.read]
    · rw [trail_of_stop hp hstop]
      cases stop with
      | needInput => exact absurd rfl hstop
      | finished | failed => simp [Trail.last, Trail.outcome, Trail.traffic]

end Engine

end Transcoder

import Transcoder.Proofs.Engine.Recursion

/-!
# Input that is cut off

A schema without loops to the end says by itself how much input it takes. On an input that is cut off
before that, everything goes as on the whole of it until the first byte that is missing, and there it
fails: what bounds, sizes and encodings are tested for was as good on the whole input.

Results:
* `Source.read_of_cut`: a value is cut off.
* `Schema.cutOff_transcodeWithin`: a node is.
* `Engine.runChunks_cut`: a run on chunks is.
-/
namespace Transcoder

variable {input cut : List UInt8} {bounds : List Position} {a : Nat}

namespace Source

/-- A byte in front of the cut is the one of the whole input. -/
theorem get_of_cut (hc : cut <+: input) (ha : a < cut.length) {b : UInt8}
    (h : (whole input).get bounds a = .ok b) : (whole cut).get bounds a = .ok b := by
  obtain ⟨hs, hb⟩ := get_eq_ok.1 h
  refine get_eq_ok.2 ⟨?_, ?_⟩
  · cases bounds with
    | cons stop outer => exact hs
    | nil =>
      simp only [stop, List.headD_nil, endPosition, whole, if_true, Position.byte_ofByte] at hs ⊢
      omega
  · obtain ⟨rest, rfl⟩ := hc
    rwa [show (whole (cut ++ rest)).bytes = cut ++ rest from rfl,
      List.getElem?_append_left ha] at hb

/-- The first byte behind the cut is missing. -/
theorem get_at_cut {b : UInt8} (h : (whole input).get bounds cut.length = .ok b) :
    (whole cut).get bounds cut.length = .error (.endOfStream cut.length) := by
  obtain ⟨hs, -⟩ := get_eq_ok.1 h
  have hnone : (whole cut).bytes[cut.length]? = none := List.getElem?_eq_none (Nat.le_refl _)
  unfold get
  rw [hnone]
  cases bounds with
  | cons stop outer =>
    have hs : cut.length < ((whole cut).stop (stop :: outer)).byte := hs
    rw [if_pos hs]
    rfl
  | nil =>
    split
    · rfl
    · rfl

theorem offers_of_cut (hc : cut <+: input) {bytes : List UInt8}
    (h : (whole input).Offers bounds a bytes) (hle : a + bytes.length ≤ cut.length) :
    (whole cut).Offers bounds a bytes := by
  intro k b hk
  have hlt := (List.getElem?_eq_some_iff.1 hk).1
  exact get_of_cut hc (by omega) (h k b hk)

/-- A value of which bytes are cut off ends at the cut. -/
theorem read_of_cut (hc : cut <+: input) {p : PartialValue} {bytes : List UInt8} {w : UInt64}
    (h : p.Completes bytes w) (ho : (whole input).Offers bounds a bytes) (ha : a ≤ cut.length)
    (hlt : cut.length < a + bytes.length) : ∃ q, (whole cut).read bounds a p =
      (.error (.endOfStream cut.length), cut.length, q) := by
  induction h generalizing a with
  | last h =>
    have hat : a = cut.length := by
      simp only [List.length_singleton] at hlt
      omega
    subst hat
    rw [read_eq, get_at_cut (offers_cons.1 ho).1]
    exact ⟨_, rfl⟩
  | @more p q b bytes w h k ih =>
    obtain ⟨hb, ho⟩ := offers_cons.1 ho
    by_cases hat : a = cut.length
    · subst hat
      rw [read_eq, get_at_cut hb]
      exact ⟨_, rfl⟩
    · rw [List.length_cons] at hlt
      rw [read_eq, get_of_cut hc (by omega) hb]
      simp only [h]
      exact ih ho (by omega) (by omega)

end Source

namespace Meaning

/-- On the input that is cut off `g` does what `f` does on the whole input, if what it takes is there,
and else fails at the cut. -/
def CutOff (cut : List UInt8) (f g : Meaning) : Prop :=
  ∀ place p, place.position ≤ cut.length → f place = .ok p →
    (p.position ≤ cut.length → g place = .ok p) ∧
    (cut.length < p.position → g place = .error (.unexpectedEnd cut.length))

variable {f g body body' : Meaning} {place : Place} {p : Piece} {kind : IntKind} {word : UInt64}
  {position limit k : Nat}

theorem cutOff_nothing : CutOff cut nothing nothing := by
  intro place p hle h
  obtain rfl := Except.ok.inj h
  exact ⟨fun _ => rfl, fun hlt => absurd hlt (Nat.not_lt.2 hle)⟩

theorem cutOff_within (h : CutOff cut f g) :
    CutOff cut (within limit k f) (within limit k g) := by
  intro place p hle hp
  obtain ⟨hk, hp⟩ := within_eq_ok.1 hp
  simp only [within, if_pos hk]
  exact h place p hle hp

theorem cutOff_number (hc : cut <+: input) (hle : place.position ≤ cut.length)
    (h : number input kind place = .ok (word, position)) :
    (position ≤ cut.length → number cut kind place = .ok (word, position)) ∧
    (cut.length < position → number cut kind place = .error (.unexpectedEnd cut.length)) := by
  obtain ⟨bytes, hcompletes, ho, rfl⟩ := number_eq_ok.1 h
  refine ⟨fun hin => ?_, fun hout => ?_⟩
  · exact number_eq_ok.2 ⟨bytes, hcompletes, Source.offers_of_cut hc ho hin, rfl⟩
  · obtain ⟨q, hq⟩ := Source.read_of_cut hc hcompletes ho hle hout
    simp only [number, hq, Failure.ofStream]

/-- What follows a piece that is there. -/
theorem cutOff_follow (place : Place) {rest rest' : Meaning} (h : CutOff cut rest rest')
    (hp : p.position ≤ cut.length) {q : Piece} (hq : follow p rest place = .ok q) :
    (q.position ≤ cut.length → follow p rest' place = .ok q) ∧
    (cut.length < q.position → follow p rest' place = .error (.unexpectedEnd cut.length)) := by
  obtain ⟨q', hq', rfl⟩ := follow_eq_ok.1 hq
  obtain ⟨hin, hout⟩ := h (place.after p) q' hp hq'
  refine ⟨fun hle => follow_eq_ok.2 ⟨q', hin hle, rfl⟩, fun hlt => ?_⟩
  rw [follow, hout hlt]
  rfl

theorem cutOff_inOrder {α : Type} {F G : α → Meaning} {ids : List α}
    (h : ∀ id ∈ ids, CutOff cut (F id) (G id)) (hi : ∀ id ∈ ids, (F id).InStep input) :
    CutOff cut (inOrder (ids.map F)) (inOrder (ids.map G)) := by
  induction ids with
  | nil => exact cutOff_nothing
  | cons id rest ih =>
    intro place q hle hq
    have hrest := ih (fun c hc => h c (List.mem_cons_of_mem _ hc))
      fun c hc => hi c (List.mem_cons_of_mem _ hc)
    obtain ⟨p, hp, q', hq', rfl⟩ := inOrder_cons_eq_ok.1 hq
    obtain ⟨hin, hout⟩ := h id List.mem_cons_self place p hle hp
    have hsteps : ∀ f ∈ rest.map F, InStep input f := by
      intro f hf
      obtain ⟨c, hc, rfl⟩ := List.mem_map.1 hf
      exact hi c (List.mem_cons_of_mem _ hc)
    have hge : p.position ≤ q'.position := (inStep_inOrder hsteps _ _ hq').position_le
    by_cases hpc : p.position ≤ cut.length
    · have hfollow := cutOff_follow place hrest hpc (follow_eq_ok.2 ⟨q', hq', rfl⟩)
      simp only [List.map_cons, inOrder, hin hpc]
      exact hfollow
    · have hlt : cut.length < (p.append q').position := Nat.lt_of_not_le fun h => hpc (by
        exact Nat.le_trans hge h)
      simp only [List.map_cons, inOrder, hout (Nat.lt_of_not_le hpc)]
      exact ⟨fun hle => absurd hlt (Nat.not_lt.2 hle), fun _ => trivial⟩

/-- A piece of which the front is cut off. -/
theorem cutOff_of_front {q : Piece} {res : Except Failure Piece} (hp : cut.length < p.position)
    (hle : p.position ≤ q.position) (hres : res = .error (.unexpectedEnd cut.length)) :
    (q.position ≤ cut.length → res = .ok q) ∧
    (cut.length < q.position → res = .error (.unexpectedEnd cut.length)) :=
  ⟨fun h => absurd (Nat.le_trans hle h) (Nat.not_le.2 hp), fun _ => hres⟩

theorem cutOff_value (hc : cut <+: input) {rest rest' : UInt64 → Meaning}
    (h : ∀ w, CutOff cut (rest w) (rest' w)) (hi : ∀ w, (rest w).InStep input) :
    CutOff cut (value input kind rest) (value cut kind rest') := by
  intro place q hle hq
  obtain ⟨word, position, hn, hf, ha, q', hq', rfl⟩ := value_eq_ok.1 hq
  obtain ⟨hin, hout⟩ := cutOff_number hc hle hn
  have hge : position ≤ q'.position := (hi word _ _ hq').position_le
  by_cases hp : position ≤ cut.length
  · have hemit : emit kind word place.position { place with position } =
        .ok (said kind word place.position position) := emit_eq_ok.2 ⟨hf, ha, rfl⟩
    have hfollow := cutOff_follow place (p := said kind word place.position position)
      (h word) hp (follow_eq_ok.2 ⟨q', hq', rfl⟩)
    simp only [value, hin hp, hemit]
    exact hfollow
  · refine cutOff_of_front (p := said kind word place.position position) (Nat.lt_of_not_le hp) hge ?_
    simp only [value, hout (Nat.lt_of_not_le hp)]

theorem cutOff_repeated (id : Nat) (h : CutOff cut body body') (hi : body.InStep input) (n : Nat) :
    CutOff cut (repeated id body n) (repeated id body' n) := by
  match n with
  | 0 => exact cutOff_nothing
  | 1 => exact h
  | n + 2 =>
    intro place q hle hq
    obtain ⟨p, hp, hne, q', hq', rfl⟩ := repeated_eq_ok.1 hq
    obtain ⟨hin, hout⟩ := h place p hle hp
    have hge : p.position ≤ q'.position := (inStep_repeated hi (n + 1) _ _ hq').position_le
    by_cases hpc : p.position ≤ cut.length
    · have hfollow := cutOff_follow place (cutOff_repeated id h hi (n + 1)) hpc
        (follow_eq_ok.2 ⟨q', hq', rfl⟩)
      simp only [repeated, hin hpc, if_neg hne]
      exact hfollow
    · refine cutOff_of_front (p := p) (Nat.lt_of_not_le hpc) hge ?_
      simp only [repeated, hout (Nat.lt_of_not_le hpc)]

/-- The size of a block is cut off, or its body. -/
theorem cutOff_block (hc : cut <+: input) {framing : Framing} (h : CutOff cut body body')
    (hi : body.InStep input) : CutOff cut (block input framing body) (block cut framing body') := by
  intro place q hle hq
  obtain ⟨size, position, hn, hw⟩ := block_eq_ok.1 hq
  obtain ⟨hstop, ha, p, hp, hf⟩ := window_eq_ok.1 hw
  obtain ⟨hin, hout⟩ := cutOff_number hc hle hn
  have hq' := hf
  obtain ⟨-, -, rfl⟩ := framed_eq_ok.1 hq'
  have hge : position ≤ p.position := (hi _ _ hp).position_le
  by_cases hpc : position ≤ cut.length
  · obtain ⟨hin', hout'⟩ := h _ p hpc hp
    refine ⟨fun hqc => ?_, fun hlt => ?_⟩
    · exact block_eq_ok.2 ⟨size, position, hin hpc, window_eq_ok.2 ⟨hstop, ha, p, hin' hqc, hf⟩⟩
    · simp only [block, hin hpc, window, not_true_eq_false, hstop, if_false,
        if_neg (Nat.not_lt.2 ha), hout' hlt]
  · refine cutOff_of_front (p := ⟨position, [], []⟩) (Nat.lt_of_not_le hpc) hge ?_
    simp only [block, hout (Nat.lt_of_not_le hpc)]

end Meaning

/-- No node but a loop to the end does other than on the whole input, until a byte is missing. -/
theorem Schema.cutOff_transcodeWithin (s : Schema)
    (hs : ∀ id body, s.node? id ≠ some (.untilEof body)) {framing : Framing}
    (hr : 0 < framing.reserved) (hc : cut <+: input) (limit k id : Nat) :
    Meaning.CutOff cut (s.transcodeWithin framing input limit k id)
      (s.transcodeWithin framing cut limit k id) := by
  induction id using Nat.strongRecOn generalizing k with
  | ind id ih =>
    cases hn : s.node? id with
    | none =>
      intro place p _ hp
      simp [transcodeWithin_none hn] at hp
    | some n =>
      have child (c : Nat) (h : c ∈ n.children) :
          Meaning.CutOff cut (s.transcodeChild framing input limit k c)
            (s.transcodeChild framing cut limit k c) :=
        Meaning.cutOff_within (ih c (s.child_lt hn h) (k + 1))
      have inStep (c : Nat) : (s.transcodeChild framing input limit k c).InStep input :=
        Meaning.inStep_within (s.inStep_transcodeWithin hr input limit (k + 1) c)
      rw [transcodeWithin_eq hn, transcodeWithin_eq hn]
      cases n with
      | value kind =>
        exact Meaning.cutOff_value hc (fun _ => Meaning.cutOff_nothing) fun _ => Meaning.inStep_nothing
      | action => exact Meaning.cutOff_nothing
      | sequence children =>
        exact Meaning.cutOff_within (Meaning.cutOff_inOrder child fun c _ => inStep c)
      | loop count body =>
        refine Meaning.cutOff_value hc (fun n => ?_) fun n => ?_
        · exact Meaning.cutOff_within
            (Meaning.cutOff_repeated id (child body (List.mem_singleton_self _)) (inStep body) _)
        · exact Meaning.inStep_within (Meaning.inStep_repeated (inStep body) _)
      | block body =>
        exact Meaning.cutOff_block hc (child body (List.mem_singleton_self _)) (inStep body)
      | untilEof body => exact absurd hn (hs id body)
      | unknown opcode =>
        intro place p _ hp
        simp at hp

theorem Failure.eq_of_uncounted (x : Failure) {address : Nat}
    (h : x.uncounted = .unexpectedEnd address) : x = .unexpectedEnd address := by
  cases x <;> simp_all [uncounted]

namespace Engine

/-- How much of the input a run on chunks takes: where its engine has come to in the end. -/
def consumed (schema : Schema) (config : Config) (chunks : List (List UInt8)) : Nat :=
  ((new schema config).trail (chunks.filter (!·.isEmpty) ++ [[]])).engine.reader.address

/-- A run on chunks that succeeds takes what the root means to take. -/
theorem meant_of_runChunks {schema : Schema} {config : Config} {chunks : List (List UInt8)}
    {t : Transcript} (h : runChunks schema config chunks = .ok t) : ∃ p,
      schema.transcodeWithin config.framing chunks.flatten config.maxNesting 0 schema.root {} =
        .ok p ∧ p.position = consumed schema config chunks := by
  obtain ⟨n, m, m', status, hg, hc, hm⟩ := Machine.concludes schema config chunks.flatten
  obtain ⟨s, c, ht⟩ := (Course.new schema config none chunks.flatten).trail rfl
    (chunks.filter (!·.isEmpty)) (by simp) List.flatten_filter_not_isEmpty
  have hend : consumed schema config chunks = s.engine.reader.address :=
    congrArg (fun e : Engine => e.reader.address) ht.engine
  have hstop := Trail.stop_of_result ((feed_eq_trail _ _ _).symm.trans h)
  rcases ht.ends with ⟨-, hs, -⟩ | ⟨reason, hfailed, -⟩
  · cases c with
    | works live => simp [hs, Status.phase, Phase.terminal] at live
    | rests ends f goes concludes handed whole read =>
      obtain ⟨-, rfl⟩ := goes.meet hg concludes.stops hc.stops
      obtain ⟨rfl, hst⟩ := concludes.meet hc
      rw [hs] at hst
      generalize hall : schema.transcodeAllWithin config chunks.flatten = meant at hm
      cases hm with
      | failed => simp [Status.uncounted] at hst
      | @finished p _ _ position =>
        refine ⟨p, ?_, by rw [hend, read hs, position]⟩
        unfold Schema.transcodeAllWithin at hall
        split at hall
        · simp at hall
        · rename_i p' hp
          split at hall
          · simp at hall
          · rw [hp, hall]
  · have hstop := hstop.symm.trans hfailed
    simp at hstop

/-- Input that is cut off is noticed where it ends. A schema without loops to the end, of which a run
took `consumed` bytes of its input, fails on every shorter part of them, in whatever chunks that
comes, for the end of the input there, and for nothing else. -/
theorem runChunks_cut (schema : Schema) (hs : ∀ id body, schema.node? id ≠ some (.untilEof body))
    (config : Config) {chunks cut : List (List UInt8)} {t : Transcript}
    (h : runChunks schema config chunks = .ok t) (hc : cut.flatten <+: chunks.flatten)
    (hlt : cut.flatten.length < consumed schema config chunks) :
    runChunks schema config cut = .error (.unexpectedEnd cut.flatten.length) := by
  obtain ⟨p, hp, hposition⟩ := meant_of_runChunks h
  have hcut := schema.cutOff_transcodeWithin hs config.framing_reserved_pos hc config.maxNesting 0
    schema.root {} p (Nat.zero_le _) hp
  have hrefused : (schema.transcodeAllWithin config cut.flatten).map Piece.output =
      .error (.unexpectedEnd cut.flatten.length) := by
    rw [Schema.transcodeAllWithin, hcut.2 (hposition ▸ hlt)]
    rfl
  obtain ⟨x, hres, hx⟩ := runChunks_of_refused schema config cut hrefused
  rw [hres, x.eq_of_uncounted hx]

/-- A block of numbers with their count before them. -/
def counted : Schema :=
  ⟨#[.value .varuint32, .loop .uint8 0, .block 1], 2, Schema.wellFormed_of_fault? (by decide)⟩

/-- The last number is cut off. -/
theorem runChunks_cut_counted : consumed counted {} [[3, 1, 0x80, 0x01]] = 4 ∧
    runChunks counted {} [[3], [], [1, 0x80]] = .error (.unexpectedEnd 3) := by
  have hs (id body : Nat) : counted.node? id ≠ some (.untilEof body) := by
    rcases id with _ | _ | _ | id <;> simp [counted, Schema.node?]
  have hroot : (counted.transcodeWithin (Config.framing {}) [3, 1, 0x80, 0x01] 1024 0 2
      {}).toOption.map Piece.position = some 4 := by
    decide +kernel
  obtain ⟨t, ht, -⟩ := runChunks_of_meant counted {} [[3, 1, 0x80, 0x01]]
    (show _ = Except.ok [3, 1, 0x80, 0x01] by decide +kernel)
  obtain ⟨p, hp, hposition⟩ := meant_of_runChunks ht
  have hp : counted.transcodeWithin (Config.framing {}) [3, 1, 0x80, 0x01] 1024 0 2 {} = .ok p := hp
  have hconsumed : consumed counted {} [[3, 1, 0x80, 0x01]] = 4 := by
    rw [hp] at hroot
    rw [← hposition]
    exact Option.some.inj hroot
  refine ⟨hconsumed, ?_⟩
  have hc : [[3], [], [1, 0x80]].flatten <+: [[(3 : UInt8), 1, 0x80, 0x01]].flatten := by decide
  exact runChunks_cut counted hs {} ht hc (by
    rw [hconsumed]
    decide)

end Engine

end Transcoder

import Transcoder.Proofs.Machine.Still

/-!
# Machines on a part of their input

A machine with a part of its input does what it does with the whole, until it has read the part and
asks for more. What it does then is what it would have done in the first place. So the input as a
whole says what becomes of a machine, in whatever parts it comes.

Results:
* `Source.read_part`: a value that is cut off is read on as if it had not been.
* `Machine.foretells_step`: a step over a part of the input foretells the step over the whole.
* `Machine.step_closed`: behind the last byte, the end of the input shows at once.
-/
namespace Transcoder

/-- The failure, without the number of bytes that are left over. -/
def Failure.uncounted : Failure → Failure
  | trailingData _ => trailingData 0
  | reason => reason

/-- The state, without the number of bytes that are left over. -/
def Status.uncounted : Status → Status
  | failed reason => failed reason.uncounted
  | status => status

namespace Source

variable {j i : List UInt8}

theorem stop_whole (bounds : List Position) :
    (whole i).stop bounds = bounds.headD (.ofByte (min i.length addressLimit)) := rfl

theorem stop_open (bounds : List Position) :
    ({ bytes := j } : Source).stop bounds = bounds.headD .unbounded := rfl

theorem stop_closed (bounds : List Position) :
    ({ bytes := i, closed := true } : Source).stop bounds = bounds.headD (.ofByte i.length) := rfl

theorem byte_unbounded : Position.unbounded.byte = addressLimit := Position.byte_ofByte _

/-- A byte of a part is the byte of the whole, unless it has not come yet. -/
theorem get_part (h : j <+: i) (bounds : List Position) (a : Nat) :
    ({ bytes := j } : Source).get bounds a = .error (.notAvailable a) ∧ j.length ≤ a ∨
      ({ bytes := j } : Source).get bounds a = (whole i).get bounds a := by
  have hl := h.length_le
  by_cases ha : a < j.length
  · have hb : i[a]? = some j[a] := by
      obtain ⟨rest, rfl⟩ := h
      rw [List.getElem?_append_left ha, List.getElem?_eq_getElem ha]
    refine .inr ?_
    unfold get
    rw [stop_open, stop_whole, List.getElem?_eq_getElem ha]
    simp only [whole, hb]
    cases bounds with
    | cons => rfl
    | nil =>
      simp only [List.headD_nil, byte_unbounded, Position.byte_ofByte]
      by_cases hlim : a < addressLimit
      · rw [if_pos hlim, if_pos (by omega)]
      · rw [if_neg hlim, if_neg (by omega)]
  · by_cases hs : a < (({ bytes := j } : Source).stop bounds).byte
    · refine .inl ⟨?_, by omega⟩
      rw [get, if_pos hs, List.getElem?_eq_none (Nat.le_of_not_lt ha)]
      rfl
    · refine .inr ?_
      rw [get, get, if_neg hs, if_neg]
      rw [stop_open] at hs
      rw [stop_whole]
      cases bounds with
      | cons => exact hs
      | nil =>
        simp only [List.headD_nil, byte_unbounded, Position.byte_ofByte] at hs ⊢
        omega

/-- A byte may still come where the input has no end yet. -/
theorem open_of_get {src : Source} {bounds : List Position} {a : Nat} {x : StreamError}
    (h : src.get bounds a = .error x) (hx : x.suspends = true) :
    src.closed = false ∧ src.bytes.length ≤ a := by
  unfold get at h
  split at h
  · split at h
    · simp at h
    · rename_i hnone
      have hle := List.getElem?_eq_none_iff.1 hnone
      simp only [Except.error.injEq] at h
      split at h
      · simp [← h, StreamError.suspends] at hx
      · exact ⟨by simpa using ‹¬src.closed = true›, hle⟩
  · simp only [Except.error.injEq] at h
    rw [← h] at hx
    cases bounds <;> simp [boundaryError, StreamError.suspends] at hx

/-- A value that is cut off was read up to the last byte. -/
theorem open_of_read {src : Source} {bounds : List Position} {a a' : Nat} {p p' : PartialValue}
    {x : StreamError} (h : src.read bounds a p = (.error x, a', p')) (hx : x.suspends = true) :
    src.closed = false ∧ src.bytes.length ≤ a' := by
  cases (stuck_of_read h).1 with
  | missing h => exact open_of_get h hx
  | spoilt h =>
    rw [StreamError.suspends_of_malformed (PartialValue.malformed_of_feed h)] at hx
    exact absurd hx Bool.false_ne_true

/-- The whole input waits for nothing. -/
theorem suspends_of_read_whole {bounds : List Position} {a a' : Nat} {p p' : PartialValue}
    {x : StreamError} (h : (whole i).read bounds a p = (.error x, a', p')) :
    x.suspends = false := by
  apply Bool.eq_false_iff.2
  intro hx
  exact absurd (open_of_read h hx).1 (by simp [whole])

/-- A value of a part is the value of the whole, or it is cut off; then it goes on in the whole
where it was cut. -/
theorem read_part (h : j <+: i) (bounds : List Position) (a : Nat) (p : PartialValue) :
    ({ bytes := j } : Source).read bounds a p = (whole i).read bounds a p ∨
      ∃ a' p', ({ bytes := j } : Source).read bounds a p = (.error (.notAvailable a'), a', p') ∧
        j.length ≤ a' ∧ p'.kind = p.kind ∧
        (whole i).read bounds a' p' = (whole i).read bounds a p := by
  rcases get_part h bounds a with ⟨hg, hl⟩ | hg
  · exact .inr ⟨a, p, by rw [read_eq, hg], hl, rfl, rfl⟩
  · have hw := read_eq (whole i) bounds a p
    rw [read_eq { bytes := j }, hg]
    cases hb : (whole i).get bounds a with
    | error x =>
      simp only [hb] at hw
      exact .inl hw.symm
    | ok b =>
      simp only [hb] at hw ⊢
      match hf : p.feed b with
      | (.error x, q) =>
        simp only [hf] at hw
        exact .inl hw.symm
      | (.ok (some w), q) =>
        simp only [hf] at hw
        exact .inl hw.symm
      | (.ok none, q) =>
        simp only [hf] at hw
        have := PartialValue.remaining_lt_of_feed hf
        have hk : q.kind = p.kind := by rw [← PartialValue.kind_of_feed p b, hf]
        rw [hw]
        rcases read_part h bounds (a + 1) q with hq | ⟨a', p', hq, hl, hk', hr⟩
        · exact .inl hq
        · exact .inr ⟨a', p', hq, hl, hk'.trans hk, hr⟩
termination_by p.remaining

/-- Behind the last byte, nothing is read. -/
theorem get_closed {a : Nat} (ha : i.length ≤ a) (bounds : List Position) :
    ({ bytes := i, closed := true } : Source).get bounds a = (whole i).get bounds a := by
  unfold get
  rw [stop_closed, stop_whole]
  cases bounds with
  | cons => rfl
  | nil =>
    simp only [List.headD_nil, Position.byte_ofByte]
    rw [if_neg (by omega), if_neg (by omega)]

theorem get_behind {a : Nat} (ha : i.length ≤ a) (bounds : List Position) :
    ∃ x, (whole i).get bounds a = .error x := by
  unfold get
  split
  · exact ⟨.endOfStream a, by simp [whole, List.getElem?_eq_none ha]⟩
  · exact ⟨_, rfl⟩

theorem read_closed {a : Nat} (ha : i.length ≤ a) (bounds : List Position) (p : PartialValue) :
    ∃ x, ({ bytes := i, closed := true } : Source).read bounds a p = (.error x, a, p) ∧
      (whole i).read bounds a p = (.error x, a, p) := by
  obtain ⟨x, hx⟩ := get_behind ha bounds
  exact ⟨x, by rw [read_eq, get_closed ha, hx], by rw [read_eq, hx]⟩

end Source

/-! ## Steps -/

namespace Machine

variable {r : Rules} {i j : List UInt8} {m m' : Machine}

/-- Blocks are measured against the blocks around them only, as long as the end is not known. -/
theorem complete_part (p : Pending) (word : UInt64) :
    complete r { bytes := j } p word = complete r (.whole i) p word := rfl

/-- What is read for does not depend on what was read before it was cut off. -/
theorem complete_kind {src : Source} {p : Pending} {q : PartialValue}
    (hk : q.kind = p.partialValue.kind) (word : UInt64) :
    complete r src { p with partialValue := q } word = complete r src p word := by
  simp only [complete, passOn, hk]

theorem readOn_whole (p : Pending) (m : Machine) : readOn r (.whole i) p m =
    match (Source.whole i).read m.bounds m.position p.partialValue with
    | (.ok word, position, _) =>
      (do complete r (.whole i) p word; return .advanced : Turn Progress) { m with position }
    | (.error cause, position, _) => .error (.ofStream cause) { m with position } := by
  unfold readOn
  rcases hr : (Source.whole i).read m.bounds m.position p.partialValue with
    ⟨cause | word, position, q⟩
  · simp only [Source.suspends_of_read_whole hr, Bool.false_eq_true, if_false]
  · rfl

/-- A machine with the whole input asks for nothing. -/
theorem ne_needInput_whole : step r (.whole i) m ≠ .ok .needInput m' := by
  intro h
  cases hp : m.pending with
  | some p =>
    rw [step_of_pending hp, readOn_whole] at h
    split at h
    · exact absurd (of_answer h).1 (by decide)
    · simp at h
  | none =>
    cases ht : m.tasks with
    | nil =>
      rw [step_of_none hp ht, checkTrailing] at h
      split at h
      · simp at h
      · split at h
        · simp at h
        · simp [Source.whole] at h
    | cons task rest =>
      rw [step_of_task hp ht] at h
      cases task with
      | visit | sequence | loop | block => exact absurd (of_answer h).1 (by decide)
      | untilEof id body last =>
        simp only [doTask, repeatToEnd] at h
        split at h
        · simp at h
        · rename_i hs
          split at h
          · simp at h
          · split at h
            · rename_i hn
              refine hs ?_
              rw [hn.2, Source.stop_whole, List.headD_nil, Position.le_def]
              have := hn.1
              simp only [Source.whole, Position.ofByte] at this ⊢
              omega
            · change (do pushTask r (.visit body); return .advanced : Turn Progress) _ = _ at h
              exact absurd (of_answer h).1 (by decide)

/-- What a step over a part of `n` bytes says of the step over the whole. -/
def Foretells (r : Rules) (i : List UInt8) (n : Nat) (m : Machine) :
    EStateM.Result Failure Machine Progress → Prop
  | .ok .needInput m' => n ≤ m'.position ∧ step r (.whole i) m' = step r (.whole i) m
  | .ok p m' => step r (.whole i) m = .ok p m'
  | .error x m' => ∃ y, step r (.whole i) m = .error y m' ∧ y.uncounted = x.uncounted ∧
    (n = i.length → y = x)

theorem Foretells.of_eq {n : Nat} {res : EStateM.Result Failure Machine Progress}
    (h : res = step r (.whole i) m) : Foretells r i n m res := by
  cases res with
  | ok p m' =>
    cases p with
    | advanced | done => exact h.symm
    | needInput => exact absurd h.symm ne_needInput_whole
  | error x m' => exact ⟨x, h.symm, rfl, fun _ => rfl⟩

theorem readOn_congr {src src' : Source} {p : Pending}
    (hr : src.read m.bounds m.position p.partialValue =
      src'.read m.bounds m.position p.partialValue)
    (hc : ∀ word, complete r src p word = complete r src' p word) :
    readOn r src p m = readOn r src' p m := by
  unfold readOn
  simp only [hr, hc]

/-- A value that is cut off is kept, and read on as if it had not been. -/
theorem foretells_readOn (h : j <+: i) {p : Pending} (hp : m.pending = some p) :
    Foretells r i j.length m (readOn r { bytes := j } p { m with pending := none }) := by
  rcases Source.read_part h m.bounds m.position p.partialValue with hr | ⟨a, q, hr, hl, hk, hq⟩
  · refine .of_eq ?_
    rw [step_of_pending hp]
    exact readOn_congr hr fun word => complete_part p word
  · have hcut : readOn r { bytes := j } p { m with pending := none } =
        .ok .needInput { m with position := a, pending := some { p with partialValue := q } } := by
      rw [readOn]
      simp only [hr]
      rfl
    rw [hcut]
    refine ⟨hl, ?_⟩
    rw [step_of_pending rfl, readOn_whole, step_of_pending hp, readOn_whole]
    simp only [hq, complete_kind hk]

theorem repeatToEnd_congr {src src' : Source} (id body : Nat) (last : Option Position)
    (hs : src.stop m.bounds ≤ .ofByte m.position ↔ src'.stop m.bounds ≤ .ofByte m.position)
    (ha : ¬src'.stop m.bounds ≤ .ofByte m.position → m.bounds = [] →
      (src.bytes.length - m.position = 0 ↔ src'.bytes.length - m.position = 0)) :
    repeatToEnd r src id body last m = repeatToEnd r src' id body last m := by
  unfold repeatToEnd
  simp only [hs]
  split
  · rfl
  · rename_i hn
    by_cases hb : m.bounds = []
    · simp only [ha hn hb]
    · simp only [hb, and_false]

/-- Outside all blocks, a loop that has used up the part waits. Its last repetition began before
that, so it is not taken for an empty one. -/
theorem foretells_repeatToEnd (h : j <+: i) (ho : m.Orderly j.length) {id body : Nat}
    {last : Option Position} {rest : List Task} (hp : m.pending = none)
    (ht : m.tasks = .untilEof id body last :: rest) : Foretells r i j.length m
      (repeatToEnd r { bytes := j } id body last { m with tasks := rest }) := by
  have hl := h.length_le
  rw [Orderly, ht] at ho
  have hstep : step r (.whole i) m =
      repeatToEnd r (.whole i) id body last { m with tasks := rest } := by
    rw [step_of_task hp ht, doTask]
  have hiff : m.bounds = [] → (Position.unbounded ≤ .ofByte m.position ↔
      addressLimit ≤ m.position) := by
    simp only [Position.le_def, Position.unbounded, Position.ofByte, addressLimit]
    omega
  by_cases hw : m.bounds = [] ∧ m.position < addressLimit ∧ j.length ≤ m.position
  · obtain ⟨hb, hlim, hj⟩ := hw
    have hlast : last ≠ some (.ofByte m.position) := fun e => by
      have := ho.1 hb _ e
      omega
    have hcut : repeatToEnd r { bytes := j } id body last { m with tasks := rest } =
        .ok .needInput m := by
      have hs : ¬Position.unbounded ≤ .ofByte m.position := by
        rw [hiff hb]
        omega
      unfold repeatToEnd
      simp only [Source.stop_open, hb, List.headD_nil]
      rw [if_neg hs, if_neg hlast, if_pos ⟨by omega, trivial⟩]
      show EStateM.Result.ok _ _ = _
      rw [← ht, ← hb]
    rw [hcut]
    exact ⟨hj, rfl⟩
  · refine .of_eq (Eq.trans (repeatToEnd_congr _ _ _ ?_ ?_) hstep.symm)
    · simp only [Source.stop_whole, Source.stop_open]
      cases hb : m.bounds with
      | cons => rfl
      | nil =>
        rw [List.headD_nil, List.headD_nil, hiff hb]
        simp only [Position.le_def, Position.ofByte]
        simp only [hb, true_and] at hw
        omega
    · simp only [Source.stop_whole]
      intro hs hb
      rw [hb, List.headD_nil, Position.le_def] at hs
      simp only [Position.ofByte, Source.whole] at hs ⊢
      simp only [hb, true_and] at hw
      omega

/-- Whatever is left over of a part is left over of the whole. -/
theorem foretells_checkTrailing (h : j <+: i) (hp : m.pending = none) (ht : m.tasks = []) :
    Foretells r i j.length m (checkTrailing r { bytes := j } m) := by
  have hl := h.length_le
  by_cases hr : (!r.rejectTrailing) = true
  · refine .of_eq ?_
    rw [step_of_none hp ht, checkTrailing, if_pos hr, checkTrailing, if_pos hr]
  · by_cases hj : 0 < j.length - m.position
    · rw [checkTrailing, if_neg hr, if_pos hj]
      refine ⟨.trailingData (i.length - m.position), ?_, rfl, fun h => h ▸ rfl⟩
      rw [step_of_none hp ht, checkTrailing, if_neg hr, if_pos (by simp only [Source.whole]; omega)]
      rfl
    · rw [checkTrailing, if_neg hr, if_neg hj]
      exact ⟨by omega, rfl⟩

/-- A step over a part of the input foretells the step over the whole. -/
theorem foretells_step (h : j <+: i) (ho : m.Orderly j.length) :
    Foretells r i j.length m (step r { bytes := j } m) := by
  cases hp : m.pending with
  | some p =>
    rw [step_of_pending hp]
    exact foretells_readOn h hp
  | none =>
    cases ht : m.tasks with
    | nil =>
      rw [step_of_none hp ht]
      exact foretells_checkTrailing h hp ht
    | cons task rest =>
      rw [step_of_task hp ht]
      cases task with
      | visit | sequence | loop | block =>
        refine .of_eq ?_
        rw [step_of_task hp ht]
        rfl
      | untilEof id body last => exact foretells_repeatToEnd h ho hp ht

/-! ## The end of the input -/

/-- Behind the last byte, the end of the input shows at once, and nothing more is read. -/
theorem step_closed (h : i.length ≤ m.position) :
    step r { bytes := i, closed := true } m = step r (.whole i) m ∧
      ∀ p m', step r (.whole i) m = .ok p m' → i.length ≤ m'.position := by
  cases hp : m.pending with
  | some p =>
    obtain ⟨x, hc, hw⟩ := Source.read_closed h m.bounds p.partialValue
    rw [step_of_pending hp, step_of_pending hp, readOn_whole, readOn]
    simp only [hc, hw, Source.suspends_of_read_whole hw]
    exact ⟨rfl, by simp⟩
  | none =>
    cases ht : m.tasks with
    | nil =>
      rw [step_of_none hp ht, step_of_none hp ht]
      refine ⟨rfl, fun p m' hs => ?_⟩
      have hst : Still m (checkTrailing r (.whole i) m) := still_checkTrailing
      rw [hs] at hst
      exact hst.position ▸ h
    | cons task rest =>
      rw [step_of_task hp ht, step_of_task hp ht]
      refine ⟨?_, fun p m' hs => ?_⟩
      · cases task with
        | visit | sequence | loop | block => rfl
        | untilEof id body last =>
          refine repeatToEnd_congr _ _ _ ?_ fun hs hb => ?_
          · simp only [Source.stop_whole, Source.stop_closed]
            cases m.bounds with
            | cons => rfl
            | nil =>
              simp only [List.headD_nil, Position.le_def, Position.ofByte]
              omega
          · rfl
      · exact (of_doTask hs).1 ▸ h

/-! ## The way of the whole -/

/-- Nothing of the input is missing where its end is known. -/
def Settled (i j : List UInt8) (closed : Bool) (m : Machine) : Prop :=
  closed = true → j = i ∧ i.length ≤ m.position

/-- Before the end of the input and behind it, a step foretells the step over the whole. -/
theorem foretells (hj : j <+: i) (ho : m.Orderly j.length) (hc : m.Settled i j closed) :
    Foretells r i j.length m (step r { bytes := j, closed } m) := by
  cases closed with
  | false => exact foretells_step hj ho
  | true =>
    obtain ⟨rfl, hp⟩ := hc rfl
    exact .of_eq (step_closed hp).1

theorem Settled.step (hc : m.Settled i j closed) {p : Progress}
    (h : step r { bytes := j, closed } m = .ok p m') : m'.Settled i j closed := by
  intro he
  subst he
  obtain ⟨rfl, hp⟩ := hc rfl
  obtain ⟨he, hk⟩ := step_closed (r := r) hp
  exact ⟨rfl, hk p m' (he ▸ h)⟩

/-- A machine with a part of the input goes where the machine with the whole input does. -/
theorem Goes.whole (h : Goes r { bytes := j, closed } n m m') (hj : j <+: i)
    (ho : m.Orderly j.length) (hc : m.Settled i j closed) {mc : Machine}
    (hg : Goes r (.whole i) k start mc)
    (hs : Machine.step r (.whole i) m = Machine.step r (.whole i) mc) :
    m'.Settled i j closed ∧ ∃ mc', Goes r (.whole i) (k + n) start mc' ∧
      Machine.step r (.whole i) m' = Machine.step r (.whole i) mc' := by
  obtain ⟨src, hsrc⟩ : ∃ src : Source, src = { bytes := j, closed } := ⟨_, rfl⟩
  rw [← hsrc] at h
  induction h generalizing k mc with
  | none => exact ⟨hc, mc, hg, hs⟩
  | @step n m m₁ m' hm _ ih =>
    subst hsrc
    have hf := foretells (r := r) hj ho hc
    have hl : Leaves j.length m (Machine.step r { bytes := j, closed } m) := leaves_step ho
    rw [hm] at hf hl
    obtain ⟨hc', mc', hg', hs'⟩ := ih hl.1 (hc.step hm) (hg.snoc (hs ▸ hf)) rfl
    exact ⟨hc', mc', by rwa [Nat.add_right_comm, Nat.add_assoc] at hg', hs'⟩

end Machine

end Transcoder

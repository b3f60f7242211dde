import Transcoder.Proofs.Machine.Whole

/-!
# Machines that know the end of their input

A machine that knows from the start where its input ends does what it does with the input as a whole,
with one exception. Outside all blocks, the end of a block is measured against the end of the input
if that is known. So a block that ends behind the input is refused where it begins, by a machine that
knows the end; the other one goes into it, and never comes out.

Results:
* `Machine.step_known`: the steps are the same, or the one refuses, outside all blocks, a block that
  dooms the other.
* `Machine.Doomed.goes`: a machine in such a block does not finish.
-/
namespace Transcoder

/-- The failure is that something ends behind the `n` bytes that are all. -/
def Failure.overruns (n : Nat) : Failure → Prop
  | pastBlockEnd stop bound => bound = .ofByte n ∧ n < stop.byte
  | _ => False

/-- An input whose end is known before any of it is read. -/
def Source.known (bytes : List UInt8) : Source := { bytes, closed := true }

namespace Source

variable {i : List UInt8}

/-! ## Reading -/

/-- Where every byte is the same, every value is. -/
theorem read_congr {src src' : Source} {bounds : List Position}
    (h : ∀ a, src.get bounds a = src'.get bounds a) (a : Nat) (p : PartialValue) :
    src.read bounds a p = src'.read bounds a p := by
  rw [read_eq, read_eq src', h a]
  cases hb : src'.get bounds a with
  | error x => rfl
  | ok b =>
    match hf : p.feed b with
    | (.error x, q) => simp only [hf]
    | (.ok (some w), q) => simp only [hf]
    | (.ok none, q) =>
      have := PartialValue.remaining_lt_of_feed hf
      simp only [hf]
      exact read_congr h (a + 1) q
termination_by p.remaining

theorem stop_known (h : i.length ≤ addressLimit) (bounds : List Position) :
    (known i).stop bounds = (whole i).stop bounds := by
  rw [stop_whole, Nat.min_eq_left h]
  rfl

theorem read_known (h : i.length ≤ addressLimit) (bounds : List Position) (a : Nat)
    (p : PartialValue) : (known i).read bounds a p = (whole i).read bounds a p := by
  apply read_congr
  intro a
  simp only [get, stop_known h]
  rfl

end Source

namespace Machine

variable {r : Rules} {src : Source} {i : List UInt8} {m m' : Machine} {p : Progress}

/-! ## Blocks that end behind the input -/

/-- A block is on the stack whose end lies behind the `n` bytes of the input. -/
structure Doomed (n : Nat) (m : Machine) : Prop where
  position : m.position ≤ n
  block : ∃ extent header, .block extent header ∈ m.tasks ∧ n < extent.stop.byte

/-- No block is left that the input ends in. -/
theorem Doomed.step (h : m.Doomed src.bytes.length) (hs : Machine.step r src m = .ok p m') :
    m'.Doomed src.bytes.length := by
  refine ⟨inside_step h.position hs, ?_⟩
  obtain ⟨hm, extent, header, hmem, hlt⟩ := h
  cases hp : m.pending with
  | some q =>
    rw [step_of_pending hp] at hs
    have htasks := (of_readOn (m := { m with pending := none }) hm hs).2
    exact ⟨extent, header, htasks.subset hmem, hlt⟩
  | none =>
    cases ht : m.tasks with
    | nil => simp [ht] at hmem
    | cons task rest =>
      rw [step_of_task hp ht] at hs
      refine ⟨extent, header, ?_, hlt⟩
      rcases List.mem_cons.1 (ht ▸ hmem) with rfl | hrest
      · -- the reader would have to stand behind the input
        obtain ⟨-, hs⟩ := of_answer hs
        obtain ⟨_, m₁, hl, _⟩ := of_bind_ok hs
        unfold leaveBlock at hl
        split at hl
        · rename_i hstop
          have hbyte : m.position = extent.stop.byte := by
            rw [← hstop, Position.byte_ofByte]
          omega
        · cases hl
      · exact (of_doTask hs).2.subset hrest

/-- So the machine does not finish. -/
theorem Doomed.ne_done (h : m.Doomed src.bytes.length) :
    Machine.step r src m ≠ .ok .done m' := by
  intro hs
  obtain ⟨-, extent, header, hmem, -⟩ := h
  rw [(tasks_of_done hs).2] at hmem
  simp at hmem

theorem Doomed.goes {n : Nat} (h : m.Doomed src.bytes.length) (hg : Goes r src n m m') :
    m'.Doomed src.bytes.length := by
  induction hg with
  | none => exact h
  | step hs _ ih => exact ih (h.step hs)

/-! ## The two machines -/

/-- Outside all blocks, one that ends behind the input is refused by the machine that knows the end,
and entered by the other one. -/
theorem enterBlock_known (i : List UInt8) (size : Nat) (m : Machine) :
    enterBlock (.known i) size m = enterBlock (.whole i) size m ∨
      m.bounds = [] ∧ ∃ stop,
        enterBlock (.known i) size m = .error (.pastBlockEnd stop (.ofByte i.length)) m ∧
        i.length < stop.byte ∧
        enterBlock (.whole i) size m = .ok ⟨m.position, stop⟩ { m with bounds := stop :: m.bounds } := by
  obtain ⟨stop, hstop⟩ :
      ∃ stop, stop = Position.ofByte (min (m.position + size) addressLimit) := ⟨_, rfl⟩
  simp only [enterBlock, ← hstop]
  cases hb : m.bounds with
  | cons => exact .inl rfl
  | nil =>
    have hwhole : stop ≤ (Source.whole i).measure [] := by
      rw [hstop]
      exact Nat.mul_le_mul_left 8 (Nat.min_le_right ..)
    have hknown : (Source.known i).measure [] = .ofByte i.length := rfl
    rw [if_pos hwhole, hknown]
    by_cases hs : stop ≤ .ofByte i.length
    · exact .inl (if_pos hs)
    · refine .inr ⟨rfl, stop, if_neg hs, ?_, rfl⟩
      rw [hstop, Position.le_def] at hs
      rw [hstop, Position.byte_ofByte]
      simp only [Position.ofByte] at hs
      omega

theorem of_pushTask {task : Task} (h : pushTask r task m = .ok () m') :
    m' = { m with tasks := task :: m.tasks } := by
  unfold pushTask at h
  split at h
  · cases h
  · cases h
    rfl

/-- Outside all blocks, a piece of a step of the machine that knows the end refuses a block that ends
behind the `n` bytes of the input, and the stack is as it was. -/
structure Refuses (n : Nat) (m : Machine) {α : Type} (r : EStateM.Result Failure Machine α) :
    Prop where
  bounds : m.bounds = []
  failed : ∃ x m', r = .error x m' ∧ x.overruns n ∧ m'.tasks = m.tasks

/-- What the machine that knows the end does with a value is what the other one does, or it refuses
a block that dooms the other. -/
theorem complete_known (hm : m.position ≤ i.length) (q : Pending) (word : UInt64) :
    complete r (.known i) q word m = complete r (.whole i) q word m ∨
      Refuses i.length m (complete r (.known i) q word m) ∧
        ∀ m', complete r (.whole i) q word m = .ok () m' → m'.Doomed i.length := by
  cases hq : q.goal with
  | value | loopCount => exact .inl (by simp only [complete, hq])
  | blockSize body =>
    rcases enterBlock_known i word.toNat m with he | ⟨hbounds, stop, hknown, hlt, hwhole⟩
    · left
      simp only [complete, hq, Bind.bind, EStateM.bind, he]
    · right
      refine ⟨⟨hbounds, .pastBlockEnd stop (.ofByte i.length), m, ?_, ⟨rfl, hlt⟩, rfl⟩, ?_⟩
      · simp only [complete, hq]
        exact bind_of_error hknown
      · intro m' hs
        have hstill : Still m (complete r (.whole i) q word m) := still_complete
        rw [hs] at hstill
        simp only [complete, hq, bind_of_ok hwhole] at hs
        obtain ⟨header, m₁, _, hs⟩ := of_bind_ok hs
        obtain ⟨_, m₂, hblock, hs⟩ := of_bind_ok hs
        obtain rfl := of_pushTask hblock
        obtain rfl := of_pushTask hs
        exact ⟨hstill.position ▸ hm, ⟨m.position, stop⟩, header, by simp, hlt⟩

/-- The end of the input shows to both machines alike, unless the one that knows it refuses a block
that dooms the other. -/
theorem step_known (hl : i.length ≤ addressLimit) (hm : m.position ≤ i.length) :
    step r (.known i) m = step r (.whole i) m ∨
      Refuses i.length m (step r (.known i) m) ∧
        ∀ p m', step r (.whole i) m = .ok p m' → m'.Doomed i.length := by
  cases hp : m.pending with
  | some q =>
    rw [step_of_pending hp, step_of_pending hp, readOn_whole]
    have hread := ((Source.whole i).read_le m.bounds m.position q.partialValue).2 hm
    simp only [readOn, Source.read_known hl]
    match hr : (Source.whole i).read m.bounds m.position q.partialValue with
    | (.error cause, a, v) =>
      left
      simp only [Source.suspends_of_read_whole hr, Bool.false_eq_true, if_false]
    | (.ok word, a, v) =>
      rw [hr] at hread
      have hread : a ≤ i.length := hread
      have hc := complete_known (r := r) (m := { m with pending := none, position := a }) hread q word
      rcases hc with he | ⟨⟨hbounds, x, m₁, hx, hover, htasks⟩, hdoom⟩
      · left
        simp only [Bind.bind, EStateM.bind, he]
      · right
        refine ⟨⟨hbounds, x, m₁, bind_of_error hx, hover, htasks⟩, ?_⟩
        intro p m' hs
        exact hdoom _ (of_answer hs).2
  | none =>
    left
    cases ht : m.tasks with
    | nil =>
      rw [step_of_none hp ht, step_of_none hp ht]
      rfl
    | cons task rest =>
      rw [step_of_task hp ht, step_of_task hp ht]
      cases task with
      | visit | sequence | loop | block => rfl
      | untilEof id body last =>
        refine repeatToEnd_congr _ _ _ ?_ fun _ _ => Iff.rfl
        rw [Source.stop_known hl]

/-- Until the one that knows the end refuses a block, both machines go the same way. -/
theorem Goes.known {n : Nat} (hl : i.length ≤ addressLimit) (h : Goes r (.known i) n m m')
    (hm : m.position ≤ i.length) : Goes r (.whole i) n m m' ∧ m'.position ≤ i.length := by
  induction h with
  | none m => exact ⟨.none m, hm⟩
  | step hs _ ih =>
    have hin : _ ≤ (Source.known i).bytes.length := inside_step hm hs
    obtain ⟨hg, hpos⟩ := ih hin
    rcases step_known hl hm with he | ⟨⟨-, x, m₁, hx, -⟩, -⟩
    · exact ⟨.step (he ▸ hs) hg, hpos⟩
    · rw [hs] at hx
      cases hx

end Machine

end Transcoder

import Transcoder.Proofs.Machine.Order
import Transcoder.Proofs.Value.Completing

/-!
# What a step leaves where it was

Only a value that is read moves the reader, and not behind the last byte. A task that is done may put
others on the stack, but those that were under it stay there.

Results:
* `Machine.still_doTask`, `Machine.still_complete`: what is done with tasks and values reads nothing
  and takes no other task off the stack.
* `Machine.inside_step`: the reader stays inside the input.
-/
namespace Transcoder

/-- Reading goes on, but not past the last byte. -/
theorem Source.read_le (src : Source) (bounds : List Position) (a : Nat) (p : PartialValue) :
    a ≤ (src.read bounds a p).2.1 ∧
      (a ≤ src.bytes.length → (src.read bounds a p).2.1 ≤ src.bytes.length) := by
  rw [read_eq]
  cases hb : src.get bounds a with
  | error e => exact ⟨Nat.le_refl _, id⟩
  | ok b =>
    have hlt : a < src.bytes.length := (List.getElem?_eq_some_iff.1 (get_eq_ok.1 hb).2).1
    match hf : p.feed b with
    | (.error e, q) =>
      simp only [hf]
      exact ⟨Nat.le_succ a, fun _ => hlt⟩
    | (.ok (some w), q) =>
      simp only [hf]
      exact ⟨Nat.le_succ a, fun _ => hlt⟩
    | (.ok none, q) =>
      have := PartialValue.remaining_lt_of_feed hf
      simp only [hf]
      obtain ⟨h1, h2⟩ := read_le src bounds (a + 1) q
      exact ⟨Nat.le_of_succ_le h1, fun _ => h2 hlt⟩
termination_by p.remaining

namespace Machine

variable {r : Rules} {src : Source} {m m' : Machine} {p : Progress}

/-! ## Pieces of a step -/

/-- From `m` to `m'`, nothing was read and tasks were only added. -/
structure Piles (m m' : Machine) : Prop where
  position : m'.position = m.position
  tasks : m.tasks <:+ m'.tasks

theorem Piles.refl (m : Machine) : Piles m m := ⟨rfl, List.suffix_rfl⟩

theorem Piles.push {m₁ : Machine} (h : Piles m m₁) (task : Task) :
    Piles m { m₁ with tasks := task :: m₁.tasks } :=
  ⟨h.position, h.tasks.trans (List.suffix_cons ..)⟩

/-- A piece of a step reads nothing and takes no task off the stack. -/
def Still {α : Type} (m : Machine) : EStateM.Result Failure Machine α → Prop
  | .ok _ m' => Piles m m'
  | .error .. => True

theorem Still.bind {α β : Type} {m₁ : Machine} {act : Turn α} {next : α → Turn β}
    (h : Still m (act m₁)) (k : ∀ x m', Piles m m' → Still m (next x m')) :
    Still m ((act >>= next) m₁) := by
  simp only [Bind.bind, EStateM.bind]
  cases ha : act m₁ with
  | error x m' => trivial
  | ok x m' =>
    rw [ha] at h
    exact k x m' h

theorem still_pushTask {m₁ : Machine} (h : Piles m m₁) (task : Task) :
    Still m (pushTask r task m₁) := by
  unfold pushTask
  split
  · trivial
  · exact h.push task

theorem still_runAction (action : Nat) : Still m (runAction action m) := by
  unfold runAction
  split
  · exact .refl m
  · simp only
    split
    · exact ⟨rfl, List.suffix_rfl⟩
    · trivial

theorem still_visit (id : Nat) : Still m (visit r id m) := by
  unfold visit
  split
  · trivial
  · exact ⟨rfl, List.suffix_rfl⟩
  · exact still_runAction _
  · exact still_pushTask (.refl m) _
  · exact ⟨rfl, List.suffix_rfl⟩
  · exact ⟨rfl, List.suffix_rfl⟩
  · exact still_pushTask (.refl m) _
  · trivial

theorem still_putBack (task : Task) : Still m (putBack task m) := (Piles.refl m).push task

theorem still_again (task : Task) (id : Nat) :
    Still m ((do putBack task; pushTask r (.visit id) : Turn Unit) m) :=
  (still_putBack task).bind fun _ _ h => still_pushTask h _

theorem still_leaveBlock (extent : Extent) : Still m (leaveBlock extent m) := by
  unfold leaveBlock
  split
  · split
    · trivial
    · exact ⟨rfl, List.suffix_rfl⟩
  · trivial

theorem still_finishBlock (extent : Extent) (header : OpenHeader) :
    Still m (finishBlock r extent header m) := by
  apply (still_leaveBlock extent).bind
  intro _ _ h
  simp only [closeBlock]
  split
  · trivial
  · exact ⟨h.position, h.tasks⟩

theorem still_doTask (task : Task) : Still m (doTask r src task m) := by
  cases task with
  | visit id => exact (still_visit id).bind fun _ _ h => h
  | sequence children =>
    cases children with
    | nil => exact .refl m
    | cons child rest => exact (still_again _ child).bind fun _ _ h => h
  | loop id body remaining last =>
    refine Still.bind ?_ fun _ _ h => h
    cases remaining with
    | zero => exact .refl m
    | succ n =>
      simp only [nextRepetition]
      split
      · trivial
      · exact still_again _ body
  | block extent header => exact (still_finishBlock extent header).bind fun _ _ h => h
  | untilEof id body last =>
    simp only [doTask, repeatToEnd]
    split
    · exact .refl m
    · split
      · trivial
      · split
        · exact still_putBack _
        · exact (still_putBack _).bind fun _ _ h => (still_pushTask h _).bind fun _ _ h => h

theorem still_checkTrailing : Still m (checkTrailing r src m) := by
  unfold checkTrailing
  split
  · exact .refl m
  · split
    · trivial
    · split <;> exact .refl m

theorem still_complete {q : Pending} {word : UInt64} : Still m (complete r src q word m) := by
  have hpass : Still m (passOn r q word m) := by
    have hw : Still m (writeValue q.partialValue.kind word m) := by
      unfold writeValue
      split
      · split
        · exact ⟨rfl, List.suffix_rfl⟩
        · trivial
      · trivial
    apply hw.bind
    intro _ m' h
    unfold record
    split
    · exact ⟨h.position, h.tasks⟩
    · exact h
  unfold complete
  cases q.goal with
  | value => exact hpass
  | loopCount id body => exact hpass.bind fun _ _ h => still_pushTask h _
  | blockSize body =>
    have henter : Still m (enterBlock src word.toNat m) := by
      simp only [enterBlock]
      split
      · exact ⟨rfl, List.suffix_rfl⟩
      · trivial
    apply henter.bind
    intro _ m₁ h₁
    have hopen : Still m (openBlock r m₁) := by
      simp only [openBlock]
      split
      · exact ⟨h₁.position, h₁.tasks⟩
      · trivial
    exact hopen.bind fun _ _ h₂ =>
      (still_pushTask h₂ _).bind fun _ _ h₃ => still_pushTask h₃ _

/-! ## Steps -/

/-- The reader stays in the input, and a value takes nothing off the stack. -/
theorem of_readOn {q : Pending} (hm : m.position ≤ src.bytes.length)
    (hs : readOn r src q m = .ok p m') :
    m'.position ≤ src.bytes.length ∧ m.tasks <:+ m'.tasks := by
  have hread := (src.read_le m.bounds m.position q.partialValue).2 hm
  unfold readOn at hs
  match hr : src.read m.bounds m.position q.partialValue with
  | (.ok word, a, v) =>
    simp only [hr] at hs hread
    obtain ⟨-, hs⟩ := of_answer hs
    have hc : Still { m with position := a } (complete r src q word { m with position := a }) :=
      still_complete
    rw [hs] at hc
    exact ⟨hc.position ▸ hread, hc.tasks⟩
  | (.error cause, a, v) =>
    simp only [hr] at hs hread
    split at hs
    · cases hs
      exact ⟨hread, List.suffix_rfl⟩
    · cases hs

theorem of_doTask {task : Task} {rest : List Task} (hs : doTask r src task { m with tasks := rest } =
    .ok p m') : m'.position = m.position ∧ rest <:+ m'.tasks := by
  have h : Still { m with tasks := rest } (doTask r src task { m with tasks := rest }) :=
    still_doTask _
  rw [hs] at h
  exact ⟨h.position, h.tasks⟩

theorem inside_step (hm : m.position ≤ src.bytes.length) (hs : step r src m = .ok p m') :
    m'.position ≤ src.bytes.length := by
  cases hp : m.pending with
  | some q =>
    rw [step_of_pending hp] at hs
    exact (of_readOn (m := { m with pending := none }) hm hs).1
  | none =>
    cases ht : m.tasks with
    | nil =>
      rw [step_of_none hp ht] at hs
      have h : Still m (checkTrailing r src m) := still_checkTrailing
      rw [hs] at h
      exact h.position ▸ hm
    | cons task rest =>
      rw [step_of_task hp ht] at hs
      exact (of_doTask hs).1 ▸ hm

end Machine

end Transcoder

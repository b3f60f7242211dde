import Transcoder.Proofs.Session.Timely

/-!
# The headers of begun blocks

A session keeps the headers of the blocks that were begun under their names. Beginning a block puts
one there and finishing one takes it away, and no other command does anything to them.

Results:
* `Session.only_step`: the header of a begun block stays until a block of its name is begun or
  finished.
-/
namespace Transcoder

namespace Named

variable {α : Type} {xs : Named α} {name name' : String} {x : α}

/-- There is one thing of that name. -/
def Only (xs : Named α) (name : String) (x : α) : Prop := ∀ y, (name, y) ∈ xs ↔ y = x

theorem mem_erase {entry : String × α} : entry ∈ erase xs name ↔ entry ∈ xs ∧ entry.1 ≠ name := by
  rw [erase, List.mem_filter, bne_iff_ne]

theorem mem_put {entry : String × α} :
    entry ∈ put xs name x ↔ entry = (name, x) ∨ entry ∈ xs ∧ entry.1 ≠ name := by
  rw [put, List.mem_cons, mem_erase]

/-- What has no name is not in the list. -/
theorem not_mem_of_get?_none (h : get? xs name = none) (y : α) : (name, y) ∉ xs := by
  intro hmem
  have hne := List.lookup_eq_none_iff.1 h _ hmem
  simp at hne

theorem Only.get? (h : xs.Only name x) : xs.get? name = some x := by
  cases hget : xs.get? name with
  | none => exact absurd ((h x).2 rfl) (not_mem_of_get?_none hget x)
  | some y =>
    obtain ⟨front, rest, rfl, -⟩ := List.lookup_eq_some_iff.1 hget
    rw [(h y).1 (List.mem_append_right _ List.mem_cons_self)]

theorem only_put (xs : Named α) (name : String) (x : α) : (put xs name x).Only name x := by
  intro y
  rw [mem_put]
  simp

theorem Only.erase (h : xs.Only name x) (hne : name ≠ name') : (erase xs name').Only name x := by
  intro y
  rw [mem_erase, h y, and_iff_left hne]

theorem Only.put (h : xs.Only name x) (hne : name ≠ name') (z : α) :
    (put xs name' z).Only name x := by
  intro y
  rw [mem_put, h y, and_iff_left hne, or_iff_right]
  rintro ⟨rfl, -⟩
  exact hne rfl

end Named

namespace Session

variable {s s' s'' : Session} {name block : String} {cmd : Command} {header : OpenHeader}

theorem headers_onCursor {source : String} {f : AnyCursor → Reply × Session}
    (hf : ∀ c, (f c).2.headers = s.headers) : (s.onCursor source f).2.headers = s.headers := by
  rw [onCursor]
  split
  · exact hf _
  · rfl

theorem headers_onReader (s : Session) (name : String) (f : Reader → Reply × Reader) :
    (s.onReader name f).2.headers = s.headers :=
  headers_onCursor fun c => by cases c <;> rfl

theorem headers_onWriter {ε α : Type} (s : Session) (name : String) (answer : α → Reply)
    (refuse : ε → Reply) (act : Writing ε α) :
    (s.onWriter name answer refuse act).2.headers = s.headers := by
  refine headers_onCursor fun c => ?_
  cases c with
  | reader c => rfl
  | writer w =>
    simp only
    split <;> rfl

theorem headers_moveCursor (s : Session) (name : String)
    (f : {role : Role} → Cursor role → Except StreamError (Cursor role)) :
    (s.moveCursor name f).2.headers = s.headers := by
  refine headers_onCursor fun c => ?_
  cases c with
  | reader c | writer c =>
    simp only
    split <;> rfl

theorem headers_stepCursor (s : Session) (name : String) (cmd : CursorCommand) :
    (s.stepCursor name cmd).2.headers = s.headers := by
  cases cmd with
  | makeReader _ _ | makeWriter _ _ | drop => rfl
  | makeReaderOver _ _ | copy _ | position => exact headers_onCursor fun c => by cases c <;> rfl
  | pushBound _ | popBound | seek _ | close | refresh => exact s.headers_moveCursor name _
  | fixEnd => exact s.headers_fixEnd name
  | align | alignStream =>
    refine headers_onCursor fun c => ?_
    cases c with
    | reader c => rfl
    | writer w => exact s.headers_onWriter name _ _ _

theorem headers_keepExtent (block : String) (r : Reply × Session) :
    (keepExtent block r).2.headers = r.2.headers := by
  unfold keepExtent
  split <;> rfl

theorem headers_stepReader (s : Session) (name : String) (cmd : ReaderCommand) :
    (s.stepReader name cmd).2.headers = s.headers := by
  cases cmd with
  | readByte | readBit | readBits _ | readValue _ | readNode _ | readSize =>
    exact s.headers_onReader name _
  | enter block | enterSized block size =>
    exact (headers_keepExtent block _).trans (s.headers_onReader name _)
  | resume partialValue =>
    rw [stepReader]
    split
    · rfl
    · refine headers_onCursor fun c => ?_
      cases c <;> rfl
  | leave block =>
    rw [stepReader]
    split
    · rfl
    · exact s.headers_onReader name _

/-- The header of a block stays until a block of its name is begun or finished. -/
theorem only_step (h : s.headers.Only block header)
    (hbegin : ∀ name, cmd ≠ .writer name (.beginBlock block))
    (hfinish : ∀ name, cmd ≠ .writer name (.finishBlock block)) :
    (s.step cmd).2.headers.Only block header := by
  cases cmd with
  | tape cmd => exact (s.turns_stepTape cmd).headers ▸ h
  | cursor name cmd => exact (s.headers_stepCursor name cmd) ▸ h
  | reader name cmd => exact (s.headers_stepReader name cmd) ▸ h
  | startValue name kind => exact h
  | writer name cmd =>
    cases cmd with
    | beginBlock block' =>
      have hne : block ≠ block' := fun heq => hbegin name (heq ▸ rfl)
      have hsame := s.headers_onWriter name .header .notEncoded s.framing.beginBlock
      show (keepHeader block' (s.onWriter name .header .notEncoded
        s.framing.beginBlock)).2.headers.Only block header
      unfold keepHeader
      split
      · rename_i heq
        rw [heq] at hsame
        exact (show Named.Only _ _ _ from hsame ▸ h).put hne _
      · exact hsame ▸ h
    | finishBlock block' =>
      have hne : block ≠ block' := fun heq => hfinish name (heq ▸ rfl)
      simp only [step, stepWriter]
      split
      · exact h
      · rw [headers_onWriter]
        exact h.erase hne
    | _ => exact (s.headers_onWriter name _ _ _) ▸ h

end Session

end Transcoder

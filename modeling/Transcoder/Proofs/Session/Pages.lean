import Transcoder.Proofs.Session.Effects
import Transcoder.Proofs.Tape.Appending

/-!
# What a command for the tape does

The commands that give and take bytes and pages act on the tape, and some of them keep a page under
a name; cursors and begun blocks they leave as they are. `Tape.Turn` lists what becomes of the tape,
so that what holds of all these commands is proved from the list.

Results:
* `Tape.Turn.passes`: pages that are held stay.
* `Session.turns_stepTape`: every command for the tape does what the list says, and nothing else.
-/
namespace Transcoder

/-- What a command makes of a tape of which the pages in `held` are held. -/
inductive Tape.Turn (held : List Nat) (t : Tape) : TapeCommand → Tape → Prop
  | same (cmd : TapeCommand) : Turn held t cmd t
  | appended {bytes : List UInt8} {n : Nat} {t' : Tape} (h : t.append bytes = (.ok n, t')) :
    Turn held t (.append bytes) t'
  | refused {bytes : List UInt8} {e : StreamError} {t' : Tape}
    (h : t.append bytes = (.error e, t')) : Turn held t (.append bytes) t'
  | ended {address : Nat} {t' : Tape} (h : t.fixEnd address = .ok t') :
    Turn held t (.fixEnd address) t'
  | broken : Turn held t .markBroken t.break_
  | truncated {address : Nat} (h : t.start ≤ address) :
    Turn held t (.truncate address) { t with fill := min t.fill address }
  | evicted (mark : Nat) : Turn held t (.evict mark) (t.evict held mark)
  | grown (address : Nat) (keep : Option String) (page : Nat) :
    Turn held t (.writePage address keep) (t.grow page)
  | put (name : String) (address : Nat) (b : UInt8) :
    Turn held t (.pageSet name address b) (t.put address b)

/-- Nobody who holds a page in `held` is harmed: the pages are of the same size and none was lost,
and a broken tape stays broken. -/
structure Tape.Passes (held : List Nat) (t t' : Tape) : Prop where
  pageSize : t'.pageSize = t.pageSize
  endPage : t.endPage ≤ t'.endPage
  held : ∀ page ∈ held, t.firstPage ≤ page → t'.firstPage ≤ page
  broken : t.broken = true → t'.broken = true

namespace Tape

variable {t t' : Tape} {held : List Nat}

theorem Passes.refl (held : List Nat) (t : Tape) : t.Passes held t :=
  ⟨rfl, Nat.le_refl _, fun _ _ h => h, id⟩

theorem Grows.passes (h : t.Grows t') (held : List Nat) : t.Passes held t' :=
  ⟨h.pageSize, h.endPage, fun _ _ hp => h.firstPage.symm ▸ hp, fun hb => h.broken.trans hb⟩

theorem passes_of_fixEnd {address : Nat} (h : t.fixEnd address = .ok t') (held : List Nat) :
    t.Passes held t' := by
  obtain ⟨rfl, -⟩ := of_fixEnd h
  exact ⟨rfl, Nat.le_refl _, fun _ _ hp => hp, id⟩

/-- Every command for the tape leaves the pages that are held. -/
theorem Turn.passes {cmd : TapeCommand} (h : t.Turn held cmd t') : t.Passes held t' := by
  cases h with
  | same => exact .refl held t
  | @appended bytes _ _ h | @refused bytes _ _ h =>
    have hg := t.append_grows bytes
    rw [h] at hg
    exact hg.passes held
  | ended h => exact passes_of_fixEnd h held
  | broken => exact ⟨rfl, Nat.le_refl _, fun _ _ hp => hp, fun _ => rfl⟩
  | truncated _ => exact (t.refill_grows _).passes held
  | evicted mark =>
    exact ⟨rfl, Nat.le_of_eq (endPage_evict held mark).symm,
      fun page hmem hp => evict_le_held held mark hmem hp, id⟩
  | grown _ _ page => exact (grow_grows page).passes held
  | put _ address b => exact (t.storedFrom_put address b).toGrows.passes held

end Tape

namespace Session

/-- A command for the tape has led to `s'`. -/
structure Turns (s : Session) (cmd : TapeCommand) (s' : Session) : Prop where
  tape : s.tape.Turn s.heldPages cmd s'.tape
  cursors : s'.cursors = s.cursors
  headers : s'.headers = s.headers
  /-- Only pages that are there are kept. -/
  bookmarks : ∀ b ∈ s'.bookmarks.values,
    b ∈ s.bookmarks.values ∨ ∀ page ∈ b.page, s'.tape.resident page = true

variable {s : Session} {cmd : TapeCommand}

theorem turns_tape {t : Tape} (h : s.tape.Turn s.heldPages cmd t) :
    Turns s cmd { s with tape := t } :=
  ⟨h, rfl, rfl, fun _ hb => .inl hb⟩

theorem turns_self (s : Session) (cmd : TapeCommand) : Turns s cmd s :=
  turns_tape (.same cmd)

theorem turns_keepPage {t : Tape} {address : Nat} (h : s.tape.Turn s.heldPages cmd t)
    (hr : t.resident (t.pageOf address) = true) (keep : Option String) :
    Turns s cmd (keepPage { s with tape := t } address keep).2 := by
  cases keep with
  | none => exact turns_tape h
  | some name =>
    refine ⟨h, rfl, rfl, fun b hb => ?_⟩
    rcases Named.mem_values_of_put hb with rfl | hb
    · right
      intro page hpage
      cases hpage
      exact hr
    · exact .inl hb

theorem turns_onTape {r : Except StreamError Tape}
    (h : ∀ t, r = .ok t → s.tape.Turn s.heldPages cmd t) : Turns s cmd (s.onTape r).2 := by
  cases r with
  | ok t => exact turns_tape (h t rfl)
  | error e => exact turns_self s cmd

theorem turns_onBookmark {name : String} {f : Nat → Reply × Session}
    (hf : ∀ page, Turns s cmd (f page).2) : Turns s cmd (s.onBookmark name f).2 := by
  rw [onBookmark]
  cases (s.bookmarks.get? name).bind Bookmark.page with
  | none => exact turns_self s cmd
  | some page => exact hf page

/-- Every command for the tape does what the list says. -/
theorem turns_stepTape (s : Session) (cmd : TapeCommand) : Turns s cmd (s.stepTape cmd).2 := by
  cases cmd with
  | append bytes =>
    rw [stepTape]
    cases h : s.tape.append bytes with
    | mk r t =>
      cases r with
      | ok n => exact turns_tape (.appended h)
      | error e => exact turns_tape (.refused h)
  | fixEnd address => exact turns_onTape fun t h => .ended h
  | markBroken => exact turns_tape .broken
  | checkReadable address =>
    refine turns_onTape fun t h => ?_
    cases hc : s.tape.checkReadable address with
    | ok u =>
      rw [hc] at h
      cases h
      exact .same _
    | error e =>
      rw [hc] at h
      cases h
  | truncate address =>
    refine turns_onTape fun t h => ?_
    rw [Tape.truncate] at h
    by_cases hlt : address < s.tape.start
    · rw [if_pos hlt] at h
      cases h
    · rw [if_neg hlt] at h
      cases h
      exact .truncated (Nat.le_of_not_lt hlt)
  | evict mark => exact turns_tape (.evicted mark)
  | copyOut start length => exact turns_self s _
  | readPage address keep =>
    rw [stepTape, Tape.readPage]
    cases s.tape.checkReadable address with
    | error e => exact turns_self s _
    | ok u =>
      by_cases hr : s.tape.resident (s.tape.pageOf address) = true
      · simp only [bind, Except.bind, if_pos hr]
        exact turns_keepPage (.same _) hr keep
      · simp only [bind, Except.bind, if_neg hr]
        exact turns_self s _
  | writePage address keep =>
    rw [stepTape, Tape.writePage]
    cases h : s.tape.checkWritable address with
    | error e => exact turns_self s _
    | ok u =>
      refine turns_keepPage (.grown address keep _) (Tape.resident_grow ?_) keep
      exact Tape.start_le_of_checkWritable h
  | pageGet name address =>
    refine turns_onBookmark fun page => ?_
    split
    · exact turns_self s _
    · exact turns_self s _
  | pageSet name address b =>
    refine turns_onBookmark fun page => ?_
    split
    · exact turns_tape (.put name address b)
    · exact turns_self s _
  | pageContains name address => exact turns_onBookmark fun page => turns_self s _
  | pageRelease name =>
    rw [stepTape]
    cases s.bookmarks.get? name with
    | none => exact turns_self s _
    | some b =>
      refine ⟨.same _, rfl, rfl, fun b' hb => ?_⟩
      rcases Named.mem_values_of_put hb with rfl | hb
      · right
        intro page hpage
        cases hpage
      · exact .inl hb

end Session

end Transcoder

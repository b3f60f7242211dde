import Transcoder.Proofs.Session.Pages
import Transcoder.Proofs.Tape.Listing

/-!
# The list of bytes behind the commands for a tape

What is appended comes behind the bytes that are there, and a truncation keeps the first of them:
`Session.listed` keeps this list along with a run of commands, from nothing but the answers.
`Session.Renders` says all that a session shows of it, however its pages were made, held, let go and
given up in between.

A run is in order (`Session.Orderly`) if it gives nothing up beyond the fill address, and puts no
byte into a page other than through the tape.

Results:
* `Session.lists_stepTape`, `Session.Pinned.step`: what one command keeps.
* `Session.renders_after`: after every run in order, the session shows the list.
-/
namespace Transcoder

/-- What is left of the list of bytes after a command, by its answer. -/
def TapeCommand.listed (bytes : List UInt8) : TapeCommand → Reply → List UInt8
  | .append new, .number _ => bytes ++ new
  | .truncate address, .done => bytes.take address
  | _, _ => bytes

/-- Pages are given up before the fill address only, and written through the tape only. -/
def TapeCommand.Orderly (t : Tape) : TapeCommand → Prop
  | .evict mark => mark ≤ t.fill
  | .pageSet .. => False
  | _ => True

/-- What a copy of the `n` bytes from `a` on is to give, of a tape that has `bytes`: those bytes, if
the tape is whole, all of them are there, and the first of them was not given up. -/
def Tape.part (t : Tape) (bytes : List UInt8) (a n : Nat) : Except StreamError (List UInt8) :=
  if t.broken then .error (.brokenCursor a)
  else if bytes.length < a + n then .error (.notAvailable bytes.length)
  else if n = 0 ∨ t.start ≤ a then .ok ((bytes.drop a).take n)
  else .error (.brokenCursor a)

namespace Session

/-- The list of bytes after some commands. -/
def listed (s : Session) (bytes : List UInt8) : List TapeCommand → List UInt8
  | [] => bytes
  | cmd :: rest => (s.stepTape cmd).2.listed (cmd.listed bytes (s.stepTape cmd).1) rest

/-- Each command is in order when its turn comes. -/
def Orderly (s : Session) : List TapeCommand → Prop
  | [] => True
  | cmd :: rest => cmd.Orderly s.tape ∧ (s.stepTape cmd).2.Orderly rest

/-- No page that something holds was given up. -/
def Pinned (s : Session) : Prop := ∀ page ∈ s.heldPages, s.tape.firstPage ≤ page

/-- The session shows the list of bytes. -/
structure Renders (s : Session) (bytes : List UInt8) : Prop where
  fill : s.tape.fill = bytes.length
  /-- The resident bytes are those of whole pages, one after the other. -/
  start : s.tape.pageSize ∣ s.tape.start ∧ s.tape.start ≤ bytes.length
  resident : ∀ a, (s.tape.byte? a).isSome = true ↔
    s.tape.start ≤ a ∧ a < s.tape.start + s.tape.pageCount * s.tape.pageSize
  /-- Even when the tape is broken, its pages hold the bytes. -/
  shows : s.tape.Shows bytes
  held : ∀ page ∈ s.heldPages, s.tape.start ≤ s.tape.pageStart page
  /-- The first resident address goes up only, and not beyond the mark of the eviction. -/
  moves : ∀ cmd, s.tape.start ≤ (s.stepTape cmd).2.tape.start ∧
    ((s.stepTape cmd).2.tape.start = s.tape.start ∨
      ∃ mark, cmd = .evict mark ∧ (s.stepTape cmd).2.tape.start ≤ mark)
  /-- A part of the list comes out, or the cause why it does not, but for a part that ends behind the
  list and at no address, of a tape that is whole. -/
  copied : ∀ a n, s.tape.copyOut a n = s.tape.part bytes a n ↔
    (s.tape.broken = false → bytes.length < a + n → a + n < UInt64.size)
  /-- An end behind the list that is no address stops the program, which does not say then that the
  bytes are not there. -/
  overrun : ∀ a n, s.tape.broken = false → bytes.length < a + n → UInt64.size ≤ a + n →
    s.tape.part bytes a n = .error (.notAvailable bytes.length) ∧
      s.tape.copyOut a n = .error (.outsidePage (a + n))
  /-- What is appended gets through unless the tape is broken, or some byte that is asked for
  lies behind the end. -/
  appended : ∀ new, (∃ n, (s.stepTape (.append new)).1 = .number n) ↔
    ∀ x < bytes.length + new.length, s.tape.Asks bytes.length false x →
      s.tape.broken = false ∧ ∀ e ∈ s.tape.eof, x < e
  unappended : ∀ new e, (s.stepTape (.append new)).1 = .refused e →
    (s.stepTape (.append new)).2.tape.fill = bytes.length ∧
      ∀ a < bytes.length, (s.stepTape (.append new)).2.tape.byte? a = s.tape.byte? a
  truncated : ∀ a, (s.stepTape (.truncate a)).1 = .done ↔ s.tape.start ≤ a
  untruncated : ∀ a, a < s.tape.start → s.stepTape (.truncate a) = (.refused (.brokenCursor a), s)

end Session

/-! ## One command -/

namespace Tape

variable {t t' : Tape} {held : List Nat} {cmd : TapeCommand}

/-- Only evictions give pages up. -/
theorem Turn.start (h : t.Turn held cmd t') :
    t.start ≤ t'.start ∧ (t'.start = t.start ∨ ∃ mark, cmd = .evict mark ∧ t'.start ≤ mark) := by
  cases h with
  | same | broken | truncated _ | grown _ _ _ => exact ⟨Nat.le_refl _, .inl rfl⟩
  | @appended bytes _ _ h | @refused bytes _ _ h =>
    have hg := t.append_grows bytes
    rw [h] at hg
    exact ⟨Nat.le_of_eq hg.start.symm, .inl hg.start⟩
  | ended h =>
    obtain ⟨rfl, -⟩ := of_fixEnd h
    exact ⟨Nat.le_refl _, .inl rfl⟩
  | put _ address b =>
    have hstart := (t.storedFrom_put address b).toGrows.start
    exact ⟨Nat.le_of_eq hstart.symm, .inl hstart⟩
  | evicted mark =>
    refine ⟨start_le_evict held mark, ?_⟩
    rcases Nat.le_total t.start mark with hle | hle
    · exact .inr ⟨mark, rfl, start_evict_le held mark hle (Nat.le_refl _)⟩
    · have hstay := start_evict_le held mark (Nat.le_refl t.start) hle
      exact .inl (Nat.le_antisymm hstay (start_le_evict held mark))

/-- A copy that ends behind the list and at no address stops the program. -/
theorem Lists.overrun {bytes : List UInt8} (h : t.Lists bytes) {a n : Nat}
    (hwhole : t.broken = false) (hlong : bytes.length < a + n) (hn : UInt64.size ≤ a + n) :
    t.part bytes a n = .error (.notAvailable bytes.length) ∧
      t.copyOut a n = .error (.outsidePage (a + n)) := by
  have hbroken : ¬t.broken = true := Bool.eq_false_iff.1 hwhole
  rw [h.copyOut, part, if_neg hbroken, if_neg hbroken, if_pos hlong, if_pos hlong,
    if_neg (Nat.not_lt.2 hn)]
  exact ⟨rfl, rfl⟩

/-- Any other copy comes to what it is to come to. -/
theorem Lists.copyOut_eq_part_iff {bytes : List UInt8} (h : t.Lists bytes) (a n : Nat) :
    t.copyOut a n = t.part bytes a n ↔
      (t.broken = false → bytes.length < a + n → a + n < UInt64.size) := by
  constructor
  · intro heq hwhole hlong
    refine Nat.lt_of_not_le fun hn => ?_
    obtain ⟨hpart, hcopy⟩ := h.overrun hwhole hlong hn
    rw [hpart, hcopy] at heq
    cases heq
  · intro hn
    rw [h.copyOut, part]
    by_cases hb : t.broken = true
    · rw [if_pos hb, if_pos hb]
    · by_cases hlong : bytes.length < a + n
      · rw [if_pos (hn (Bool.eq_false_iff.2 hb) hlong)]
      · rw [if_neg hlong, if_neg hlong]

/-- What is neither appended nor cut off leaves the list as it is. -/
theorem Turn.lists {bytes : List UInt8} (h : t.Turn held cmd t') (hl : t.Lists bytes)
    (hc : cmd.Orderly t) (happend : ∀ new, cmd ≠ .append new) (hcut : ∀ a, cmd ≠ .truncate a) :
    t'.Lists bytes := by
  cases h with
  | same => exact hl
  | appended h | refused h => exact absurd rfl (happend _)
  | truncated h => exact absurd rfl (hcut _)
  | ended h =>
    obtain ⟨rfl, -⟩ := of_fixEnd h
    exact hl.flagged _ _
  | broken => exact hl.flagged _ _
  | evicted mark => exact hl.evict held (hl.fill ▸ hc)
  | grown _ _ page => exact hl.grow page
  | put => exact hc.elim

end Tape

namespace Session

variable {s : Session} {cmd : TapeCommand} {bytes : List UInt8}

/-- A command is to the list what its answer says. -/
theorem lists_stepTape (h : s.tape.Lists bytes) (hc : cmd.Orderly s.tape) :
    (s.stepTape cmd).2.tape.Lists (cmd.listed bytes (s.stepTape cmd).1) := by
  have hturn := (s.turns_stepTape cmd).tape
  cases cmd with
  | append new =>
    rw [stepTape]
    cases ha : s.tape.append new with
    | mk r t =>
      cases r with
      | ok n => exact (h.append ha).2
      | error e => exact h.stored (Tape.of_append_error ha)
  | truncate a =>
    rw [stepTape, Tape.truncate]
    by_cases hlt : a < s.tape.start
    · rw [if_pos hlt]
      exact h
    · rw [if_neg hlt]
      exact h.truncate (Nat.le_of_not_lt hlt)
  | _ =>
    refine hturn.lists h hc ?_ ?_
    · intro new heq
      cases heq
    · intro a heq
      cases heq

/-- Whatever a command keeps is there, and what was kept stays. -/
theorem Pinned.step (h : s.Pinned) (cmd : TapeCommand) : (s.stepTape cmd).2.Pinned := by
  have hturns := s.turns_stepTape cmd
  intro page hpage
  have hold (hmem : page ∈ s.heldPages) : (s.stepTape cmd).2.tape.firstPage ≤ page :=
    hturns.tape.passes.held page hmem (h page hmem)
  rw [heldPages, hturns.cursors, hturns.headers, List.mem_append] at hpage
  rcases hpage with hpage | hpage
  · exact hold (List.mem_append_left _ hpage)
  · obtain ⟨b, hb, hbpage⟩ := List.mem_filterMap.1 hpage
    rcases hturns.bookmarks b hb with hb | hresident
    · exact hold (List.mem_append_right _ (List.mem_filterMap.2 ⟨b, hb, hbpage⟩))
    · have hr := hresident page hbpage
      rw [Tape.resident, Bool.and_eq_true, decide_eq_true_eq] at hr
      exact hr.1

/-! ## What a session shows -/

/-- What an append answers, and what a refused one leaves. -/
theorem stepTape_append (s : Session) (new : List UInt8) :
    (∃ n t, s.tape.append new = (.ok n, t) ∧
        s.stepTape (.append new) = (.number n, { s with tape := t })) ∨
      ∃ e t, s.tape.append new = (.error e, t) ∧
        s.stepTape (.append new) = (.refused e, { s with tape := t }) := by
  rw [stepTape]
  cases s.tape.append new with
  | mk r t =>
    cases r with
    | ok n => exact .inl ⟨n, t, rfl, rfl⟩
    | error e => exact .inr ⟨e, t, rfl, rfl⟩

theorem number_append_iff (h : s.tape.Lists bytes) (new : List UInt8) :
    (∃ n, (s.stepTape (.append new)).1 = .number n) ↔
      ∀ x < bytes.length + new.length, s.tape.Asks bytes.length false x →
        s.tape.broken = false ∧ ∀ e ∈ s.tape.eof, x < e := by
  have hiff : (∃ n, (s.stepTape (.append new)).1 = .number n) ↔
      ∃ n t, s.tape.append new = (.ok n, t) := by
    rcases s.stepTape_append new with ⟨n, t, ha, hs⟩ | ⟨e, t, ha, hs⟩
    · simp [ha, hs]
    · simp [ha, hs]
  rw [hiff]
  simp only [Tape.exists_append_ok_iff, exists_eq_left, h.fill]
  refine forall₃_congr fun x _ hasks => ?_
  rw [Tape.checkWritable_eq_ok, ← and_assoc, and_iff_left]
  -- nothing from the fill address on was given up
  have hstart := h.start_le
  rcases hasks with ⟨rfl, -⟩ | ⟨hlt, -⟩
  · exact hstart
  · exact Nat.le_of_lt (Nat.lt_of_le_of_lt hstart hlt)

theorem fill_of_append_refused (h : s.tape.Lists bytes) {new : List UInt8} {e : StreamError}
    (hr : (s.stepTape (.append new)).1 = .refused e) :
    (s.stepTape (.append new)).2.tape.fill = bytes.length ∧
      ∀ a < bytes.length, (s.stepTape (.append new)).2.tape.byte? a = s.tape.byte? a := by
  rcases s.stepTape_append new with ⟨n, t, -, hs⟩ | ⟨e', t, ha, hs⟩
  · rw [hs] at hr
    cases hr
  have hstored := Tape.of_append_error ha
  rw [hs]
  refine ⟨hstored.fill.trans h.fill, fun a ha => ?_⟩
  have hlists := h.stored hstored
  by_cases hle : s.tape.start ≤ a
  · rw [h.shows a hle ha, ← hlists.shows a (hstored.start ▸ hle) ha]
  · rw [Tape.byte?, Tape.byte?, if_neg hle, hstored.start, if_neg hle]

theorem renders (h : s.tape.Lists bytes) (hp : s.Pinned) : s.Renders bytes where
  fill := h.fill
  start := ⟨Nat.dvd_mul_left .., h.start_le⟩
  resident := h.isSome_byte?
  shows := h.shows
  held page hmem := Nat.mul_le_mul_right _ (hp page hmem)
  moves cmd := (s.turns_stepTape cmd).tape.start
  copied := h.copyOut_eq_part_iff
  overrun _ _ := h.overrun
  appended := number_append_iff h
  unappended new e := fill_of_append_refused h
  truncated a := by
    rw [stepTape, Tape.truncate]
    by_cases hlt : a < s.tape.start
    · rw [if_pos hlt]
      refine iff_of_false ?_ (Nat.not_le.2 hlt)
      intro h
      cases h
    · rw [if_neg hlt]
      exact iff_of_true rfl (Nat.le_of_not_lt hlt)
  untruncated a hlt := by
    rw [stepTape, Tape.truncate, if_pos hlt]
    rfl

/-- What was put together command by command is what the session shows. -/
theorem renders_of_orderly {cmds : List TapeCommand} (h : s.tape.Lists bytes) (hp : s.Pinned)
    (hc : s.Orderly cmds) : (s.after (cmds.map .tape)).Renders (s.listed bytes cmds) := by
  induction cmds generalizing s bytes with
  | nil => exact renders h hp
  | cons cmd rest ih => exact ih (lists_stepTape h hc.1) (hp.step cmd) hc.2

/-- After every run in order from an empty tape, whatever its page size, the session shows the list
of all bytes that were appended and not cut off. -/
theorem renders_after (pageSize : Nat) (framing : Framing) {cmds : List TapeCommand}
    (hc : Orderly { tape := Tape.blank pageSize, framing } cmds) :
    (after { tape := Tape.blank pageSize, framing } (cmds.map .tape)).Renders
      (listed { tape := Tape.blank pageSize, framing } [] cmds) :=
  renders_of_orderly (Tape.lists_blank pageSize) (fun _ h => nomatch h) hc

/-- A page is held while bytes before it are given up and its own are cut off, and overwritten when
the stream goes on; then it is let go. The end is fixed where a page begins, so the last append is
refused. -/
def paging : List TapeCommand :=
  [.append [1, 2, 3, 4, 5], .readPage 2 (some "held"), .evict 5, .truncate 3, .append [6, 7, 8],
    .pageRelease "held", .evict 5, .fixEnd 6, .append [9]]

theorem renders_paging : Orderly { tape := Tape.blank 2, framing := {} } paging ∧
    (after { tape := Tape.blank 2, framing := {} } (paging.map .tape)).Renders
      [1, 2, 3, 6, 7, 8] := by
  have hc : Orderly { tape := Tape.blank 2, framing := {} } paging := by
    refine ⟨trivial, trivial, ?_, trivial, trivial, trivial, ?_, trivial, trivial, trivial⟩
    · show 5 ≤ _
      decide
    · show 5 ≤ _
      decide
  have hlisted : listed { tape := Tape.blank 2, framing := {} } [] paging = [1, 2, 3, 6, 7, 8] := by
    rfl
  exact ⟨hc, hlisted ▸ renders_after 2 {} hc⟩

/-- Of one byte, as much as can be asked for from behind it on: the end is no address, so it is not
said that the bytes are not there. -/
theorem not_part_overrun :
    (after { tape := Tape.blank 4, framing := {} } [.tape (.append [0xaa])]).Renders [0xaa] ∧
    (after { tape := Tape.blank 4, framing := {} } [.tape (.append [0xaa])]).tape.part [0xaa] 1
        (UInt64.size - 1) = .error (.notAvailable 1) ∧
    (after { tape := Tape.blank 4, framing := {} } [.tape (.append [0xaa])]).tape.copyOut 1
        (UInt64.size - 1) ≠ .error (.notAvailable 1) := by
  have hlists : (after { tape := Tape.blank 4, framing := {} }
      [.tape (.append [0xaa])]).tape.Lists [0xaa] :=
    lists_stepTape (s := { tape := Tape.blank 4, framing := {} }) (Tape.lists_blank 4) trivial
  have hrenders := renders hlists fun _ h => nomatch h
  obtain ⟨hpart, hcopy⟩ := hrenders.overrun 1 (UInt64.size - 1) rfl (by decide) (by decide)
  refine ⟨hrenders, hpart, ?_⟩
  rw [hcopy]
  intro h
  cases h

end Session

end Transcoder

import Transcoder.Proofs.Session.Headers

/-!
# Begun blocks and the page of their header

A begun block keeps a writer on its header, so that the page of the header is there when the block
is finished. It is a copy of the writer that has begun the block, from before the header was
written. So it holds the page that this writer held by then, which may be an earlier one or none.

Results:
* `Session.Begun.body`: what holds of a begun block all the time, whatever else is done.
* `Session.exists_released`: everything else can be let go.
* `Session.pins_iff`: which begun blocks keep the page of their header.
-/
namespace Transcoder

/-! ## Tapes -/

namespace Tape

variable {t t' : Tape} {held : List Nat} {cmd : TapeCommand} {page mark : Nat}

/-- Pages before the mark are given up if neither they nor any before them are held. -/
theorem lt_firstPage_evict (hend : page < t.endPage) (hmark : t.pageEnd page ≤ mark)
    (hheld : ∀ p ∈ held, page < p) : page < (t.evict held mark).firstPage := by
  by_cases hfirst : page < t.firstPage
  · exact Nat.lt_of_lt_of_le hfirst (firstPage_le_evict held mark)
  have hcount : t.pageCount = (page + 1 - t.firstPage) + (t.endPage - (page + 1)) := by
    rw [endPage] at hend ⊢
    omega
  have hfront : ∀ p ∈ List.range' t.firstPage (page + 1 - t.firstPage),
      (decide (t.pageEnd p ≤ mark) && !held.contains p) = true := by
    intro p hp
    have hle : p ≤ page := by
      have := (List.mem_range'_1.1 hp).2
      omega
    have hpend : t.pageEnd p ≤ mark :=
      Nat.le_trans (Nat.mul_le_mul_right _ (Nat.succ_le_succ hle)) hmark
    have hnot : p ∉ held := fun hmem => absurd (hheld p hmem) (Nat.not_lt.2 hle)
    simpa using ⟨hpend, hnot⟩
  have hlong : page + 1 - t.firstPage ≤ t.evictable held mark := by
    rw [evictable, hcount, ← List.range'_append_1, List.takeWhile_append_of_pos hfront,
      List.length_append, List.length_range']
    exact Nat.le_add_right ..
  show page < t.firstPage + t.evictable held mark
  omega

/-- Commands for the tape give no page up, but for the two that are for it. -/
theorem Turn.retains (h : t.Turn held cmd t') (hbreak : cmd ≠ .markBroken)
    (hevict : ∀ mark, cmd ≠ .evict mark) : t.Retains t' := by
  have hsame {t' : Tape} (hg : t.Grows t') (hf : t'.fill = t.fill) : t.Retains t' :=
    hg.retains (Nat.le_of_eq hf) fun hle => hf.symm ▸ hle
  cases h with
  | same => exact hsame (.refl t) rfl
  | @appended bytes n _ h =>
    have hg := t.append_grows bytes
    have hbacked (hb : t.Backed) := hb.append bytes
    rw [h] at hg hbacked
    obtain ⟨rfl, -, rfl⟩ := of_append_ok h
    exact ⟨hg.start, hg.broken, fun hle => Nat.le_trans hle (Nat.le_add_right ..), hbacked⟩
  | refused h =>
    have hstored := of_append_error h
    exact hsame hstored.toGrows hstored.fill
  | ended h => exact retains_fixEnd h
  | broken => exact absurd rfl hbreak
  | truncated ha => exact retains_cut ha
  | evicted mark => exact absurd rfl (hevict mark)
  | grown _ _ page => exact hsame (grow_grows page) rfl
  | put _ address b =>
    have hstored := t.storedFrom_put address b
    exact hsame hstored.toGrows hstored.fill

theorem Backed.evict (h : t.Backed) (held : List Nat) (mark : Nat) :
    (t.evict held mark).Backed := by
  rw [Backed, pageStart, endPage_evict]
  exact h

/-- Every byte keeps its page, or the place of it. -/
theorem Backed.turn (h : t.Backed) (k : t.Turn held cmd t') : t'.Backed := by
  by_cases hbreak : cmd = .markBroken
  · subst hbreak
    cases k with
    | same | broken => exact h
  by_cases hevict : ∃ mark, cmd = .evict mark
  · obtain ⟨mark, rfl⟩ := hevict
    cases k with
    | same => exact h
    | evicted => exact h.evict held mark
  · exact (k.retains hbreak fun mark he => hevict ⟨mark, he⟩).backed h

end Tape

namespace Session

variable {s s' : Session} {name block : String} {cmd : Command} {t : Tape} {c : Option AnyCursor}

/-! ## Steps of the tape -/

theorem Effect.retains (he : Effect s name cmd t c) (h : s.Regular)
    (hfinish : ∀ name block, cmd ≠ .writer name (.finishBlock block)) : s.tape.Retains t := by
  cases he with
  | none _ | dropped | madeReader _ _ _ _ | made _ _ _ | copied _ | movedReader _ _ | moved _ _
  | read _ _ => exact (Tape.Grows.refl _).retains (Nat.le_refl _) id
  | wrote hget hw =>
    have hk := (h.writer hget).toKept
    exact (hw hk).retains hk
  | finished => exact absurd rfl (hfinish _ _)
  | ended he | endedReading _ he | endedWriting _ he => exact Tape.retains_fixEnd he

/-- Finishing a block gives no page up. Where its header is on a page that is there, it is not
refused as on a broken tape. -/
theorem finishBlock_retains (h : s.Regular) (name block : String) :
    s.tape.Retains (s.step (.writer name (.finishBlock block))).2.tape ∧
      ∀ header, s.headers.get? block = some header → header.cursor.Ready s.tape →
        ∀ a, (s.step (.writer name (.finishBlock block))).1 ≠
          .notEncoded (.stream (.brokenCursor a)) := by
  have hsame : s.tape.Retains s.tape := (Tape.Grows.refl _).retains (Nat.le_refl _) id
  simp only [step, stepWriter]
  cases hheader : s.headers.get? block with
  | none => exact ⟨hsame, fun _ h => by cases h⟩
  | some header =>
    have hk := (h.headers block header hheader).toKept
    simp only [onWriter, onCursor]
    cases hget : s.cursors.get? name with
    | none => exact ⟨hsame, fun _ _ _ _ h => by cases h⟩
    | some c =>
      cases c with
      | reader c => exact ⟨hsame, fun _ _ _ _ h => by cases h⟩
      | writer w =>
        have hthrough := through_finishBlock hk s.framing w
        simp only
        generalize s.framing.finishBlock header (s.tape, w) = r at hthrough
        cases hthrough with
        | ok hs => exact ⟨hs.retains hk, fun _ _ _ _ h => by cases h⟩
        | cut hs ha =>
          exact ⟨(hs.retains hk).trans (Tape.retains_cut ha), fun _ _ _ _ h => by cases h⟩
        | error hs he =>
          refine ⟨hs.retains hk, fun header' heq hready a hreply => ?_⟩
          cases heq
          cases hreply
          exact he Cursor.guard_ready hready ⟨⟨a⟩⟩

/-- Commands for cursors and blocks give no page up. -/
theorem retains_step (h : s.Regular) (hc : ∀ c, cmd ≠ .tape c) :
    s.tape.Retains (s.step cmd).2.tape := by
  by_cases hfinish : ∃ name block, cmd = .writer name (.finishBlock block)
  · obtain ⟨name, block, rfl⟩ := hfinish
    exact (finishBlock_retains h name block).1
  · have hdirect : cmd.direct = true := by
      cases cmd with
      | tape c => exact absurd rfl (hc c)
      | _ => rfl
    obtain ⟨name, t, c, he, hbecomes⟩ := s.did_step hdirect
    rw [hbecomes.tape]
    exact he.retains h fun name block heq => hfinish ⟨name, block, heq⟩

theorem backed_step (h : s.Regular) (hb : s.tape.Backed) (cmd : Command) :
    (s.step cmd).2.tape.Backed := by
  cases cmd with
  | tape cmd => exact hb.turn (s.turns_stepTape cmd).tape
  | _ =>
    refine (retains_step h fun c hc => ?_).backed hb
    cases hc

/-- Whatever has led to a session, every byte of its stream has had a page. -/
theorem backed_after (pageSize : Nat) (framing : Framing) (cmds : List Command) :
    (after { tape := Tape.blank pageSize, framing } cmds).tape.Backed := by
  have hall (s : Session) (h : s.Regular) (hb : s.tape.Backed) : (s.after cmds).tape.Backed := by
    induction cmds generalizing s with
    | nil => exact hb
    | cons cmd rest ih => exact ih _ (h.step cmd) (backed_step h hb cmd)
  exact hall _ (each_blank pageSize framing) (Nat.zero_le _)

end Session

/-! ## What is done while a block is begun -/

/-- The command may be given while the block of that name is begun, on the tape `t`: it does not
break the tape, gives no page up behind the fill address, and neither begins nor finishes a block of
that name. -/
def Command.Amid (cmd : Command) (block : String) (t : Tape) : Prop :=
  match cmd with
  | .tape .markBroken => False
  | .tape (.evict mark) => mark ≤ t.fill
  | .writer _ (.beginBlock block') | .writer _ (.finishBlock block') => block ≠ block'
  | _ => True

namespace Session

/-- The second session comes from the first while the block of that name is begun. -/
inductive Body (block : String) (s : Session) : Session → Prop
  | nil : Body block s s
  | step {s' : Session} {cmd : Command} (h : Body block s s') (hc : cmd.Amid block s'.tape) :
    Body block s (s'.step cmd).2

variable {s s' s'' : Session} {name block : String} {cmd : Command} {header : OpenHeader}

theorem Body.trans (h : Body block s s') (k : Body block s' s'') : Body block s s'' := by
  induction k with
  | nil => exact h
  | step _ hc ih => exact ih.step hc

/-- Commands of which none counts may be given one after the other. -/
theorem Body.after {cmds : List Command} (h : ∀ cmd ∈ cmds, ∀ t, cmd.Amid block t) (s : Session) :
    Body block s (s.after cmds) := by
  induction cmds generalizing s with
  | nil => exact .nil
  | cons cmd rest ih =>
    refine (Body.nil.step (h cmd List.mem_cons_self _)).trans (ih (fun cmd' hmem => ?_) _)
    exact h cmd' (List.mem_cons_of_mem _ hmem)

/-- The block is begun on a tape that holds out, and the page of its header was made. -/
structure Begun (block : String) (header : OpenHeader) (s : Session) : Prop where
  regular : s.Regular
  firm : s.tape.Firm
  only : s.headers.Only block header
  made : s.tape.pageOf header.start < s.tape.endPage

theorem firm_step (h : s.Regular) (ht : s.tape.Firm) (hc : cmd.Amid block s.tape) :
    (s.step cmd).2.tape.Firm := by
  cases cmd with
  | tape cmd =>
    have hturn := (s.turns_stepTape cmd).tape
    by_cases hevict : ∃ mark, cmd = .evict mark
    · obtain ⟨mark, rfl⟩ := hevict
      exact ⟨ht.whole, Tape.start_evict_le s.heldPages mark ht.start_le hc, ht.backed.evict _ mark⟩
    · refine ht.retains (hturn.retains ?_ fun mark he => hevict ⟨mark, he⟩)
      rintro rfl
      exact hc
  | _ =>
    refine ht.retains (retains_step h fun c hcmd => ?_)
    cases hcmd

/-- A block stays begun, and pages stay as large as they are. -/
theorem Begun.step (h : s.Begun block header) (hc : cmd.Amid block s.tape) :
    (s.step cmd).2.Begun block header ∧ (s.step cmd).2.tape.pageSize = s.tape.pageSize := by
  have hpasses := passes_step h.regular cmd
  have honly : (s.step cmd).2.headers.Only block header := by
    refine only_step h.only (fun name => ?_) fun name => ?_
    all_goals
      rintro rfl
      exact hc rfl
  refine ⟨⟨h.regular.step cmd, firm_step h.regular h.firm hc, honly, ?_⟩, hpasses.pageSize⟩
  rw [Tape.pageOf, hpasses.pageSize]
  exact Nat.lt_of_lt_of_le h.made hpasses.endPage

theorem Begun.body (h : s.Begun block header) (k : Body block s s') :
    s'.Begun block header ∧ s'.tape.pageSize = s.tape.pageSize := by
  induction k with
  | nil => exact ⟨h, rfl⟩
  | step _ hc ih =>
    obtain ⟨hbegun, hsize⟩ := ih.1.step hc
    exact ⟨hbegun, hsize.trans ih.2⟩

/-- The page of the header is there if the header holds it, or an earlier one, and as long as the
stream ends on it. -/
theorem Begun.resident (h : s.Begun block header)
    (hp : (∃ page, header.cursor.page = some page ∧ page ≤ s.tape.pageOf header.start) ∨
      s.tape.fill < s.tape.pageEnd (s.tape.pageOf header.start)) :
    s.tape.resident (s.tape.pageOf header.start) = true := by
  simp only [Tape.resident, Bool.and_eq_true, decide_eq_true_eq]
  refine ⟨?_, h.made⟩
  rcases hp with ⟨page, hpage, hle⟩ | hfill
  · have hheader := h.regular.headers block header h.only.get?
    exact Nat.le_trans (hheader.page page hpage).1 hle
  · have hlt := Nat.lt_of_le_of_lt h.firm.start_le hfill
    exact Nat.le_of_lt_succ (Nat.lt_of_mul_lt_mul_right hlt)

/-- A block whose header is on a page that is there is not refused as on a broken tape. -/
theorem Begun.finish (h : s.Begun block header)
    (hr : s.tape.resident (s.tape.pageOf header.start) = true) (name : String) (a : Nat) :
    (s.step (.writer name (.finishBlock block))).1 ≠ .notEncoded (.stream (.brokenCursor a)) := by
  have hheader := h.regular.headers block header h.only.get?
  refine (finishBlock_retains h.regular name block).2 header h.only.get? ?_ a
  simp only [Tape.resident, Bool.and_eq_true] at hr
  exact ⟨hheader, h.firm, Tape.firstPage_le_pageOf.1 (of_decide_eq_true hr.1)⟩

/-! ## Beginning a block -/

/-- The header is a copy of the writer, from before it was written. -/
theorem begun_of_beginBlock {w : Writer} (h : s.Regular) (hb : s.tape.Backed)
    (hget : s.cursors.get? name = some (.writer w))
    (hbegin : (s.step (.writer name (.beginBlock block))).1 = .header header) :
    header.cursor = w ∧ (s.step (.writer name (.beginBlock block))).2.Begun block header ∧
      (s.step (.writer name (.beginBlock block))).2.tape.pageSize = s.tape.pageSize := by
  have hregular := h.step (.writer name (.beginBlock block))
  have hsize := (passes_step h (.writer name (.beginBlock block))).pageSize
  cases hr : Cursor.writePaddedSize 0 s.framing.reserved (s.tape, w) with
  | error e r =>
    have hstep : (s.step (.writer name (.beginBlock block))).1 = .notEncoded e := by
      simp only [Session.step, stepWriter, onWriter, onCursor_of_some hget, Framing.beginBlock, hr,
        keepHeader]
    rw [hbegin] at hstep
    cases hstep
  | ok u r =>
    obtain ⟨t, w'⟩ := r
    have hstep : s.step (.writer name (.beginBlock block)) = (.header ⟨w, s.framing.reserved⟩,
        { { s with tape := t }.putCursor name (.writer w') with
          headers := s.headers.put block ⟨w, s.framing.reserved⟩ }) := by
      simp only [Session.step, stepWriter, onWriter, onCursor_of_some hget, Framing.beginBlock, hr,
        keepHeader]
      rfl
    obtain ⟨hready, hlt⟩ := (h.writer hget).ready_of_writePaddedSize hb hr
    rw [hstep] at hbegin hregular hsize ⊢
    cases hbegin
    refine ⟨rfl, ⟨hregular, hready.firm, Named.only_put _ _ _, ?_⟩, hsize⟩
    exact Tape.pageOf_lt.2 (Nat.lt_of_lt_of_le hlt hready.firm.backed)

/-! ## Letting everything go -/

/-- Something of the name holds the page, and it is not the header of the block. -/
inductive HeldBy (block : String) (s : Session) (name : String) (page : Nat) : Prop
  | cursor {c : AnyCursor} (hmem : (name, c) ∈ s.cursors) (hp : c.page = some page)
  | header {h : OpenHeader} (hmem : (name, h) ∈ s.headers) (hne : block ≠ name)
    (hp : h.cursor.page = some page)
  | bookmark {b : Bookmark} (hmem : (name, b) ∈ s.bookmarks) (hp : b.page = some page)

theorem heldBy_of_mem_heldPages {page : Nat} (honly : s.headers.Only block header)
    (h : page ∈ s.heldPages) :
    header.cursor.page = some page ∨ ∃ name, HeldBy block s name page := by
  have hentry {α : Type} {xs : Named α} {f : α → Option Nat}
      (h : page ∈ xs.values.filterMap f) : ∃ name x, (name, x) ∈ xs ∧ f x = some page := by
    obtain ⟨x, hx, hp⟩ := List.mem_filterMap.1 h
    obtain ⟨⟨name, _⟩, hmem, rfl⟩ := List.mem_map.1 hx
    exact ⟨name, _, hmem, hp⟩
  rw [heldPages, List.mem_append, List.mem_append] at h
  rcases h with (h | h) | h
  · obtain ⟨name, c, hmem, hp⟩ := hentry h
    exact .inr ⟨name, .cursor hmem hp⟩
  · obtain ⟨name, h, hmem, hp⟩ := hentry h
    by_cases hname : block = name
    · subst hname
      rw [(honly h).1 hmem] at hp
      exact .inl hp
    · exact .inr ⟨name, .header hmem hname hp⟩
  · obtain ⟨name, b, hmem, hp⟩ := hentry h
    exact .inr ⟨name, .bookmark hmem hp⟩

/-- A bookmark that lets its page go. -/
theorem step_pageRelease (s : Session) (name : String) :
    ∃ bookmarks, (s.step (.tape (.pageRelease name))).2 = { s with bookmarks } ∧
      ∀ name' b page, (name', b) ∈ bookmarks → b.page = some page →
        (name', b) ∈ s.bookmarks ∧ name' ≠ name := by
  simp only [step, stepTape]
  cases hget : s.bookmarks.get? name with
  | none =>
    refine ⟨_, rfl, fun name' b page hmem _ => ⟨hmem, ?_⟩⟩
    rintro rfl
    exact Named.not_mem_of_get?_none hget b hmem
  | some b =>
    refine ⟨_, rfl, fun name' b' page hmem hp => ?_⟩
    rcases Named.mem_put.1 hmem with heq | hmem
    · cases heq
      cases hp
    · exact hmem

/-- Without a writer of the name, a block that is finished is only gone. -/
theorem step_finishBlock (hs : s.cursors.get? name = none) (block : String) :
    ∃ headers, (s.step (.writer name (.finishBlock block))).2 = { s with headers } ∧
      ∀ name' h, (name', h) ∈ headers → (name', h) ∈ s.headers ∧ name' ≠ block := by
  simp only [step, stepWriter]
  cases hget : s.headers.get? block with
  | none =>
    refine ⟨_, rfl, fun name' h hmem => ⟨hmem, ?_⟩⟩
    rintro rfl
    exact Named.not_mem_of_get?_none hget h hmem
  | some h =>
    simp only [onWriter, onCursor, hs]
    exact ⟨_, rfl, fun name' h' hmem => Named.mem_erase.1 hmem⟩

/-- Everything of one name can be let go, but for the header of the block. -/
theorem exists_letGo (s : Session) (block name : String) :
    ∃ s', Body block s s' ∧ s'.tape = s.tape ∧
      ∀ name' page, HeldBy block s' name' page → HeldBy block s name' page ∧ name' ≠ name := by
  have hdrop : (s.step (.cursor name .drop)).2 = { s with cursors := s.cursors.erase name } := rfl
  have hrun : Body block s { s with cursors := s.cursors.erase name } :=
    hdrop ▸ Body.nil.step trivial
  obtain ⟨bookmarks, hrelease, hbookmarks⟩ :=
    step_pageRelease { s with cursors := s.cursors.erase name } name
  have hrun : Body block s { s with cursors := s.cursors.erase name, bookmarks } :=
    hrelease ▸ hrun.step trivial
  obtain ⟨headers, hrun, hheaders⟩ : ∃ headers,
      Body block s { s with cursors := s.cursors.erase name, bookmarks, headers } ∧
      ∀ name' h, (name', h) ∈ headers → block ≠ name' → (name', h) ∈ s.headers ∧ name' ≠ name := by
    by_cases hname : block = name
    · exact ⟨s.headers, hrun, fun name' h hmem hne => ⟨hmem, hname ▸ hne.symm⟩⟩
    · have hgone : (s.cursors.erase name).get? name = none := by
        rw [Named.get?_erase, if_pos rfl]
      obtain ⟨headers, hfinish, hheaders⟩ := step_finishBlock
        (s := { s with cursors := s.cursors.erase name, bookmarks }) hgone name
      exact ⟨headers, hfinish ▸ hrun.step hname, fun name' h hmem _ => hheaders name' h hmem⟩
  refine ⟨_, hrun, rfl, fun name' page hheld => ?_⟩
  cases hheld with
  | cursor hmem hp =>
    obtain ⟨hmem, hne⟩ := Named.mem_erase.1 hmem
    exact ⟨.cursor hmem hp, hne⟩
  | header hmem hne hp =>
    obtain ⟨hmem, hne'⟩ := hheaders _ _ hmem hne
    exact ⟨.header hmem hne hp, hne'⟩
  | bookmark hmem hp =>
    obtain ⟨hmem, hne⟩ := hbookmarks _ _ _ hmem hp
    exact ⟨.bookmark hmem hp, hne⟩

/-- One name after the other, until nothing but the header of the block holds a page. -/
theorem exists_released (s : Session) (block : String) :
    ∃ s', Body block s s' ∧ s'.tape = s.tape ∧ ∀ name page, ¬HeldBy block s' name page := by
  have hall (names : List String) : ∃ s', Body block s s' ∧ s'.tape = s.tape ∧
      ∀ name page, HeldBy block s' name page → HeldBy block s name page ∧ name ∉ names := by
    induction names with
    | nil => exact ⟨s, .nil, rfl, fun _ _ h => ⟨h, List.not_mem_nil⟩⟩
    | cons name rest ih =>
      obtain ⟨s₁, hrun₁, htape₁, hheld₁⟩ := ih
      obtain ⟨s₂, hrun₂, htape₂, hheld₂⟩ := exists_letGo s₁ block name
      refine ⟨s₂, hrun₁.trans hrun₂, htape₂.trans htape₁, fun name' page hheld => ?_⟩
      obtain ⟨hheld, hne⟩ := hheld₂ name' page hheld
      obtain ⟨hheld, hnot⟩ := hheld₁ name' page hheld
      exact ⟨hheld, List.not_mem_cons_of_ne_of_not_mem hne hnot⟩
  obtain ⟨s', hrun, htape, hheld⟩ :=
    hall (s.cursors.map Prod.fst ++ s.headers.map Prod.fst ++ s.bookmarks.map Prod.fst)
  refine ⟨s', hrun, htape, fun name page h => ?_⟩
  obtain ⟨h, hnot⟩ := hheld name page h
  rw [List.mem_append, List.mem_append, not_or, not_or] at hnot
  cases h with
  | cursor hmem _ => exact hnot.1.1 (List.mem_map_of_mem hmem)
  | header hmem _ _ => exact hnot.1.2 (List.mem_map_of_mem hmem)
  | bookmark hmem _ => exact hnot.2 (List.mem_map_of_mem hmem)

/-! ## Pages that stay -/

/-- As long as the block is begun, the page of its header is there, and finishing the block is not
refused as on a broken tape. -/
def Pins (block : String) (header : OpenHeader) (s : Session) : Prop :=
  ∀ s', Body block s s' → s'.tape.resident (s'.tape.pageOf header.start) = true ∧
    ∀ name a, (s'.step (.writer name (.finishBlock block))).1 ≠
      .notEncoded (.stream (.brokenCursor a))

/-- Where neither the header nor anything else holds its page or an earlier one, and the stream goes
on behind it, the page can be given up. -/
theorem Begun.exists_not_resident (h : s.Begun block header)
    (hpage : ∀ page, header.cursor.page = some page → s.tape.pageOf header.start < page)
    (hfill : s.tape.pageEnd (s.tape.pageOf header.start) ≤ s.tape.fill) :
    ∃ s', Body block s s' ∧ s'.tape.resident (s'.tape.pageOf header.start) = false := by
  obtain ⟨s₁, hrun, htape, hfree⟩ := exists_released s block
  have honly := (h.body hrun).1.only
  have hevict : (Command.tape (.evict s₁.tape.fill)).Amid block s₁.tape := Nat.le_refl _
  refine ⟨_, hrun.step hevict, ?_⟩
  have hgone : s.tape.pageOf header.start < (s.tape.evict s₁.heldPages s.tape.fill).firstPage := by
    refine Tape.lt_firstPage_evict h.made hfill fun page hmem => ?_
    rcases heldBy_of_mem_heldPages honly hmem with hp | ⟨name, hheld⟩
    · exact hpage page hp
    · exact absurd hheld (hfree name page)
  show (s₁.tape.evict s₁.heldPages s₁.tape.fill).resident (s₁.tape.pageOf header.start) = false
  rw [htape]
  simp only [Tape.resident, Bool.and_eq_false_iff]
  exact .inl (decide_eq_false (Nat.not_le.2 hgone))

/-- Whatever has led to a block that was begun, and whatever is done meanwhile: it keeps the page of
its header exactly if the writer that has begun it held that page by then, or an earlier one, or if
the stream never goes on behind that page. -/
theorem pins_iff {pageSize : Nat} {framing : Framing} {past : List Command} {w : Writer}
    (hs : s = after { tape := Tape.blank pageSize, framing } past)
    (hget : s.cursors.get? name = some (.writer w))
    (hbegin : (s.step (.writer name (.beginBlock block))).1 = .header header) :
    Pins block header (s.step (.writer name (.beginBlock block))).2 ↔
      (∃ page, w.page = some page ∧ page ≤ s.tape.pageOf w.address) ∨
        ∀ s', Body block (s.step (.writer name (.beginBlock block))).2 s' →
          s'.tape.fill < s.tape.pageEnd (s.tape.pageOf w.address) := by
  have hregular : s.Regular := hs ▸ regular_after pageSize framing past
  have hbacked : s.tape.Backed := hs ▸ backed_after pageSize framing past
  obtain ⟨rfl, hbegun, hsize⟩ := begun_of_beginBlock hregular hbacked hget hbegin
  have hpages {s' : Session} (h : s'.tape.pageSize = s.tape.pageSize) :
      s'.tape.pageOf header.start = s.tape.pageOf header.cursor.address ∧
        s'.tape.pageEnd (s.tape.pageOf header.cursor.address) =
          s.tape.pageEnd (s.tape.pageOf header.cursor.address) := by
    simp only [Tape.pageOf, Tape.pageEnd, h, OpenHeader.start, and_self]
  constructor
  · intro hpins
    refine Classical.or_iff_not_imp_left.2 fun hnone s' hrun => Nat.lt_of_not_le fun hfill => ?_
    obtain ⟨hbegun', hsize'⟩ := hbegun.body hrun
    obtain ⟨hpage, hend⟩ := hpages (hsize'.trans hsize)
    obtain ⟨s'', hrun', hgone⟩ := hbegun'.exists_not_resident
      (fun page hp => by
        rw [hpage]
        exact Nat.lt_of_not_le fun hle => hnone ⟨page, hp, hle⟩)
      (by rw [hpage, hend]; exact hfill)
    rw [(hpins s'' (hrun.trans hrun')).1] at hgone
    cases hgone
  · intro h s' hrun
    obtain ⟨hbegun', hsize'⟩ := hbegun.body hrun
    obtain ⟨hpage, hend⟩ := hpages (hsize'.trans hsize)
    have hresident := hbegun'.resident (by
      rw [hpage, hend]
      exact h.imp_right fun hall => hall s' hrun)
    exact ⟨hresident, hbegun'.finish hresident⟩

/-- A writer that has written the first byte of a page of two bytes. -/
def onFirstPage : Session :=
  after { tape := Tape.blank 2, framing := { reserved := 2 } }
    [.cursor "w" (.makeWriter .byte none), .writer "w" (.writeByte 7)]

/-- A block that it begins keeps the page, though the header itself goes on to the next one. -/
theorem pins_onFirstPage : ∃ header,
    (onFirstPage.step (.writer "w" (.beginBlock "k"))).1 = .header header ∧
      Pins "k" header (onFirstPage.step (.writer "w" (.beginBlock "k"))).2 := by
  have hget : onFirstPage.cursors.get? "w" =
      some (.writer { grain := .byte, address := 1, page := some 0, span := 2 }) := by rfl
  have hbegin : (onFirstPage.step (.writer "w" (.beginBlock "k"))).1 =
      .header ⟨{ grain := .byte, address := 1, page := some 0, span := 2 }, 2⟩ := by rfl
  exact ⟨_, hbegin, (pins_iff rfl hget hbegin).2 (.inl ⟨0, rfl, Nat.zero_le _⟩)⟩

/-- A writer that has not written yet, with pages of one byte and headers of two. -/
def fresh : Session :=
  after { tape := Tape.blank 1, framing := { reserved := 2 } }
    [.cursor "w" (.makeWriter .byte none)]

/-- The header of a block that it begins goes on to the second page. Nothing holds the first one,
and without it the block cannot be finished. -/
theorem not_pins_fresh : (fresh.step (.writer "w" (.beginBlock "k"))).1 =
      .header ⟨{ grain := .byte, address := 0 }, 2⟩ ∧
    (fresh.step (.writer "w" (.beginBlock "k"))).2.tape.broken = false ∧
    (fresh.step (.writer "w" (.beginBlock "k"))).2.tape.fill = 2 ∧
    (((fresh.step (.writer "w" (.beginBlock "k"))).2.step (.tape (.evict 1))).2.step
      (.writer "w" (.finishBlock "k"))).1 = .notEncoded (.stream (.brokenCursor 0)) ∧
    ¬Pins "k" ⟨{ grain := .byte, address := 0 }, 2⟩
      (fresh.step (.writer "w" (.beginBlock "k"))).2 := by
  have hfill : (fresh.step (.writer "w" (.beginBlock "k"))).2.tape.fill = 2 := by rfl
  have hrefused : (((fresh.step (.writer "w" (.beginBlock "k"))).2.step (.tape (.evict 1))).2.step
      (.writer "w" (.finishBlock "k"))).1 = .notEncoded (.stream (.brokenCursor 0)) := by rfl
  refine ⟨by rfl, by rfl, hfill, hrefused, fun hpins => ?_⟩
  have hevict : (Command.tape (.evict 1)).Amid "k"
      (fresh.step (.writer "w" (.beginBlock "k"))).2.tape := by
    show 1 ≤ _
    rw [hfill]
    decide
  exact (hpins _ (Body.nil.step hevict)).2 "w" 0 hrefused

end Session

end Transcoder

import Transcoder.Proofs.Session.Effects

/-!
# Nothing behind the fixed end of a stream

Once the end of the stream is fixed, nothing should be written at it or behind it, through whichever
cursor. `Session.Sealed` says so of all that can still be done with the cursors of a session. It
holds exactly as long as every writer is tight: a span that was cached before the end was fixed lets
a writer pass it, and so does a block that was entered before.

Results:
* `invariant_settled`, `Settled.refuses`: while all writers are tight, whatever is done leaves them
  so, and a write that would come to the end is refused.
* `Has.overruns_of_span`, `Has.overruns_of_inside`, `Has.overruns_of_behind`: a writer that is not
  tight can be led past the end.
* `Session.sealed_iff`: the two together.
-/
namespace Transcoder

/-- The bits that a write puts on the stream, if it puts them there as a whole or not at all. -/
def WriterCommand.length? : WriterCommand → Option Nat
  | writeByte _ => some 8
  | writeBit _ => some 1
  | writeBits _ count => some (min count 64)
  | writeValue kind word => some (8 * (kind.bytes word).length)
  | writeNode node word => node.valueKind?.map fun kind => 8 * (kind.bytes word).length
  | _ => none

/-- The write would store the byte at `a`, as its bits fill that byte up. -/
def WriterCommand.Fills (cmd : WriterCommand) (w : Writer) (a : Nat) : Prop :=
  ∃ n, cmd.length? = some n ∧ w.address ≤ a ∧ 8 * (a + 1) ≤ w.position.bits + n

namespace Session

/-- The write is refused. The stream is as long as before, the writer stands where it did, and
neither the bytes before it nor those from `e` on have changed. Between the two a value of several
bytes may have been put over others before it was refused. -/
structure Refuses (s : Session) (name : String) (cmd : WriterCommand) (w : Writer) (e : Nat) :
    Prop where
  answer : (∃ x, (s.step (.writer name cmd)).1 = .refused x) ∨
    ∃ x, (s.step (.writer name cmd)).1 = .notEncoded x
  fill : (s.step (.writer name cmd)).2.tape.fill = s.tape.fill
  position : ∃ w' : Writer, (s.step (.writer name cmd)).2.cursors.get? name = some (.writer w') ∧
    w'.position = w.position
  bytes : ∀ a, a < w.address ∨ e ≤ a →
    (s.step (.writer name cmd)).2.tape.byteAt a = s.tape.byteAt a

/-- Whatever is done with the cursors, nothing is written at `e` or behind it, and a write that
would store a byte there is refused. -/
def Sealed (s : Session) (e : Nat) : Prop :=
  ∀ cmds : List Command, (∀ cmd ∈ cmds, cmd.ofCursors = true) →
    (s.after cmds).tape.fill ≤ e ∧
    (∀ a, e ≤ a → (s.after cmds).tape.byteAt a = s.tape.byteAt a) ∧
    ∀ name w cmd a, (s.after cmds).cursors.get? name = some (.writer w) → e ≤ a →
      WriterCommand.Fills cmd w a → (s.after cmds).Refuses name cmd w e

/-- The end is fixed at `e`, nothing was written behind it since the tape was `t₀`, and all writers
are tight. -/
abbrev Settled (e : Nat) (t₀ : Tape) (s : Session) : Prop :=
  s.Holds (fun t => t.Entire ∧ t.eof = some e ∧ Spared e t₀ t) fun t w => w.Regular t ∧ w.Tight t e

variable {s s' : Session} {name : String} {e : Nat} {t₀ : Tape}

/-! ## While all writers are tight -/

/-- Whatever is done, writers stay tight and nothing is written behind the end. -/
theorem invariant_settled (e : Nat) (t₀ : Tape) :
    Invariant (fun t => t.Entire ∧ t.eof = some e ∧ Spared e t₀ t)
      fun t w => w.Regular t ∧ w.Tight t e := by
  refine ⟨fun h => h.1.toKept, ?_, ?_, ?_, ?_⟩
  · intro t grain address ht
    refine ⟨Cursor.regular_fresh _ grain [] address, fun p hp => ?_, fun ha => ?_⟩
    · cases hp
    · exact absurd ha (Nat.not_lt_zero _)
  · intro t w w' ht hw hm
    exact ⟨hw.1.moved hm, hw.2.moved ht.2.1 hm⟩
  · intro t w t' w' ht hw hs
    obtain ⟨hentire, hone, hothers⟩ := invariant_working.wrote ht.1 hw.1 hs
    obtain ⟨htight, hspared, -⟩ := hs.tight hw.1.toKept ht.2.1 hw.2
    have hg := (hs.keeps hw.1.toKept).2
    refine ⟨⟨hentire, hg.eof.trans ht.2.1, ht.2.2.trans hspared⟩, ⟨hone, htight⟩, ?_⟩
    intro v hv
    exact ⟨hothers v hv.1, hv.2.of_pageSize hg.pageSize⟩
  · intro t t' address ht he
    -- the end can only be fixed where it is
    have hsame : t' = t := by
      obtain ⟨rfl, -, hsame⟩ := Tape.of_fixEnd he
      rw [← hsame e ht.2.1, ← ht.2.1]
    subst hsame
    exact ⟨ht, fun v hv => hv⟩

namespace Settled

/-- An action that would store a byte behind the end is refused. -/
theorem refused {ε : Type} {act : Writing ε Unit} {n a : Nat} {w : Writer} (h : s.Settled e t₀)
    (hget : s.cursors.get? name = some (.writer w)) (hact : Writing.PutsWhole n act) (he : e ≤ a)
    (ha : w.address ≤ a) (hn : 8 * (a + 1) ≤ w.position.bits + n) :
    ∃ x t' w', act (s.tape, w) = .error x (t', w') ∧ t'.fill = s.tape.fill ∧
      w'.position = w.position ∧ ∀ a, a < w.address ∨ e ≤ a → t'.byteAt a = s.tape.byteAt a := by
  obtain ⟨hr, ht⟩ := h.writers _ _ hget
  obtain ⟨hentire, heof, -⟩ := h.tape
  have hyields := hact hr.toKept
  generalize act (s.tape, w) = r at hyields
  have hstart : s.tape.start ≤ s.tape.fill := by
    rw [Tape.start, Tape.pageStart, hentire.2, Nat.zero_mul]
    exact Nat.zero_le _
  cases hyields with
  | @ok _ t' w' hs hp =>
    -- such a write would end behind its byte
    have hw : w'.address ≤ max w.address e := (hs.tight hr.toKept heof ht).2.2
    have hshort : w'.bits.length < 8 := (hs.regular hr).tidy.short
    rw [Cursor.position_eq] at hp
    omega
  | @error x t' w' hs hq =>
    obtain ⟨hfill, hposition⟩ := hq hstart
    refine ⟨x, t', w', rfl, hfill, hposition, fun a ha => ?_⟩
    rcases ha with ha | ha
    · exact hs.ahead.2 a ha
    · exact (hs.tight hr.toKept heof ht).2.1.bytes a ha

theorem refuses_of_step {ε : Type} {act : Writing ε Unit} {refuse : ε → Reply} {cmd : WriterCommand}
    {n a : Nat} {w : Writer} (h : s.Settled e t₀) (hget : s.cursors.get? name = some (.writer w))
    (hact : Writing.PutsWhole n act) (he : e ≤ a) (ha : w.address ≤ a)
    (hn : 8 * (a + 1) ≤ w.position.bits + n)
    (hstep : s.step (.writer name cmd) = s.onWriter name (fun () => .done) refuse act)
    (hrefuse : ∀ x, (∃ y, refuse x = .refused y) ∨ ∃ y, refuse x = .notEncoded y) :
    s.Refuses name cmd w e := by
  obtain ⟨x, t', w', hx, hfill, hposition, hbytes⟩ := h.refused hget hact he ha hn
  have hresult : s.step (.writer name cmd) =
      (refuse x, { s with tape := t' }.putCursor name (.writer w')) := by
    rw [hstep, onWriter, onCursor_of_some hget]
    simp only [hx]
  have hput := becomes_put s name t' (.writer w')
  refine ⟨?_, ?_, ⟨w', ?_, hposition⟩, ?_⟩
  · rw [hresult]
    exact hrefuse x
  · rw [hresult]
    exact hfill
  · rw [hresult, hput.cursors, if_pos rfl]
  · rw [hresult]
    exact hbytes

/-- A write that would store a byte behind the end is refused. -/
theorem refuses {cmd : WriterCommand} {a : Nat} {w : Writer} (h : s.Settled e t₀)
    (hget : s.cursors.get? name = some (.writer w)) (he : e ≤ a) (hf : cmd.Fills w a) :
    s.Refuses name cmd w e := by
  obtain ⟨n, hlength, ha, hn⟩ := hf
  cases cmd with
  | writeByte b =>
    cases hlength
    exact h.refuses_of_step hget (Cursor.putsWhole_writeByte b) he ha hn rfl fun x => .inl ⟨x, rfl⟩
  | writeBit bit =>
    cases hlength
    exact h.refuses_of_step hget (Cursor.putsWhole_writeBit bit) he ha hn rfl fun x => .inl ⟨x, rfl⟩
  | writeBits word count =>
    cases hlength
    exact h.refuses_of_step hget (Cursor.putsWhole_writeBits word count) he ha hn rfl
      fun x => .inl ⟨x, rfl⟩
  | writeValue kind word =>
    cases hlength
    exact h.refuses_of_step hget (Cursor.putsWhole_writeValue kind word) he ha hn rfl
      fun x => .inr ⟨x, rfl⟩
  | writeNode node word =>
    obtain ⟨kind, hkind, rfl⟩ := Option.map_eq_some_iff.1 hlength
    have hact : Writing.PutsWhole (8 * (kind.bytes word).length) (Cursor.writeNode node word) := by
      rw [Cursor.writeNode, hkind]
      exact Cursor.putsWhole_writeValue kind word
    exact h.refuses_of_step hget hact he ha hn rfl fun x => .inr ⟨x, rfl⟩
  | _ => cases hlength

end Settled

/-! ## When a writer is not -/

/-- Something can be done that writes at `e` or behind it. -/
def Overruns (s : Session) (e : Nat) : Prop :=
  ∃ cmds : List Command, (∀ cmd ∈ cmds, cmd.ofCursors = true) ∧ e < (s.after cmds).tape.fill

theorem Overruns.of_step {cmd : Command} (hc : cmd.ofCursors = true)
    (h : (s.step cmd).2.Overruns e) : s.Overruns e := by
  obtain ⟨cmds, hcmds, he⟩ := h
  refine ⟨cmd :: cmds, ?_, he⟩
  intro cmd' hmem
  rcases List.mem_cons.1 hmem with rfl | hmem
  · exact hc
  · exact hcmds cmd' hmem

/-- The session has this writer under the name, and this tape, and both are in order. -/
structure Has (s : Session) (name : String) (w : Writer) (t : Tape) : Prop where
  tape : s.tape = t
  cursor : s.cursors.get? name = some (.writer w)
  regular : w.Regular t
  entire : t.Entire

namespace Has

variable {w w' : Writer} {t t' : Tape}

/-- A command that does what an action does. -/
theorem wrote {ε : Type} {answer : Unit → Reply} {refuse : ε → Reply} {act : Writing ε Unit}
    (h : s.Has name w t) (hact : Writing.Series act) (hok : act (t, w) = .ok () (t', w')) :
    (s.onWriter name answer refuse act).2.Has name w' t' := by
  have hyields := hact h.regular.toKept
  rw [hok] at hyields
  cases hyields with
  | ok hs _ =>
    have hput := becomes_put s name t' (.writer w')
    have hresult : (s.onWriter name answer refuse act).2 =
        { s with tape := t' }.putCursor name (.writer w') := by
      rw [onWriter, onCursor_of_some h.cursor]
      simp only [h.tape, hok]
    rw [hresult]
    refine ⟨rfl, ?_, hs.regular h.regular, (invariant_working.wrote h.entire h.regular hs).1⟩
    rw [hput.cursors, if_pos rfl]

theorem writeByte (h : s.Has name w t) {b : UInt8}
    (hok : Cursor.writeByte b (t, w) = .ok () (t', w')) :
    (s.step (.writer name (.writeByte b))).2.Has name w' t' :=
  h.wrote (Cursor.putsWhole_writeByte b).puts.series hok

theorem writeBit (h : s.Has name w t) {bit : Bool}
    (hok : Cursor.writeBit bit (t, w) = .ok () (t', w')) :
    (s.step (.writer name (.writeBit bit))).2.Has name w' t' :=
  h.wrote (Cursor.putsWhole_writeBit bit).puts.series hok

theorem align (h : s.Has name w t) (hok : Cursor.alignWriter (t, w) = .ok () (t', w')) :
    (s.step (.cursor name .align)).2.Has name w' t' := by
  have hstep : s.step (.cursor name .align) =
      s.onWriter name (fun () => .done) .refused Cursor.alignWriter := by
    show s.onCursor name _ = _
    rw [onCursor_of_some h.cursor]
  rw [hstep]
  exact h.wrote Cursor.series_alignWriter hok

theorem moved {cmd : CursorCommand}
    {f : {role : Role} → Cursor role → Except StreamError (Cursor role)} (h : s.Has name w t)
    (hcmd : s.stepCursor name cmd = s.moveCursor name f) (hf : f w = .ok w')
    (hm : Cursor.Moves t w w') : (s.step (.cursor name cmd)).2.Has name w' t := by
  have hput := becomes_put s name s.tape (.writer w')
  have hresult : (s.step (.cursor name cmd)).2 = s.putCursor name (.writer w') := by
    show (s.stepCursor name cmd).2 = _
    rw [hcmd, moveCursor, onCursor_of_some h.cursor]
    simp only [hf]
  rw [hresult]
  refine ⟨h.tape, ?_, h.regular.moved hm, h.entire⟩
  exact (hput.cursors name).trans (if_pos rfl)

theorem popBound (h : s.Has name w t) {p : Position} {outer : List Position}
    (hb : w.bounds = p :: outer) : (s.step (.cursor name .popBound)).2.Has name
      (({ w with bounds := outer } : Writer).refresh t) t := by
  have hf : w.popBound t = .ok (({ w with bounds := outer } : Writer).refresh t) := by
    rw [Cursor.popBound, hb]
  refine h.moved (f := fun c => c.popBound s.tape) rfl ?_ (.pop hb)
  rw [h.tape]
  exact hf

theorem seek (h : s.Has name w t) (address : Nat) :
    (s.step (.cursor name (.seek address))).2.Has name (w.seek t address) t := by
  refine h.moved (f := fun c => .ok (c.seek s.tape address)) rfl ?_ (.seek address)
  rw [h.tape]

/-- The stream has come to go on behind the end. -/
theorem overruns (h : s.Has name w t) (he : e < t.fill) : s.Overruns e := by
  refine ⟨[], fun cmd hmem => absurd hmem List.not_mem_nil, ?_⟩
  show e < s.tape.fill
  rwa [h.tape]

/-- A byte that was stored at `e` or behind it. -/
theorem overruns_of_stored {a : Nat} (h : s.Has name w (t.noteWritten (a + 1))) (he : e ≤ a) :
    s.Overruns e :=
  h.overruns (Nat.lt_of_lt_of_le (Nat.lt_succ_of_le he) (Nat.le_max_right ..))

/-- Within its span a writer stores without further tests. -/
theorem fast (h : s.Has name w t) (hs : w.address < w.span) :
    w.stopsWithin t = false ∧ w.checkStore t = .ok () ∧ w.onPage t = w := by
  have hfast : w.fast t = true := by
    rw [Cursor.fast, h.regular.span w.address (Nat.le_refl _) hs, h.entire.1]
    simpa using hs
  refine ⟨?_, Cursor.checkStore_eq_ok.2 (.inl hfast), if_pos hfast⟩
  -- the span does not reach into the byte that the innermost end falls into
  cases hb : w.bounds with
  | nil =>
    have hbit : (w.stop t).bit = 0 := by
      rw [Cursor.stop, hb, List.headD_nil, Tape.endPosition]
      cases t.eof with
      | none => exact Position.bit_ofByte _
      | some e => exact Position.bit_ofByte e
    rw [Cursor.stopsWithin, hbit, bne_self_eq_false, Bool.and_false]
  | cons p outer =>
    have hspan := h.regular.inside p (by rw [hb]; rfl)
    have hstop : w.stop t = p := by rw [Cursor.stop, hb, List.headD_cons]
    have hne : (p.byte == w.address) = false := by
      rw [beq_eq_false_iff_ne]
      omega
    rw [Cursor.stopsWithin, hstop, hne, Bool.and_false, Bool.false_and]

/-- Inside its block a writer can store on the page that it holds. -/
theorem overruns_of_held (h : s.Has name w t) (hb : w.bits = [])
    (hh : w.holds t w.address = true) (hl : w.address < w.limit (w.stop t)) (he : e ≤ w.address) :
    s.Overruns e := by
  cases hg : w.grain with
  | byte =>
    have hc : w.checkStore t = .ok () :=
      Cursor.checkStore_eq_ok.2 (.inr ⟨h.entire.1, Cursor.checkByte_eq_ok.2 hl, .inl hh⟩)
    have hwithin : w.stopsWithin t = false := by
      rw [Cursor.stopsWithin, hg]
      rfl
    have h₁ := h.writeByte (h.regular.writeByte_of_ok hb hwithin hc 0)
    exact .of_step rfl (h₁.overruns_of_stored he)
  | bit =>
    -- one bit of the byte, and then the others
    have hlt : w.position.bits < (w.stop t).bits := by
      rw [Cursor.limit, hg] at hl
      simp only [Position.ceilByte] at hl
      rw [Cursor.position_eq, hb, List.length_nil]
      omega
    have hcheck : w.checkBit t = .ok () := by
      rw [Cursor.checkBit, if_neg (not_not_intro hg)]
      exact if_pos hlt
    have hok : Cursor.writeBit false (t, w) = .ok () (t, { w with bits := [false] }) := by
      rw [Cursor.writeBit, hcheck]
      simp only [hb]
      rfl
    have h₁ := h.writeBit hok
    have hc : Cursor.checkStore ({ w with bits := [false] } : Writer) t = .ok () :=
      Cursor.checkStore_eq_ok.2 (.inr ⟨h.entire.1, Cursor.checkByte_eq_ok.2 hl, .inl hh⟩)
    have h₂ := h₁.align (h₁.regular.alignWriter_of_ok (List.cons_ne_nil false []) hc)
    exact .of_step rfl (.of_step rfl (h₂.overruns_of_stored he))

/-- Within its span a writer can go on byte by byte. -/
theorem overruns_within {n : Nat} (h : s.Has name w t) (hb : w.bits = [])
    (hs : w.address < w.span) (he : e < w.span) (hn : e ≤ w.address + n) : s.Overruns e := by
  induction n generalizing s w t with
  | zero =>
    obtain ⟨hwithin, hc, -⟩ := h.fast hs
    have h₁ := h.writeByte (h.regular.writeByte_of_ok hb hwithin hc 0)
    exact .of_step rfl (h₁.overruns_of_stored hn)
  | succ n ih =>
    obtain ⟨hwithin, hc, honPage⟩ := h.fast hs
    have h₁ := h.writeByte (h.regular.writeByte_of_ok hb hwithin hc 0)
    by_cases hlt : w.address < e
    · rw [honPage] at h₁
      refine .of_step rfl (ih h₁ hb ?_ he ?_)
      · show w.address + 1 < w.span
        omega
      · show e ≤ w.address + 1 + n
        omega
    · exact .of_step rfl (h₁.overruns_of_stored (Nat.le_of_not_lt hlt))

/-- A span that reaches behind the end lets its writer pass. -/
theorem overruns_of_span (h : s.Has name w t) (hs : w.address < w.span) (he : e < w.span) :
    s.Overruns e := by
  by_cases hb : w.bits = []
  · exact h.overruns_within hb hs he (Nat.le_add_left e w.address)
  -- the byte at hand comes first
  obtain ⟨-, hc, honPage⟩ := h.fast hs
  have h₁ := h.align (h.regular.alignWriter_of_ok hb hc)
  by_cases hlt : w.address < e
  · rw [honPage] at h₁
    refine .of_step rfl (h₁.overruns_within rfl ?_ he (Nat.le_add_left ..))
    show w.address + 1 < w.span
    omega
  · exact .of_step rfl (h₁.overruns_of_stored (Nat.le_of_not_lt hlt))

/-- Where no page begins at the end, a writer gets the page of the end by the byte before it. -/
theorem overruns_of_inside {p : Position} {outer : List Position} (h : s.Has name w t)
    (hb : w.bounds = p :: outer) (heof : t.eof = some e) (hp : e < w.limit p)
    (hd : ¬t.pageSize ∣ e) : s.Overruns e := by
  obtain ⟨a, rfl⟩ : ∃ a, e = a + 1 :=
    Nat.exists_eq_succ_of_ne_zero fun h0 => hd (h0 ▸ Nat.dvd_zero _)
  have h₁ := h.seek a
  have hstop : (w.seek t a).stop t = p := by
    show w.bounds.headD _ = p
    rw [hb, List.headD_cons]
  have hbyte := w.limit_le_byte_succ p
  have hwithin : (w.seek t a).stopsWithin t = false := by
    have hne : (p.byte == a) = false := by
      rw [beq_eq_false_iff_ne]
      omega
    have haddress : (w.seek t a).address = a := rfl
    rw [Cursor.stopsWithin, hstop, haddress, hne, Bool.and_false, Bool.false_and]
  have hwritable : t.checkWritable a = .ok () := by
    have hopen : t.eof.filter (· ≤ a) = none := by
      rw [heof, Option.filter_eq_none_iff]
      simp
    rw [Tape.checkWritable, h.entire.1, hopen, h.entire.2]
    rfl
  have hc : (w.seek t a).checkStore t = .ok () := by
    have hbyte : (w.seek t a).checkByte t = .ok () := by
      rw [Cursor.checkByte_eq_ok, hstop]
      exact Nat.lt_of_succ_lt hp
    exact Cursor.checkStore_eq_ok.2 (.inr ⟨h.entire.1, hbyte, .inr hwritable⟩)
  have h₂ := h₁.writeByte (h₁.regular.writeByte_of_ok rfl hwithin hc 0)
  have hpage : t.pageOf (a + 1) = t.pageOf a :=
    Tape.pageOf_succ fun h0 => hd (Nat.dvd_of_mod_eq_zero h0)
  refine .of_step rfl (.of_step rfl (h₂.overruns_of_held ?_ ?_ ?_ (Nat.le_refl _)))
  · exact Cursor.bits_onPage ..
  · show (((w.seek t a).onPage t).page == some (Tape.pageOf _ (a + 1))) = true
    rw [h₁.regular.page_onPage, (h₁.regular.stored_grows hc 0).pageOf, hpage]
    exact beq_self_eq_true _
  · have hbounds : ((w.seek t a).onPage t).bounds = p :: outer :=
      (Cursor.bounds_onPage ..).trans hb
    simp only [Cursor.limit, Cursor.stop, hbounds, List.headD_cons, Cursor.grain_onPage]
    exact hp

/-- A page behind the end that a writer holds lets it store there, if its block reaches so far. -/
theorem overruns_of_behind {p : Position} {outer : List Position} {page : Nat} (h : s.Has name w t)
    (hb : w.bounds = p :: outer) (hpage : w.page = some page) (he : e ≤ t.pageStart page)
    (hp : t.pageStart page < w.limit p) : s.Overruns e := by
  have hon : t.pageOf (t.pageStart page) = page :=
    Tape.pageOf_eq (Nat.le_refl _) (Nat.mul_lt_mul_of_pos_right (Nat.lt_succ_self _) t.pageSize_pos)
  have hh : w.holds t (t.pageStart page) = true := by
    rw [Cursor.holds, hpage, hon, beq_self_eq_true]
  have hh' : (w.seek t (t.pageStart page)).holds t (t.pageStart page) = true := by
    have hkept : (w.seek t (t.pageStart page)).page = w.page := if_pos hh
    rw [Cursor.holds, hkept]
    exact hh
  have hstop : (w.seek t (t.pageStart page)).stop t = p := by
    show w.bounds.headD _ = p
    rw [hb, List.headD_cons]
  refine .of_step rfl ((h.seek _).overruns_of_held rfl hh' ?_ he)
  rw [hstop]
  exact hp

/-- A block that a writer is in can be made its innermost one. -/
theorem overruns_of_mem {p : Position} (h : s.Has name w t) (hmem : p ∈ w.bounds)
    (hinner : ∀ (s' : Session) (w' : Writer) (outer : List Position), s'.Has name w' t →
      w'.bounds = p :: outer → w'.page = w.page → w'.grain = w.grain → s'.Overruns e) :
    s.Overruns e := by
  cases hb : w.bounds with
  | nil =>
    rw [hb] at hmem
    cases hmem
  | cons q outer =>
    induction outer generalizing s w q with
    | nil =>
      rw [hb] at hmem
      obtain rfl := List.mem_singleton.1 hmem
      exact hinner s w [] h hb rfl rfl
    | cons q' outer ih =>
      rw [hb] at hmem
      rcases List.mem_cons.1 hmem with rfl | hmem
      · exact hinner s w _ h hb rfl rfl
      · exact .of_step rfl (ih (h.popBound hb) hmem hinner q' rfl)

/-- A writer that is not tight can be led past the end. -/
theorem tight_of_not_overruns (h : s.Has name w t) (heof : t.eof = some e) (hs : ¬s.Overruns e) :
    w.Tight t e := by
  refine ⟨fun p hp hlt => ⟨?_, fun page hpage => ?_⟩, fun hspan => ?_⟩
  · -- a page begins at the end
    refine Decidable.byContradiction fun hd => hs ?_
    refine h.overruns_of_mem hp fun s' w' outer h' hb _ hg => ?_
    refine h'.overruns_of_inside hb heof ?_ hd
    simp only [Cursor.limit, hg]
    exact hlt
  · -- the writer holds no page that the block reaches behind the end
    refine Decidable.byContradiction fun hcon => hs ?_
    have hcon := not_or.1 hcon
    refine h.overruns_of_mem hp fun s' w' outer h' hb hpage' hg => ?_
    refine h'.overruns_of_behind hb (hpage'.trans hpage) (Nat.le_of_not_lt hcon.1) ?_
    simp only [Cursor.limit, hg]
    exact Nat.lt_of_not_le hcon.2
  · exact Nat.le_of_not_lt fun hlt => hs (h.overruns_of_span hspan hlt)

end Has

/-- Commands for cursors lead to the session, from one with a blank tape. -/
def Reached (s : Session) : Prop :=
  ∃ pageSize framing cmds, (∀ cmd ∈ cmds, Command.ofCursors cmd = true) ∧
    s = after { tape := Tape.blank pageSize, framing } cmds

/-- Whatever has led to a session whose stream has a fixed end: from there on nothing can be written
at the end or behind it, and every write that would is refused, exactly if nothing was written there
before and no writer has a span, or a block, that lets it pass. -/
theorem sealed_iff (h : s.Reached) (he : s.tape.eof = some e) : s.Sealed e ↔
    s.tape.fill ≤ e ∧ ∀ name w, s.cursors.get? name = some (.writer w) → w.Tight s.tape e := by
  have hworking : s.Working := by
    obtain ⟨pageSize, framing, cmds, hc, rfl⟩ := h
    exact (working_blank pageSize framing).after invariant_working hc
  constructor
  · intro hs
    have hover : ¬s.Overruns e := by
      rintro ⟨cmds, hc, hlt⟩
      exact Nat.not_lt.2 (hs cmds hc).1 hlt
    refine ⟨(hs [] fun cmd hmem => absurd hmem List.not_mem_nil).1, ?_⟩
    intro name w hget
    have hhas : s.Has name w s.tape := ⟨rfl, hget, hworking.writers name w hget, hworking.tape⟩
    exact hhas.tight_of_not_overruns he hover
  · rintro ⟨hfill, htight⟩ cmds hc
    have hsettled : s.Settled e s.tape := by
      refine ⟨⟨hworking.tape, he, .refl e s.tape⟩, ?_⟩
      intro name w hget
      exact ⟨hworking.writers name w hget, htight name w hget⟩
    have hafter := hsettled.after (invariant_settled e s.tape) hc
    have hspared := hafter.tape.2.2
    refine ⟨?_, hspared.bytes, fun name w cmd a hget hle hfills => ?_⟩
    · have := hspared.fill
      omega
    · exact Settled.refuses hafter hget hle hfills

/-- Two writers, one a copy of the other: the first fixes the end where it stands, and the caches of
the second are set anew after that. -/
def fixedBetween : Session :=
  after { tape := Tape.blank 4, framing := {} }
    [.cursor "w" (.makeWriter .byte none), .writer "w" (.writeByte 1), .cursor "v" (.copy "w"),
      .cursor "w" .fixEnd, .cursor "v" .refresh]

/-- Neither of them can write any more. -/
theorem sealed_fixedBetween : fixedBetween.Reached ∧ fixedBetween.tape.eof = some 1 ∧
    fixedBetween.Sealed 1 := by
  have hreached : fixedBetween.Reached := ⟨4, {}, _, by decide, rfl⟩
  have heof : fixedBetween.tape.eof = some 1 := by rfl
  have hcursors : fixedBetween.cursors =
      [("v", .writer { grain := .byte, address := 1, page := some 0, span := 1 }),
        ("w", .writer { grain := .byte, address := 1, page := some 0, span := 1 })] := by rfl
  refine ⟨hreached, heof, (sealed_iff hreached heof).2 ⟨?_, fun name w hget => ?_⟩⟩
  · have hfill : fixedBetween.tape.fill = 1 := by rfl
    exact Nat.le_of_eq hfill
  · have htight : Cursor.Tight
        ({ grain := .byte, address := 1, page := some 0, span := 1 } : Writer)
        fixedBetween.tape 1 := by
      refine ⟨fun p hp => ?_, fun _ => Nat.le_refl 1⟩
      cases hp
    rw [hcursors, Named.get?_cons, Named.get?_cons] at hget
    split at hget
    · cases hget
      exact htight
    · split at hget
      · cases hget
        exact htight
      · cases hget

/-- A writer has written a byte when the end is fixed behind it, but not through that writer. -/
def fixedElsewhere : Session :=
  after { tape := Tape.blank 4, framing := {} }
    [.cursor "w" (.makeWriter .byte none), .writer "w" (.writeByte 1), .tape (.fixEnd 1)]

/-- Its span was cached before that, and lets it write another. -/
theorem not_sealed_fixedElsewhere : fixedElsewhere.Reached ∧ fixedElsewhere.tape.eof = some 1 ∧
    fixedElsewhere.tape.fill = 1 ∧
    (fixedElsewhere.step (.writer "w" (.writeByte 2))).1 = .done ∧
    (fixedElsewhere.step (.writer "w" (.writeByte 2))).2.tape.fill = 2 ∧
    ¬fixedElsewhere.Sealed 1 := by
  have hfill : (fixedElsewhere.step (.writer "w" (.writeByte 2))).2.tape.fill = 2 := by rfl
  refine ⟨⟨4, {}, _, by decide, rfl⟩, by rfl, by rfl, by rfl, hfill, fun hs => ?_⟩
  have hle : (fixedElsewhere.step (.writer "w" (.writeByte 2))).2.tape.fill ≤ 1 :=
    (hs [.writer "w" (.writeByte 2)] (by decide)).1
  rw [hfill] at hle
  exact absurd hle (by decide)

end Session

end Transcoder

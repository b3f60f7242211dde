import Transcoder.Proofs.Cursor.Spelling
import Transcoder.Proofs.Cursor.Writing

/-!
# A bit writer is a list of bits under a stack of limits

`BitList` knows no tape, no pages and no bytes: bits are put at the end of a list as long as it does
not grow beyond the innermost limit. `BitCommand` is what can be asked of a bit writer; each command
has an answer, and a run of them is a `mapM`.

Results:
* `Mirrors.step`: a command does the same to a list and to a writer on a tape.
* `bitWriter_is_bitList`: so does a run, and in the end the bits come out as bytes.
-/
namespace Transcoder

/-! ## The list -/

/-- Bits written, under limits, innermost first. -/
structure BitList where
  bits : List Bool := []
  limits : List Position := []

/-- What is asked of a bit writer. -/
inductive BitCommand where
  | byte (b : UInt8)
  | bit (b : Bool)
  /-- The low bits of a word. -/
  | field (w : UInt64) (width : Bits.Width)
  | push (stop : Position)
  | pop

namespace BitList

/-- The innermost limit. -/
def limit (l : BitList) : Position := l.limits.headD .unbounded

/-- Why bits are refused: the first of them that is beyond the limit, and the limit. -/
def refusal (l : BitList) : StreamError :=
  match l.limits with
  | stop :: _ => .pastBlockEnd ⟨max l.bits.length stop.bits⟩ stop
  | [] => outOfSpace

/-- Puts bits at the end, all of them or none. -/
def write (bs : List Bool) : StateM BitList (Option StreamError) := fun l =>
  if l.bits.length + bs.length ≤ l.limit.bits then (none, { l with bits := l.bits ++ bs })
  else (some l.refusal, l)

/-- Sets a limit, which must not be beyond the one before. -/
def push (stop : Position) : StateM BitList (Option StreamError) := fun l =>
  if stop ≤ l.limit then (none, { l with limits := stop :: l.limits })
  else (some (.pastBlockEnd stop l.limit), l)

/-- Takes the innermost limit away. -/
def pop : StateM BitList (Option StreamError) := fun l =>
  match l.limits with
  | [] => (some .noEnclosingBlock, l)
  | _ :: outer => (none, { l with limits := outer })

/-- The answer to a command: nothing, or why it is refused. -/
def step : BitCommand → StateM BitList (Option StreamError)
  | .byte b => write (Bits.ofByte b)
  | .bit b => write [b]
  | .field w width => write (Bits.ofNat width.count w.toNat)
  | .push stop => push stop
  | .pop => pop

end BitList

/-! ## The writer -/

/-- An action on the writer alone. -/
def Writing.ofWriter (f : Writer → Tape → Except StreamError Writer) : Writing StreamError Unit :=
  fun (t, c) =>
    match f c t with
    | .ok c => .ok () (t, c)
    | .error e => .error e (t, c)

/-- What an action answers: nothing, or why it is refused. -/
def Writing.answer (act : Writing StreamError Unit) :
    StateM (Tape × Writer) (Option StreamError) := fun s =>
  match act s with
  | .ok () s => (none, s)
  | .error e s => (some e, s)

/-- A command as an action of a writer. -/
def BitCommand.act : BitCommand → Writing StreamError Unit
  | byte b => Cursor.writeByte b
  | bit b => Cursor.writeBit b
  | field w width => Cursor.writeBits w width.count
  | push stop => Writing.ofWriter fun c t => c.pushBound t stop
  | pop => Writing.ofWriter Cursor.popBound

/-- The answer to a command. -/
def BitCommand.step (cmd : BitCommand) : StateM (Tape × Writer) (Option StreamError) :=
  cmd.act.answer

/-! ## The two side by side -/

/-- The writer has written the bits of the list inside its limits. -/
structure Mirrors (l : BitList) (w : Writer) (t : Tape) (out : List UInt8) : Prop
    extends Spells w t out where
  bits : Bits.ofBytes out ++ w.bits = l.bits
  bounds : w.bounds = l.limits
  grain : w.grain = .bit
  start : t.start = 0
  room : l.bits.length ≤ Position.unbounded.bits
  limits : ∀ p ∈ l.limits, p ≤ Position.unbounded

namespace Mirrors

variable {l : BitList} {w : Writer} {t : Tape} {out : List UInt8}

theorem blank (pageSize : Nat) :
    Mirrors {} (Cursor.writerOn (Tape.blank pageSize) .bit) (Tape.blank pageSize) [] :=
  ⟨Spells.blank pageSize .bit, rfl, rfl, rfl, Nat.zero_mul _, Nat.zero_le _, by simp⟩

theorem position (h : Mirrors l w t out) : w.position.bits = l.bits.length := by
  rw [h.toSpells.position, h.bits]

theorem stop (h : Mirrors l w t out) : w.stop t = l.limit := by
  rw [Cursor.stop, h.bounds, Tape.endPosition, h.eof]
  rfl

theorem limit_le (h : Mirrors l w t out) : l.limit ≤ Position.unbounded := by
  rw [BitList.limit]
  cases hlimits : l.limits with
  | nil => exact Nat.le_refl _
  | cons p outer => exact h.limits p (hlimits ▸ List.mem_cons_self)

/-- The writer is refused for the reason that the list gives. -/
theorem refusal (h : Mirrors l w t out) :
    w.boundaryError t (Spells.refusedAt w t) = l.refusal := by
  have hat : Spells.refusedAt w t = ⟨max l.bits.length l.limit.bits⟩ := by
    rw [Spells.refusedAt, h.position, h.stop]
  simp only [Cursor.boundaryError, BitList.refusal, h.bounds, hat, BitList.limit]
  cases l.limits with
  | cons p outer => rfl
  | nil =>
    -- the list ends before the last address, so that is where bits are refused
    have hmax : max l.bits.length Position.unbounded.bits = Position.unbounded.bits :=
      Nat.max_eq_right h.room
    have hend : t.endPosition = .unbounded := by rw [Tape.endPosition, h.eof]
    rw [List.headD_nil, hmax, hend, Position.byte_unbounded]
    rfl

/-- Bits were put behind the list, and nothing else was changed. -/
theorem added {bs : List Bool} {w' : Writer} {t' : Tape} {out' : List UInt8}
    (h : Mirrors l w t out) (h' : Added bs w t out w' t' out')
    (hl : l.bits.length + bs.length ≤ Position.unbounded.bits) :
    Mirrors { l with bits := l.bits ++ bs } w' t' out' := by
  refine ⟨h'.spells, ?_, h'.bounds.trans h.bounds, h'.grain.trans h.grain,
    h'.grows.start.trans h.start, ?_, h.limits⟩
  · rw [h'.bits, h.bits]
  · rwa [List.length_append]

/-! ## One command -/

/-- What a writer does with bits, all of them or none, the list does with them. -/
theorem write {act : Writing StreamError Unit} (h : Mirrors l w t out) (bs : List Bool)
    (hok : w.position.bits + bs.length ≤ (w.stop t).bits →
      ∃ t' w' out', act (t, w) = .ok () (t', w') ∧ Added bs w t out w' t' out')
    (hrefused : (w.stop t).bits < w.position.bits + bs.length →
      ∃ t' w', act (t, w) = .error (w.boundaryError t (Spells.refusedAt w t)) (t', w') ∧
        Added [] w t out w' t' out) :
    ∃ t' w' out', act.answer (t, w) = ((BitList.write bs l).1, (t', w')) ∧
      Mirrors (BitList.write bs l).2 w' t' out' := by
  rw [h.position, h.stop] at hok hrefused
  rw [Writing.answer, BitList.write]
  by_cases hl : l.bits.length + bs.length ≤ l.limit.bits
  · obtain ⟨t', w', out', he, h'⟩ := hok hl
    rw [if_pos hl, he]
    exact ⟨t', w', out', rfl, h.added h' (Nat.le_trans hl h.limit_le)⟩
  · obtain ⟨t', w', he, h'⟩ := hrefused (Nat.lt_of_not_le hl)
    have hsame := h.added h' h.room
    rw [List.append_nil] at hsame
    rw [if_neg hl, he, h.refusal]
    exact ⟨t', w', out, rfl, hsame⟩

/-- Other limits make other spans, and nothing else. -/
theorem relimit (h : Mirrors l w t out) {limits : List Position}
    (hl : ∀ p ∈ limits, p ≤ Position.unbounded) :
    Mirrors { l with limits } (({ w with bounds := limits } : Writer).refresh t) t out := by
  have htrusted :=
    Cursor.trusted_refresh (c := ({ w with bounds := limits } : Writer)) h.trusted.page
  exact ⟨⟨htrusted, h.carries, h.eof, h.start_le, h.atEnd, h.short, h.bytewise⟩, h.bits, rfl,
    h.grain, h.start, h.room, hl⟩

/-- A limit is set alike. -/
theorem push (h : Mirrors l w t out) (stop : Position) :
    ∃ w', (BitCommand.push stop).step (t, w) = ((BitList.push stop l).1, (t, w')) ∧
      Mirrors (BitList.push stop l).2 w' t out := by
  rw [BitCommand.step, BitCommand.act, Writing.answer, Writing.ofWriter, BitList.push,
    Cursor.pushBound, h.stop, h.bounds]
  by_cases hs : stop ≤ l.limit
  · have hlimits : ∀ p ∈ stop :: l.limits, p ≤ Position.unbounded := by
      intro p hp
      rcases List.mem_cons.1 hp with rfl | hp
      · exact Nat.le_trans hs h.limit_le
      · exact h.limits p hp
    rw [if_pos hs, if_pos hs]
    exact ⟨_, rfl, h.relimit hlimits⟩
  · rw [if_neg hs, if_neg hs]
    exact ⟨w, rfl, h⟩

/-- A limit is taken away alike. -/
theorem pop (h : Mirrors l w t out) :
    ∃ w', BitCommand.pop.step (t, w) = ((BitList.pop l).1, (t, w')) ∧
      Mirrors (BitList.pop l).2 w' t out := by
  have hb := h.bounds
  rw [BitCommand.step, BitCommand.act, Writing.answer, Writing.ofWriter, BitList.pop,
    Cursor.popBound]
  cases hlimits : l.limits with
  | nil =>
    rw [hlimits] at hb
    rw [hb]
    exact ⟨w, rfl, h⟩
  | cons p outer =>
    rw [hlimits] at hb
    rw [hb]
    exact ⟨_, rfl, h.relimit fun q hq => h.limits q (hlimits ▸ List.mem_cons_of_mem p hq)⟩

/-- A command does the same to both and is answered alike. -/
theorem step (h : Mirrors l w t out) (cmd : BitCommand) :
    ∃ t' w' out', cmd.step (t, w) = ((BitList.step cmd l).1, (t', w')) ∧
      Mirrors (BitList.step cmd l).2 w' t' out' := by
  cases cmd with
  | byte b =>
    apply h.write (Bits.ofByte b)
    · intro hl
      exact h.writeByte b hl
    · intro hl
      obtain ⟨t', w', he, h', -⟩ := h.writeByte_refused h.grain b hl
      exact ⟨t', w', he, h'⟩
  | bit b =>
    apply h.write [b]
    · intro hl
      exact h.writeBit h.grain hl b
    · intro hl
      have hs : (w.stop t).bits ≤ w.position.bits := Nat.le_of_lt_succ hl
      have hat : Spells.refusedAt w t = w.position := by rw [Spells.refusedAt, Nat.max_eq_left hs]
      rw [hat]
      exact ⟨t, w, Spells.writeBit_refused h.grain hs b, h.added_nil⟩
  | field word width =>
    have hn : Bits.ofNat width.count word.toNat ≠ [] := by
      apply List.ne_nil_of_length_pos
      rw [Bits.length_ofNat]
      exact width.pos
    rw [BitCommand.step, BitCommand.act, Cursor.writeBits, Nat.min_eq_left width.le]
    apply h.write (Bits.ofNat width.count word.toNat)
    · intro hl
      exact h.writeBitList h.grain hl
    · intro hl
      obtain ⟨t', w', he, h', -⟩ := h.writeBitList_refused h.grain hn hl
      exact ⟨t', w', he, h'⟩
  | push stop =>
    obtain ⟨w', he, h'⟩ := h.push stop
    exact ⟨t, w', out, he, h'⟩
  | pop =>
    obtain ⟨w', he, h'⟩ := h.pop
    exact ⟨t, w', out, he, h'⟩

/-! ## Runs -/

/-- A run does the same to both and is answered alike. -/
theorem run (h : Mirrors l w t out) (cmds : List BitCommand) :
    ∃ t' w' out', cmds.mapM BitCommand.step (t, w) = ((cmds.mapM BitList.step l).1, (t', w')) ∧
      Mirrors (cmds.mapM BitList.step l).2 w' t' out' := by
  induction cmds generalizing l w t out with
  | nil => exact ⟨t, w, out, rfl, h⟩
  | cons cmd rest ih =>
    obtain ⟨t₁, w₁, out₁, he₁, h₁⟩ := h.step cmd
    obtain ⟨t', w', out', he, h'⟩ := ih h₁
    refine ⟨t', w', out', ?_, ?_⟩
    · simp only [List.mapM_cons, bind, StateT.bind, he₁, he]
      rfl
    · rw [List.mapM_cons]
      exact h'

/-- All limits can be taken away. -/
theorem unlimited (h : Mirrors l w t out) :
    ∃ w', (List.replicate l.limits.length BitCommand.pop).forM BitCommand.act (t, w) =
        .ok () (t, w') ∧ Mirrors { l with limits := [] } w' t out := by
  obtain ⟨bits, limits⟩ := l
  induction limits generalizing w with
  | nil => exact ⟨w, rfl, h⟩
  | cons p outer ih =>
    obtain ⟨w₁, he₁, h₁⟩ := h.pop
    have hpop : BitCommand.pop.act (t, w) = .ok () (t, w₁) := by
      rw [BitCommand.step, Writing.answer, BitList.pop] at he₁
      split at he₁
      · rename_i heq
        rw [heq, (Prod.mk.inj he₁).2]
      · cases (Prod.mk.inj he₁).1
    obtain ⟨w', he, h'⟩ := ih h₁
    refine ⟨w', ?_, h'⟩
    rw [List.length_cons, List.replicate_succ, List.forM_eq_forM, List.forM_cons, bind_of_ok hpop]
    exact he

end Mirrors

/-- What a writer shows of the bits that it has written. -/
structure Reflects (l : BitList) (t : Tape) (w : Writer) : Prop where
  position : w.position = ⟨l.bits.length⟩
  /-- The bytes that are complete are on the tape. -/
  fill : t.fill = l.bits.length / 8
  /-- The bits of the byte that is not are with the writer. -/
  pending : w.bits = l.bits.drop (8 * t.fill)
  limits : w.bounds = l.limits
  /-- Outside all blocks and aligned, the tape has the bits packed into bytes. -/
  packed : ∃ t' w',
    (do
      (List.replicate w.bounds.length BitCommand.pop).forM BitCommand.act
      Cursor.alignWriter) (t, w) = .ok () (t', w') ∧
    t'.copyOut 0 t'.fill = .ok (Bits.toBytes l.bits)

theorem Mirrors.reflects {l : BitList} {w : Writer} {t : Tape} {out : List UInt8}
    (h : Mirrors l w t out) : Reflects l t w := by
  have hlen : 8 * out.length + w.bits.length = l.bits.length := by
    rw [← h.bits, List.length_append, Bits.length_ofBytes]
  have hshort := h.short
  have hfill : t.fill = l.bits.length / 8 := by
    rw [h.carries.fill]
    omega
  refine ⟨?_, hfill, ?_, h.bounds, ?_⟩
  · rw [← h.position]
  · rw [h.carries.fill, ← h.bits, ← Bits.length_ofBytes, List.drop_left]
  · obtain ⟨w₁, he₁, h₁⟩ := h.unlimited
    have hroom : w₁.bits ≠ [] →
        w₁.position.bits < (w₁.stop t).bits ∧ (w₁.stop t).aligned = true := by
      intro hbits
      have hn := List.length_pos_iff.2 hbits
      have hpos : 8 * w₁.address + w₁.bits.length = l.bits.length := h₁.position
      have hle : l.bits.length ≤ 8 * addressLimit := h.room
      have hend : w₁.stop t = .ofByte addressLimit := h₁.stop
      have hshort := h₁.short
      rw [hend]
      refine ⟨?_, ?_⟩
      · show 8 * w₁.address + w₁.bits.length < 8 * addressLimit
        omega
      · rw [Position.aligned, Position.bit_ofByte]
        rfl
    obtain ⟨t', w', he, h', hg⟩ := h₁.alignWriter hroom
    refine ⟨t', w', ?_, ?_⟩
    · rw [h.bounds, bind_of_ok he₁]
      exact he
    · have hstart : t'.start ≤ 0 := Nat.le_of_eq (hg.start.trans h.start)
      have hcopy := h'.carries.copyOut hstart (Nat.le_of_eq (Nat.zero_add _))
      rw [List.drop_zero, List.take_length, h₁.bits] at hcopy
      rw [h'.carries.fill, h₁.bits]
      exact hcopy

/-- Whatever is asked of a bit writer on a blank tape, it answers as a list of bits under a stack of
limits does, and shows the list's bits. As a list is what it was when it refuses a command, so are
the position, the bits of the byte that was begun and the fill address. -/
theorem bitWriter_is_bitList (pageSize : Nat) (cmds : List BitCommand) :
    let tape := Tape.blank pageSize
    let stream := cmds.mapM BitCommand.step (tape, Cursor.writerOn tape .bit)
    let list := cmds.mapM BitList.step {}
    stream.1 = list.1 ∧ Reflects list.2 stream.2.1 stream.2.2 := by
  intro tape stream list
  obtain ⟨t', w', out', he, h⟩ := (Mirrors.blank pageSize).run cmds
  have hstream : stream = (list.1, (t', w')) := he
  rw [hstream]
  exact ⟨rfl, h.reflects⟩

end Transcoder

import Transcoder.Proofs.Machine.Source
import Transcoder.Proofs.Session.Named

/-!
# Readers see one flat list of bytes

`Flat` is what a session is to its byte readers: the bytes that have come, whether their end is
fixed, and where each reader stands inside which block ends. It knows no pages, no spans and no
bytes that were given up; it only keeps the highest address before which they may have been, and
lets no reader go back beyond it (`Flat.Allows`).

Results:
* `Agrees.ask`: whatever is asked, a session and its flat picture answer alike and stay alike.
* `readers_flat`: so they do from the beginning, whatever the size of the pages.
-/
namespace Transcoder

/-! ## What is asked -/

/-- What is asked of a session that takes input and has byte readers. -/
inductive Ask where
  | append (bytes : List UInt8)
  /-- Fixes the end of the stream behind the last byte. -/
  | freeze
  /-- Gives up pages before an address. -/
  | evict (mark : Nat)
  | makeReader (name : String) (address : Nat)
  | copy (name source : String)
  | drop (name : String)
  | readByte (name : String)
  | pushBound (name : String) (stop : Position)
  | popBound (name : String)
  | seek (name : String) (address : Nat)
  | close (name : String)
  | refresh (name : String)
  | position (name : String)

/-- The command that asks it, when so many bytes have come. -/
def Ask.command (fill : Nat) : Ask → Command
  | append bytes => .tape (.append bytes)
  | freeze => .tape (.fixEnd fill)
  | evict mark => .tape (.evict mark)
  | makeReader name address => .cursor name (.makeReader .byte (some address))
  | copy name source => .cursor name (.copy source)
  | drop name => .cursor name .drop
  | readByte name => .reader name .readByte
  | pushBound name stop => .cursor name (.pushBound stop)
  | popBound name => .cursor name .popBound
  | seek name address => .cursor name (.seek address)
  | close name => .cursor name .close
  | refresh name => .cursor name .refresh
  | position name => .cursor name .position

/-- The answer of a session. How many pages were given up is left out of it, as that depends on how
large they are. -/
def Session.ask (a : Ask) : StateM Session Reply := fun s =>
  match a with
  | .evict _ => (.done, (s.step (a.command s.tape.fill)).2)
  | _ => s.step (a.command s.tape.fill)

/-! ## The flat picture -/

/-- Where a reader stands, and the ends of the blocks around it, innermost first. -/
structure FlatReader where
  address : Nat
  bounds : List Position := []

structure Flat where
  bytes : List UInt8 := []
  /-- The end of the stream is fixed behind the last byte. -/
  closed : Bool := false
  /-- The highest address before which bytes may have been given up. -/
  mark : Nat := 0
  readers : Named FlatReader := []

namespace Flat

/-- The byte at an address inside all blocks: there, to come, or never to come. -/
def byte (f : Flat) (address : Nat) : Except StreamError UInt8 :=
  match f.bytes[address]? with
  | some b => .ok b
  | none => .error (if f.closed then .endOfStream address else .notAvailable address)

/-- What a reader reads before the end of its innermost block. Of a byte that the block ends in it
reads nothing. -/
def read (f : Flat) (r : FlatReader) : Except StreamError UInt8 :=
  match r.bounds with
  | stop :: _ =>
    if r.address < stop.byte then f.byte r.address
    else .error (.pastBlockEnd (.ofByte r.address) stop)
  | [] => f.byte r.address

/-- The innermost end around a reader. -/
def stop (f : Flat) (r : FlatReader) : Position :=
  r.bounds.headD (if f.closed then .ofByte f.bytes.length else .unbounded)

/-- Runs an operation on the named reader. -/
def onReader (f : Flat) (name : String) (op : FlatReader → Reply × FlatReader) : Reply × Flat :=
  match f.readers.get? name with
  | some r => ((op r).1, { f with readers := f.readers.put name (op r).2 })
  | none => (.missing, f)

/-- The answer of the flat picture. -/
def ask : Ask → StateM Flat Reply
  | .append bytes => fun f =>
    if f.closed && !bytes.isEmpty then
      (.refused (.writeAfterEnd f.bytes.length f.bytes.length), f)
    else (.number (f.bytes.length + bytes.length), { f with bytes := f.bytes ++ bytes })
  | .freeze => fun f => (.done, { f with closed := true })
  | .evict mark => fun f => (.done, { f with mark := max f.mark mark })
  | .makeReader name address => fun f =>
    (.done, { f with readers := f.readers.put name { address } })
  | .copy name source => fun f =>
    match f.readers.get? source with
    | some r => (.done, { f with readers := f.readers.put name r })
    | none => (.missing, f)
  | .drop name => fun f =>
    (.flag (f.readers.get? name).isSome, { f with readers := f.readers.erase name })
  | .readByte name => fun f => f.onReader name fun r =>
    match f.read r with
    | .ok b => (.number b.toNat, { r with address := r.address + 1 })
    | .error e => (.refused e, r)
  | .pushBound name stop => fun f => f.onReader name fun r =>
    if stop ≤ f.stop r then (.done, { r with bounds := stop :: r.bounds })
    else (.refused (.pastBlockEnd stop (f.stop r)), r)
  | .popBound name => fun f => f.onReader name fun r =>
    match r.bounds with
    | [] => (.refused .noEnclosingBlock, r)
    | _ :: outer => (.done, { r with bounds := outer })
  | .seek name address => fun f => f.onReader name fun r => (.done, { r with address })
  | .close name | .refresh name => fun f => f.onReader name fun r => (.done, r)
  | .position name => fun f => f.onReader name fun r => (.position (.ofByte r.address), r)

/-- A stream whose end is open has bytes below the last address only. -/
def InReach (f : Flat) (r : FlatReader) : Prop :=
  r.bounds = [] → f.closed = false → r.address < addressLimit

instance (f : Flat) (r : FlatReader) : Decidable (f.InReach r) :=
  inferInstanceAs (Decidable (r.bounds = [] → f.closed = false → r.address < addressLimit))

/-- What may be asked: only bytes that have come and that no reader has still to read are given up,
and no reader goes back to where they may have been, or reads where no stream can have a byte. -/
def Allows (f : Flat) : Ask → Prop
  | .evict mark => mark ≤ f.bytes.length ∧ ∀ r ∈ f.readers.values, mark ≤ r.address
  | .makeReader _ address | .seek _ address => f.mark ≤ address
  | .readByte name => ∀ r ∈ f.readers.get? name, f.InReach r
  | _ => True

instance (f : Flat) : (a : Ask) → Decidable (f.Allows a)
  | .evict mark =>
    inferInstanceAs (Decidable (mark ≤ f.bytes.length ∧ ∀ r ∈ f.readers.values, mark ≤ r.address))
  | .makeReader _ address | .seek _ address => inferInstanceAs (Decidable (f.mark ≤ address))
  | .readByte name => inferInstanceAs (Decidable (∀ r ∈ f.readers.get? name, f.InReach r))
  | .append _ | .freeze | .copy .. | .drop _ | .pushBound .. | .popBound _ | .close _ | .refresh _
  | .position _ => inferInstanceAs (Decidable True)

/-- All of it may be asked, one after the other. -/
def AllowsAll : List Ask → Flat → Prop
  | [], _ => True
  | a :: rest, f => f.Allows a ∧ AllowsAll rest (ask a f).2

instance decidableAllowsAll : (asks : List Ask) → (f : Flat) → Decidable (AllowsAll asks f)
  | [], _ => inferInstanceAs (Decidable True)
  | a :: rest, f =>
    have := decidableAllowsAll rest (ask a f).2
    inferInstanceAs (Decidable (f.Allows a ∧ AllowsAll rest (ask a f).2))

/-- The input that the readers have. -/
def source (f : Flat) : Source := { bytes := f.bytes, closed := f.closed }

theorem stop_eq (f : Flat) (r : FlatReader) : f.stop r = f.source.stop r.bounds := by
  rw [stop, Source.stop, Source.endPosition]
  rfl

theorem read_eq {f : Flat} {r : FlatReader} (h : f.InReach r) :
    f.read r = f.source.get r.bounds r.address := by
  rw [read, Source.get, ← stop_eq, stop, byte, source]
  rw [InReach] at h
  cases hb : r.bounds with
  | cons p outer => rfl
  | nil =>
    rw [List.headD_nil, Source.boundaryError]
    cases hc : f.closed with
    | false => exact (if_pos (Position.byte_unbounded ▸ h hb hc)).symm
    | true =>
      -- behind the last byte the end of the stream is met on either side
      simp only [if_true, Position.byte_ofByte]
      by_cases hlt : r.address < f.bytes.length
      · rw [if_pos hlt, List.getElem?_eq_getElem hlt]
      · rw [if_neg hlt, List.getElem?_eq_none (Nat.le_of_not_lt hlt)]

end Flat

/-! ## The two side by side -/

/-- What has a name on both sides is the same reader. -/
inductive Paired (t : Tape) (mark : Nat) : Option AnyCursor → Option FlatReader → Prop
  | none : Paired t mark none none
  | some {c : Reader} (sound : c.Sound t) (mark_le : mark ≤ c.address) :
    Paired t mark (some (.reader c)) (some ⟨c.address, c.bounds⟩)

/-- The flat picture is that of the session. -/
structure Agrees (s : Session) (f : Flat) : Prop where
  carries : s.tape.Carries f.bytes
  eof : s.tape.eof = f.source.eof
  start_le : s.tape.start ≤ f.mark
  mark_le : f.mark ≤ f.bytes.length
  paired : ∀ name, Paired s.tape f.mark (s.cursors.get? name) (f.readers.get? name)

namespace Agrees

variable {s : Session} {f : Flat}

theorem blank (pageSize : Nat) (framing : Framing) :
    Agrees { tape := Tape.blank pageSize, framing } {} := by
  refine ⟨⟨rfl, Nat.dvd_zero _, rfl, ?_⟩, rfl, ?_, Nat.le_refl _, fun _ => .none⟩
  · intro a _ ha
    exact absurd ha (Nat.not_lt_zero a)
  · exact Nat.le_of_eq (Nat.zero_mul _)

theorem faces (h : Agrees s f) {c : Reader} (hc : c.Sound s.tape) (hm : f.mark ≤ c.address) :
    Faces c s.tape f.source :=
  ⟨rfl, hc, h.carries, h.eof, Nat.le_trans h.start_le hm⟩

/-- A reader is named, or put in the place of another, on both sides. -/
theorem puts (h : Agrees s f) {name : String} {c : Reader} {s' : Session}
    (hs : s.Becomes name s.tape (some (.reader c)) s')
    (hc : c.Sound s.tape) (hm : f.mark ≤ c.address) :
    Agrees s' { f with readers := f.readers.put name ⟨c.address, c.bounds⟩ } := by
  obtain ⟨htape, hcursors⟩ := hs
  refine ⟨htape.symm ▸ h.carries, htape.symm ▸ h.eof, htape.symm ▸ h.start_le, h.mark_le, ?_⟩
  intro name'
  rw [htape, hcursors, Named.get?_put]
  by_cases hn : name' = name
  · rw [if_pos hn, if_pos hn]
    exact .some hc hm
  · rw [if_neg hn, if_neg hn]
    exact h.paired name'

/-- Whatever keeps the readers, keeps them paired. -/
theorem paired_of (h : Agrees s f) {t' : Tape} {mark' : Nat}
    (hk : ∀ (name : String) (c : Reader), s.cursors.get? name = some (.reader c) →
      f.readers.get? name = some ⟨c.address, c.bounds⟩ → Faces c s.tape f.source →
      f.mark ≤ c.address → c.Sound t' ∧ mark' ≤ c.address) (name : String) :
    Paired t' mark' (s.cursors.get? name) (f.readers.get? name) := by
  have hpaired := h.paired name
  have hk := hk name
  generalize s.cursors.get? name = found at hpaired hk ⊢
  generalize f.readers.get? name = found' at hpaired hk ⊢
  cases hpaired with
  | none => exact .none
  | some hc hm =>
    obtain ⟨hc', hm'⟩ := hk _ rfl rfl (h.faces hc hm) hm
    exact .some hc' hm'

end Agrees

/-- The two sides give the same answer, and stay alike. -/
structure Alike (r : Reply × Session) (r' : Reply × Flat) : Prop where
  answer : r.1 = r'.1
  agrees : Agrees r.2 r'.2

namespace Agrees

variable {s : Session} {f : Flat}

/-! ## Input -/

/-- Bytes come as long as the end is open; none at all always do. -/
theorem grown (h : Agrees s f) {bytes : List UInt8} (ho : bytes ≠ [] → f.closed = false) :
    ∃ t', s.tape.append bytes = (.ok (f.bytes.length + bytes.length), t') ∧ s.tape.Grows t' ∧
      t'.Carries (f.bytes ++ bytes) := by
  have hcarries := h.carries
  by_cases hb : bytes = []
  · refine ⟨s.tape, ?_, .refl _, ?_⟩
    · rw [hb, Tape.append, hcarries.fill, Tape.storeFrom]
      exact congrArg (Prod.mk _) (by rw [← hcarries.fill])
    · rwa [hb, List.append_nil]
  · have heof : s.tape.eof = none := by rw [h.eof, Source.eof, Flat.source, ho hb]; rfl
    exact hcarries.append heof (Nat.le_trans h.start_le h.mark_le) bytes

theorem append (h : Agrees s f) (bytes : List UInt8) :
    Alike (Session.ask (.append bytes) s) (Flat.ask (.append bytes) f) := by
  simp only [Flat.ask]
  by_cases hrefused : (f.closed && !bytes.isEmpty) = true
  · -- behind a fixed end nothing comes
    rw [Bool.and_eq_true, Bool.not_eq_true', List.isEmpty_eq_false_iff] at hrefused
    have heof : s.tape.eof = some s.tape.fill := by
      rw [h.eof, Source.eof, Flat.source, hrefused.1, h.carries.fill]
      rfl
    have ha := Tape.append_closed h.carries.whole heof hrefused.2
    have hask : Session.ask (.append bytes) s =
        (.refused (.writeAfterEnd s.tape.fill s.tape.fill), s) := by
      show s.stepTape (.append bytes) = _
      rw [Session.stepTape, ha]
    rw [hask, h.carries.fill, if_pos (by simpa using hrefused)]
    exact ⟨rfl, h⟩
  · have ho : bytes ≠ [] → f.closed = false := by
      intro hb
      simpa [hb] using hrefused
    obtain ⟨t', ha, hg, hc⟩ := h.grown ho
    have hask : Session.ask (.append bytes) s =
        (.number (f.bytes.length + bytes.length), { s with tape := t' }) := by
      show s.stepTape (.append bytes) = _
      rw [Session.stepTape, ha]
    rw [hask, if_neg hrefused]
    refine ⟨rfl, hc, hg.eof.trans (h.eof.trans ?_), hg.start.symm ▸ h.start_le, ?_, ?_⟩
    · by_cases hb : bytes = []
      · rw [hb, List.append_nil]
      · rw [Source.eof, Source.eof, Flat.source, Flat.source, ho hb]
        rfl
    · rw [List.length_append]
      exact Nat.le_add_right_of_le h.mark_le
    · apply h.paired_of
      intro name c _ _ hface hm
      exact ⟨(hface.append hg hc ho).sound, hm⟩

theorem freeze (h : Agrees s f) : Alike (Session.ask .freeze s) (Flat.ask .freeze f) := by
  have he : s.tape.eof = none ∨ s.tape.eof = some s.tape.fill := by
    rw [h.eof, h.carries.fill, Source.eof]
    cases f.source.closed with
    | false => exact .inl rfl
    | true => exact .inr rfl
  have hask : Session.ask .freeze s =
      (.done, { s with tape := { s.tape with eof := some s.tape.fill } }) := by
    show Session.onTape s (s.tape.fixEnd s.tape.fill) = _
    rw [Tape.fixEnd_fill he]
    rfl
  rw [hask]
  refine ⟨rfl, ⟨h.carries.whole, h.carries.paged, h.carries.fill, h.carries.shows⟩, ?_, h.start_le,
    h.mark_le, ?_⟩
  · exact congrArg some h.carries.fill
  · apply h.paired_of
    intro name c _ _ hc hm
    exact ⟨hc.close.sound, hm⟩

theorem evict (h : Agrees s f) {mark : Nat} (hm : f.Allows (.evict mark)) :
    Alike (Session.ask (.evict mark) s) (Flat.ask (.evict mark) f) := by
  obtain ⟨hfill, hreaders⟩ := hm
  have hmark : s.tape.start ≤ max f.mark mark := Nat.le_trans h.start_le (Nat.le_max_left ..)
  refine ⟨rfl, h.carries.evict _ _, h.eof, ?_, ?_, ?_⟩
  · exact Tape.start_evict_le _ _ hmark (Nat.le_max_right ..)
  · exact Nat.max_le.2 ⟨h.mark_le, hfill⟩
  · apply h.paired_of
    intro name c hs hf hc hm
    have hle := hreaders _ (Named.mem_values_of_get? hf)
    have hheld : ∀ p ∈ c.page, p ∈ s.heldPages := fun p hp => Session.mem_heldPages hs hp
    exact ⟨(hc.evict hheld hle).sound, Nat.max_le.2 ⟨hm, hle⟩⟩

/-! ## Readers -/

/-- A reader is named, or put in the place of another. -/
theorem named (h : Agrees s f) (name : String) {c : Reader} (hc : c.Sound s.tape)
    (hm : f.mark ≤ c.address) : Alike (.done, s.putCursor name (.reader c))
      (.done, { f with readers := f.readers.put name ⟨c.address, c.bounds⟩ }) :=
  ⟨rfl, h.puts (s.becomes_put name s.tape (.reader c)) hc hm⟩

theorem makeReader (h : Agrees s f) (name : String) {address : Nat} (hm : f.mark ≤ address) :
    Alike (Session.ask (.makeReader name address) s) (Flat.ask (.makeReader name address) f) :=
  h.named name (Cursor.sound_fresh s.tape [] address) hm

theorem copy (h : Agrees s f) (name source : String) :
    Alike (Session.ask (.copy name source) s) (Flat.ask (.copy name source) f) := by
  show Alike (s.onCursor source fun c => (.done, s.putCursor name c)) _
  have hpaired := h.paired source
  rw [Session.onCursor]
  simp only [Flat.ask]
  generalize s.cursors.get? source = found at hpaired
  generalize f.readers.get? source = found' at hpaired
  cases hpaired with
  | none => exact ⟨rfl, h⟩
  | some hc hm => exact h.named name hc hm

theorem drop (h : Agrees s f) (name : String) :
    Alike (Session.ask (.drop name) s) (Flat.ask (.drop name) f) := by
  refine ⟨?_, h.carries, h.eof, h.start_le, h.mark_le, ?_⟩
  · show Reply.flag (s.cursors.get? name).isSome = .flag (f.readers.get? name).isSome
    have hpaired := h.paired name
    generalize s.cursors.get? name = found at hpaired ⊢
    generalize f.readers.get? name = found' at hpaired ⊢
    cases hpaired with
    | none => rfl
    | some => rfl
  · intro name'
    show Paired s.tape f.mark ((s.cursors.erase name).get? name')
      ((f.readers.erase name).get? name')
    rw [Named.get?_erase, Named.get?_erase]
    by_cases hn : name' = name
    · rw [if_pos hn, if_pos hn]
      exact .none
    · rw [if_neg hn, if_neg hn]
      exact h.paired name'

/-- An operation that is the same for a reader and its picture is the same for the two sides. -/
theorem on (h : Agrees s f) (name : String) {op : FlatReader → Reply × FlatReader}
    {act : AnyCursor → Reply × Session}
    (hact : ∀ c : Reader, s.cursors.get? name = some (.reader c) →
      f.readers.get? name = some ⟨c.address, c.bounds⟩ → Faces c s.tape f.source →
      f.mark ≤ c.address → ∃ c' s', act (.reader c) = ((op ⟨c.address, c.bounds⟩).1, s') ∧
        s.Becomes name s.tape (some (.reader c')) s' ∧ c'.Sound s.tape ∧ f.mark ≤ c'.address ∧
        (op ⟨c.address, c.bounds⟩).2 = ⟨c'.address, c'.bounds⟩) :
    Alike (s.onCursor name act) (f.onReader name op) := by
  have hpaired := h.paired name
  rw [Session.onCursor, Flat.onReader]
  generalize hs : s.cursors.get? name = found at hpaired
  generalize hf : f.readers.get? name = found' at hpaired
  cases hpaired with
  | none => exact ⟨rfl, h⟩
  | some hc hm =>
    obtain ⟨c', s', he, hputs, hc', hm', hop⟩ := hact _ hs hf (h.faces hc hm) hm
    simp only [he, hop]
    exact ⟨rfl, h.puts hputs hc' hm'⟩

/-- The same for operations that every cursor has. -/
theorem move (h : Agrees s f) (name : String)
    (act : {role : Role} → Cursor role → Except StreamError (Cursor role))
    {op : FlatReader → Reply × FlatReader}
    (hact : ∀ c : Reader, Faces c s.tape f.source → f.mark ≤ c.address →
      (∃ c', act c = .ok c' ∧ op ⟨c.address, c.bounds⟩ = (.done, ⟨c'.address, c'.bounds⟩) ∧
        c'.Sound s.tape ∧ f.mark ≤ c'.address) ∨
      ∃ e, act c = .error e ∧ op ⟨c.address, c.bounds⟩ = (.refused e, ⟨c.address, c.bounds⟩)) :
    Alike (s.moveCursor name act) (f.onReader name op) := by
  apply h.on name
  intro c hs _ hc hm
  rcases hact c hc hm with ⟨c', he, hop, hc', hm'⟩ | ⟨e, he, hop⟩
  · refine ⟨c', _, ?_, s.becomes_put name s.tape (.reader c'), hc', hm', ?_⟩
    · simp only [hop, he]
    · rw [hop]
  · refine ⟨c, s, ?_, hs ▸ s.becomes_self name s.tape, hc.sound, hm, ?_⟩
    · simp only [hop, he]
    · rw [hop]

theorem readByte (h : Agrees s f) {name : String} (hr : f.Allows (.readByte name)) :
    Alike (Session.ask (.readByte name) s) (Flat.ask (.readByte name) f) := by
  apply h.on name
  intro c _ hf hc hm
  have hread := hc.readByte
  simp only [Flat.read_eq (hr _ hf)]
  cases hget : f.source.get c.bounds c.address with
  | error e =>
    rw [hget] at hread
    exact ⟨c, _, by rw [hread], s.becomes_put name s.tape (.reader c), hc.sound, hm, rfl⟩
  | ok b =>
    rw [hget] at hread
    obtain ⟨-, c', he, hc', hbounds, haddress⟩ := hread
    refine ⟨c', _, by rw [he], s.becomes_put name s.tape (.reader c'), hc'.sound, ?_, ?_⟩
    · rw [haddress]
      exact Nat.le_succ_of_le hm
    · rw [haddress, hbounds]

theorem pushBound (h : Agrees s f) (name : String) (stop : Position) :
    Alike (Session.ask (.pushBound name stop) s) (Flat.ask (.pushBound name stop) f) := by
  refine h.move name (fun c => c.pushBound s.tape stop) ?_
  intro c hc hm
  have hstop : f.stop ⟨c.address, c.bounds⟩ = c.stop s.tape := by rw [Flat.stop_eq, hc.stop]
  simp only [hstop, Cursor.pushBound]
  by_cases hp : stop ≤ c.stop s.tape
  · rw [if_pos hp, if_pos hp]
    exact .inl ⟨_, rfl, rfl, Cursor.sound_refresh hc.sound.grain hc.sound.bits hc.sound.page, hm⟩
  · rw [if_neg hp, if_neg hp]
    exact .inr ⟨_, rfl, rfl⟩

theorem popBound (h : Agrees s f) (name : String) :
    Alike (Session.ask (.popBound name) s) (Flat.ask (.popBound name) f) := by
  refine h.move name (fun c => c.popBound s.tape) ?_
  intro c hc hm
  rw [Cursor.popBound]
  cases hb : c.bounds with
  | nil => exact .inr ⟨_, rfl, rfl⟩
  | cons p outer =>
    exact .inl ⟨_, rfl, rfl, Cursor.sound_refresh hc.sound.grain hc.sound.bits hc.sound.page, hm⟩

theorem seek (h : Agrees s f) (name : String) {address : Nat} (hm : f.mark ≤ address) :
    Alike (Session.ask (.seek name address) s) (Flat.ask (.seek name address) f) := by
  refine h.move name (fun c => .ok (c.seek s.tape address)) ?_
  intro c hc _
  exact .inl ⟨_, rfl, rfl, hc.sound.seek address, hm⟩

theorem close (h : Agrees s f) (name : String) :
    Alike (Session.ask (.close name) s) (Flat.ask (.close name) f) := by
  refine h.move name (fun c => .ok c.close) ?_
  intro c hc hm
  refine .inl ⟨_, rfl, rfl, ⟨hc.sound.grain, hc.sound.bits, ?_, ?_⟩, hm⟩
  · intro p hp
    cases hp
  · intro a _ ha
    exact absurd ha (Nat.not_lt_zero a)

theorem refresh (h : Agrees s f) (name : String) :
    Alike (Session.ask (.refresh name) s) (Flat.ask (.refresh name) f) := by
  refine h.move name (fun c => .ok (c.refresh s.tape)) ?_
  intro c hc hm
  exact .inl ⟨_, rfl, rfl, Cursor.sound_refresh hc.sound.grain hc.sound.bits hc.sound.page, hm⟩

theorem position (h : Agrees s f) (name : String) :
    Alike (Session.ask (.position name) s) (Flat.ask (.position name) f) := by
  apply h.on name
  intro c hs _ hc hm
  have hpos : c.position = .ofByte c.address := by
    show (⟨8 * c.address - c.bits.length⟩ : Position) = _
    rw [hc.sound.bits]
    rfl
  refine ⟨c, s, ?_, hs ▸ s.becomes_self name s.tape, hc.sound, hm, rfl⟩
  simp only [hpos]

/-! ## Everything that is asked -/

/-- Whatever may be asked, both sides give the same answer, and stay alike. -/
theorem ask (h : Agrees s f) {a : Ask} (ha : f.Allows a) :
    Alike (Session.ask a s) (Flat.ask a f) := by
  cases a with
  | append bytes => exact h.append bytes
  | freeze => exact h.freeze
  | evict mark => exact h.evict ha
  | makeReader name address => exact h.makeReader name ha
  | copy name source => exact h.copy name source
  | drop name => exact h.drop name
  | readByte name => exact h.readByte ha
  | pushBound name stop => exact h.pushBound name stop
  | popBound name => exact h.popBound name
  | seek name address => exact h.seek name ha
  | close name => exact h.close name
  | refresh name => exact h.refresh name
  | position name => exact h.position name

/-- The first answer, and those of the state that it leaves. -/
theorem mapM_cons {σ α β : Type} (step : α → StateM σ β) (a : α) (rest : List α) (s : σ) :
    ((a :: rest).mapM step s).1 = (step a s).1 :: (rest.mapM step (step a s).2).1 := by
  rw [List.mapM_cons]
  rfl

theorem answers {asks : List Ask} (h : Agrees s f) (ha : f.AllowsAll asks) :
    (asks.mapM Session.ask s).1 = (asks.mapM Flat.ask f).1 := by
  induction asks generalizing s f with
  | nil => rfl
  | cons a rest ih =>
    obtain ⟨ha, hrest⟩ := ha
    obtain ⟨hanswer, hagrees⟩ := h.ask ha
    rw [mapM_cons, mapM_cons, hanswer, ih hagrees hrest]

end Agrees

/-- Readers on pages that come and go read what readers of one list of bytes read, and are told the
same of blocks, of the end of the stream and of bytes that are still to come. So it does not matter
how large the pages are, which of them were given up, or what any reader has in its caches. -/
theorem readers_flat (pageSize : Nat) (framing : Framing) {asks : List Ask}
    (h : Flat.AllowsAll asks {}) :
    (asks.mapM Session.ask { tape := Tape.blank pageSize, framing }).1 =
      (asks.mapM Flat.ask {}).1 :=
  (Agrees.blank pageSize framing).answers h

/-- A reader and its copy: two bytes are read, of which the first is given up before the copy is
made and the second comes only afterwards. -/
def Ask.copied : List Ask :=
  [.append [7], .makeReader "a" 0, .readByte "a", .readByte "a", .evict 1, .copy "b" "a",
    .append [8], .readByte "b", .readByte "a"]

/-- On pages of one byte both of them read the second byte, once it is there. -/
theorem readers_flat_copied : Flat.AllowsAll Ask.copied {} ∧
    (Ask.copied.mapM Session.ask { tape := Tape.blank 1, framing := {} }).1 =
      [.number 1, .done, .number 7, .refused (.notAvailable 1), .done, .done, .number 2,
        .number 8, .number 8] := by
  have h : Flat.AllowsAll Ask.copied {} := by decide
  exact ⟨h, (readers_flat 1 {} h).trans rfl⟩

/-- A reader that goes back to where the last mark lets it, but not the one before, finds its byte
given up. -/
theorem readers_not_flat :
    ([.append [0xaa, 0xbb, 0xcc], .makeReader "r" 2, .evict 2, .evict 0, .seek "r" 0,
        .readByte "r"].mapM Session.ask { tape := Tape.blank 1, framing := {} }).1 =
      [.number 3, .done, .done, .done, .done, .refused (.brokenCursor 0)] := by
  rfl

end Transcoder

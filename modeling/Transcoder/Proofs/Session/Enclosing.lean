import Transcoder.Proofs.Cursor.Loading
import Transcoder.Proofs.Session.Named
import Transcoder.Proofs.Value.Pieces

/-!
# Readers inside blocks

A reader looks at the innermost end around it and at no other. That it stays inside all of them rests
on the order of the ends: each was allowed by the one around it when it was set. The end of the stream
may be fixed later, and nearer than all of them, but then no byte comes behind it.

Results:
* `Enclosed.readByte`, `Enclosed.resume`, `Enclosed.enter`: reads take only bytes before all ends.
* `Inside.step`: a command keeps the ends in order, and the books on what is open.
* `Crosses.guards`: whatever series of commands came before, in proper nesting.
-/
namespace Transcoder

/-! ## Readers and their ends -/

/-- The byte lies before all these ends, and before the fixed end of the stream. -/
def Tape.Admits (t : Tape) (bounds : List Position) (a : Nat) : Prop :=
  (∀ q ∈ bounds, Position.ofByte (a + 1) ≤ q) ∧ ∀ e ∈ t.eof, a < e

/-- A byte reader with caches that are right, inside ends that grow outwards. If the end of the stream
is fixed, it is fixed behind the last byte. -/
structure Cursor.Enclosed (c : Reader) (t : Tape) : Prop where
  sound : c.Sound t
  sorted : c.bounds.Pairwise (· ≤ ·)
  eof : ∀ e ∈ t.eof, e = t.fill

/-- The bytes that a reader takes when it reads on in a value, whatever comes of it. -/
def Cursor.taken (t : Tape) (c : Reader) (p : PartialValue) : List Nat :=
  match c.readByte t with
  | (.error _, _) => []
  | (.ok b, c') =>
    c.address ::
      match h : p.feed b with
      | (.ok none, p') =>
        have := PartialValue.remaining_lt_of_feed h
        taken t c' p'
      | _ => []
termination_by p.remaining

namespace Cursor.Enclosed

variable {c c' : Reader} {t t' : Tape} {p p' : PartialValue}

theorem fetch {b : UInt8} (h : c.Enclosed t) (hf : c.fetch t = .ok (b, c')) :
    c'.Enclosed t ∧ c'.bounds = c.bounds ∧ c'.address = c.address + 1 ∧
      t.Admits c.bounds c.address := by
  obtain ⟨rfl, hway⟩ := of_fetch_ok hf
  have hsound := h.sound
  have hinside : c.address < (c.stop t).byte ∧ c.address < t.fill := by
    rcases hway with ⟨hfast, -⟩ | hcheck
    · obtain ⟨-, hstop, hfill⟩ := hsound.of_fast hfast
      exact ⟨hstop, hfill rfl⟩
    · refine ⟨?_, lt_fill_of_checkFetch hcheck⟩
      rw [checkFetch] at hcheck
      by_cases hb : t.broken = true
      · rw [if_pos hb] at hcheck
        cases hcheck
      rw [if_neg hb, hsound.checkByte] at hcheck
      by_cases hlt : c.address < (c.stop t).byte
      · exact hlt
      · rw [if_neg hlt] at hcheck
        cases hcheck
  have hload : (c.onLoad t).Sound t ∧ (c.onLoad t).bounds = c.bounds := by
    have hkept : c.Kept t := ⟨hsound.page, fun a ha hs => (hsound.span a ha hs).1⟩
    obtain ⟨h1, h2⟩ := hkept.resident_of_fetch hf
    unfold onLoad
    split
    · exact ⟨hsound, rfl⟩
    · exact ⟨sound_refresh_page hsound h1 h2, rfl⟩
  have hnext := hload.1.next
  rw [address_onLoad] at hnext
  refine ⟨⟨hnext, hload.2.symm ▸ h.sorted, h.eof⟩, hload.2, rfl, fun q hq => ?_, fun e he => ?_⟩
  · -- the innermost end is the nearest one
    have hstop := hinside.1
    have hsorted := h.sorted
    rw [stop] at hstop
    cases hb : c.bounds with
    | nil =>
      rw [hb] at hq
      cases hq
    | cons first outer =>
      rw [hb] at hq hstop hsorted
      rw [List.headD_cons, Position.byte] at hstop
      have hfirst : Position.ofByte (c.address + 1) ≤ first := by
        show 8 * (c.address + 1) ≤ first.bits
        omega
      rcases List.mem_cons.1 hq with rfl | hq
      · exact hfirst
      · exact Nat.le_trans hfirst (List.rel_of_pairwise_cons hsorted hq)
  · rw [h.eof e he]
    exact hinside.2

theorem readByte_eq (h : c.Enclosed t) : c.readByte t =
    match c.fetch t with
    | .ok (b, c') => (.ok b, c')
    | .error e => (.error e, c) := by
  rw [readByte, h.sound.aligned, h.sound.stopsWithin]
  rfl

/-- A byte that is read lies before all ends. -/
theorem readByte {b : UInt8} (h : c.Enclosed t) (hr : c.readByte t = (.ok b, c')) :
    c'.Enclosed t ∧ c'.bounds = c.bounds ∧ c'.address = c.address + 1 ∧
      t.Admits c.bounds c.address := by
  rw [h.readByte_eq] at hr
  cases hf : c.fetch t with
  | error e =>
    rw [hf] at hr
    cases hr
  | ok r =>
    obtain ⟨b', c₁⟩ := r
    rw [hf] at hr
    cases hr
    exact h.fetch hf

theorem readByte_error {e : StreamError} (h : c.Enclosed t) (hr : c.readByte t = (.error e, c')) :
    c' = c := by
  rw [h.readByte_eq] at hr
  cases hf : c.fetch t with
  | error e' =>
    rw [hf] at hr
    cases hr
    rfl
  | ok r =>
    obtain ⟨b', c₁⟩ := r
    rw [hf] at hr
    cases hr

theorem taken_of_error {e : StreamError} (hb : c.readByte t = (.error e, c')) :
    c.taken t p = [] := by
  rw [taken, hb]

theorem taken_of_report {b : UInt8} (hb : c.readByte t = (.ok b, c'))
    (hf : ∀ q, p.feed b ≠ (.ok none, q)) : c.taken t p = [c.address] := by
  rw [taken, hb]
  show c.address :: _ = [c.address]
  congr 1
  split
  · rename_i p' h
    exact absurd h (hf p')
  · rfl

theorem taken_of_none {b : UInt8} (hb : c.readByte t = (.ok b, c'))
    (hf : p.feed b = (.ok none, p')) : c.taken t p = c.address :: c'.taken t p' := by
  rw [taken, hb]
  show c.address :: _ = c.address :: _
  congr 1
  split
  · rename_i h
    cases hf.symm.trans h
    rfl
  · rename_i h
    exact absurd hf (h p')

/-- And so do all bytes of a value, read in part or as a whole. -/
theorem resume (h : c.Enclosed t) (p : PartialValue) :
    (Cursor.resume t c p).2.1.Enclosed t ∧ (Cursor.resume t c p).2.1.bounds = c.bounds ∧
      (Cursor.resume t c p).2.1.address = c.address + (c.taken t p).length ∧
      ∀ a ∈ c.taken t p, t.Admits c.bounds a := by
  fun_induction Cursor.resume t c p with
  | case1 c p e c₁ hb =>
    obtain rfl := h.readByte_error hb
    rw [taken_of_error hb]
    exact ⟨h, rfl, rfl, fun a ha => by cases ha⟩
  | case2 c p b c₁ hb e p₁ hf | case3 c p b c₁ hb w p₁ hf =>
    obtain ⟨h₁, hbounds, haddress, hadmits⟩ := h.readByte hb
    rw [taken_of_report hb fun q hq => by cases hf.symm.trans hq]
    exact ⟨h₁, hbounds, haddress, fun a ha => List.mem_singleton.1 ha ▸ hadmits⟩
  | case4 c p b c₁ hb p₁ hf _ ih =>
    obtain ⟨h₁, hbounds, haddress, hadmits⟩ := h.readByte hb
    obtain ⟨h₂, hbounds₂, haddress₂, hadmits₂⟩ := ih h₁
    rw [taken_of_none hb hf]
    refine ⟨h₂, hbounds₂.trans hbounds, ?_, fun a ha => ?_⟩
    · rw [haddress₂, haddress, List.length_cons]
      omega
    · rcases List.mem_cons.1 ha with rfl | ha
      · exact hadmits
      · exact hbounds ▸ hadmits₂ a ha

theorem readValue {kind : IntKind} {w : UInt64} (h : c.Enclosed t)
    (hr : c.readValue t kind = .ok (w, c')) : c'.Enclosed t ∧ c'.bounds = c.bounds ∧
      c'.address = c.address + (c.taken t (.start kind)).length := by
  obtain ⟨h₁, hbounds, haddress, -⟩ := h.resume (.start kind)
  rw [Cursor.readValue] at hr
  generalize Cursor.resume t c (.start kind) = r at hr h₁ hbounds haddress
  obtain ⟨r, c₁, q⟩ := r
  cases r with
  | error e => cases hr
  | ok w' =>
    cases hr
    exact ⟨h₁, hbounds, haddress⟩

/-! ## In and out of blocks -/

/-- The ends stay in order when they are set anew, and so does all else. -/
theorem rebound {bounds : List Position} (h : c.Enclosed t) (hs : bounds.Pairwise (· ≤ ·)) :
    ({ c with bounds }.refresh t : Reader).Enclosed t :=
  ⟨sound_refresh h.sound.grain h.sound.bits h.sound.page, hs, h.eof⟩

/-- An end is set inside the innermost one, and so inside all of them. -/
theorem pushBound {stop : Position} (h : c.Enclosed t) (hp : c.pushBound t stop = .ok c') :
    c'.Enclosed t ∧ c'.bounds = stop :: c.bounds ∧ c'.address = c.address := by
  rw [Cursor.pushBound] at hp
  split at hp
  · rename_i hle
    cases hp
    refine ⟨h.rebound (List.pairwise_cons.2 ⟨fun q hq => ?_, h.sorted⟩), rfl, rfl⟩
    have hsorted := h.sorted
    rw [Cursor.stop] at hle
    cases hb : c.bounds with
    | nil =>
      rw [hb] at hq
      cases hq
    | cons first outer =>
      rw [hb] at hq hle hsorted
      rcases List.mem_cons.1 hq with rfl | hq
      · exact hle
      · exact Nat.le_trans hle (List.rel_of_pairwise_cons hsorted hq)
  · cases hp

theorem enterSized {size : Nat} {e : Extent} (h : c.Enclosed t)
    (he : c.enterSized t size = .ok (e, c')) :
    c'.Enclosed t ∧ c'.bounds = e.stop :: c.bounds ∧ c'.address = c.address := by
  simp only [Cursor.enterSized] at he
  split at he
  · rename_i hp
    cases he
    exact h.pushBound hp
  · cases he

theorem enter {e : Extent} (h : c.Enclosed t) (he : c.enter t = .ok (e, c')) :
    c'.Enclosed t ∧ c'.bounds = e.stop :: c.bounds ∧
      c'.address = c.address + (c.taken t (.start .varuint32)).length := by
  simp only [Cursor.enter, Cursor.readSize, bind, Except.bind] at he
  cases hr : c.readValue t .varuint32 with
  | error x =>
    rw [hr] at he
    cases he
  | ok r =>
    obtain ⟨w, c₁⟩ := r
    rw [hr] at he
    obtain ⟨h₁, hbounds, haddress⟩ := h.readValue hr
    obtain ⟨h₂, hbounds₂, haddress₂⟩ := h₁.enterSized he
    exact ⟨h₂, hbounds₂.trans (congrArg _ hbounds), haddress₂.trans haddress⟩

/-- Taking the innermost end away gives back those around it. -/
theorem popBound {stop : Position} {outer : List Position} (h : c.Enclosed t)
    (hb : c.bounds = stop :: outer) : ∃ c', c.popBound t = .ok c' ∧ c'.Enclosed t ∧
      c'.bounds = outer ∧ c'.address = c.address ∧ c'.bits = c.bits := by
  have hsorted := h.sorted
  rw [hb] at hsorted
  refine ⟨({ c with bounds := outer } : Reader).refresh t, ?_, ?_, rfl, rfl, rfl⟩
  · rw [Cursor.popBound, hb]
  · exact h.rebound (List.pairwise_cons.1 hsorted).2

/-- A block is left exactly at its end. -/
theorem leave {e : Extent} {stop : Position} {outer : List Position} (h : c.Enclosed t)
    (hb : c.bounds = stop :: outer) :
    (c.position = e.stop ∧ ∃ c', c.leave t e = .ok c' ∧ c'.Enclosed t ∧ c'.bounds = outer ∧
      c'.address = c.address ∧ c'.position = c.position) ∨
    (c.position ≠ e.stop ∧ c.leave t e = .error (.blockUnderrun e.stop c.position)) := by
  by_cases hp : c.position = e.stop
  · obtain ⟨c', hpop, h', hbounds, haddress, hbits⟩ := h.popBound hb
    refine .inl ⟨hp, c', ?_, h', hbounds, haddress, ?_⟩
    · rw [Cursor.leave, if_pos hp, hpop]
    · show (⟨8 * c'.address - c'.bits.length⟩ : Position) = ⟨8 * c.address - c.bits.length⟩
      rw [haddress, hbits]
  · exact .inr ⟨hp, if_neg hp⟩

/-! ## The tape -/

/-- More bytes come, or are refused. -/
theorem append (h : c.Enclosed t) (bytes : List UInt8) : c.Enclosed (t.append bytes).2 := by
  have hgrows := t.append_grows bytes
  have hfill : t.fill ≤ (t.append bytes).2.fill ∧
      (t.eof = some t.fill → (t.append bytes).2.fill = t.fill) := by
    match ha : t.append bytes with
    | (.ok n, t') =>
      obtain ⟨hn, hwritable, rfl⟩ := Tape.of_append_ok ha
      refine ⟨hn ▸ Nat.le_add_right .., fun heof => ?_⟩
      -- a byte behind the end would have been refused
      refine Decidable.byContradiction fun hne => ?_
      have hne : n ≠ t.fill := hne
      have hw := hwritable t.fill (by omega) (.inl ⟨rfl, rfl⟩)
      rw [Tape.checkWritable, heof] at hw
      by_cases hb : t.broken = true
      · rw [if_pos hb] at hw
        cases hw
      · rw [if_neg hb, Option.filter_some, if_pos (decide_eq_true (Nat.le_refl _))] at hw
        cases hw
    | (.error e, t') =>
      have hfill := (Tape.of_append_error ha).fill
      exact ⟨Nat.le_of_eq hfill.symm, fun _ => hfill⟩
  refine ⟨h.sound.grows hgrows fun _ => hfill.1, h.sorted, fun e he => ?_⟩
  rw [hgrows.eof] at he
  have hend := h.eof e he
  rw [hfill.2 (hend ▸ he), hend]

/-- The end of the stream is fixed behind the last byte. -/
theorem freeze (h : c.Enclosed t) (hf : t.fixEnd t.fill = .ok t') : c.Enclosed t' := by
  obtain ⟨rfl, hle, -⟩ := Tape.of_fixEnd hf
  exact ⟨h.sound.ended hle, h.sorted, fun e he => (Option.some.inj he).symm⟩

end Cursor.Enclosed

/-! ## Nested commands -/

/-- What is asked of a byte reader in blocks, and of its tape. -/
inductive Crossing where
  | enter (block : String)
  | enterSized (block : String) (size : Nat)
  | leave (block : String)
  | pushBound (stop : Position)
  | popBound
  | readByte
  | readValue (kind : IntKind)
  | append (bytes : List UInt8)
  /-- Fixes the end of the stream behind the last byte. -/
  | freeze

/-- A block that was entered, or an end that was set, and not left. -/
structure Opened where
  /-- None where an end was set. -/
  extent : Option Extent
  /-- The ends around the reader before. -/
  outside : List Position

namespace Crossing

/-- The command that asks it of a reader, when so many bytes have come. -/
def command (name : String) (fill : Nat) : Crossing → Command
  | enter block => .reader name (.enter block)
  | enterSized block size => .reader name (.enterSized block size)
  | leave block => .reader name (.leave block)
  | pushBound stop => .cursor name (.pushBound stop)
  | popBound => .cursor name .popBound
  | readByte => .reader name .readByte
  | readValue kind => .reader name (.readValue kind)
  | append bytes => .tape (.append bytes)
  | freeze => .tape (.fixEnd fill)

/-- The answer is that it was done. -/
def succeeds : Crossing → Reply → Bool
  | enter _, .extent _ | enterSized .., .extent _ => true
  | leave _, .done | pushBound _, .done | popBound, .done | freeze, .done => true
  | readByte, .number _ | append _, .number _ => true
  | readValue _, .word _ => true
  | _, _ => false

/-- What is open after the answer, innermost first, with these ends around the reader before. -/
def opens (around : List Position) (opened : List Opened) : Crossing → Reply → List Opened
  | enter _, .extent e | enterSized .., .extent e => ⟨some e, around⟩ :: opened
  | pushBound _, .done => ⟨none, around⟩ :: opened
  | leave _, .done | popBound, .done => opened.tail
  | _, _ => opened

/-- An end is taken away where one was set, and only the innermost block is left. -/
def Proper (s : Session) : Crossing → List Opened → Prop
  | popBound, o :: _ => o.extent = none
  | leave block, o :: _ => ∃ e, o.extent = some e ∧ s.extents.get? block = some e
  | popBound, [] | leave _, [] => False
  | _, _ => True

/-- The addresses of the bytes that the reader takes, whatever comes of them. -/
def taken (t : Tape) (c : Reader) : Crossing → List Nat
  | readByte =>
    match c.readByte t with
    | (.ok _, _) => [c.address]
    | (.error _, _) => []
  | readValue kind => c.taken t (.start kind)
  | enter _ => c.taken t (.start .varuint32)
  | _ => []

end Crossing

namespace Session

variable {s : Session} {name : String} {c c' : Reader}

theorem onReader_of_reader (h : s.cursors.get? name = some (.reader c))
    (f : Reader → Reply × Reader) :
    s.onReader name f = ((f c).1, s.putCursor name (.reader (f c).2)) := by
  rw [onReader, onCursor_of_some h]

theorem tryReader_of_ok {ε α : Type} {answer : α → Reply} {refuse : ε → Reply}
    {f : Reader → Except ε (α × Reader)} {a : α} (h : s.cursors.get? name = some (.reader c))
    (hf : f c = .ok (a, c')) :
    s.tryReader name answer refuse f = (answer a, s.putCursor name (.reader c')) := by
  rw [tryReader, onReader_of_reader h, hf]

theorem tryReader_of_error {ε α : Type} {answer : α → Reply} {refuse : ε → Reply}
    {f : Reader → Except ε (α × Reader)} {x : ε} (h : s.cursors.get? name = some (.reader c))
    (hf : f c = .error x) :
    s.tryReader name answer refuse f = (refuse x, s.putCursor name (.reader c)) := by
  rw [tryReader, onReader_of_reader h, hf]

theorem moveCursor_of_ok {f : {role : Role} → Cursor role → Except StreamError (Cursor role)}
    (h : s.cursors.get? name = some (.reader c)) (hf : f c = .ok c') :
    s.moveCursor name f = (.done, s.putCursor name (.reader c')) := by
  rw [moveCursor, onCursor_of_some h]
  simp only [hf]

theorem moveCursor_of_error {f : {role : Role} → Cursor role → Except StreamError (Cursor role)}
    {x : StreamError} (h : s.cursors.get? name = some (.reader c)) (hf : f c = .error x) :
    s.moveCursor name f = (.refused x, s) := by
  rw [moveCursor, onCursor_of_some h]
  simp only [hf]

end Session

/-- The answer of a session. -/
def Session.cross (s : Session) (name : String) (x : Crossing) : Reply × Session :=
  s.step (x.command name s.tape.fill)

/-- The ends around a reader, innermost first. -/
def Session.boundsOf (s : Session) (name : String) : List Position :=
  match s.cursors.get? name with
  | some (.reader c) => c.bounds
  | _ => []

/-- Properly nested commands for a reader, one after the other, and what is open meanwhile. -/
inductive Crosses (name : String) : Session → List Opened → Session → List Opened → Prop
  | none (s : Session) (opened : List Opened) : Crosses name s opened s opened
  | more {s s' : Session} {opened opened' : List Opened} (h : Crosses name s opened s' opened')
    (x : Crossing) (proper : x.Proper s' opened') :
    Crosses name s opened (s'.cross name x).2
      (x.opens (s'.boundsOf name) opened' (s'.cross name x).1)

/-- What a command does to a reader that is inside `opened`: it turns from `c` to `c'`. -/
structure Guards (t : Tape) (opened : List Opened) (x : Crossing) (reply : Reply) (c c' : Reader) :
    Prop where
  /-- A byte that is taken lies before all ends, and before the end of the stream. -/
  admits : ∀ a ∈ x.taken t c, t.Admits c.bounds a
  /-- A command that is done takes the reader behind these bytes. -/
  moves : x.succeeds reply = true → c'.address = c.address + (x.taken t c).length
  /-- Any other leaves it as it was. -/
  stays : x.succeeds reply = false → c' = c
  /-- A block is left exactly at its end, and the ends are those from before it was entered. -/
  leaves : ∀ block e outside rest, x = .leave block → opened = ⟨some e, outside⟩ :: rest →
    (reply = .done ↔ c.position = e.stop) ∧
      (reply = .done → c'.bounds = outside ∧ c'.position = c.position)

/-- The ends around a reader are those it started with and one for each that is open. -/
inductive Books (base : List Position) : List Opened → List Position → Prop
  | nil : Books base [] base
  | bound {opened : List Opened} {bounds : List Position} (h : Books base opened bounds)
    (stop : Position) : Books base (⟨none, bounds⟩ :: opened) (stop :: bounds)
  | block {opened : List Opened} {bounds : List Position} (h : Books base opened bounds)
    (e : Extent) : Books base (⟨some e, bounds⟩ :: opened) (e.stop :: bounds)

theorem Books.length_eq {base bounds : List Position} {opened : List Opened}
    (h : Books base opened bounds) : bounds.length = base.length + opened.length := by
  induction h with
  | nil => rfl
  | bound _ _ ih | block _ _ ih =>
    rw [List.length_cons, List.length_cons, ih]
    rfl

/-- The named reader, inside what is open. -/
structure Inside (name : String) (base : List Position) (s : Session) (opened : List Opened)
    (c : Reader) : Prop where
  reader : s.cursors.get? name = some (.reader c)
  enclosed : c.Enclosed s.tape
  books : Books base opened c.bounds

namespace Inside

variable {name : String} {base : List Position} {s s' : Session} {opened : List Opened}
  {c c' : Reader} {x : Crossing} {reply : Reply}

theorem boundsOf (h : Inside name base s opened c) : s.boundsOf name = c.bounds := by
  rw [Session.boundsOf, h.reader]

/-- The command keeps the books on what is open, and does to the reader what it may. -/
def Keeps (name : String) (base : List Position) (s : Session) (opened : List Opened) (c : Reader)
    (x : Crossing) : Prop :=
  ∃ c', Inside name base (s.cross name x).2 (x.opens c.bounds opened (s.cross name x).1) c' ∧
    Guards s.tape opened x (s.cross name x).1 c c'

theorem opens_of_failed (hs : x.succeeds reply = false) (around : List Position) :
    x.opens around opened reply = opened := by
  cases x <;> cases reply <;> first | rfl | cases hs

/-- A reader is put in the place of the one that had the name. -/
theorem put (hc : c'.Enclosed s.tape) (hb : Books base opened c'.bounds) :
    Inside name base (s.putCursor name (.reader c')) opened c' := by
  refine ⟨?_, hc, hb⟩
  rw [Session.putCursor, Named.get?_put, if_pos rfl]

/-- A command that is not done. -/
theorem failed (h : Inside name base s opened c)
    (hx : s.cross name x = (reply, s.putCursor name (.reader c)) ∨ s.cross name x = (reply, s))
    (hs : x.succeeds reply = false) (hadmits : ∀ a ∈ x.taken s.tape c, s.tape.Admits c.bounds a)
    (hleaves : ∀ block e outside rest, x = .leave block → opened = ⟨some e, outside⟩ :: rest →
      reply ≠ .done ∧ c.position ≠ e.stop) : Keeps name base s opened c x := by
  have hguards : Guards s.tape opened x reply c c := by
    refine ⟨hadmits, fun hd => ?_, fun _ => rfl, fun block e outside rest hx ho => ?_⟩
    · rw [hs] at hd
      cases hd
    · obtain ⟨h1, h2⟩ := hleaves block e outside rest hx ho
      exact ⟨⟨fun hd => absurd hd h1, fun hp => absurd hp h2⟩, fun hd => absurd hd h1⟩
  rcases hx with hx | hx
  · rw [Keeps, hx, opens_of_failed hs]
    exact ⟨c, put h.enclosed h.books, hguards⟩
  · rw [Keeps, hx, opens_of_failed hs]
    exact ⟨c, h, hguards⟩

/-! ### One command after the other -/

theorem readByte (h : Inside name base s opened c) : Keeps name base s opened c .readByte := by
  have hcross : s.cross name .readByte = _ := Session.onReader_of_reader h.reader _
  match hr : c.readByte s.tape with
  | (.ok b, c') =>
    rw [hr] at hcross
    obtain ⟨hc, hbounds, haddress, hadmits⟩ := h.enclosed.readByte hr
    have htaken : Crossing.taken s.tape c .readByte = [c.address] := by rw [Crossing.taken, hr]
    rw [Keeps, hcross]
    refine ⟨c', put hc (hbounds ▸ h.books), ?_, fun _ => ?_, fun hs => (by cases hs),
      fun _ _ _ _ hx => by cases hx⟩
    · rw [htaken]
      intro a ha
      exact List.mem_singleton.1 ha ▸ hadmits
    · rw [htaken]
      exact haddress
  | (.error e, c') =>
    rw [hr] at hcross
    obtain rfl := h.enclosed.readByte_error hr
    refine h.failed (.inl hcross) rfl (fun a ha => ?_) fun _ _ _ _ hx => by cases hx
    rw [Crossing.taken, hr] at ha
    cases ha

theorem readValue (h : Inside name base s opened c) (kind : IntKind) :
    Keeps name base s opened c (.readValue kind) := by
  have hadmits := (h.enclosed.resume (.start kind)).2.2.2
  cases hr : c.readValue s.tape kind with
  | ok r =>
    obtain ⟨w, c'⟩ := r
    have hcross : s.cross name (.readValue kind) = (.word w, s.putCursor name (.reader c')) :=
      Session.tryReader_of_ok h.reader hr
    obtain ⟨hc, hbounds, haddress⟩ := h.enclosed.readValue hr
    rw [Keeps, hcross]
    exact ⟨c', put hc (hbounds ▸ h.books), hadmits, fun _ => haddress, fun hs => (by cases hs),
      fun _ _ _ _ hx => by cases hx⟩
  | error e =>
    exact h.failed (.inl (Session.tryReader_of_error h.reader hr)) rfl hadmits
      fun _ _ _ _ hx => by cases hx

/-- A block is entered, whether its size is read or given. -/
theorem entered {block : String} {f : Reader → Except DecodeError (Extent × Reader)}
    (h : Inside name base s opened c) (hx : x = .enter block ∨ ∃ size, x = .enterSized block size)
    (hcross : s.cross name x =
      Session.keepExtent block (s.tryReader name .extent .notDecoded f))
    (hok : ∀ {e c'}, f c = .ok (e, c') → c'.Enclosed s.tape ∧ c'.bounds = e.stop :: c.bounds ∧
      c'.address = c.address + (x.taken s.tape c).length)
    (hadmits : ∀ a ∈ x.taken s.tape c, s.tape.Admits c.bounds a) :
    Keeps name base s opened c x := by
  have hleave {block' : String} : x ≠ .leave block' := by
    rcases hx with rfl | ⟨size, rfl⟩ <;> exact fun hx => by cases hx
  cases hr : f c with
  | ok r =>
    obtain ⟨e, c'⟩ := r
    obtain ⟨hc, hbounds, haddress⟩ := hok hr
    have hin : Inside name base (s.putCursor name (.reader c')) (⟨some e, c.bounds⟩ :: opened) c' :=
      put hc (hbounds ▸ Books.block h.books e)
    rw [Session.tryReader_of_ok h.reader hr] at hcross
    have hopens : x.opens c.bounds opened (.extent e) = ⟨some e, c.bounds⟩ :: opened := by
      rcases hx with rfl | ⟨size, rfl⟩ <;> rfl
    have hdone : x.succeeds (.extent e) = true := by
      rcases hx with rfl | ⟨size, rfl⟩ <;> rfl
    rw [Keeps, hcross]
    refine ⟨c', ?_, hadmits, fun _ => haddress, fun hs => ?_, fun _ _ _ _ hx => absurd hx hleave⟩
    · show Inside name base _ (x.opens c.bounds opened (.extent e)) c'
      rw [hopens]
      exact ⟨hin.reader, hin.enclosed, hin.books⟩
    · exact absurd (hdone.symm.trans hs) Bool.true_eq_false.mp
  | error e =>
    rw [Session.tryReader_of_error h.reader hr] at hcross
    have hfailed : x.succeeds (.notDecoded e) = false := by
      rcases hx with rfl | ⟨size, rfl⟩ <;> rfl
    exact h.failed (.inl hcross) hfailed hadmits fun _ _ _ _ hx => absurd hx hleave

theorem enter (h : Inside name base s opened c) (block : String) :
    Keeps name base s opened c (.enter block) :=
  h.entered (.inl rfl) rfl h.enclosed.enter (h.enclosed.resume (.start .varuint32)).2.2.2

theorem enterSized (h : Inside name base s opened c) (block : String) (size : Nat) :
    Keeps name base s opened c (.enterSized block size) :=
  h.entered (.inr ⟨size, rfl⟩) rfl h.enclosed.enterSized fun _ ha => by cases ha

theorem pushBound (h : Inside name base s opened c) (stop : Position) :
    Keeps name base s opened c (.pushBound stop) := by
  cases hr : c.pushBound s.tape stop with
  | ok c' =>
    have hcross : s.cross name (.pushBound stop) = (.done, s.putCursor name (.reader c')) :=
      Session.moveCursor_of_ok (f := fun c => c.pushBound s.tape stop) h.reader hr
    obtain ⟨hc, hbounds, haddress⟩ := h.enclosed.pushBound hr
    rw [Keeps, hcross]
    exact ⟨c', put hc (hbounds ▸ Books.bound h.books stop), fun _ ha => (by cases ha),
      fun _ => haddress, fun hs => (by cases hs), fun _ _ _ _ hx => by cases hx⟩
  | error e =>
    have hcross : s.cross name (.pushBound stop) = (.refused e, s) :=
      Session.moveCursor_of_error (f := fun c => c.pushBound s.tape stop) h.reader hr
    exact h.failed (.inr hcross) rfl (fun _ ha => by cases ha) fun _ _ _ _ hx => by cases hx

theorem popBound (h : Inside name base s opened c) (hp : Crossing.Proper s .popBound opened) :
    Keeps name base s opened c .popBound := by
  cases opened with
  | nil => exact hp.elim
  | cons o rest =>
    generalize hbounds : c.bounds = bounds at *
    have hbooks := h.books
    rw [hbounds] at hbooks
    cases hbooks with
    | block _ e => cases hp
    | @bound _ outer hrest stop =>
      obtain ⟨c', hr, hc, hb, haddress, -⟩ := h.enclosed.popBound hbounds
      have hcross : s.cross name .popBound = (.done, s.putCursor name (.reader c')) :=
        Session.moveCursor_of_ok (f := fun c => c.popBound s.tape) h.reader hr
      rw [Keeps, hcross]
      exact ⟨c', put hc (hb ▸ hrest), fun _ ha => (by cases ha), fun _ => haddress,
        fun hs => (by cases hs), fun _ _ _ _ hx => by cases hx⟩

theorem leave (h : Inside name base s opened c) {block : String}
    (hp : Crossing.Proper s (.leave block) opened) :
    Keeps name base s opened c (.leave block) := by
  cases opened with
  | nil => exact hp.elim
  | cons o rest =>
    obtain ⟨e, ho, hget⟩ := hp
    have hbooks := h.books
    generalize hbounds : c.bounds = bounds at hbooks
    cases hbooks with
    | bound hrest stop => cases ho
    | @block _ outer hrest e' =>
      cases ho
      have hcross : s.cross name (.leave block) =
          s.tryReader name (fun () => .done) .notDecoded
            fun c => (c.leave s.tape e).map ((), ·) := by
        show s.stepReader name (.leave block) = _
        rw [Session.stepReader, hget]
      rcases h.enclosed.leave (e := e) hbounds with ⟨hpos, c', hr, hc, hb, haddress, hpos'⟩ |
        ⟨hpos, hr⟩
      · have hf : ((c.leave s.tape e).map fun c => ((), c)) = .ok ((), c') := by rw [hr]; rfl
        rw [Session.tryReader_of_ok h.reader hf] at hcross
        rw [Keeps, hcross]
        refine ⟨c', put hc (hb ▸ hrest), fun _ ha => (by cases ha), fun _ => haddress,
          fun hs => (by cases hs), fun _ e₁ outside _ _ ho => ?_⟩
        cases ho
        exact ⟨⟨fun _ => hpos, fun _ => rfl⟩, fun _ => ⟨hb, hpos'⟩⟩
      · have hf : ((c.leave s.tape e).map fun c => ((), c)) =
            .error (.blockUnderrun e.stop c.position) := by rw [hr]; rfl
        rw [Session.tryReader_of_error h.reader hf] at hcross
        refine h.failed (.inl hcross) rfl (fun _ ha => by cases ha) fun _ e₁ _ _ _ ho => ?_
        cases ho
        exact ⟨fun hd => (by cases hd), hpos⟩

theorem append (h : Inside name base s opened c) (bytes : List UInt8) :
    Keeps name base s opened c (.append bytes) := by
  have hc := h.enclosed.append bytes
  have hguards {reply : Reply} : Guards s.tape opened (.append bytes) reply c c :=
    ⟨fun _ ha => (by cases ha), fun _ => rfl, fun _ => rfl, fun _ _ _ _ hx => by cases hx⟩
  have hopens (reply : Reply) : Crossing.opens c.bounds opened (.append bytes) reply = opened := by
    cases reply <;> rfl
  refine ⟨c, ?_, hguards⟩
  rw [hopens]
  exact ⟨h.reader, hc, h.books⟩

theorem freeze (h : Inside name base s opened c) : Keeps name base s opened c .freeze := by
  have hguards {reply : Reply} : Guards s.tape opened .freeze reply c c :=
    ⟨fun _ ha => (by cases ha), fun _ => rfl, fun _ => rfl, fun _ _ _ _ hx => by cases hx⟩
  have hopens (reply : Reply) : Crossing.opens c.bounds opened .freeze reply = opened := by
    cases reply <;> rfl
  refine ⟨c, ?_, hguards⟩
  rw [hopens]
  have hcross : s.cross name .freeze = s.onTape (s.tape.fixEnd s.tape.fill) := rfl
  rw [hcross]
  cases hf : s.tape.fixEnd s.tape.fill with
  | ok t => exact ⟨h.reader, h.enclosed.freeze hf, h.books⟩
  | error e => exact h

/-- Whatever is asked in proper nesting, the ends stay in order and guard what is read. -/
theorem step (h : Inside name base s opened c) (hp : x.Proper s opened) :
    Keeps name base s opened c x := by
  cases x with
  | enter block => exact h.enter block
  | enterSized block size => exact h.enterSized block size
  | leave block => exact h.leave hp
  | pushBound stop => exact h.pushBound stop
  | popBound => exact h.popBound hp
  | readByte => exact h.readByte
  | readValue kind => exact h.readValue kind
  | append bytes => exact h.append bytes
  | freeze => exact h.freeze

/-- And so it is for one command after the other. -/
theorem run {s₀ : Session} {opened₀ : List Opened} {c₀ : Reader}
    (h : Inside name base s₀ opened₀ c₀) (hc : Crosses name s₀ opened₀ s opened) :
    ∃ c, Inside name base s opened c := by
  induction hc with
  | none => exact ⟨c₀, h⟩
  | more _ x proper ih =>
    obtain ⟨c, hin⟩ := ih h
    obtain ⟨c', hin', -⟩ := hin.step proper
    exact ⟨c', hin.boundsOf.symm ▸ hin'⟩

end Inside

/-- A reader stays inside the blocks around it. Whatever commands it was given, in proper nesting,
with the end of the stream fixed at no other place than behind the last byte: the ends around it grow
outwards, as many as it started with and one for each that is open, and the next command is guarded by
all of them. -/
theorem Crosses.guards {s s' : Session} {name : String} {c₀ : Reader} {opened : List Opened}
    (hget : s.cursors.get? name = some (.reader c₀)) (h₀ : c₀.Enclosed s.tape)
    (h : Crosses name s [] s' opened) : ∃ c, s'.cursors.get? name = some (.reader c) ∧
      c.bounds.Pairwise (· ≤ ·) ∧ c.depth = c₀.depth + opened.length ∧
      ∀ x : Crossing, x.Proper s' opened → ∃ c',
        (s'.cross name x).2.cursors.get? name = some (.reader c') ∧
        Guards s'.tape opened x (s'.cross name x).1 c c' := by
  have hstart : Inside name c₀.bounds s [] c₀ := ⟨hget, h₀, .nil⟩
  obtain ⟨c, hin⟩ := hstart.run h
  refine ⟨c, hin.reader, hin.enclosed.sorted, hin.books.length_eq, fun x hp => ?_⟩
  obtain ⟨c', hin', hguards⟩ := hin.step hp
  exact ⟨c', hin'.reader, hguards⟩

/-- A stream of a byte and a block of two, its end open, and a reader at its start. -/
def beforeBlock : Session where
  tape := ((Tape.blank 4).append [2, 7, 8]).2
  framing := {}
  cursors := [("r", .reader { grain := .byte, address := 0 })]

/-- The reader at the end of the block. -/
def behindBody : Session :=
  let s := (beforeBlock.cross "r" .readByte).2
  let s := (s.cross "r" (.enterSized "k" 2)).2
  let s := (s.cross "r" .readByte).2
  let s := (s.cross "r" .freeze).2
  (s.cross "r" .readByte).2

/-- The end of the stream is fixed while the reader is in the block, which it leaves at its end. -/
theorem Crosses.guards_behindBody : (behindBody.cross "r" (.leave "k")).1 = .done ∧
    ∃ c c', behindBody.cursors.get? "r" = some (.reader c) ∧ c.depth = 1 ∧
      (behindBody.cross "r" (.leave "k")).2.cursors.get? "r" = some (.reader c') ∧
      c'.bounds = [] ∧ c'.position = c.position := by
  have hdone : (behindBody.cross "r" (.leave "k")).1 = .done := by rfl
  have hcrosses : Crosses "r" beforeBlock [] behindBody [⟨some ⟨1, .ofByte 3⟩, []⟩] :=
    (((((Crosses.none beforeBlock []).more .readByte trivial).more (.enterSized "k" 2) trivial).more
      .readByte trivial).more .freeze trivial).more .readByte trivial
  have hstart : beforeBlock.cursors.get? "r" = some (.reader { grain := .byte, address := 0 }) := by
    rfl
  obtain ⟨c, hget, -, hdepth, hnext⟩ := Crosses.guards hstart
    ⟨Cursor.sound_fresh _ [] 0, .nil, fun e he => by cases he⟩ hcrosses
  obtain ⟨c', hget', hguards⟩ := hnext (.leave "k") ⟨⟨1, .ofByte 3⟩, rfl, by rfl⟩
  obtain ⟨-, hleft⟩ := hguards.leaves "k" ⟨1, .ofByte 3⟩ [] [] rfl rfl
  obtain ⟨hbounds, hpos⟩ := hleft hdone
  exact ⟨hdone, c, c', hget, hdepth, hget', hbounds, hpos⟩

end Transcoder

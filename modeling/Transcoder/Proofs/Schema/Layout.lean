import Transcoder.Proofs.Block.Nesting
import Transcoder.Proofs.Schema.Meaning

/-!
# What is put out, before it is framed

How blocks are framed is nothing to the input: it says what is read and where a block or a loop ends.
So a piece of the input comes to one `Layout`, a tree of blocks around the bytes of its numbers, and
a framing says how long the headers in it are, and whether one of them is too narrow.

Results:
* `Content.refusal?_eq_none`, `Content.refusal?_eq_some`: what it takes for a tree to be put out, and
  why it may be refused.
* `Content.refusal?_of_padded`: with shortest headers a tree is put out wherever it is with padded
  ones, and is no longer.
* `Schema.laidOut_transcodeWithin`: every node lays out its input, or fails in every framing.
-/
namespace Transcoder

/-! ## Trees of blocks -/

/-- A shortest header is no longer than a padded one of the same size. -/
theorem Framing.length_header_le (f : Framing) {reserved size : Nat} (hr : 0 < reserved)
    (hs : size ≤ headerLimit reserved) : (f.header reserved size).length ≤ reserved := by
  unfold header
  split
  · exact length_unsigned_le_of_headerLimit hr hs
  · exact Nat.le_of_eq (Leb128.length_padded_of_pos hr size)

namespace Content

/-- One tree behind another. -/
def append : Content → Content → Content
  | done, d => d
  | bytes raw rest, d => bytes raw (rest.append d)
  | block body rest, d => block body (rest.append d)

/-- Why a tree is not put out from an address of the output on: it comes to the end of the addresses,
or to the end of a body that is too long for the header reserved for it. -/
def refusal? (f : Framing) : Content → Nat → Option Failure
  | done, _ => none
  | bytes raw rest, a =>
    if a + raw.length ≤ addressLimit then rest.refusal? f (a + raw.length)
    else some (.ofStream outOfSpace)
  | block body rest, a =>
    if a + f.reserved ≤ addressLimit then
      (body.refusal? f (a + f.reserved)).or <|
        if headerLimit f.reserved < (body.encode f).length then
          some (.blockTooLarge (body.encode f).length (headerLimit f.reserved))
        else
          rest.refusal? f
            (a + (f.header f.reserved (body.encode f).length ++ body.encode f).length)
    else some (.ofStream outOfSpace)

/-- The addresses suffice for the tree from the beginning of the output on, and the headers for the
blocks in it. -/
def Fits (f : Framing) (c : Content) : Prop :=
  c.peak f ≤ addressLimit ∧ ∀ size ∈ c.sizes f, size ≤ headerLimit f.reserved

variable {f g : Framing} {a b : Nat} {x : Failure}

theorem encode_append (c d : Content) : (c.append d).encode f = c.encode f ++ d.encode f := by
  induction c with
  | done => rfl
  | bytes raw rest ih => simp only [append, encode, ih, List.append_assoc]
  | block body rest _ ih => simp only [append, encode, ih, List.append_assoc]

theorem refusal?_append (c d : Content) (a : Nat) : (c.append d).refusal? f a =
    (c.refusal? f a).or (d.refusal? f (a + (c.encode f).length)) := by
  induction c generalizing a with
  | done => rfl
  | bytes raw rest ih =>
    simp only [append, refusal?, encode, ih, List.length_append, Nat.add_assoc]
    split <;> rfl
  | block body rest _ ih =>
    simp only [append, refusal?, encode, ih, List.length_append, Nat.add_assoc]
    split
    · rw [Option.or_assoc]
      congr 1
      split <;> rfl
    · rfl

theorem refusal?_bytes (raw : List UInt8) (h : a + raw.length ≤ addressLimit) :
    (bytes raw done).refusal? f a = none := if_pos h

/-- A tree that begins where there is an address is put out if there are addresses for all of it,
and no body in it is too long for its header. -/
theorem refusal?_eq_none (hr : 0 < f.reserved) (c : Content) (ha : a ≤ addressLimit) :
    c.refusal? f a = none ↔
      a + c.peak f ≤ addressLimit ∧ ∀ size ∈ c.sizes f, size ≤ headerLimit f.reserved := by
  induction c generalizing a with
  | done => simp [refusal?, peak, sizes, ha]
  | bytes raw rest ih =>
    simp only [refusal?, peak, sizes, ← Nat.add_assoc]
    split
    · rw [ih ‹_›]
    · simp only [reduceCtorEq, false_iff]
      omega
  | block body rest ihb ihr =>
    have hbody := body.length_encode_le_peak f
    simp only [refusal?, peak, sizes, List.forall_mem_append, List.forall_mem_cons]
    split
    · rename_i hfirst
      rw [Option.or_eq_none_iff, ihb hfirst]
      by_cases hl : headerLimit f.reserved < (body.encode f).length
      · rw [if_pos hl]
        simp only [reduceCtorEq, and_false, false_iff]
        omega
      · rw [if_neg hl]
        have hheader := f.length_header_le hr (Nat.not_lt.1 hl)
        have hlen : (f.header f.reserved (body.encode f).length ++ body.encode f).length = _ :=
          List.length_append
        constructor
        · rintro ⟨⟨hroom, hsizes⟩, hrest⟩
          obtain ⟨hroom', hsizes'⟩ := (ihr (by omega)).1 hrest
          exact ⟨by omega, hsizes, Nat.not_lt.1 hl, hsizes'⟩
        · rintro ⟨hroom, hsizes, -, hsizes'⟩
          exact ⟨⟨by omega, hsizes⟩, (ihr (by omega)).2 ⟨by omega, hsizes'⟩⟩
    · simp only [reduceCtorEq, false_iff]
      omega

/-- From the beginning of the output on, a tree is put out exactly if it fits. -/
theorem refusal?_eq_none_iff_fits (hr : 0 < f.reserved) (c : Content) :
    c.refusal? f 0 = none ↔ c.Fits f := by
  rw [refusal?_eq_none hr c (Nat.zero_le _), Nat.zero_add, Fits]

/-- A tree is refused for want of addresses, or for a body that is too long for its header. -/
theorem refusal?_eq_some (hr : 0 < f.reserved) (c : Content) (ha : a ≤ addressLimit)
    (h : c.refusal? f a = some x) :
    (addressLimit < a + c.peak f ∧ x = .ofStream outOfSpace) ∨
      ∃ size ∈ c.sizes f, headerLimit f.reserved < size ∧
        x = .blockTooLarge size (headerLimit f.reserved) := by
  induction c generalizing a with
  | done => cases h
  | bytes raw rest ih =>
    simp only [refusal?] at h
    simp only [peak, sizes, ← Nat.add_assoc]
    split at h
    · exact ih ‹_› h
    · obtain rfl := Option.some.inj h
      exact .inl ⟨by omega, rfl⟩
  | block body rest ihb ihr =>
    have hbody := body.length_encode_le_peak f
    simp only [refusal?] at h
    simp only [peak, sizes]
    split at h
    · rename_i hfirst
      rcases Option.or_eq_some_iff.1 h with h | ⟨hfits, h⟩
      · rcases ihb hfirst h with ⟨hroom, hx⟩ | ⟨size, hs, hlt, hx⟩
        · exact .inl ⟨by omega, hx⟩
        · exact .inr ⟨size, List.mem_append_left _ hs, hlt, hx⟩
      · split at h
        · obtain rfl := Option.some.inj h
          exact .inr ⟨_, List.mem_append_right _ List.mem_cons_self, ‹_›, rfl⟩
        · have hheader := f.length_header_le hr (Nat.not_lt.1 ‹_›)
          have hroom := ((body.refusal?_eq_none hr hfirst).1 hfits).1
          have hlen : (f.header f.reserved (body.encode f).length ++ body.encode f).length = _ :=
            List.length_append
          rcases ihr (by omega) h with ⟨hroom', hx⟩ | ⟨size, hs, hlt, hx⟩
          · exact .inl ⟨by omega, hx⟩
          · exact .inr ⟨size, List.mem_append_right _ (List.mem_cons_of_mem _ hs), hlt, hx⟩
    · obtain rfl := Option.some.inj h
      exact .inl ⟨by omega, rfl⟩

/-- What is put out with padded headers is put out with shortest ones too, no matter how much
shorter the output is by then, and does not get longer. -/
theorem refusal?_of_padded (hr : 0 < f.reserved) (hw : g.reserved = f.reserved)
    (hg : g.minimize = false) (c : Content) (hab : b ≤ a) (h : c.refusal? g a = none) :
    c.refusal? f b = none ∧ (c.encode f).length ≤ (c.encode g).length := by
  induction c generalizing a b with
  | done => exact ⟨rfl, Nat.le_refl _⟩
  | bytes raw rest ih =>
    simp only [refusal?] at h ⊢
    split at h
    · obtain ⟨hrest, hle⟩ := ih (Nat.add_le_add_right hab _) h
      refine ⟨?_, by simpa only [encode, List.length_append, Nat.add_le_add_iff_left]⟩
      rw [if_pos (by omega), hrest]
    · cases h
  | block body rest ihb ihr =>
    simp only [refusal?, hw] at h ⊢
    split at h
    · obtain ⟨hbody, h⟩ := Option.or_eq_none_iff.1 h
      obtain ⟨hbody, hle⟩ := ihb (Nat.add_le_add_right hab _) hbody
      split at h
      · cases h
      · have hlimit : (body.encode f).length ≤ headerLimit f.reserved := by omega
        have hheader := f.length_header_le hr hlimit
        have hpadded : (g.header f.reserved (body.encode g).length).length = f.reserved := by
          rw [Framing.header, hg]
          exact Leb128.length_padded_of_pos hr _
        have hblock : (f.header f.reserved (body.encode f).length ++ body.encode f).length ≤
            (g.header f.reserved (body.encode g).length ++ body.encode g).length := by
          rw [List.length_append, List.length_append]
          omega
        obtain ⟨hrest, hle'⟩ := ihr (Nat.add_le_add hab hblock) h
        constructor
        · rw [if_pos (by omega), hbody, Option.none_or, if_neg (by omega), hrest]
        · simp only [encode, hw, List.length_append] at hblock ⊢
          omega
    · cases h

/-- What fits with padded headers, fits with shortest ones. -/
theorem Fits.of_padded (hr : 0 < f.reserved) (hw : g.reserved = f.reserved)
    (hg : g.minimize = false) {c : Content} (h : c.Fits g) : c.Fits f := by
  rw [← refusal?_eq_none_iff_fits hr]
  rw [← refusal?_eq_none_iff_fits (hw ▸ hr)] at h
  exact (refusal?_of_padded hr hw hg c (Nat.le_refl 0) h).1

end Content

/-! ## Pieces -/

/-- What a piece of the input comes to: where it ends, what is put out, and the numbers in it. -/
structure Layout where
  position : Nat
  content : Content := .done
  values : List Decoded := []

namespace Layout

/-- One piece behind another. -/
def append (l m : Layout) : Layout :=
  ⟨m.position, l.content.append m.content, l.values ++ m.values⟩

/-- What is put out of it from an address on. -/
def framed (l : Layout) (f : Framing) (a : Nat) : Except Failure Piece :=
  match l.content.refusal? f a with
  | none => .ok ⟨l.position, l.content.encode f, l.values⟩
  | some x => .error x

theorem framed_of_none {l : Layout} {f : Framing} {a : Nat}
    (h : l.content.refusal? f a = none) :
    l.framed f a = .ok ⟨l.position, l.content.encode f, l.values⟩ := by
  rw [framed, h]

theorem framed_of_some {l : Layout} {f : Framing} {a : Nat} {x : Failure}
    (h : l.content.refusal? f a = some x) : l.framed f a = .error x := by
  rw [framed, h]

theorem of_framed {l : Layout} {f : Framing} {a : Nat} {p : Piece} (h : l.framed f a = .ok p) :
    l.content.refusal? f a = none ∧ p = ⟨l.position, l.content.encode f, l.values⟩ := by
  cases hr : l.content.refusal? f a with
  | none =>
    rw [framed_of_none hr] at h
    exact ⟨rfl, (Except.ok.inj h).symm⟩
  | some x =>
    rw [framed_of_some hr] at h
    cases h

theorem position_of_framed {l : Layout} {f : Framing} {a : Nat} {p : Piece}
    (h : l.framed f a = .ok p) : p.position = l.position := by
  rw [(of_framed h).2]

theorem framed_append (l m : Layout) (f : Framing) (a : Nat) : (l.append m).framed f a =
    (l.framed f a).bind fun p => (m.framed f (a + p.output.length)).map p.append := by
  have happ := l.content.refusal?_append (f := f) m.content a
  cases hl : l.content.refusal? f a with
  | some x =>
    rw [hl, Option.some_or] at happ
    rw [framed_of_some hl, framed_of_some happ]
    rfl
  | none =>
    rw [hl, Option.none_or] at happ
    rw [framed_of_none hl]
    cases hm : m.content.refusal? f (a + (l.content.encode f).length) with
    | some x =>
      rw [hm] at happ
      rw [framed_of_some happ]
      simp only [Except.bind, framed_of_some hm, Except.map]
    | none =>
      rw [hm] at happ
      rw [framed_of_none happ]
      simp only [Except.bind, framed_of_none hm, Except.map, append, Piece.append,
        Content.encode_append]

end Layout

/-- What comes of the same piece of the input in every framing and at every address. -/
inductive LaidOutAt (G : Framing → Nat → Except Failure Piece) : Prop
  | fails (never : ∀ f a p, G f a ≠ .ok p)
  | lays (layout : Layout) (framed : ∀ f a, G f a = layout.framed f a)

namespace LaidOutAt

variable {G : Framing → Nat → Except Failure Piece}
  {K : Nat → Framing → Nat → Except Failure Piece}

theorem error {x : Framing → Nat → Failure} : LaidOutAt fun f a => .error (x f a) :=
  .fails fun _ _ _ h => by cases h

theorem ite {c : Prop} [Decidable c] {G' : Framing → Nat → Except Failure Piece}
    (h : LaidOutAt G) (h' : LaidOutAt G') :
    LaidOutAt fun f a => if c then G f a else G' f a := by
  by_cases hc : c
  · simp only [if_pos hc]
    exact h
  · simp only [if_neg hc]
    exact h'

/-- What comes behind a piece begins where it ends, at the address behind what came of it. -/
theorem follow (h : LaidOutAt G) (k : ∀ position, LaidOutAt (K position)) :
    LaidOutAt fun f a => (G f a).bind fun p =>
      (K p.position f (a + p.output.length)).map p.append := by
  cases h with
  | fails never =>
    refine .fails fun f a p h => ?_
    cases hg : G f a with
    | ok q => exact never f a q hg
    | error x =>
      rw [hg] at h
      cases h
  | lays l framed =>
    rcases k l.position with never | ⟨m, framed'⟩
    · refine .fails fun f a p h => ?_
      rw [framed] at h
      cases hr : l.content.refusal? f a with
      | some x =>
        rw [Layout.framed_of_some hr] at h
        cases h
      | none =>
        rw [Layout.framed_of_none hr] at h
        simp only [Except.bind] at h
        cases hk : K l.position f (a + (l.content.encode f).length) with
        | ok q => exact never _ _ q hk
        | error x =>
          rw [hk] at h
          cases h
    · refine .lays (l.append m) fun f a => ?_
      rw [framed, Layout.framed_append]
      cases hr : l.content.refusal? f a with
      | some x =>
        rw [Layout.framed_of_some hr]
        rfl
      | none =>
        rw [Layout.framed_of_none hr]
        simp only [Except.bind, framed']

end LaidOutAt

namespace Meaning

variable {input : List UInt8} {F : Framing → Meaning}

/-- However blocks are framed, the same input is laid out, or all framings fail. -/
def LaidOut (F : Framing → Meaning) : Prop :=
  ∀ bounds position, LaidOutAt fun f a => F f ⟨bounds, position, a⟩

theorem laidOut_nothing : LaidOut fun _ => nothing :=
  fun _ position => .lays { position } fun _ _ => rfl

theorem laidOut_error {x : Failure} : LaidOut fun _ _ => .error x :=
  fun _ _ => .error

theorem laidOut_within {limit k : Nat} (h : LaidOut F) :
    LaidOut fun f => within limit k (F f) :=
  fun bounds position => .ite (h bounds position) .error

theorem inOrder_cons (f : Meaning) (fs : List Meaning) (place : Place) :
    inOrder (f :: fs) place = (f place).bind fun p => follow p (inOrder fs) place := by
  simp only [inOrder]
  cases f place <;> rfl

theorem laidOut_inOrder {F : Framing → Nat → Meaning} {children : List Nat}
    (h : ∀ c ∈ children, LaidOut fun f => F f c) :
    LaidOut fun f => inOrder (children.map (F f)) := by
  induction children with
  | nil => exact laidOut_nothing
  | cons c rest ih =>
    intro bounds position
    simp only [List.map_cons, inOrder_cons]
    exact (h c List.mem_cons_self bounds position).follow
      (ih (fun c hc => h c (List.mem_cons_of_mem _ hc)) bounds)

theorem laidOut_emit (kind : IntKind) (word : UInt64) (start : Nat) :
    LaidOut fun _ => emit kind word start := by
  intro bounds position
  refine .ite (.lays ⟨position, .bytes (kind.bytes word) .done, [⟨kind, word, start⟩]⟩ ?_) .error
  intro f a
  by_cases h : a + (kind.bytes word).length ≤ addressLimit
  · rw [if_pos h, Layout.framed_of_none (Content.refusal?_bytes _ h)]
    simp only [Content.encode, List.append_nil]
  · rw [if_neg h, Layout.framed_of_some (x := .ofStream outOfSpace)]
    simp only [Content.refusal?, if_neg h]

theorem value_eq (kind : IntKind) (rest : UInt64 → Meaning) (place : Place) :
    value input kind rest place = (number input kind place).bind fun r =>
      (emit kind r.1 place.position { place with position := r.2 }).bind fun p =>
        follow p (rest r.1) place := by
  unfold value
  rcases number input kind place with x | ⟨word, position⟩
  · rfl
  · simp only [Except.bind]
    cases emit kind word place.position { place with position } <;> rfl

theorem laidOut_value {kind : IntKind} {R : Framing → UInt64 → Meaning}
    (h : ∀ word, LaidOut fun f => R f word) : LaidOut fun f => value input kind (R f) := by
  intro bounds position
  have hnumber : ∀ a, number input kind ⟨bounds, position, a⟩ =
      number input kind ⟨bounds, position, 0⟩ := fun _ => rfl
  simp only [value_eq, hnumber]
  rcases number input kind ⟨bounds, position, 0⟩ with x | ⟨word, position'⟩
  · exact .error
  · exact (laidOut_emit kind word position bounds position').follow (h word bounds)

theorem repeated_succ (id : Nat) (body : Meaning) (n : Nat) (place : Place) :
    repeated id body (n + 2) place = (body place).bind fun p =>
      (if p.position = place.position then .error (.emptyLoopBody id)
        else repeated id body (n + 1) (place.after p)).map p.append := by
  simp only [repeated]
  cases body place with
  | error x => rfl
  | ok p =>
    by_cases h : p.position = place.position
    · simp only [Except.bind, if_pos h]
      rfl
    · simp only [Except.bind, if_neg h]
      rfl

theorem laidOut_repeated {id : Nat} (h : LaidOut F) (n : Nat) :
    LaidOut fun f => repeated id (F f) n := by
  induction n with
  | zero => exact laidOut_nothing
  | succ n ih =>
    cases n with
    | zero => exact h
    | succ n =>
      intro bounds position
      simp only [repeated_succ]
      refine (h bounds position).follow
        (K := fun q f a => if q = position then .error (.emptyLoopBody id)
          else repeated id (F f) (n + 1) ⟨bounds, q, a⟩) fun q => ?_
      exact .ite .error (ih bounds q)

theorem toEnd_succ (id : Nat) (body : Meaning) (place : Place)
    (hs : ¬(Source.whole input).stop place.bounds ≤ .ofByte place.position) :
    toEnd input id body place = (body place).bind fun p =>
      (if p.position ≤ place.position then .error (.emptyLoopBody id)
        else toEnd input id body (place.after p)).map p.append := by
  rw [toEnd, dif_neg hs]
  cases body place with
  | error x => rfl
  | ok p =>
    by_cases h : p.position ≤ place.position
    · simp only [Except.bind, if_pos h, dif_pos h]
      rfl
    · simp only [Except.bind, if_neg h, dif_neg h]

theorem laidOut_toEnd {id : Nat} (h : LaidOut F) :
    LaidOut fun f => toEnd input id (F f) := by
  intro bounds position
  -- the loop ends because what is left in front of the end gets less
  obtain ⟨left, hleft⟩ :
      ∃ left, left = ((Source.whole input).stop bounds).bits - 8 * position := ⟨_, rfl⟩
  induction left using Nat.strongRecOn generalizing position with
  | ind left ih =>
    by_cases hs : (Source.whole input).stop bounds ≤ .ofByte position
    · have hnothing : ∀ f a, toEnd input id (F f) ⟨bounds, position, a⟩ =
          nothing ⟨bounds, position, a⟩ := fun f a => toEnd_of_le hs
      simp only [hnothing]
      exact laidOut_nothing bounds position
    · have hsucc := fun f a => toEnd_succ id (F f) ⟨bounds, position, a⟩ hs
      simp only [hsucc]
      refine (h bounds position).follow
        (K := fun q f a => if q ≤ position then .error (.emptyLoopBody id)
          else toEnd input id (F f) ⟨bounds, q, a⟩) fun q => ?_
      by_cases hq : q ≤ position
      · simp only [if_pos hq]
        exact .error
      · simp only [if_neg hq]
        refine ih _ ?_ q rfl
        simp only [Position.le_def, Position.ofByte] at hs
        omega

theorem framed_of_ends {f : Framing} {stop : Position} {p : Piece}
    (h : .ofByte p.position = stop) : Meaning.framed f stop p =
      if headerLimit f.reserved < p.output.length then
        .error (.blockTooLarge p.output.length (headerLimit f.reserved))
      else .ok { p with output := f.header f.reserved p.output.length ++ p.output } := by
  simp only [Meaning.framed]
  rw [if_neg (fun hn => hn h)]

/-- What is laid out in front of the end of its block, is framed as a block. -/
theorem window_framed {f : Framing} {bounds : List Position} {stop : Position} {l : Layout}
    {body : Meaning} {start position a : Nat} (hstop : stop ≤ bounds.headD .unbounded)
    (hend : .ofByte l.position = stop)
    (hbody : body ⟨stop :: bounds, position, a + f.reserved⟩ = l.framed f (a + f.reserved)) :
    window f body stop position ⟨bounds, start, a⟩ =
      Layout.framed ⟨l.position, .block l.content .done, l.values⟩ f a := by
  simp only [window]
  rw [if_neg (fun hn => hn hstop)]
  by_cases hroom : a + f.reserved ≤ addressLimit
  · rw [if_neg (Nat.not_lt.2 hroom), hbody]
    cases hb : l.content.refusal? f (a + f.reserved) with
    | some x =>
      rw [Layout.framed_of_some hb, Layout.framed_of_some (x := x)]
      simp only [Content.refusal?, if_pos hroom, hb, Option.some_or]
    | none =>
      have hends := framed_of_ends (f := f) (p := ⟨l.position, l.content.encode f, l.values⟩) hend
      rw [Layout.framed_of_none hb]
      simp only [hends]
      by_cases hl : headerLimit f.reserved < (l.content.encode f).length
      · rw [if_pos hl, Layout.framed_of_some]
        simp only [Content.refusal?, if_pos hroom, hb, Option.none_or, if_pos hl]
      · rw [if_neg hl, Layout.framed_of_none]
        · simp only [Content.encode, List.append_nil]
        · simp only [Content.refusal?, if_pos hroom, hb, Option.none_or, if_neg hl]
  · rw [if_pos (Nat.not_le.1 hroom), Layout.framed_of_some]
    simp only [Content.refusal?, if_neg hroom]

theorem laidOut_window (h : LaidOut F) (stop : Position) (position : Nat) :
    LaidOut fun f => window f (F f) stop position := by
  intro bounds start
  by_cases hstop : stop ≤ bounds.headD .unbounded
  · rcases h (stop :: bounds) position with never | ⟨l, framed⟩
    · refine .fails fun f a p hp => ?_
      obtain ⟨-, -, q, hq, -⟩ := window_eq_ok.1 hp
      exact never f _ q hq
    · by_cases hend : .ofByte l.position = stop
      · exact .lays _ fun f a => window_framed hstop hend (framed f _)
      · refine .fails fun f a p hp => hend ?_
        obtain ⟨-, -, q, hq, hp⟩ := window_eq_ok.1 hp
        rw [framed] at hq
        rw [← Layout.position_of_framed hq]
        exact (framed_eq_ok.1 hp).1
  · exact .fails fun f a p hp => hstop (window_eq_ok.1 hp).1

theorem laidOut_block (h : LaidOut F) : LaidOut fun f => block input f (F f) := by
  intro bounds position
  have hnumber : ∀ a, number input .varuint32 ⟨bounds, position, a⟩ =
      number input .varuint32 ⟨bounds, position, 0⟩ := fun _ => rfl
  simp only [block, hnumber]
  rcases number input .varuint32 ⟨bounds, position, 0⟩ with x | ⟨size, position'⟩
  · exact .error
  · exact laidOut_window h _ position' bounds position

end Meaning

/-! ## Schemas -/

namespace Schema

variable (s : Schema) (input : List UInt8)

/-- Every node lays out its input, however blocks are framed. -/
theorem laidOut_transcodeWithin (limit k id : Nat) :
    Meaning.LaidOut fun f => s.transcodeWithin f input limit k id := by
  induction id using Nat.strongRecOn generalizing k with
  | ind id ih =>
    cases hn : s.node? id with
    | none =>
      simp only [transcodeWithin_none hn]
      exact Meaning.laidOut_error
    | some n =>
      have hc (c : Nat) (h : c ∈ n.children) :
          Meaning.LaidOut fun f => s.transcodeChild f input limit k c :=
        Meaning.laidOut_within (ih c (s.child_lt hn h) (k + 1))
      simp only [transcodeWithin_eq hn]
      cases n with
      | value kind => exact Meaning.laidOut_value fun _ => Meaning.laidOut_nothing
      | action => exact Meaning.laidOut_nothing
      | sequence children => exact Meaning.laidOut_within (Meaning.laidOut_inOrder hc)
      | loop count body =>
        have hb := hc body (List.mem_singleton_self _)
        exact Meaning.laidOut_value fun n =>
          Meaning.laidOut_within (Meaning.laidOut_repeated hb n.toNat)
      | block body => exact Meaning.laidOut_block (hc body (List.mem_singleton_self _))
      | untilEof body =>
        exact Meaning.laidOut_within
          (Meaning.laidOut_toEnd (hc body (List.mem_singleton_self _)))
      | unknown opcode => exact Meaning.laidOut_error

end Schema

end Transcoder

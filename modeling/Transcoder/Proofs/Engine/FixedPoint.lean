import Transcoder.Proofs.Block.Agreement
import Transcoder.Proofs.Engine.Recursion

/-!
# Output as input

What a run puts out is framed as its input was, with other headers and other paddings. Transcoded
again, it comes out as it is: each number is read from the bytes that the first run wrote for it, a
block ends where its body did, and a loop to the end meets the end when it did. The first run takes
input wherever it gives output (`Meaning.InStep`), so neither loop is empty in the second run, and
nothing but the last piece comes to an end.

Results:
* `Meaning.Echoes`: a meaning makes of the output what another one made of the input, one lemma for
  each way to put meanings together.
* `Schema.echoes_transcodeWithin`: so does each node.
* `Engine.runChunks_fixed`: the output of a run is a fixed point.
-/
namespace Transcoder

variable {i o : List UInt8}

/-! ## Echoes -/

/-- What stands behind the first part of a prefix. -/
theorem isPrefix_of_append {head tail : List UInt8} {a : Nat} (h : head ++ tail <+: o.drop a) :
    tail <+: o.drop (a + head.length) := by
  obtain ⟨rest, hrest⟩ := h
  exact ⟨rest, by rw [← List.drop_drop, ← hrest, List.append_assoc, List.drop_left]⟩

namespace Piece

/-- The numbers of a piece, without where they were read. -/
def numbers (p : Piece) : List (IntKind × UInt64) := p.values.map fun d => (d.kind, d.word)

/-- The output of a piece, which was transcoded inside the ends `outer` of `i`, stands at `a` inside
the ends `bounds` of `o`. Where the piece goes up to its innermost end, so does its output. -/
structure Lies (i o : List UInt8) (outer : List Position) (p : Piece) (bounds : List Position)
    (a : Nat) : Prop where
  isPrefix : p.output <+: o.drop a
  room : .ofByte (a + p.output.length) ≤ (Source.whole o).stop bounds
  ends : (Source.whole i).stop outer ≤ .ofByte p.position →
    (Source.whole o).stop bounds ≤ .ofByte (a + p.output.length)

/-- The piece `p'` comes of the output of `p`, which stands at `a`, and is the same again. -/
structure Echo (p : Piece) (a : Nat) (p' : Piece) : Prop where
  position : p'.position = a + p.output.length
  output : p'.output = p.output
  numbers : p'.numbers = p.numbers

variable {p q p' q' : Piece} {place : Place} {outer bounds : List Position} {a : Nat}

theorem length_append (p q : Piece) :
    (p.append q).output.length = p.output.length + q.output.length := List.length_append ..

/-- The first of two pieces comes to the end only if the second one is nothing. -/
theorem Lies.left (h : (p.append q).Lies i o place.bounds bounds a)
    (hq : q.Moves i (place.after p)) : p.Lies i o place.bounds bounds a := by
  have hlen := length_append p q
  refine ⟨(List.prefix_append p.output q.output).trans h.isPrefix, ?_, fun hend => ?_⟩
  · have := h.room
    rw [hlen, Position.le_def] at this
    simp only [Position.le_def, Position.ofByte] at this ⊢
    omega
  · cases hq with
    | stays hpos hout =>
      have hends := h.ends (by rwa [show (p.append q).position = p.position from hpos])
      rwa [hlen, hout, List.length_nil, Nat.add_zero] at hends
    | goes lt _ stop _ =>
      have hlt : p.position < q.position := lt
      have hle : .ofByte q.position ≤ (Source.whole i).stop place.bounds := stop
      rw [Position.le_def] at hle hend
      simp only [Position.ofByte] at hle hend
      omega

theorem Lies.right (h : (p.append q).Lies i o outer bounds a) :
    q.Lies i o outer bounds (a + p.output.length) := by
  have hlen : a + p.output.length + q.output.length = a + (p.append q).output.length := by
    rw [length_append, Nat.add_assoc]
  exact ⟨isPrefix_of_append h.isPrefix, hlen ▸ h.room, hlen ▸ h.ends⟩

theorem Echo.append (h : p.Echo a p') (k : q.Echo (a + p.output.length) q') :
    (p.append q).Echo a (p'.append q') := by
  refine ⟨?_, ?_, ?_⟩
  · rw [length_append, ← Nat.add_assoc]
    exact k.position
  · simp only [Piece.append, h.output, k.output]
  · have hn := h.numbers
    have kn := k.numbers
    simp only [Piece.numbers, Piece.append, List.map_append] at hn kn ⊢
    rw [hn, kn]

/-- Behind an echo. -/
theorem Echo.after (h : p.Echo a p') : (⟨bounds, a, place.address⟩ : Place).after p' =
    ⟨bounds, a + p.output.length, (place.after p).address⟩ := by
  simp only [Place.after, h.position, h.output]

end Piece

namespace Meaning

variable {place : Place} {p q : Piece} {bounds : List Position} {a : Nat}
  {f g rest rest' body body' : Meaning}

/-- Wherever the output of a piece of `i` stands in `o`, `g` makes the same of it. -/
def EchoesAt (i o : List UInt8) (place : Place) (p : Piece) (g : Meaning) : Prop :=
  ∀ bounds a, p.Lies i o place.bounds bounds a →
    ∃ p', g ⟨bounds, a, place.address⟩ = .ok p' ∧ p.Echo a p'

/-- What `f` makes of `i`, `g` makes of what came of it. -/
def Echoes (i o : List UInt8) (f g : Meaning) : Prop :=
  ∀ place p, f place = .ok p → EchoesAt i o place p g

/-- One piece behind another. -/
theorem EchoesAt.append (h : EchoesAt i o place p g) (k : EchoesAt i o (place.after p) q rest')
    (hq : q.Moves i (place.after p)) (hl : (p.append q).Lies i o place.bounds bounds a) :
    ∃ p', g ⟨bounds, a, place.address⟩ = .ok p' ∧ p.Echo a p' ∧
      ∃ q', rest' ((⟨bounds, a, place.address⟩ : Place).after p') = .ok q' ∧
        (p.append q).Echo a (p'.append q') := by
  obtain ⟨p', hp', hecho⟩ := h bounds a (hl.left hq)
  obtain ⟨q', hq', kecho⟩ := k bounds (a + p.output.length) hl.right
  exact ⟨p', hp', hecho, q', by rw [hecho.after]; exact hq', hecho.append kecho⟩

theorem echoes_nothing : nothing.Echoes i o nothing := by
  intro place p hp bounds a _
  obtain rfl := Except.ok.inj hp
  exact ⟨_, rfl, rfl, rfl, rfl⟩

theorem echoes_within {limit k : Nat} (h : f.Echoes i o g) :
    (within limit k f).Echoes i o (within limit k g) := by
  intro place p hp bounds a hl
  obtain ⟨hk, hp⟩ := within_eq_ok.1 hp
  obtain ⟨p', hp', hecho⟩ := h place p hp bounds a hl
  exact ⟨p', within_eq_ok.2 ⟨hk, hp'⟩, hecho⟩

theorem echoes_inOrder {f g : Nat → Meaning} {children : List Nat}
    (h : ∀ c ∈ children, (f c).InStep i ∧ (f c).Echoes i o (g c)) :
    (inOrder (children.map f)).Echoes i o (inOrder (children.map g)) := by
  induction children with
  | nil => exact echoes_nothing
  | cons c rest ih =>
    intro place q ho bounds a hl
    have hrest := fun c hc => h c (List.mem_cons_of_mem _ hc)
    have hstep : (inOrder (rest.map f)).InStep i := by
      refine inStep_inOrder fun f' hf' => ?_
      obtain ⟨c, hc, rfl⟩ := List.mem_map.1 hf'
      exact (hrest c hc).1
    obtain ⟨p, hp, q, hq, rfl⟩ := inOrder_cons_eq_ok.1 ho
    obtain ⟨p', hp', -, q', hq', hecho⟩ := EchoesAt.append ((h c List.mem_cons_self).2 _ _ hp)
      (ih hrest _ _ hq) (hstep _ _ hq) hl
    exact ⟨_, inOrder_cons_eq_ok.2 ⟨p', hp', q', hq', rfl⟩, hecho⟩

/-- Bytes that complete a number are read as it, wherever they stand. -/
theorem number_of_isPrefix {kind : IntKind} {word : UInt64} {bytes : List UInt8} (address : Nat)
    (h : (PartialValue.start kind).Completes bytes word) (hp : bytes <+: o.drop a)
    (hs : .ofByte (a + bytes.length) ≤ (Source.whole o).stop bounds) :
    number o kind ⟨bounds, a, address⟩ = .ok (word, a + bytes.length) := by
  refine number_eq_ok.2 ⟨bytes, h, Source.offers_of_isPrefix hp ?_, rfl⟩
  simp only [Position.le_def, Position.ofByte] at hs
  simp only [Position.byte]
  omega

/-- A number is read from the bytes that were written for it. -/
theorem echoes_value {kind : IntKind} {rest rest' : UInt64 → Meaning}
    (hstep : ∀ w, (rest w).InStep i) (h : ∀ w, (rest w).Echoes i o (rest' w)) :
    (value i kind rest).Echoes i o (value o kind rest') := by
  intro place q hv bounds a hl
  obtain ⟨word, position, -, hf, ha, q, hq, rfl⟩ := value_eq_ok.1 hv
  have hmoves := hstep word _ _ hq
  have hleft := hl.left hmoves
  have hn := number_of_isPrefix place.address (IntKind.completes_bytes hf) hleft.isPrefix hleft.room
  have hecho : (said kind word place.position position).Echo a
      (said kind word a (a + (kind.bytes word).length)) := ⟨rfl, rfl, rfl⟩
  obtain ⟨q', hq', kecho⟩ := h word _ _ hq bounds _ hl.right
  exact ⟨_, value_eq_ok.2 ⟨word, _, hn, hf, ha, q', by rw [hecho.after]; exact hq', rfl⟩,
    hecho.append kecho⟩

/-- A piece that takes something gives something, and so does its echo. -/
theorem lt_position_of_echo {p' : Piece} (hp : p.Moves i place)
    (hne : p.position ≠ place.position) (h : p.Echo a p') : a < p'.position := by
  cases hp with
  | stays hpos => exact absurd hpos hne
  | goes _ _ _ output =>
    have := List.length_pos_iff.2 output
    rw [h.position]
    omega

theorem echoes_repeated {id : Nat} (hstep : body.InStep i) (h : body.Echoes i o body') (n : Nat) :
    (repeated id body n).Echoes i o (repeated id body' n) := by
  fun_induction repeated id body n with
  | case1 => exact echoes_nothing
  | case2 => exact h
  | case3 n ih =>
    intro place q hloop bounds a hl
    obtain ⟨p, hp, hne, q, hq, rfl⟩ := repeated_eq_ok.1 hloop
    obtain ⟨p', hp', hecho, q', hq', kecho⟩ := EchoesAt.append (h _ _ hp) (ih _ _ hq)
      (inStep_repeated hstep _ _ _ hq) hl
    have hlt := lt_position_of_echo (hstep _ _ hp) hne hecho
    exact ⟨_, repeated_eq_ok.2 ⟨p', hp', by simp only; omega, q', hq', rfl⟩, kecho⟩

/-- The second loop goes on as long as the first one, and meets the end where that did. -/
theorem echoes_toEnd {id : Nat} (hstep : body.InStep i) (h : body.Echoes i o body') :
    Echoes i o (toEnd i id body) (toEnd o id body') := by
  intro place q hloop
  fun_induction toEnd i id body place generalizing q with
  | case1 place hs =>
    intro bounds a hl
    obtain rfl := Except.ok.inj hloop
    have hends := hl.ends hs
    exact ⟨_, toEnd_of_le hends, rfl, rfl, rfl⟩
  | case2 place hs x hx => simp at hloop
  | case3 place hs p hp hle => simp at hloop
  | case4 place hs p hp hle ih =>
    intro bounds a hl
    obtain ⟨q, hq, rfl⟩ := follow_eq_ok.1 hloop
    have hmoves := inStep_toEnd hstep _ _ hq
    obtain ⟨p', hp', hecho, q', hq', kecho⟩ := EchoesAt.append (h _ _ hp) (ih _ hq) hmoves hl
    have hlt := lt_position_of_echo (hstep _ _ hp) (by omega) hecho
    have hs' : ¬(Source.whole o).stop bounds ≤ .ofByte a := by
      have hroom := (hl.left hmoves).room
      rw [← hecho.position, Position.le_def] at hroom
      rw [Position.le_def]
      simp only [Position.ofByte] at hroom ⊢
      omega
    exact ⟨_, (toEnd_eq_ok hs').2 ⟨p', hp', hlt, q', hq', rfl⟩, kecho⟩

/-- A header that was written says the size that it was written for. -/
theorem number_of_header {framing : Framing} {size : Nat} (address : Nat)
    (hr : 0 < framing.reserved)
    (hf : framing.minimize = true ∨ framing.reserved ≤ Leb128.chunksInWord 32)
    (hlimit : size ≤ headerLimit framing.reserved) (hs : size < UInt32.size)
    (hp : framing.header framing.reserved size <+: o.drop a)
    (hroom : .ofByte (a + (framing.header framing.reserved size).length) ≤
      (Source.whole o).stop bounds) :
    ∃ word : UInt64, word.toNat = size ∧ number o .varuint32 ⟨bounds, a, address⟩ =
      .ok (word, a + (framing.header framing.reserved size).length) := by
  refine ⟨.ofNat size, ?_, ?_⟩
  · rw [UInt64.toNat_ofNat']
    refine Nat.mod_eq_of_lt (Nat.lt_trans hs ?_)
    decide
  · exact number_of_isPrefix address (Framing.completes_header hr hlimit hs hf) hp hroom

/-- A body ends where the block that was written for it does. -/
theorem echoes_window {framing : Framing} {stop : Position} {position : Nat}
    (h : body.Echoes i o body') (ha : place.address + framing.reserved ≤ addressLimit)
    (hp : body ⟨stop :: place.bounds, position, place.address + framing.reserved⟩ = .ok p)
    (hlimit : p.output.length ≤ headerLimit framing.reserved) (hfront : p.output <+: o.drop a)
    (hle : .ofByte (a + p.output.length) ≤ bounds.headD .unbounded) (start : Nat) :
    ∃ p', p.Echo a p' ∧ window framing body' (.ofByte (a + p.output.length)) a
      ⟨bounds, start, place.address⟩ = .ok { p' with
        output := framing.header framing.reserved p.output.length ++ p'.output } := by
  obtain ⟨p', hp', hecho⟩ := h _ _ hp (.ofByte (a + p.output.length) :: bounds) a
    ⟨hfront, Nat.le_refl _, fun _ => Nat.le_refl _⟩
  have hframed : framed framing (.ofByte (a + p.output.length)) p' = .ok { p' with
      output := framing.header framing.reserved p.output.length ++ p'.output } :=
    framed_eq_ok.2 ⟨by rw [hecho.position], by rwa [hecho.output], by rw [hecho.output]⟩
  exact ⟨p', hecho, window_eq_ok.2 ⟨hle, ha, p', hp', hframed⟩⟩

theorem echoes_block {framing : Framing} (hr : 0 < framing.reserved)
    (hf : framing.minimize = true ∨ framing.reserved ≤ Leb128.chunksInWord 32)
    (ho : o.length < UInt32.size) (h : body.Echoes i o body') :
    (block i framing body).Echoes i o (block o framing body') := by
  intro place q hblock bounds a hl
  obtain ⟨size, position, -, hw⟩ := block_eq_ok.1 hblock
  obtain ⟨-, ha, p, hp, hframed⟩ := window_eq_ok.1 hw
  obtain ⟨-, hlimit, rfl⟩ := framed_eq_ok.1 hframed
  obtain ⟨header, hheader⟩ : ∃ header, header = framing.header framing.reserved p.output.length :=
    ⟨_, rfl⟩
  have hne : 0 < header.length :=
    List.length_pos_iff.2 (hheader ▸ framing.header_ne_nil hr _)
  obtain ⟨hfront, hroom, -⟩ := hl
  rw [← hheader] at hfront hroom ⊢
  rw [List.length_append, ← Nat.add_assoc] at hroom
  have hsize : a + header.length + p.output.length ≤ o.length := by
    have := hfront.length_le
    rw [List.length_append, List.length_drop] at this
    omega
  have hlim : o.length < addressLimit := Nat.lt_trans ho (by decide)
  have hfirst : .ofByte (a + header.length) ≤ (Source.whole o).stop bounds := by
    rw [Position.le_def] at hroom ⊢
    simp only [Position.ofByte] at hroom ⊢
    omega
  have hle : .ofByte (a + header.length + p.output.length) ≤ bounds.headD .unbounded := by
    cases bounds with
    | cons => exact hroom
    | nil =>
      simp only [List.headD_nil, Position.le_def, Position.unbounded, Position.ofByte]
      simp only [addressLimit] at hlim
      omega
  obtain ⟨word, hword, hn⟩ := number_of_header place.address hr hf hlimit (by omega)
    (hheader ▸ (List.prefix_append _ _).trans hfront) (hheader ▸ hfirst)
  obtain ⟨p', hecho, hwindow⟩ := echoes_window h ha hp hlimit (isPrefix_of_append hfront) hle a
  rw [← hheader] at hn hwindow
  have hend : min (a + header.length + word.toNat) addressLimit =
      a + header.length + p.output.length := by rw [hword, Nat.min_eq_left (by omega)]
  refine ⟨{ p' with output := header ++ p'.output },
    block_eq_ok.2 ⟨word, _, hn, by rwa [hend]⟩, ?_, ?_, hecho.numbers⟩
  · simp only [hecho.position, List.length_append, Nat.add_assoc]
  · simp only [hecho.output]

end Meaning

/-! ## Schemas -/

namespace Schema

variable (s : Schema)

/-- What a node makes of the input, it makes of the output again. -/
theorem echoes_transcodeWithin {framing : Framing} (hr : 0 < framing.reserved)
    (hf : framing.minimize = true ∨ framing.reserved ≤ Leb128.chunksInWord 32)
    (ho : o.length < UInt32.size) (limit k id : Nat) :
    (s.transcodeWithin framing i limit k id).Echoes i o
      (s.transcodeWithin framing o limit k id) := by
  induction id using Nat.strongRecOn generalizing k with
  | ind id ih =>
    cases hn : s.node? id with
    | none =>
      intro place p hp
      simp [transcodeWithin_none hn] at hp
    | some n =>
      have hstep (c : Nat) : (s.transcodeChild framing i limit k c).InStep i :=
        Meaning.inStep_within (s.inStep_transcodeWithin hr i limit (k + 1) c)
      have hc (c : Nat) (h : c ∈ n.children) : (s.transcodeChild framing i limit k c).Echoes i o
          (s.transcodeChild framing o limit k c) :=
        Meaning.echoes_within (ih c (s.child_lt hn h) (k + 1))
      rw [transcodeWithin_eq hn, transcodeWithin_eq hn]
      cases n with
      | value kind =>
        exact Meaning.echoes_value (fun _ => Meaning.inStep_nothing) fun _ => Meaning.echoes_nothing
      | action => exact Meaning.echoes_nothing
      | sequence children =>
        exact Meaning.echoes_within (Meaning.echoes_inOrder fun c h => ⟨hstep c, hc c h⟩)
      | loop count body =>
        have hb := hc body (List.mem_singleton_self _)
        exact Meaning.echoes_value
          (fun n => Meaning.inStep_within (Meaning.inStep_repeated (hstep body) _))
          fun n => Meaning.echoes_within (Meaning.echoes_repeated (hstep body) hb _)
      | block body => exact Meaning.echoes_block hr hf ho (hc body (List.mem_singleton_self _))
      | untilEof body =>
        exact Meaning.echoes_within
          (Meaning.echoes_toEnd (hstep body) (hc body (List.mem_singleton_self _)))
      | unknown opcode =>
        intro place p hp
        simp at hp

theorem transcodeAllWithin_eq_ok {s : Schema} {config : Config} {p : Piece} :
    s.transcodeAllWithin config i = .ok p ↔
      s.transcodeWithin config.framing i config.maxNesting 0 s.root {} = .ok p ∧
        ¬(config.rejectTrailing ∧ p.position < i.length) := by
  unfold transcodeAllWithin
  cases s.transcodeWithin config.framing i config.maxNesting 0 s.root {} with
  | error x => simp
  | ok q =>
    by_cases ht : config.rejectTrailing ∧ q.position < i.length
    · simp only [if_pos ht]
      refine ⟨nofun, fun ⟨hq, hn⟩ => ?_⟩
      obtain rfl := Except.ok.inj hq
      exact absurd ht hn
    · simp only [if_neg ht, Except.ok.injEq]
      exact ⟨fun h => ⟨h, h ▸ ht⟩, fun h => h.1⟩

/-- The output of a schema comes out as it is. -/
theorem transcodeAllWithin_output {config : Config} {p : Piece}
    (hf : config.minimize = true ∨ config.reserved ≤ 5)
    (h : s.transcodeAllWithin config i = .ok p) (hl : p.output.length < UInt32.size) :
    ∃ p', s.transcodeAllWithin config p.output = .ok p' ∧ p.Echo 0 p' := by
  obtain ⟨hp, -⟩ := transcodeAllWithin_eq_ok.1 h
  have hf : config.framing.minimize = true ∨
      config.framing.reserved ≤ Leb128.chunksInWord 32 :=
    hf.imp id fun h5 => Nat.max_le.2 ⟨h5, by decide⟩
  have hstop : (Source.whole p.output).stop [] = .ofByte (0 + p.output.length) := by
    have hlim : p.output.length < addressLimit := Nat.lt_trans hl (by decide)
    rw [Source.stop_whole, List.headD_nil, Nat.zero_add, Nat.min_eq_left (Nat.le_of_lt hlim)]
  obtain ⟨p', hp', hecho⟩ := s.echoes_transcodeWithin config.framing_reserved_pos hf hl
    config.maxNesting 0 s.root _ _ hp [] 0
    ⟨List.prefix_rfl, Nat.le_of_eq (congrArg _ hstop.symm), fun _ => Nat.le_of_eq (congrArg _ hstop)⟩
  refine ⟨p', transcodeAllWithin_eq_ok.2 ⟨hp', ?_⟩, hecho⟩
  have := hecho.position
  omega

end Schema

/-! ## Runs on chunks -/

/-- The numbers that a run recorded, without where they were read. -/
def Transcript.numbers (t : Transcript) : List (IntKind × UInt64) :=
  t.values.toList.map fun d => (d.kind, d.word)

namespace Engine

variable {schema : Schema} {config : Config} {chunks chunks' : List (List UInt8)} {t : Transcript}
  {p : Piece}

theorem transcode_of_runChunks (h : runChunks schema config chunks = .ok t) :
    ∃ p, schema.transcodeAllWithin config chunks.flatten = .ok p ∧ t.output = p.output ∧
      t.numbers = if config.collect then p.numbers else [] := by
  have hm := runChunks_means schema config chunks
  rw [h] at hm
  cases hp : schema.transcodeAllWithin config chunks.flatten with
  | error x =>
    rw [hp] at hm
    exact absurd hm nofun
  | ok p =>
    rw [hp] at hm
    obtain ⟨ho, hv⟩ := Prod.mk.inj (Except.ok.inj hm)
    refine ⟨p, rfl, ho, ?_⟩
    rw [Transcript.numbers, hv]
    split <;> rfl

theorem runChunks_of_transcode
    (h : schema.transcodeAllWithin config chunks.flatten = .ok p) :
    ∃ t, runChunks schema config chunks = .ok t ∧ t.output = p.output ∧
      t.numbers = if config.collect then p.numbers else [] := by
  have hm := runChunks_means schema config chunks
  cases hr : runChunks schema config chunks with
  | error x =>
    rw [hr, h] at hm
    exact absurd hm nofun
  | ok t =>
    obtain ⟨p', hp, ho, hv⟩ := transcode_of_runChunks hr
    obtain rfl := Except.ok.inj (h.symm.trans hp)
    exact ⟨t, rfl, ho, hv⟩

/-- The output of a run is a fixed point: whatever chunks it is supplied in, a run on it puts out the
same bytes and the same numbers. Blocks must be minimized or have headers that a `varuint32` can be,
and the output must be shorter than four gigabytes. -/
theorem runChunks_fixed (hf : config.minimize = true ∨ config.reserved ≤ 5)
    (h : runChunks schema config chunks = .ok t) (hl : t.output.length < UInt32.size)
    (hc : chunks'.flatten = t.output) : ∃ t', runChunks schema config chunks' = .ok t' ∧
      t'.output = t.output ∧ t'.numbers = t.numbers := by
  obtain ⟨p, hp, ho, hn⟩ := transcode_of_runChunks h
  rw [ho] at hl hc
  obtain ⟨p', hp', hecho⟩ := schema.transcodeAllWithin_output hf hp hl
  rw [← hc] at hp'
  obtain ⟨t', ht', ho', hn'⟩ := runChunks_of_transcode hp'
  exact ⟨t', ht', by rw [ho', hecho.output, ho], by rw [hn', hn, hecho.numbers]⟩

/-- The size of the block comes out in one byte, and comes out so again, whatever the chunks are. -/
theorem runChunks_fixed_bytes : ∃ t t',
    runChunks .bytes { collect := true } [[0x82], [0x00, 7], [8]] = .ok t ∧
    runChunks .bytes { collect := true } [[2, 7], [8]] = .ok t' ∧ t'.output = [2, 7, 8] ∧
    t'.numbers = [(.uint8, 7), (.uint8, 8)] := by
  obtain ⟨p, hp, he⟩ : ∃ p, Schema.bytes.transcodeAllWithin { collect := true }
      [0x82, 0x00, 7, 8] = .ok p ∧
        (p.output, p.numbers) = ([2, 7, 8], [(.uint8, 7), (.uint8, 8)]) := by
    have h : ((Schema.bytes.transcodeAllWithin { collect := true } [0x82, 0x00, 7, 8]).toOption.map
        fun p => (p.output, p.numbers)) = some ([2, 7, 8], [(.uint8, 7), (.uint8, 8)]) := by
      decide +kernel
    cases hp : Schema.bytes.transcodeAllWithin { collect := true } [0x82, 0x00, 7, 8] with
    | error x => simp [hp, Except.toOption] at h
    | ok p => exact ⟨p, rfl, by simpa [hp, Except.toOption] using h⟩
  obtain ⟨ho, hn⟩ := Prod.mk.inj he
  obtain ⟨t, ht, hto, htn⟩ :=
    @runChunks_of_transcode .bytes { collect := true } [[0x82], [0x00, 7], [8]] p hp
  have hc : [[2, 7], [8]].flatten = t.output := by rw [hto, ho]; rfl
  obtain ⟨t', ht', ho', hn'⟩ := runChunks_fixed (.inl rfl) ht (by rw [hto, ho]; decide) hc
  exact ⟨t, t', ht, ht', by rw [ho', hto, ho], by rw [hn', htn, if_pos rfl, hn]⟩

end Engine

end Transcoder

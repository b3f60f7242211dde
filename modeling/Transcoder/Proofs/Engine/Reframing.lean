import Transcoder.Proofs.Engine.FixedPoint
import Transcoder.Proofs.Schema.Layout

/-!
# Padded headers and shortest ones

Whether headers get their shortest form is the matter of the output alone: a run reads the same
numbers either way, and puts out the same tree of blocks. But a header can only say so much, and
what it must say is the size of a body in which the headers may be padded themselves. So a body may
be too long for its header only because the headers inside it were not made shorter: to minimize
changes what is accepted. Whatever both ways accept, they say the same.

Results:
* `Schema.layout_or_fails`: all configurations that differ in the headers lay out the same tree, or
  all of them fail.
* `Engine.runChunks_headed`: a run puts out the tree exactly if the headers can say its sizes, and
  what is accepted with padded headers is accepted with shortest ones and reads the same.
-/
namespace Transcoder

/-- The same configuration with other headers. -/
def Config.headed (c : Config) (reserved : Nat) (minimize : Bool) : Config :=
  { c with reserved, minimize }

/-- The same configuration, with or without shortest headers. -/
def Config.minimizing (c : Config) (minimize : Bool) : Config := c.headed c.reserved minimize

/-- The same configuration, and every number is recorded. -/
def Config.collecting (c : Config) : Config := { c with collect := true }

/-! ## One tree for all headers -/

namespace Schema

variable (s : Schema) (config : Config) (input : List UInt8)

theorem transcodeAllWithin_of_error {s : Schema} {config : Config} {input : List UInt8} {x : Failure}
    (h : s.transcodeWithin config.framing input config.maxNesting 0 s.root {} = .error x) :
    s.transcodeAllWithin config input = .error x := by
  rw [transcodeAllWithin, h]

/-- Whatever its headers are, a schema lays out the input in one way, or fails with any. -/
theorem layout_or_fails :
    (∀ reserved m p, s.transcodeAllWithin (config.headed reserved m) input ≠ .ok p) ∨
      ∃ l : Layout, ∀ reserved m, s.transcodeAllWithin (config.headed reserved m) input =
        l.framed (config.headed reserved m).framing 0 := by
  have hroot := s.laidOut_transcodeWithin input config.maxNesting 0 s.root [] 0
  rcases hroot with never | ⟨l, framed⟩
  · left
    intro reserved m p hp
    exact never _ 0 p (transcodeAllWithin_eq_ok.1 hp).1
  · have hwhole : ∀ reserved m, s.transcodeWithin (config.headed reserved m).framing input
        config.maxNesting 0 s.root {} = l.framed (config.headed reserved m).framing 0 :=
      fun reserved m => framed _ 0
    by_cases ht : config.rejectTrailing ∧ l.position < input.length
    · left
      intro reserved m p hp
      obtain ⟨hp, hnone⟩ := transcodeAllWithin_eq_ok.1 hp
      have hposition := Layout.position_of_framed ((hwhole reserved m).symm.trans hp)
      exact hnone ⟨ht.1, hposition ▸ ht.2⟩
    · refine .inr ⟨l, fun reserved m => ?_⟩
      cases hl : l.framed (config.headed reserved m).framing 0 with
      | ok p =>
        have hposition := Layout.position_of_framed hl
        exact transcodeAllWithin_eq_ok.2 ⟨(hwhole reserved m).trans hl, hposition ▸ ht⟩
      | error x =>
        exact transcodeAllWithin_of_error ((hwhole reserved m).trans hl)

end Schema

/-- The numbers of a layout, without where they were read. -/
def Layout.numbers (l : Layout) : List (IntKind × UInt64) := l.values.map fun d => (d.kind, d.word)

/-! ## Runs -/

namespace Engine

variable {schema : Schema} {config : Config} {input : List UInt8} {chunks : List (List UInt8)}

/-- In whatever chunks the input comes, a run on it puts out this content, if it fits, and fails
otherwise, for want of addresses or for a body that is too long for its header. -/
structure Puts (schema : Schema) (config : Config) (input : List UInt8) (content : Content) :
    Prop where
  finishes : ∀ chunks, chunks.flatten = input →
    ((∃ t, runChunks schema config chunks = .ok t) ↔ content.Fits config.framing)
  output : ∀ chunks t, chunks.flatten = input → runChunks schema config chunks = .ok t →
    t.output = content.encode config.framing
  refused : ∀ chunks x, chunks.flatten = input → runChunks schema config chunks = .error x →
    (addressLimit < content.peak config.framing ∧ x = .ofStream outOfSpace) ∨
      ∃ size ∈ content.sizes config.framing, headerLimit config.framing.reserved < size ∧
        x = .blockTooLarge size (headerLimit config.framing.reserved)

/-- In whatever chunks the bytes come, a run on them reads these numbers. -/
def ReadsAs (schema : Schema) (config : Config) (bytes : List UInt8)
    (numbers : List (IntKind × UInt64)) : Prop :=
  ∀ chunks, chunks.flatten = bytes →
    ∃ t, runChunks schema config.collecting chunks = .ok t ∧ t.numbers = numbers

theorem refusal_of_uncounted {x y : Failure} {limit : Nat} (h : x.uncounted = y.uncounted)
    (hy : y = .ofStream outOfSpace ∨ ∃ size, y = .blockTooLarge size limit) : x = y := by
  rcases hy with rfl | ⟨size, rfl⟩
  · cases x <;> simp_all [Failure.uncounted, Failure.ofStream, outOfSpace, StreamError.malformed]
  · cases x <;> simp_all [Failure.uncounted]

theorem puts_of_layout {l : Layout}
    (h : schema.transcodeAllWithin config input = l.framed config.framing 0) :
    Puts schema config input l.content := by
  have hr := config.framing_reserved_pos
  have hfits := Content.refusal?_eq_none_iff_fits hr l.content
  refine ⟨fun chunks hc => ⟨?_, ?_⟩, fun chunks t hc ht => ?_, fun chunks x hc hx => ?_⟩
  · rintro ⟨t, ht⟩
    obtain ⟨p, hp, -⟩ := transcode_of_runChunks ht
    rw [hc, h] at hp
    exact hfits.1 (Layout.of_framed hp).1
  · intro hf
    rw [Layout.framed_of_none (hfits.2 hf), ← hc] at h
    obtain ⟨t, ht, -⟩ := runChunks_of_transcode h
    exact ⟨t, ht⟩
  · obtain ⟨p, hp, ho, -⟩ := transcode_of_runChunks ht
    rw [hc, h] at hp
    rw [ho, (Layout.of_framed hp).2]
  · cases hl : l.content.refusal? config.framing 0 with
    | none =>
      rw [Layout.framed_of_none hl, ← hc] at h
      obtain ⟨t, ht, -⟩ := runChunks_of_transcode h
      cases hx.symm.trans ht
    | some y =>
      rw [Layout.framed_of_some hl] at h
      have hrefused : (schema.transcodeAllWithin config chunks.flatten).map Piece.output =
          .error y := by
        rw [hc, h]
        rfl
      obtain ⟨x', hx', hxy⟩ := runChunks_of_refused schema config chunks hrefused
      obtain rfl : x = x' := Except.error.inj (hx.symm.trans hx')
      have hy := Content.refusal?_eq_some hr l.content (Nat.zero_le _) hl
      rw [Nat.zero_add] at hy
      obtain rfl : x = y := refusal_of_uncounted hxy
        (hy.imp And.right fun ⟨size, _, _, hsize⟩ => ⟨size, hsize⟩)
      exact hy

/-- What is put out with padded headers is read in the same way with shortest ones. -/
theorem transcode_of_padded {p : Piece} {bytes : List UInt8}
    (h : schema.transcodeAllWithin (config.minimizing false) bytes = .ok p) :
    ∃ q, schema.transcodeAllWithin (config.minimizing true) bytes = .ok q ∧
      q.numbers = p.numbers := by
  have hr := (config.minimizing true).framing_reserved_pos
  rcases schema.layout_or_fails config bytes with never | ⟨l, framed⟩
  · exact absurd h (never _ _ p)
  · obtain ⟨hnone, rfl⟩ := Layout.of_framed ((framed _ _).symm.trans h)
    have hnone' := (Content.refusal?_of_padded (g := (config.minimizing false).framing) hr rfl rfl
      l.content (Nat.le_refl 0) hnone).1
    exact ⟨_, (framed _ _).trans (Layout.framed_of_none hnone'), rfl⟩

theorem reads_of_transcode {p : Piece} {bytes : List UInt8}
    (h : schema.transcodeAllWithin config bytes = .ok p) : ReadsAs schema config bytes p.numbers := by
  intro chunks hc
  have hcollect : schema.transcodeAllWithin config.collecting chunks.flatten = .ok p := hc ▸ h
  obtain ⟨t, ht, -, hn⟩ := runChunks_of_transcode hcollect
  exact ⟨t, ht, hn.trans (if_pos rfl)⟩

/-- The output of a run reads as its input did, with the headers of the run and with shortest
ones. -/
theorem reads_output (h5 : config.reserved ≤ 5) {m m' : Bool} (hm : m = true → m' = true)
    {t : Transcript} (h : runChunks schema (config.minimizing m) chunks = .ok t)
    (hl : t.output.length < UInt32.size) :
    ∃ p, schema.transcodeAllWithin (config.minimizing m) chunks.flatten = .ok p ∧
      ReadsAs schema (config.minimizing m') t.output p.numbers := by
  obtain ⟨p, hp, ho, -⟩ := transcode_of_runChunks h
  refine ⟨p, hp, ?_⟩
  rw [ho] at hl ⊢
  have hf : (config.minimizing m).minimize = true ∨ (config.minimizing m).reserved ≤ 5 := .inr h5
  obtain ⟨p', hp', hecho⟩ := schema.transcodeAllWithin_output hf hp hl
  rw [← hecho.numbers]
  cases m with
  | true => exact hm rfl ▸ reads_of_transcode hp'
  | false =>
    cases m' with
    | false => exact reads_of_transcode hp'
    | true =>
      obtain ⟨q, hq, hn⟩ := transcode_of_padded hp'
      exact hn ▸ reads_of_transcode hq

/-- Either no run on the input finishes, whatever its headers are, or there is one tree of blocks and
one list of numbers for all of them. A run puts out this tree exactly if the headers can say its
sizes. So what is accepted with padded headers is accepted with shortest ones, and what is accepted
with these is accepted with padded ones exactly if the padded tree fits. All of it reads the same
again. -/
theorem runChunks_headed (schema : Schema) (config : Config) (h5 : config.reserved ≤ 5)
    (input : List UInt8) :
    (∀ reserved m chunks t, chunks.flatten = input →
      runChunks schema (config.headed reserved m) chunks ≠ .ok t) ∨
    ∃ content numbers,
      (∀ reserved m, Puts schema (config.headed reserved m) input content) ∧
      (∀ chunks chunks', chunks.flatten = input → chunks'.flatten = input →
        ((∃ t, runChunks schema (config.minimizing false) chunks = .ok t) ↔
          (∃ t, runChunks schema (config.minimizing true) chunks' = .ok t) ∧
            content.Fits (config.minimizing false).framing)) ∧
      ∀ m m' chunks t, (m = true → m' = true) → chunks.flatten = input →
        runChunks schema (config.minimizing m) chunks = .ok t → t.output.length < UInt32.size →
        ReadsAs schema (config.minimizing m') t.output numbers := by
  rcases schema.layout_or_fails config input with never | ⟨l, framed⟩
  · left
    intro reserved m chunks t hc ht
    obtain ⟨p, hp, -⟩ := transcode_of_runChunks ht
    exact never reserved m p (hc ▸ hp)
  · have puts := fun reserved m => puts_of_layout (framed reserved m)
    refine .inr ⟨l.content, l.numbers, puts, fun chunks chunks' hc hc' => ?_, ?_⟩
    · have hfinish := (puts config.reserved false).finishes chunks hc
      have hfinish' := (puts config.reserved true).finishes chunks' hc'
      have hr := (config.minimizing true).framing_reserved_pos
      constructor
      · intro h
        have hf := hfinish.1 h
        exact ⟨hfinish'.2 (hf.of_padded (g := (config.minimizing false).framing) hr rfl rfl), hf⟩
      · exact fun h => hfinish.2 h.2
    · intro m m' chunks t hm hc ht hl
      obtain ⟨p, hp, hreads⟩ := reads_output h5 hm ht hl
      rw [hc, Config.minimizing, framed] at hp
      obtain rfl := (Layout.of_framed hp).2
      exact hreads

/-- A block is read from a padded header, and reads the same again with a padded header and with a
shortest one. -/
theorem runChunks_headed_bytes : Config.reserved { reserved := 2 } ≤ 5 ∧ ∃ t t' numbers,
    runChunks .bytes (Config.minimizing { reserved := 2 } false) [[0x82], [0x00, 7, 8]] = .ok t ∧
    runChunks .bytes (Config.minimizing { reserved := 2 } true) [[0x82, 0x00, 7], [8]] = .ok t' ∧
    t.output = [0x82, 0x00, 7, 8] ∧ t'.output = [2, 7, 8] ∧
    ReadsAs .bytes (Config.minimizing { reserved := 2 } true) [0x82, 0x00, 7, 8] numbers ∧
    ReadsAs .bytes (Config.minimizing { reserved := 2 } true) [2, 7, 8] numbers := by
  have h5 : Config.reserved { reserved := 2 } ≤ 5 := by decide
  obtain ⟨t, ht, ho⟩ := runChunks_of_meant .bytes (Config.minimizing { reserved := 2 } false)
    [[0x82], [0x00, 7, 8]] (show _ = Except.ok [0x82, 0x00, 7, 8] by decide +kernel)
  obtain ⟨t', ht', ho'⟩ := runChunks_of_meant .bytes (Config.minimizing { reserved := 2 } true)
    [[0x82, 0x00, 7], [8]] (show _ = Except.ok [2, 7, 8] by decide +kernel)
  rcases runChunks_headed .bytes { reserved := 2 } h5 [0x82, 0x00, 7, 8] with
    never | ⟨content, numbers, -, -, reads⟩
  · exact absurd ht (never 2 false _ t rfl)
  · have h := reads false true _ t (fun _ => rfl) rfl ht (by rw [ho]; decide)
    have h' := reads true true _ t' id rfl ht' (by rw [ho']; decide)
    rw [ho] at h
    rw [ho'] at h'
    exact ⟨h5, t, t', numbers, ht, ht', ho, ho', h, h'⟩

end Engine

/-! ## Empty blocks -/

namespace Meaning

variable {input : List UInt8} {f : Framing} {stop : Position} {position address : Nat}

/-- A block that says that it is empty. -/
theorem block_empty (hz : [0] <+: input.drop position) (hs : .ofByte (position + 1) ≤ stop)
    (hl : position + 1 ≤ addressLimit) (ha : address + f.reserved ≤ addressLimit) :
    block input f nothing ⟨[stop], position, address⟩ =
      .ok ⟨position + 1, f.header f.reserved 0, []⟩ := by
  have hzero : (PartialValue.start .varuint32).Completes [0] 0 := .last (by rfl)
  have hroom : .ofByte (position + [(0 : UInt8)].length) ≤ (Source.whole input).stop [stop] := hs
  have hend : .ofByte (min (position + 1 + UInt64.toNat 0) addressLimit) =
      Position.ofByte (position + 1) := congrArg _ (Nat.min_eq_left hl)
  refine block_eq_ok.2 ⟨0, _, number_of_isPrefix address hzero hz hroom, ?_⟩
  refine window_eq_ok.2 ⟨hend ▸ hs, ha, ⟨position + 1, [], []⟩, rfl, framed_eq_ok.2 ?_⟩
  exact ⟨hend.symm, Nat.zero_le _, by rw [List.length_nil, List.append_nil]⟩

/-- So many empty blocks up to the end. -/
theorem toEnd_empty {id n : Nat} (hr : 0 < f.reserved)
    (hz : List.replicate n 0 <+: input.drop position) (hs : stop = .ofByte (position + n))
    (hl : position + n ≤ addressLimit) (ha : address + n * f.reserved ≤ addressLimit) :
    toEnd input id (block input f nothing) ⟨[stop], position, address⟩ =
      .ok ⟨position + n, (List.replicate n (f.header f.reserved 0)).flatten, []⟩ := by
  induction n generalizing position address with
  | zero =>
    rw [toEnd_of_le (hs ▸ Nat.le_refl _)]
    rfl
  | succ n ih =>
    have hheader := f.length_header_le hr (Nat.zero_le _)
    rw [Nat.add_mul] at ha
    have hz : [0] ++ List.replicate n 0 <+: input.drop position := hz
    have hfirst : [0] <+: input.drop position := (List.prefix_append [0] _).trans hz
    have hafter : List.replicate n 0 <+: input.drop (position + 1) := isPrefix_of_append hz
    have hgoes : ¬(Source.whole input).stop [stop] ≤ .ofByte position := by
      simp only [Source.stop, List.headD_cons, hs, Position.le_def, Position.ofByte]
      omega
    have hinside : .ofByte (position + 1) ≤ stop := by
      simp only [hs, Position.le_def, Position.ofByte]
      omega
    have hblock : block input f nothing ⟨[stop], position, address⟩ =
        .ok ⟨position + 1, f.header f.reserved 0, []⟩ :=
      block_empty hfirst hinside (by omega) (by omega)
    have hrest : toEnd input id (block input f nothing)
        ⟨[stop], position + 1, address + (f.header f.reserved 0).length⟩ =
          .ok ⟨position + 1 + n, (List.replicate n (f.header f.reserved 0)).flatten, []⟩ :=
      ih hafter (by rw [hs, Nat.add_assoc, Nat.add_comm 1]) (by omega) (by omega)
    rw [toEnd_succ id _ ⟨[stop], position, address⟩ hgoes, hblock]
    simp only [Except.bind, Place.after, if_neg (Nat.not_succ_le_self position), hrest]
    simp only [Except.map, Piece.append, List.replicate_succ, List.flatten_cons, List.append_nil,
      Nat.add_assoc, Nat.add_comm 1]

end Meaning

/-- A block of empty blocks. -/
def Schema.emptyBlocks : Schema :=
  ⟨#[.sequence [], .block 0, .untilEof 1, .block 2], 3, Schema.wellFormed_of_fault? (by decide)⟩

/-- 8192 empty blocks, and their size before them. -/
def Schema.emptyBlocks.many : List UInt8 := 0x80 :: 0x40 :: List.replicate 8192 0

open Schema Meaning in
/-- Of headers of two chunks, padded or not, the inner ones leave a piece that the outer one has to
say the size of. -/
theorem Schema.transcodeWithin_emptyBlocks (m : Bool) :
    (emptyBlocks.transcodeWithin ⟨2, m⟩ emptyBlocks.many 1024 0 3 {}) =
      Meaning.framed ⟨2, m⟩ (.ofByte 8194)
        ⟨8194, (List.replicate 8192 (Framing.header ⟨2, m⟩ 2 0)).flatten, []⟩ := by
  have hdepth : 0 + emptyBlocks.height 3 ≤ 1024 := by decide +kernel
  rw [transcodeWithin_of_height _ _ _ hdepth]
  -- the nodes, from the innermost one on
  have hn0 : emptyBlocks.node? 0 = some (.sequence []) := rfl
  have hn1 : emptyBlocks.node? 1 = some (.block 0) := rfl
  have hn2 : emptyBlocks.node? 2 = some (.untilEof 1) := rfl
  have hn3 : emptyBlocks.node? 3 = some (.block 2) := rfl
  have h0 : emptyBlocks.transcode ⟨2, m⟩ emptyBlocks.many 0 = nothing := transcode_eq hn0 _ _
  have h1 : emptyBlocks.transcode ⟨2, m⟩ emptyBlocks.many 1 =
      block emptyBlocks.many ⟨2, m⟩ nothing :=
    (transcode_eq hn1 _ _).trans (congrArg (block emptyBlocks.many ⟨2, m⟩) h0)
  have h2 : emptyBlocks.transcode ⟨2, m⟩ emptyBlocks.many 2 =
      toEnd emptyBlocks.many 2 (block emptyBlocks.many ⟨2, m⟩ nothing) :=
    (transcode_eq hn2 _ _).trans (congrArg (toEnd emptyBlocks.many 2) h1)
  have h3 : emptyBlocks.transcode ⟨2, m⟩ emptyBlocks.many 3 = block emptyBlocks.many ⟨2, m⟩
      (toEnd emptyBlocks.many 2 (block emptyBlocks.many ⟨2, m⟩ nothing)) :=
    (transcode_eq hn3 _ _).trans (congrArg (block emptyBlocks.many ⟨2, m⟩) h2)
  have hlength : emptyBlocks.many.length = 8194 := by
    simp only [emptyBlocks.many, List.length_cons, List.length_replicate]
  have hstop : Position.ofByte (0 + [(0x80 : UInt8), 0x40].length) ≤
      (Source.whole emptyBlocks.many).stop [] := by
    rw [Source.stop_whole, hlength]
    decide
  have hcompletes : (PartialValue.start .varuint32).Completes [0x80, 0x40] 8192 :=
    .more (by rfl) (.last (by rfl))
  have hsize : number emptyBlocks.many .varuint32 {} = .ok (8192, 2) :=
    number_of_isPrefix 0 hcompletes (List.prefix_append [0x80, 0x40] _) hstop
  have hroom : 2 + 8192 * 2 ≤ addressLimit := by decide
  have hbody : toEnd emptyBlocks.many 2 (block emptyBlocks.many ⟨2, m⟩ nothing)
      ⟨[.ofByte 8194], 2, 2⟩ = .ok ⟨8194, (List.replicate 8192 (Framing.header ⟨2, m⟩ 2 0)).flatten,
        []⟩ :=
    toEnd_empty (n := 8192) Nat.two_pos List.prefix_rfl rfl (by decide) hroom
  have hend : Position.ofByte (min (2 + UInt64.toNat 8192) addressLimit) = .ofByte 8194 := by
    decide
  have hle : Position.ofByte 8194 ≤ .unbounded := by decide
  rw [h3]
  simp only [block, hsize, hend, window, List.headD_nil, hle, not_true_eq_false, if_false]
  rw [if_neg (by decide), hbody]

namespace Engine

/-- With padded headers the empty blocks are too long for a header of two chunks, with shortest ones
they are not. -/
theorem not_alike_emptyBlocks :
    (∃ t, runChunks .emptyBlocks (Config.minimizing { reserved := 2 } true)
      [Schema.emptyBlocks.many] = .ok t) ∧
    runChunks .emptyBlocks (Config.minimizing { reserved := 2 } false) [Schema.emptyBlocks.many] =
      .error (.blockTooLarge 16384 16383) := by
  have hmeant := fun m => (Schema.transcodeWithin_emptyBlocks m).trans (Meaning.framed_of_ends rfl)
  have hlength : ∀ m, (List.replicate 8192 (Framing.header ⟨2, m⟩ 2 0)).flatten.length =
      8192 * (Framing.header ⟨2, m⟩ 2 0).length := by
    intro m
    simp only [List.length_flatten, List.map_replicate, List.sum_replicate_nat]
  simp only [hlength] at hmeant
  have hlimit : headerLimit 2 = 16383 := by decide
  have hflat : [Schema.emptyBlocks.many].flatten = Schema.emptyBlocks.many := by
    rw [List.flatten_cons, List.flatten_nil, List.append_nil]
  constructor
  · have hshort : (Framing.header ⟨2, true⟩ 2 0).length = 1 := by decide +kernel
    have hwithin := (hmeant true).trans (if_neg (by rw [hshort, hlimit]; decide))
    have hend : ¬8194 < Schema.emptyBlocks.many.length := by
      simp only [Schema.emptyBlocks.many, List.length_cons, List.length_replicate]
      decide
    have hwhole : Schema.emptyBlocks.transcodeAllWithin (Config.minimizing { reserved := 2 } true)
        Schema.emptyBlocks.many = .ok _ :=
      Schema.transcodeAllWithin_eq_ok.2 ⟨hwithin, fun h => hend h.2⟩
    rw [← hflat] at hwhole
    obtain ⟨t, ht, -⟩ := runChunks_of_transcode hwhole
    exact ⟨t, ht⟩
  · have hpadded : (Framing.header ⟨2, false⟩ 2 0).length = 2 := by decide +kernel
    have hwithin := (hmeant false).trans (if_pos (by rw [hpadded, hlimit]; decide))
    rw [hpadded, hlimit] at hwithin
    have hwhole : Schema.emptyBlocks.transcodeAllWithin (Config.minimizing { reserved := 2 } false)
        Schema.emptyBlocks.many = .error (.blockTooLarge (8192 * 2) 16383) :=
      Schema.transcodeAllWithin_of_error hwithin
    rw [← hflat] at hwhole
    have hrefused := congrArg (Except.map Piece.output) hwhole
    obtain ⟨x, hx, hxy⟩ := runChunks_of_refused _ _ _ hrefused
    rw [hx, refusal_of_uncounted hxy (.inr ⟨16384, rfl⟩)]

end Engine

end Transcoder

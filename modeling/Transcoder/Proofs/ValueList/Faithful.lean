import Transcoder.Proofs.Block.Nesting
import Transcoder.Proofs.Block.Offset
import Transcoder.ValueList

/-!
# What a value list comes back as

A value list whose kinds are known is a tree of numbers and blocks, `Listing`. It is written as the
tree of their bytes (`Listing.content`), and read back item by item (`Listing.decode`). On the way a
number travels as a word of 64 bits, and the word of a natural number from `2 ^ 63` on is that of a
negative number too. Kinds with a sign take it for the negative one.

Results:
* `ValueList.bytes_eq_ok`: which value lists are written, and as what.
* `Listing.decode_of_stands`: what is read where a listing was written.
* `ValueList.faithful_iff`: the value lists that come back as they are.
-/
namespace Transcoder

/-! ## Numbers -/

/-- The number is one that its constructor is for. -/
def Json.Number.Proper : Json.Number → Prop
  | natural n => n < UInt64.size
  | negative n => 0 < n ∧ 2 * n ≤ UInt64.size
  | double _ => True

/-- The integer that a number is. -/
def Json.Number.integer? : Json.Number → Option Int
  | natural n => some n
  | negative n => some (-n)
  | double _ => none

namespace IntKind

/-- The number is one of the kind. -/
def Holds (kind : IntKind) (n : Int) : Prop := Leb128.InRange kind.signed kind.width n

instance (kind : IntKind) (n : Int) : Decidable (kind.Holds n) :=
  inferInstanceAs (Decidable (if kind.signed then _ else _))

/-- The number is one of the kind, or has the word of a negative number of the kind. -/
def Takes (kind : IntKind) (n : Int) : Prop :=
  kind.Holds n ∨ kind.signed = true ∧ kind.Holds (n - UInt64.size)

instance (kind : IntKind) (n : Int) : Decidable (kind.Takes n) :=
  inferInstanceAs (Decidable (_ ∨ _))

/-- What the word of `n` says as one of the kind. -/
def wrap (kind : IntKind) (n : Int) : Int :=
  if kind.signed ∧ UInt64.size ≤ 2 * n then n - UInt64.size else n

variable {kind : IntKind} {n : Int}

theorem wrap_of_holds (h : kind.Holds n) : kind.wrap n = n := by
  have hw := word_of_inRange h
  rw [wrap, if_neg]
  rintro ⟨hs, hn⟩
  rw [if_pos hs] at hw
  omega

theorem takes_iff : kind.Takes n ↔ kind.Holds (kind.wrap n) := by
  constructor
  · rintro (h | ⟨hs, h⟩)
    · rwa [wrap_of_holds h]
    · have hw := word_of_inRange h
      rw [if_pos hs] at hw
      rwa [wrap, if_pos ⟨hs, by omega⟩]
  · intro h
    unfold wrap at h
    split at h
    · exact .inr ⟨‹_ ∧ _›.1, h⟩
    · exact .inl h

/-- The word of any number that an item can have is read so. -/
theorem number_ofInt_eq_wrap (hlo : if kind.signed then -(UInt64.size : Int) ≤ 2 * n else 0 ≤ n)
    (hhi : n < UInt64.size) : kind.number (.ofInt n) = kind.wrap n := by
  rw [number, wrap, toInt_toInt64, toNat_ofInt]
  simp only [UInt64.size] at hlo hhi ⊢
  cases hs : kind.signed
  · simp only [hs, Bool.false_eq_true, if_false, false_and] at hlo ⊢
    omega
  · simp only [hs, if_true, true_and] at hlo ⊢
    split <;> split <;> omega

/-- The word of a number that a kind takes is one of the kind. -/
theorem number_of_takes (h : kind.Takes n) :
    kind.fits (.ofInt n) = true ∧ kind.number (.ofInt n) = kind.wrap n := by
  have hsame : UInt64.ofInt n = .ofInt (kind.wrap n) := by
    apply UInt64.toNat_inj.1
    rw [toNat_ofInt, toNat_ofInt, wrap]
    split
    · rw [Int.sub_emod_right]
    · rfl
  rw [takes_iff] at h
  rw [hsame]
  exact ⟨fits_ofInt h, number_ofInt h⟩

end IntKind

/-! ## Listings -/

/-- Numbers with their kinds, and blocks around more of them, one after the other. -/
inductive Listing where
  | done
  | value (kind : IntKind) (n : Int) (rest : Listing)
  | block (body rest : Listing)
  deriving DecidableEq, Repr

namespace Listing

/-- Every number is as `p` says. -/
def Each (p : IntKind → Int → Prop) : Listing → Prop
  | done => True
  | value kind n rest => p kind n ∧ rest.Each p
  | block body rest => body.Each p ∧ rest.Each p

instance decidableEach (p : IntKind → Int → Prop) [∀ kind n, Decidable (p kind n)] :
    (l : Listing) → Decidable (l.Each p)
  | done => .isTrue trivial
  | value kind n rest =>
    have := decidableEach p rest
    inferInstanceAs (Decidable (p kind n ∧ rest.Each p))
  | block body rest =>
    have := decidableEach p body
    have := decidableEach p rest
    inferInstanceAs (Decidable (body.Each p ∧ rest.Each p))

/-- What the words of all numbers say. -/
def wrap : Listing → Listing
  | done => done
  | value kind n rest => value kind (kind.wrap n) rest.wrap
  | block body rest => block body.wrap rest.wrap

/-- The bytes that are written for the numbers. -/
def content : Listing → Content
  | done => .done
  | value kind n rest => .bytes (kind.bytes (.ofInt n)) rest.content
  | block body rest => .block body.content rest.content

variable {p q : IntKind → Int → Prop} {l : Listing}

theorem Each.mono (h : ∀ kind n, p kind n → q kind n) (hl : l.Each p) : l.Each q := by
  induction l with
  | done => trivial
  | value kind n rest ih => exact ⟨h kind n hl.1, ih hl.2⟩
  | block body rest ihb ihr => exact ⟨ihb hl.1, ihr hl.2⟩

theorem wrap_of_each (h : l.Each IntKind.Holds) : l.wrap = l := by
  induction l with
  | done => rfl
  | value kind n rest ih => rw [wrap, IntKind.wrap_of_holds h.1, ih h.2]
  | block body rest ihb ihr => rw [wrap, ihb h.1, ihr h.2]

end Listing

namespace Item

mutual

/-- All its numbers are proper. -/
def Proper : Item → Prop
  | value _ number => number.Proper
  | block items => AllProper items

def AllProper : List Item → Prop
  | [] => True
  | item :: rest => item.Proper ∧ AllProper rest

end

mutual

/-- The item in front of a listing, if its kinds are known and its numbers are integers. -/
def before? (rest : Listing) : Item → Option Listing
  | value name number => do return .value (← IntKind.ofName? name) (← number.integer?) rest
  | block items => do return .block (← listing? items) rest

/-- The listing that a list of items is. -/
def listing? : List Item → Option Listing
  | [] => some .done
  | item :: rest => do item.before? (← listing? rest)

end

/-- Induction on a list of items that goes into the blocks. -/
theorem list_induction {P : List Item → Prop} (nil : P [])
    (value : ∀ name number rest, P rest → P (value name number :: rest))
    (block : ∀ body rest, P body → P rest → P (block body :: rest)) (items : List Item) : P items :=
  @Item.rec_1 (fun item => ∀ rest, P rest → P (item :: rest)) P value
    (fun body hb rest hr => block body rest hb hr) nil (fun _ rest hi hr => hi rest hr) items

section Listing

variable {name : String} {number : Json.Number} {items rest : List Item} {l : Listing}

theorem listing?_value : listing? (value name number :: rest) = some l ↔ ∃ kind n l',
    IntKind.ofName? name = some kind ∧ number.integer? = some n ∧ listing? rest = some l' ∧
      l = .value kind n l' := by
  rw [listing?]
  cases listing? rest <;> cases hk : IntKind.ofName? name <;> cases hn : number.integer? <;>
    simp [before?, hk, hn, eq_comm]

theorem listing?_block : listing? (block items :: rest) = some l ↔ ∃ body l',
    listing? items = some body ∧ listing? rest = some l' ∧ l = .block body l' := by
  rw [listing?]
  cases listing? rest <;> cases hb : listing? items <;> simp [before?, hb, eq_comm]

end Listing

end Item

/-! ## What is written -/

section Writing

variable {ε ε' α β : Type} {f : ε → ε'} {act : Writing ε α} {next : α → Writing ε β} {a : α} {b : β}
  {s s' : Tape × Writer}

theorem bind_eq_ok : (act >>= next) s = .ok b s' ↔
    ∃ a s₁, act s = .ok a s₁ ∧ next a s₁ = .ok b s' := by
  refine ⟨of_bind_ok, ?_⟩
  rintro ⟨a, s₁, h, h'⟩
  rw [bind_of_ok h, h']

theorem mapError_eq_ok : act.mapError f s = .ok a s' ↔ act s = .ok a s' := by
  refine ⟨of_mapError_ok, fun h => ?_⟩
  rw [Writing.mapError, h]

theorem discard_eq_ok : (discard act : Writing ε PUnit) s = .ok () s' ↔ ∃ a, act s = .ok a s' := by
  refine ⟨of_discard_ok, ?_⟩
  rintro ⟨a, h⟩
  exact discard_of_ok h

theorem throw_ne_ok {x : ε} : (throw x : Writing ε α) s ≠ .ok a s' := by
  intro h
  have h : EStateM.Result.error x s = .ok a s' := h
  simp at h

end Writing

section

variable {name : String} {number : Json.Number} {kind : IntKind} {w : UInt64}
  {s s' : Tape × Writer}

theorem Cursor.writeValue_eq_ok : writeValue kind w s = .ok () s' ↔
    kind.fits w = true ∧ writeBytes (kind.bytes w) s = .ok () s' := by
  unfold writeValue
  split
  · rename_i hf
    rw [mapError_eq_ok, stageWhole, stageValue_eq, and_iff_right hf, writeBytes]
    cases (kind.bytes w).forM writeByte s with
    | ok u s₁ => simp [wholly]
    | error x s₁ =>
      simp only [wholly]
      split
      · split <;> simp
      · simp
  · rename_i hf
    simp [hf, throw_ne_ok]

/-- A number is taken if its word is that of a number of the kind. -/
theorem Item.word_fits_iff (hp : number.Proper) :
    (Item.word kind number = .ok w ∧ kind.fits w = true) ↔
      ∃ n, number.integer? = some n ∧ kind.Takes n ∧ w = .ofInt n := by
  have hint {n : Int} (hlo : if kind.signed then -(UInt64.size : Int) ≤ 2 * n else 0 ≤ n)
      (hhi : n < UInt64.size) :
      ((.ok (.ofInt n) : Except ListError UInt64) = .ok w ∧ kind.fits w = true) ↔
        kind.Takes n ∧ w = .ofInt n := by
    have hf : kind.fits (.ofInt n) = true ↔ kind.Takes n := by
      rw [IntKind.fits_iff, IntKind.number_ofInt_eq_wrap hlo hhi, IntKind.takes_iff]
      rfl
    constructor
    · rintro ⟨hw, hfits⟩
      obtain rfl := Except.ok.inj hw
      exact ⟨hf.1 hfits, rfl⟩
    · rintro ⟨htakes, rfl⟩
      exact ⟨rfl, hf.2 htakes⟩
  cases number with
  | natural n =>
    have hn : n < UInt64.size := hp
    rw [word, ← ofInt_natCast, hint (by split <;> omega) (by omega)]
    simp [Json.Number.integer?]
  | negative n =>
    obtain ⟨hpos, hle⟩ : 0 < n ∧ 2 * n ≤ UInt64.size := hp
    cases hs : kind.signed with
    | true =>
      rw [word, if_pos hs, hint (by rw [hs, if_pos rfl]; omega) (by omega)]
      simp [Json.Number.integer?]
    | false =>
      have hnone : ¬kind.Takes (-n) := by
        simp only [IntKind.Takes, IntKind.Holds, Leb128.InRange, hs, Bool.false_eq_true, if_false,
          false_and, or_false]
        omega
      simp [word, hs, Json.Number.integer?, hnone]
  | double x => simp [word, Json.Number.integer?]

theorem Item.writeNumber_eq_ok (hp : number.Proper) (index : Nat) :
    writeNumber index name number s = .ok () s' ↔
      ∃ kind n, IntKind.ofName? name = some kind ∧ number.integer? = some n ∧
        kind.Takes n ∧ Cursor.writeBytes (kind.bytes (.ofInt n)) s = .ok () s' := by
  unfold writeNumber
  cases hk : IntKind.ofName? name with
  | none => simp [throw_ne_ok]
  | some kind =>
    simp only
    constructor
    · intro h
      cases hw : word kind number with
      | error x =>
        rw [hw] at h
        exact absurd h throw_ne_ok
      | ok w =>
        rw [hw] at h
        obtain ⟨hf, h⟩ := Cursor.writeValue_eq_ok.1 (mapError_eq_ok.1 h)
        obtain ⟨n, hn, htakes, rfl⟩ := (word_fits_iff hp).1 ⟨hw, hf⟩
        exact ⟨kind, n, rfl, hn, htakes, h⟩
    · rintro ⟨kind, n, ⟨⟩, hn, htakes, h⟩
      obtain ⟨hw, hf⟩ := (word_fits_iff hp).2 ⟨n, hn, htakes, rfl⟩
      rw [hw]
      exact mapError_eq_ok.2 (Cursor.writeValue_eq_ok.2 ⟨hf, h⟩)

end

/-- A list of items is written like the bytes of its listing, if all its numbers are taken. -/
theorem Item.writeAll_eq_ok {framing : Framing} {items : List Item} (hp : AllProper items)
    (index : Nat) {s s' : Tape × Writer} : writeAll framing index items s = .ok () s' ↔
      ∃ l, listing? items = some l ∧ l.Each IntKind.Takes ∧
        ∃ sizes, framing.write l.content s = .ok sizes s' := by
  induction items using list_induction generalizing index s s' with
  | nil =>
    constructor
    · intro h
      exact ⟨.done, rfl, trivial, [], congrArg (EStateM.Result.ok []) (EStateM.Result.ok.inj h).2⟩
    · rintro ⟨l, hl, -, sizes, hw⟩
      obtain rfl := Option.some.inj hl
      exact congrArg (EStateM.Result.ok ()) (EStateM.Result.ok.inj hw).2
  | value name number rest ih =>
    rw [writeAll, write]
    constructor
    · intro h
      obtain ⟨⟨⟩, s₁, hv, h⟩ := of_bind_ok h
      obtain ⟨kind, n, hk, hn, htakes, hb⟩ := (writeNumber_eq_ok hp.1 index).1 hv
      obtain ⟨l, hl, ha, sizes, hw⟩ := (ih hp.2 (index + 1)).1 h
      refine ⟨.value kind n l, listing?_value.2 ⟨kind, n, l, hk, hn, hl, rfl⟩, ⟨htakes, ha⟩, sizes, ?_⟩
      rw [Listing.content, Framing.write]
      exact bind_eq_ok.2 ⟨(), s₁, mapError_eq_ok.2 hb, hw⟩
    · rintro ⟨l, hl, ha, sizes, hw⟩
      obtain ⟨kind, n, l, hk, hn, hrest, rfl⟩ := listing?_value.1 hl
      rw [Listing.content, Framing.write] at hw
      obtain ⟨⟨⟩, s₁, hb, hw⟩ := of_bind_ok hw
      have hv := (writeNumber_eq_ok hp.1 index).2 ⟨kind, n, hk, hn, ha.1, mapError_eq_ok.1 hb⟩
      exact bind_eq_ok.2 ⟨(), s₁, hv, (ih hp.2 (index + 1)).2 ⟨l, hrest, ha.2, sizes, hw⟩⟩
  | block items rest ihb ihr =>
    rw [writeAll, write]
    constructor
    · intro h
      obtain ⟨⟨⟩, s₃, hblock, h⟩ := of_bind_ok h
      obtain ⟨header, s₁, hbegin, hblock⟩ := of_bind_ok hblock
      obtain ⟨⟨⟩, s₂, hbody, hfinish⟩ := of_bind_ok hblock
      obtain ⟨size, hfinish⟩ := of_discard_ok hfinish
      obtain ⟨body, hb, hab, inner, hwb⟩ := (ihb hp.1 0).1 (of_mapError_ok hbody)
      obtain ⟨l, hl, ha, after, hw⟩ := (ihr hp.2 (index + 1)).1 h
      refine ⟨.block body l, listing?_block.2 ⟨body, l, hb, hl, rfl⟩, ⟨hab, ha⟩,
        inner ++ size :: after, ?_⟩
      rw [Listing.content, Framing.write, bind_of_ok (of_mapError_ok hbegin), bind_of_ok hwb,
        bind_of_ok (of_mapError_ok hfinish), bind_of_ok hw]
      rfl
    · rintro ⟨l, hl, ha, sizes, hw⟩
      obtain ⟨body, l, hb, hrest, rfl⟩ := listing?_block.1 hl
      rw [Listing.content, Framing.write] at hw
      obtain ⟨header, s₁, hbegin, hw⟩ := of_bind_ok hw
      obtain ⟨inner, s₂, hwb, hw⟩ := of_bind_ok hw
      obtain ⟨size, s₃, hfinish, hw⟩ := of_bind_ok hw
      obtain ⟨after, s₄, hwr, hlast⟩ := of_bind_ok hw
      obtain rfl : s₄ = s' := (EStateM.Result.ok.inj hlast).2
      have hbody := (ihb hp.1 0).2 ⟨body, hb, ha.1, inner, hwb⟩
      have hrest := (ihr hp.2 (index + 1)).2 ⟨l, hrest, ha.2, after, hwr⟩
      exact bind_eq_ok.2 ⟨(), s₃, bind_eq_ok.2 ⟨header, s₁, mapError_eq_ok.2 hbegin,
        bind_eq_ok.2 ⟨(), s₂, mapError_eq_ok.2 hbody,
          discard_eq_ok.2 ⟨size, mapError_eq_ok.2 hfinish⟩⟩⟩, hrest⟩

/-! ## The stream -/

namespace ValueList

variable {f : Framing} {items : List Item} {out : List UInt8}

/-- What was written is copied out. -/
theorem bytes_of_writeAll {t : Tape} {w : Writer}
    (h : Item.writeAll f 0 items (.blank Tape.defaultPageSize,
      Cursor.writerOn (.blank Tape.defaultPageSize) .byte) = .ok () (t, w))
    (hw : AtEnd w t out) (hg : (Tape.blank Tape.defaultPageSize).Grows t) :
    bytes f items = .ok out := by
  have hstart : t.start = 0 := hg.start.trans (Nat.zero_mul _)
  obtain ⟨t', hend, rfl⟩ : ∃ t', t.fixEnd t.fill = .ok t' ∧ t' = { t with eof := some t.fill } :=
    ⟨_, Tape.fixEnd_fill (.inl hw.eof), rfl⟩
  have hcarries : Tape.Carries { t with eof := some t.fill } out :=
    ⟨hw.carries.whole, hw.carries.paged, hw.carries.fill, hw.carries.shows⟩
  have hcopy := hcarries.copyOut (a := 0) (n := out.length) (Nat.le_of_eq hstart) (by omega)
  rw [bytes, h]
  simp only [hend]
  rw [hw.carries.fill] at hcopy ⊢
  rw [hcopy, List.drop_zero, List.take_length]
  rfl

/-- A value list is written exactly if its listing is known, all its numbers are taken and the stream
finds room; and then as the bytes of the listing. -/
theorem bytes_eq_ok (hr : 0 < f.reserved) (hp : Item.AllProper items) : bytes f items = .ok out ↔
    ∃ l, Item.listing? items = some l ∧ l.Each IntKind.Takes ∧ l.content.peak f ≤ addressLimit ∧
      l.content.tooLarge? f = none ∧ out = l.content.encode f := by
  have hblank := AtEnd.blank Tape.defaultPageSize
  constructor
  · intro h
    cases hall : Item.writeAll f 0 items (.blank Tape.defaultPageSize,
        Cursor.writerOn (.blank Tape.defaultPageSize) .byte) with
    | error x s => simp [bytes, hall] at h
    | ok u s =>
      obtain ⟨l, hl, ha, sizes, hw⟩ := (Item.writeAll_eq_ok hp 0).1 hall
      obtain ⟨hroom, hnone⟩ := hblank.room_of_write l.content hr hw
      obtain ⟨t, w, he, hend, hg⟩ := (hblank.write l.content hr hroom).1 hnone
      rw [he] at hw
      obtain ⟨-, rfl⟩ := EStateM.Result.ok.inj hw
      rw [bytes_of_writeAll hall hend hg] at h
      exact ⟨l, hl, ha, by simpa using hroom, hnone, (Except.ok.inj h).symm⟩
  · rintro ⟨l, hl, ha, hroom, hnone, rfl⟩
    obtain ⟨t, w, he, hend, hg⟩ := (hblank.write l.content hr (by simpa using hroom)).1 hnone
    exact bytes_of_writeAll ((Item.writeAll_eq_ok hp 0).2 ⟨l, hl, ha, _, he⟩) hend hg

end ValueList

/-! ## What is read -/

/-- Reads items as a listing has them, each value as one of its kind. -/
def Listing.decode (t : Tape) : Listing → Reader → Except DecodeError (Listing × Reader)
  | done, c => .ok (done, c)
  | value kind _ rest, c => do
    let (w, c) ← c.readValue t kind
    let (rest, c) ← rest.decode t c
    return (value kind (kind.number w) rest, c)
  | block body rest, c => do
    let (extent, c) ← c.enter t
    let (body, c) ← body.decode t c
    let c ← c.leave t extent
    let (rest, c) ← rest.decode t c
    return (block body rest, c)

section

variable {f : Framing} {src : Source} {t : Tape} {c : Reader} {kind : IntKind} {w : UInt64}

/-- A value that lies ahead is read. -/
theorem Stands.readValue (h : Stands c t src) (hf : kind.fits w = true)
    (ho : src.Offers c.bounds c.address (kind.bytes w)) :
    ∃ c', c.readValue t kind = .ok (w, c') ∧ Stands c' t src ∧ c'.bounds = c.bounds ∧
      c'.address = c.address + (kind.bytes w).length := by
  obtain ⟨p, hread⟩ := Source.read_of_completes (IntKind.completes_bytes hf) ho
  obtain ⟨c', he, h', hb, ha⟩ := h.resume (.start kind)
  rw [hread] at he ha
  exact ⟨c', by rw [Cursor.readValue, he], h', hb, ha⟩

/-- A block that lies ahead is entered, and its body lies ahead in it. -/
theorem Stands.enter {body : List UInt8} (h : Stands c t src) (hr : 0 < f.reserved)
    (hf : f.minimize = true ∨ f.reserved ≤ Leb128.chunksInWord 32)
    (hl : body.length ≤ headerLimit f.reserved) (hs : body.length < UInt32.size)
    (ho : src.Offers c.bounds c.address (f.header f.reserved body.length ++ body))
    (hlim : src.bytes.length ≤ addressLimit) : ∃ extent c', c.enter t = .ok (extent, c') ∧
      Stands c' t src ∧ c'.bounds = extent.stop :: c.bounds ∧
      c'.address = c.address + (f.header f.reserved body.length).length ∧
      extent.stop = .ofByte (c'.address + body.length) ∧
      src.Offers c'.bounds c'.address body := by
  have hcompletes := Framing.completes_header hr hl hs hf
  generalize f.header f.reserved body.length = header at *
  obtain ⟨hle, hstop⟩ := ho.le (by simp [hcompletes.ne_nil])
  obtain ⟨hheader, hbody⟩ := Source.offers_append.1 ho
  obtain ⟨p, hread⟩ := Source.read_of_completes hcompletes hheader
  have hword : (UInt64.ofNat body.length).toNat = body.length := by
    rw [UInt64.toNat_ofNat']
    simp only [UInt32.size] at hs
    omega
  rw [List.length_append, ← Nat.add_assoc] at hle hstop
  have hmin : min (c.address + header.length + body.length) addressLimit =
      c.address + header.length + body.length := Nat.min_eq_left (Nat.le_trans hle hlim)
  obtain ⟨c', he, h', hb, ha⟩ := h.enter_within hread (by rwa [hword, hmin])
  rw [hword, hmin] at he hb
  refine ⟨_, c', he, h', hb, ha, by rw [ha], ?_⟩
  rw [hb, ha]
  exact hbody.inside (Nat.le_of_eq (Position.byte_ofByte _).symm)

/-- Where a listing was written, it is read, with the numbers that the words are. -/
theorem Listing.decode_of_stands {l : Listing} (hr : 0 < f.reserved)
    (hf : f.minimize = true ∨ f.reserved ≤ Leb128.chunksInWord 32)
    (hn : l.Each IntKind.Takes)
    (hs : ∀ size ∈ l.content.sizes f, size ≤ headerLimit f.reserved ∧ size < UInt32.size)
    (h : Stands c t src) (ho : src.Offers c.bounds c.address (l.content.encode f))
    (hlim : src.bytes.length ≤ addressLimit) : ∃ c', l.decode t c = .ok (l.wrap, c') ∧
      Stands c' t src ∧ c'.bounds = c.bounds ∧
      c'.address = c.address + (l.content.encode f).length := by
  induction l generalizing c with
  | done => exact ⟨c, rfl, h, rfl, rfl⟩
  | value kind n rest ih =>
    obtain ⟨htakes, hrest⟩ := hn
    obtain ⟨hfits, hnumber⟩ := IntKind.number_of_takes htakes
    obtain ⟨hvalue, ho⟩ := Source.offers_append.1 ho
    obtain ⟨c₁, he₁, h₁, hb₁, ha₁⟩ := h.readValue hfits hvalue
    obtain ⟨c', he, h', hb, ha⟩ := ih hrest hs h₁ (by rwa [hb₁, ha₁])
    refine ⟨c', ?_, h', hb.trans hb₁, ?_⟩
    · simp only [decode, he₁, he, bind, Except.bind, pure, Except.pure, wrap, hnumber]
    · rw [ha, ha₁, content, Content.encode, List.length_append, Nat.add_assoc]
  | block body rest ihb ihr =>
    obtain ⟨hbody, hrest⟩ := hn
    rw [content, Content.sizes] at hs
    obtain ⟨hl, hlt⟩ := hs _ (List.mem_append_right _ List.mem_cons_self)
    obtain ⟨hframed, ho⟩ := Source.offers_append.1 ho
    obtain ⟨extent, c₁, he₁, h₁, hb₁, ha₁, hstop, ho₁⟩ := h.enter hr hf hl hlt hframed hlim
    obtain ⟨c₂, he₂, h₂, hb₂, ha₂⟩ :=
      ihb hbody (fun size hm => hs size (List.mem_append_left _ hm)) h₁ ho₁
    obtain ⟨c₃, he₃, h₃, hb₃, ha₃⟩ := h₂.leave extent (hb₂.trans hb₁) (by rw [ha₂, hstop])
    have hat : c₃.address = c.address +
        (f.header f.reserved (body.content.encode f).length ++ body.content.encode f).length := by
      rw [ha₃, ha₂, ha₁, List.length_append, Nat.add_assoc]
    obtain ⟨c', he, h', hb, ha⟩ := ihr hrest
      (fun size hm => hs size (List.mem_append_right _ (List.mem_cons_of_mem _ hm))) h₃
      (by rwa [hb₃, hat])
    refine ⟨c', ?_, h', hb.trans hb₃, ?_⟩
    · simp only [decode, he₁, he₂, he₃, he, bind, Except.bind, pure, Except.pure, wrap]
    · rw [ha, hat, Nat.add_assoc, ← List.length_append]
      rfl

end

/-! ## Value lists that come back -/

/-- The items that `shape` tells are read as `result`, up to the end of the stream, from every tape
that has the whole of it. -/
def Listing.Decodes (shape : Listing) (stream : List UInt8) (result : Listing) : Prop :=
  ∀ t : Tape, t.Carries stream → t.start = 0 → (t.eof = none ∨ t.eof = some stream.length) →
    ∃ c, shape.decode t (Cursor.readerOn t .byte) = .ok (result, c) ∧
      c.position = .ofByte stream.length

namespace ValueList

/-- A value list is written exactly if its kinds are known and each number is one of its kind, and
then it comes back as it is. -/
def Faithful (minimize : Bool) (items : List Item) : Prop :=
  ((∃ out, bytes { minimize } items = .ok out) ↔
    ∃ l, Item.listing? items = some l ∧ l.Each IntKind.Holds) ∧
  ∀ out l, bytes { minimize } items = .ok out → Item.listing? items = some l → l.Decodes out l

variable {minimize : Bool} {items : List Item} {l : Listing}

theorem reserved_pos : 0 < Framing.reserved { minimize } := show 0 < Leb128.chunksInWord 32 by decide

/-- A header of the usual width says every size that is read. -/
theorem le_headerLimit {size : Nat} (h : size < UInt32.size) :
    size ≤ headerLimit (Framing.reserved { minimize }) := by
  have hlimit : headerLimit (Framing.reserved { minimize }) = 34359738367 := rfl
  have hsize : UInt32.size = 4294967296 := rfl
  omega

theorem decodes (ht : l.Each IntKind.Takes)
    (hs : ∀ size ∈ l.content.sizes { minimize }, size < UInt32.size)
    (hroom : l.content.peak { minimize } ≤ addressLimit) :
    l.Decodes (l.content.encode { minimize }) l.wrap := by
  intro t hcarries hstart heof
  have hlim := Nat.le_trans (l.content.length_encode_le_peak { minimize }) hroom
  generalize hout : l.content.encode { minimize } = out at *
  have haddress : (Cursor.readerOn t .byte).address = 0 := hstart
  have hstands : Stands (Cursor.readerOn t .byte) t { bytes := out, closed := t.eof.isSome } := by
    refine ⟨rfl, Cursor.sound_fresh t [] t.start, hcarries, ?_, Nat.le_refl _, ?_⟩
    · rcases heof with h | h <;> simp [Source.eof, h]
    · rw [haddress]
      exact Nat.zero_le _
  have hoffers : Source.Offers { bytes := out, closed := t.eof.isSome } [] 0 out := by
    refine Source.offers_of_isPrefix List.prefix_rfl ?_
    rcases heof with h | h <;>
      simp [Source.stop, Source.endPosition, h, Position.byte_unbounded, hlim]
  obtain ⟨c, he, hc, -, ha⟩ := Listing.decode_of_stands (f := { minimize }) reserved_pos
    (.inr (Nat.le_refl _)) ht (fun size hm => ⟨le_headerLimit (hs size hm), hs size hm⟩) hstands
    (by rw [haddress, hout]; exact hoffers) hlim
  refine ⟨c, he, ?_⟩
  rw [haddress, hout, Nat.zero_add] at ha
  simp only [Cursor.position, hc.sound.bits, ha, List.length_nil, Nat.sub_zero, Position.ofByte]

/-- A value list of blocks below four gigabytes is written exactly if its kinds are known, they take
their numbers, and the stream finds room. What comes back are the numbers that their words are for
their kinds. So a value list that is accepted and finds room comes back as it is exactly if no natural
number in it stands for a negative one. -/
theorem faithful_iff (minimize : Bool) {items : List Item} (hp : Item.AllProper items)
    (hs : ∀ l, Item.listing? items = some l → l.Each IntKind.Takes →
      ∀ size ∈ l.content.sizes { minimize }, size < UInt32.size) :
    ((∃ out, bytes { minimize } items = .ok out) ↔ ∃ l, Item.listing? items = some l ∧
      l.Each IntKind.Takes ∧ l.content.peak { minimize } ≤ addressLimit) ∧
    (∀ out l, bytes { minimize } items = .ok out → Item.listing? items = some l →
      l.Decodes out l.wrap) ∧
    (Faithful minimize items ↔ ∀ l, Item.listing? items = some l → l.Each IntKind.Takes →
      (l.Each IntKind.Holds ↔ l.content.peak { minimize } ≤ addressLimit)) := by
  have hok {out : List UInt8} := @bytes_eq_ok { minimize } items out reserved_pos hp
  have hwritten : (∃ out, bytes { minimize } items = .ok out) ↔ ∃ l, Item.listing? items = some l ∧
      l.Each IntKind.Takes ∧ l.content.peak { minimize } ≤ addressLimit := by
    constructor
    · rintro ⟨out, h⟩
      obtain ⟨l, hl, ht, hroom, -⟩ := hok.1 h
      exact ⟨l, hl, ht, hroom⟩
    · rintro ⟨l, hl, ht, hroom⟩
      have hnone : l.content.tooLarge? { minimize } = none :=
        List.find?_eq_none.2 fun size hm => by
          rw [decide_eq_true_iff]
          exact Nat.not_lt.2 (le_headerLimit (hs l hl ht size hm))
      exact ⟨_, hok.2 ⟨l, hl, ht, hroom, hnone, rfl⟩⟩
  have hdecodes (out : List UInt8) (l : Listing) (h : bytes { minimize } items = .ok out)
      (hl : Item.listing? items = some l) : l.Each IntKind.Takes ∧
        l.content.peak { minimize } ≤ addressLimit ∧ l.Decodes out l.wrap := by
    obtain ⟨l', hl', ht, hroom, -, rfl⟩ := hok.1 h
    obtain rfl : l = l' := Option.some.inj (hl.symm.trans hl')
    exact ⟨ht, hroom, decodes ht (hs l hl ht) hroom⟩
  refine ⟨hwritten, fun out l h hl => (hdecodes out l h hl).2.2, ?_, fun h => ⟨?_, ?_⟩⟩
  · rintro ⟨hfaithful, -⟩ l hl ht
    rw [hwritten] at hfaithful
    constructor
    · intro hholds
      obtain ⟨l', hl', -, hroom⟩ := hfaithful.2 ⟨l, hl, hholds⟩
      exact Option.some.inj (hl.symm.trans hl') ▸ hroom
    · intro hroom
      obtain ⟨l', hl', hholds⟩ := hfaithful.1 ⟨l, hl, ht, hroom⟩
      exact Option.some.inj (hl.symm.trans hl') ▸ hholds
  · rw [hwritten]
    constructor
    · rintro ⟨l, hl, ht, hroom⟩
      exact ⟨l, hl, (h l hl ht).2 hroom⟩
    · rintro ⟨l, hl, hholds⟩
      have ht : l.Each IntKind.Takes := hholds.mono fun _ _ => .inl
      exact ⟨l, hl, ht, (h l hl ht).1 hholds⟩
  · intro out l hout hl
    obtain ⟨ht, hroom, hd⟩ := hdecodes out l hout hl
    rwa [Listing.wrap_of_each ((h l hl ht).2 hroom)] at hd

/-- A negative number and a natural one in a block. -/
def pair : List Item := [.block [.value "varint32" (.negative 1), .value "uint8" (.natural 9)]]

/-- They come back as they are. -/
theorem faithful_iff_pair : Faithful false pair := by
  have hl : Item.listing? pair =
      some (.block (.value .varint32 (-1) (.value .uint8 9 .done)) .done) := by decide +kernel
  have hp : Item.AllProper pair :=
    ⟨⟨⟨by decide, by decide⟩, (by decide : 9 < UInt64.size), trivial⟩, trivial⟩
  refine (faithful_iff false hp ?_).2.2.2 ?_
  · intro l hl' _
    obtain rfl := Option.some.inj (hl'.symm.trans hl)
    decide +kernel
  · intro l hl' _
    obtain rfl := Option.some.inj (hl'.symm.trans hl)
    decide +kernel

/-- The largest word, as a value of a kind with a sign. -/
def largest : List Item := [.value "varint32" (.natural 0xFFFFFFFFFFFFFFFF)]

/-- It is accepted, and comes back as a negative number. -/
theorem not_faithful_largest : bytes { minimize := true } largest = .ok [0x7F] ∧
    Listing.Decodes (.value .varint32 0xFFFFFFFFFFFFFFFF .done) [0x7F] (.value .varint32 (-1) .done) ∧
    ¬Faithful true largest := by
  have hl : Item.listing? largest = some (.value .varint32 0xFFFFFFFFFFFFFFFF .done) := by
    decide +kernel
  have hp : Item.AllProper largest := ⟨(by decide : 0xFFFFFFFFFFFFFFFF < UInt64.size), trivial⟩
  have hout : bytes { minimize := true } largest = .ok [0x7F] :=
    (bytes_eq_ok reserved_pos hp).2 ⟨_, hl, by decide +kernel⟩
  refine ⟨hout, ?_, fun h => ?_⟩
  · have hd := @decodes true (.value .varint32 0xFFFFFFFFFFFFFFFF .done) (by decide +kernel)
      (by decide +kernel) (by decide +kernel)
    have hbytes : Content.encode { minimize := true }
        (Listing.value .varint32 0xFFFFFFFFFFFFFFFF .done).content = [0x7F] := by decide +kernel
    rwa [hbytes] at hd
  · obtain ⟨l, hl', hholds⟩ := h.1.1 ⟨_, hout⟩
    obtain rfl := Option.some.inj (hl'.symm.trans hl)
    revert hholds
    decide +kernel

end ValueList

end Transcoder

import Transcoder.Block.Read
import Transcoder.Cursor.Room
import Transcoder.Proofs.Cursor.Actions

/-!
# Every read is a series of loads

`Loads` lists what a read can do to a reader: take a byte of the tape, or bits of the byte at hand,
go back where the stream has stopped it, and enter or leave a block. What holds of all reads is
proved from the list, once, and not from the reads.

Results:
* `loads_readByte`, `loads_resume`, `loads_enter` and others: each read is such a series.
* `Loads.regular`: the caches stay right.
* `Loads.placed`: the bits that are left are those of bytes that were taken.
-/
namespace Transcoder

namespace Cursor

/-- The bits still to be read belong to bytes before the address. -/
def Placed (c : Reader) : Prop := c.bits.length ≤ 8 * c.address

/-! ## Loading -/

/-- The reader on the page of its byte; the span is set anew unless it lets the byte through. -/
def onLoad (c : Reader) (t : Tape) : Reader :=
  if c.fast t then c else { c with page := some (t.pageOf c.address) }.refresh t

/-- A byte is taken from the page at hand, or after every test. -/
theorem of_fetch_ok {c c' : Reader} {t : Tape} {b : UInt8} (h : c.fetch t = .ok (b, c')) :
    c' = { c.onLoad t with address := c.address + 1 } ∧
      (c.fast t = true ∧ c.holds t c.address = true ∨ c.checkFetch t = .ok ()) := by
  rw [fetch] at h
  by_cases hf : c.fast t = true
  · rw [if_pos hf] at h
    rw [load] at h
    by_cases hh : c.holds t c.address = true
    · rw [if_pos hh] at h
      cases h
      rw [onLoad, if_pos hf]
      exact ⟨rfl, .inl ⟨hf, hh⟩⟩
    · rw [if_neg hh] at h
      cases h
  · rw [if_neg hf, fetchSlow] at h
    cases hc : c.checkFetch t with
    | error e =>
      rw [hc] at h
      cases h
    | ok u =>
      rw [hc] at h
      obtain rfl := eq_of_load h
      rw [onLoad, if_neg hf]
      exact ⟨rfl, .inr rfl⟩

@[simp] theorem address_onLoad (c : Reader) (t : Tape) : (c.onLoad t).address = c.address := by
  unfold onLoad
  split <;> rfl

@[simp] theorem bits_onLoad (c : Reader) (t : Tape) : (c.onLoad t).bits = c.bits := by
  unfold onLoad
  split <;> rfl

@[simp] theorem grain_onLoad (c : Reader) (t : Tape) : (c.onLoad t).grain = c.grain := by
  unfold onLoad
  split <;> rfl

@[simp] theorem bounds_onLoad (c : Reader) (t : Tape) : (c.onLoad t).bounds = c.bounds := by
  unfold onLoad
  split <;> rfl

end Cursor

/-- What a read does to a reader on a tape. -/
inductive Loads (t : Tape) : Reader → Reader → Prop
  | nil (c : Reader) : Loads t c c
  /-- Has other bits of the byte at hand left. -/
  | bits {c c' : Reader} (h : Loads t c c') (bits : List Bool)
    (hb : c'.Tidy → ({ c' with bits } : Reader).Tidy)
    (hp : c'.Placed → ({ c' with bits } : Reader).Placed) : Loads t c { c' with bits }
  | load {c c' c'' : Reader} {b : UInt8} (h : Loads t c c') (hf : c'.fetch t = .ok (b, c'')) :
    Loads t c c''
  /-- Goes back to where the reader has been. -/
  | restore {c c₀ c' : Reader} (h₀ : Loads t c c₀) (h : Loads t c₀ c') :
    Loads t c (c'.restore c₀ t)
  /-- Enters a block or leaves one. -/
  | bound {c c' : Reader} (h : Loads t c c') (bounds : List Position) :
    Loads t c (({ c' with bounds } : Reader).refresh t)

namespace Loads

variable {t : Tape} {c c' c'' : Reader}

theorem trans (h : Loads t c c') (k : Loads t c' c'') : Loads t c c'' := by
  induction k with
  | nil => exact h
  | bits _ bits hb hp ih => exact (ih h).bits bits hb hp
  | load _ hf ih => exact (ih h).load hf
  | restore _ k ih₀ _ => exact (ih₀ h).restore k
  | bound _ bounds ih => exact (ih h).bound bounds

theorem grain (h : Loads t c c') : c'.grain = c.grain := by
  induction h with
  | nil => rfl
  | bits _ _ _ _ ih => exact ih
  | load _ hf ih =>
    obtain ⟨rfl, -⟩ := Cursor.of_fetch_ok hf
    exact (Cursor.grain_onLoad _ t).trans ih
  | restore _ _ ih₀ ih => exact ih.trans ih₀
  | bound _ _ ih => exact ih

end Loads

/-! ## Reads -/

namespace Cursor

variable {t : Tape} {c c' : Reader}

theorem loads_readBit {bit : Bool} (h : c.readBit t = .ok (bit, c')) : Loads t c c' := by
  simp only [readBit, bind, Except.bind] at h
  cases hcheck : c.checkBit t with
  | error e =>
    rw [hcheck] at h
    cases h
  | ok u =>
    rw [hcheck] at h
    cases hbits : c.bits with
    | cons bit' rest =>
      simp only [hbits] at h
      cases h
      refine (Loads.nil c).bits rest (fun htidy => ⟨?_, fun hg => ?_⟩) fun hplaced => ?_
      · have hshort := htidy.short
        rw [hbits, List.length_cons] at hshort
        exact Nat.lt_of_succ_lt hshort
      · rw [htidy.whole hg] at hbits
        cases hbits
      · rw [Placed, hbits, List.length_cons] at hplaced
        exact Nat.le_of_succ_le hplaced
    | nil =>
      simp only [hbits] at h
      cases hf : c.fetch t with
      | error e =>
        rw [hf] at h
        cases h
      | ok r =>
        obtain ⟨b, c₁⟩ := r
        rw [hf] at h
        cases h
        have hload := (Loads.nil c).load hf
        have hlength : (Bits.ofByte b).tail.length = 7 := by
          rw [List.length_tail, Bits.length_ofByte]
        refine hload.bits _ (fun _ => ⟨?_, fun hg => ?_⟩) fun _ => ?_
        · exact Nat.lt_of_le_of_lt (Nat.le_of_eq hlength) (by decide)
        · -- a byte reader takes no bits
          have hgrain : c.grain = .byte := hload.grain.symm.trans hg
          rw [checkBit, if_pos (by simp [hgrain])] at hcheck
          cases hcheck
        · obtain ⟨rfl, -⟩ := of_fetch_ok hf
          show (Bits.ofByte b).tail.length ≤ 8 * (c.address + 1)
          omega

theorem loads_alignReader (t : Tape) (c : Reader) : Loads t c c.alignReader :=
  (Loads.nil c).bits [] (fun _ => tidy_nil rfl) fun _ => Nat.zero_le _

theorem loads_readBitsUntil (t : Tape) (n : Nat) (c : Reader) (bits : List Bool) :
    Loads t c (readBitsUntil t n c bits).2 := by
  induction n generalizing c bits with
  | zero => exact .nil c
  | succ n ih =>
    rw [readBitsUntil]
    cases hbit : c.readBit t with
    | error e => exact .nil c
    | ok r => exact (loads_readBit hbit).trans (ih ..)

theorem loads_readBitList (c : Reader) (t : Tape) (n : Nat) : Loads t c (c.readBitList t n).2 := by
  have h := loads_readBitsUntil t n c []
  rw [readBitList]
  generalize readBitsUntil t n c [] = r at h
  obtain ⟨r, c'⟩ := r
  cases r with
  | ok bits => exact h
  | error e => exact .restore (.nil c) h

theorem loads_readBits (c : Reader) (t : Tape) (count : Nat) :
    Loads t c (c.readBits t count).2 := by
  have h := c.loads_readBitList t (min count 64)
  rw [readBits]
  generalize c.readBitList t (min count 64) = r at h
  obtain ⟨r, c'⟩ := r
  cases r with
  | ok bits | error e => exact h

theorem loads_readByte (c : Reader) (t : Tape) : Loads t c (c.readByte t).2 := by
  rw [readByte]
  by_cases hwhole : (c.aligned && !c.stopsWithin t) = true
  · rw [if_pos hwhole]
    cases hf : c.fetch t with
    | error e => exact .nil c
    | ok r => exact (Loads.nil c).load hf
  · rw [if_neg hwhole]
    have h := c.loads_readBitList t 8
    generalize c.readBitList t 8 = r at h
    obtain ⟨r, c'⟩ := r
    cases r with
    | ok bits | error e => exact h

theorem loads_resume (t : Tape) (c : Reader) (p : PartialValue) :
    Loads t c (resume t c p).2.1 := by
  fun_induction resume t c p with
  | case1 c p e c₁ hb | case2 c p b c₁ hb e p₁ hf | case3 c p b c₁ hb w p₁ hf =>
    have h := c.loads_readByte t
    rwa [hb] at h
  | case4 c p b c₁ hb p₁ hf _ ih =>
    have h := c.loads_readByte t
    rw [hb] at h
    exact h.trans ih

theorem loads_readValue {kind : IntKind} {w : UInt64} (h : c.readValue t kind = .ok (w, c')) :
    Loads t c c' := by
  have hresume := loads_resume t c (.start kind)
  rw [readValue] at h
  generalize resume t c (.start kind) = r at h hresume
  obtain ⟨r, c₁, p⟩ := r
  cases r with
  | ok w' =>
    cases h
    exact hresume
  | error e => cases h

theorem loads_readNode {node : Node} {w : UInt64} (h : c.readNode t node = .ok (w, c')) :
    Loads t c c' := by
  rw [readNode] at h
  cases hkind : node.valueKind? with
  | none =>
    rw [hkind] at h
    cases h
  | some kind =>
    rw [hkind] at h
    exact loads_readValue h

theorem loads_readSize {size : Nat} (h : c.readSize t = .ok (size, c')) : Loads t c c' := by
  rw [readSize] at h
  cases hvalue : c.readValue t .varuint32 with
  | error e =>
    rw [hvalue] at h
    cases h
  | ok r =>
    rw [hvalue] at h
    cases h
    exact loads_readValue hvalue

theorem loads_enterSized {size : Nat} {e : Extent} (h : c.enterSized t size = .ok (e, c')) :
    Loads t c c' := by
  simp only [enterSized, pushBound] at h
  by_cases hle : Position.ofByte (min (c.address + size) (UInt64.size - 1)) ≤ c.stop t
  · rw [if_pos hle] at h
    cases h
    exact (Loads.nil c).bound _
  · rw [if_neg hle] at h
    cases h

theorem loads_enter {e : Extent} (h : c.enter t = .ok (e, c')) : Loads t c c' := by
  simp only [enter, bind, Except.bind] at h
  cases hsize : c.readSize t with
  | error e =>
    rw [hsize] at h
    cases h
  | ok r =>
    rw [hsize] at h
    exact (loads_readSize hsize).trans (loads_enterSized h)

theorem loads_leave {e : Extent} (h : c.leave t e = .ok c') : Loads t c c' := by
  rw [leave] at h
  by_cases hp : c.position = e.stop
  · rw [if_pos hp, popBound] at h
    cases hbounds : c.bounds with
    | nil =>
      rw [hbounds] at h
      cases h
    | cons p outer =>
      rw [hbounds] at h
      cases h
      exact (Loads.nil c).bound outer
  · rw [if_neg hp] at h
    cases h

/-! ## Caches -/

theorem Kept.page_onLoad (h : c.Kept t) : (c.onLoad t).page = some (t.pageOf c.address) := by
  unfold onLoad
  by_cases hf : c.fast t = true
  · rw [if_pos hf]
    exact eq_of_beq (h.holds_of_fast hf)
  · rw [if_neg hf]
    rfl

theorem Trusted.onLoad (h : c.Trusted t)
    (hr : t.firstPage ≤ t.pageOf c.address ∧ t.pageOf c.address < t.endPage) :
    (c.onLoad t).Trusted t := by
  unfold Cursor.onLoad
  by_cases hf : c.fast t = true
  · rw [if_pos hf]
    exact h
  · rw [if_neg hf]
    refine trusted_refresh fun p hp => ?_
    cases hp
    exact hr

/-- A byte is taken, unless one of the tests forbids it. -/
theorem Kept.fetch_eq (h : c.Kept t) : c.fetch t =
    (if c.fast t then .ok () else c.checkFetch t).map fun _ =>
      (t.byteAt c.address, { c.onLoad t with address := c.address + 1 }) := by
  have hload : (c.onLoad t).load t =
      .ok (t.byteAt c.address, { c.onLoad t with address := c.address + 1 }) := by
    have hh : (c.onLoad t).holds t (c.onLoad t).address = true := by
      rw [holds, h.page_onLoad, address_onLoad, beq_self_eq_true]
    rw [load, if_pos hh, address_onLoad]
  rw [fetch]
  by_cases hf : c.fast t = true
  · rw [onLoad, if_pos hf] at hload
    rw [if_pos hf, if_pos hf, onLoad, if_pos hf, hload]
    rfl
  · rw [onLoad, if_neg hf] at hload
    rw [if_neg hf, if_neg hf, onLoad, if_neg hf, fetchSlow, hload]
    cases c.checkFetch t with
    | ok u | error e => rfl

/-- A byte that is not taken is refused by the tests. -/
theorem Kept.checkFetch_of_error {e : StreamError} (h : c.Kept t) (hf : c.fetch t = .error e) :
    c.checkFetch t = .error e := by
  rw [h.fetch_eq] at hf
  by_cases hfast : c.fast t = true
  · rw [if_pos hfast] at hf
    cases hf
  · rw [if_neg hfast] at hf
    cases hc : c.checkFetch t with
    | ok u =>
      rw [hc] at hf
      cases hf
    | error e' =>
      rw [hc] at hf
      cases hf
      rfl

/-- A byte that may be taken is on a resident page. -/
theorem Kept.resident_of_fetch {b : UInt8} (h : c.Kept t) (hf : c.fetch t = .ok (b, c')) :
    t.firstPage ≤ t.pageOf c.address ∧ t.pageOf c.address < t.endPage := by
  rcases (of_fetch_ok hf).2 with ⟨-, hh⟩ | hc
  · exact h.page _ (eq_of_beq hh)
  · rw [checkFetch] at hc
    by_cases hb : t.broken = true
    · rw [if_pos hb] at hc
      cases hc
    rw [if_neg hb] at hc
    simp only [bind, Except.bind] at hc
    cases hbyte : c.checkByte t with
    | error e =>
      rw [hbyte] at hc
      cases hc
    | ok u =>
      cases hread : t.checkReadable c.address with
      | error e =>
        rw [hbyte, hread] at hc
        cases hc
      | ok u' =>
        rw [hbyte, hread] at hc
        by_cases hpage : (c.holds t c.address || t.resident (t.pageOf c.address)) = true
        · rcases Bool.or_eq_true_iff.1 hpage with hh | hr
          · exact h.page _ (eq_of_beq hh)
          · simpa [Tape.resident] using hr
        · simp only at hc
          rw [if_neg hpage] at hc
          cases hc

end Cursor

theorem Loads.regular {t : Tape} {c c' : Reader} (h : Loads t c c') (hr : c.Regular t) :
    c'.Regular t := by
  induction h with
  | nil => exact hr
  | bits _ _ hb _ ih =>
    have hr' := ih hr
    exact ⟨⟨hr'.page, hr'.span⟩, hr'.inside, hb hr'.tidy⟩
  | @load c c' c'' b _ hf ih =>
    have hr' : c'.Regular t := ih hr
    have hpage : (c'.onLoad t).Regular t := by
      have hresident := hr'.toKept.resident_of_fetch hf
      unfold Cursor.onLoad
      by_cases hfast : c'.fast t = true
      · rw [if_pos hfast]
        exact hr'
      · rw [if_neg hfast]
        refine Cursor.regular_refresh (fun p hp => ?_) ⟨hr'.tidy.short, hr'.tidy.whole⟩
        cases hp
        exact hresident
    obtain ⟨rfl, -⟩ := Cursor.of_fetch_ok hf
    have hnext := hpage.toKept.next (c'.onLoad t).bits
    rw [Cursor.address_onLoad] at hnext
    exact ⟨hnext, hpage.inside, ⟨hpage.tidy.short, hpage.tidy.whole⟩⟩
  | restore _ h ih₀ ih =>
    have hr₀ := ih₀ hr
    exact (ih hr₀).restore hr₀.tidy h.grain
  | bound _ bounds ih =>
    have hr' := ih hr
    exact Cursor.regular_refresh hr'.page ⟨hr'.tidy.short, hr'.tidy.whole⟩

theorem Loads.placed {t : Tape} {c c' : Reader} (h : Loads t c c') (hc : c.Placed) :
    c'.Placed := by
  induction h with
  | nil => exact hc
  | bits _ _ _ hp ih => exact hp (ih hc)
  | @load c c' c'' b _ hf ih =>
    obtain ⟨rfl, -⟩ := Cursor.of_fetch_ok hf
    have hplaced : (c'.onLoad t).bits.length ≤ 8 * c'.address := by
      rw [Cursor.bits_onLoad]
      exact ih hc
    show (c'.onLoad t).bits.length ≤ 8 * (c'.address + 1)
    omega
  | restore _ _ ih₀ _ => exact ih₀ hc
  | bound _ _ ih => exact ih hc

end Transcoder

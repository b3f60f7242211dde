import Transcoder.Proofs.Cursor.Actions

/-!
# Writers that cannot pass the end of their stream

Where the end of a stream is fixed, three tests stand between a writer and the bytes behind it: the
cached span, the end of the innermost block, and the end of the stream when a page is looked up.
Each is left out where another seems to do: within the span nothing is tested, and on the page that
it holds a writer is only kept from going beyond its block. `Tight` says that this lets nothing
through.

Results:
* `Stores.tight`: a tight writer stays tight whatever it stores, and stores nothing behind the end.
* `Tight.moved`: it stays tight wherever it is moved and whatever blocks it enters and leaves.
-/
namespace Transcoder

namespace Cursor

variable {role : Role}

/-- One past the last byte that a cursor can get at inside a block that ends at `p`: a bit cursor
also gets at the byte that the end falls into. -/
def limit (c : Cursor role) (p : Position) : Nat :=
  match c.grain with
  | .byte => p.byte
  | .bit => p.ceilByte

theorem checkByte_eq_ok {c : Cursor role} {t : Tape} :
    c.checkByte t = .ok () ↔ c.address < c.limit (c.stop t) := by
  unfold checkByte limit stopsWithin Position.ceilByte Position.byte Position.bit
  generalize (c.stop t).bits = n
  cases c.grain with
  | byte => simp
  | bit =>
    simp
    omega

theorem byte_le_limit (c : Cursor role) (p : Position) : p.byte ≤ c.limit p := by
  unfold limit Position.ceilByte Position.byte
  cases c.grain with
  | byte => exact Nat.le_refl _
  | bit =>
    simp only
    omega

theorem limit_le_byte_succ (c : Cursor role) (p : Position) : c.limit p ≤ p.byte + 1 := by
  unfold limit Position.ceilByte Position.byte
  cases c.grain with
  | byte => exact Nat.le_succ _
  | bit =>
    simp only
    omega

theorem limit_mono (c : Cursor role) {p q : Position} (h : p ≤ q) : c.limit p ≤ c.limit q := by
  have h : p.bits ≤ q.bits := h
  unfold limit Position.ceilByte Position.byte
  cases c.grain with
  | byte => exact Nat.div_le_div_right h
  | bit => exact Nat.div_le_div_right (Nat.add_le_add_right h 7)

theorem limit_ofByte (c : Cursor role) (e : Nat) : c.limit (.ofByte e) = e := by
  unfold limit Position.ceilByte Position.byte Position.ofByte
  cases c.grain with
  | byte | bit =>
    simp only
    omega

/-- No block of the writer lets it past `e`: each ends before, or lets the writer behind `e` only on
pages that it does not get. -/
def Fenced (w : Writer) (t : Tape) (e : Nat) : Prop :=
  ∀ p ∈ w.bounds, e < w.limit p →
    t.pageSize ∣ e ∧ ∀ page ∈ w.page, t.pageStart page < e ∨ w.limit p ≤ t.pageStart page

/-- The writer stores nothing at `e` or behind it, now and after any moves. -/
structure Tight (w : Writer) (t : Tape) (e : Nat) : Prop where
  fenced : w.Fenced t e
  span : w.address < w.span → w.span ≤ e

section

variable {w : Writer} {t t' : Tape} {e : Nat}

theorem Fenced.of_pageSize (h : w.Fenced t e) (hp : t'.pageSize = t.pageSize) : w.Fenced t' e := by
  unfold Fenced Tape.pageStart at h ⊢
  rwa [hp]

theorem Tight.of_pageSize (h : w.Tight t e) (hp : t'.pageSize = t.pageSize) : w.Tight t' e :=
  ⟨h.fenced.of_pageSize hp, h.span⟩

/-- A page that begins before a page boundary ends there. -/
theorem pageEnd_le {page : Nat} (hd : t.pageSize ∣ e) (h : t.pageStart page < e) :
    t.pageEnd page ≤ e := by
  obtain ⟨k, rfl⟩ := hd
  unfold Tape.pageStart at h
  rw [Tape.pageEnd, Nat.mul_comm t.pageSize k] at *
  exact Nat.mul_le_mul_right _ (Nat.lt_of_mul_lt_mul_right h)

/-- The span is right when it is set anew. -/
theorem Fenced.refresh (h : w.Fenced t e) (he : t.eof = some e) : (w.refresh t).Tight t e := by
  refine ⟨h, fun hspan => ?_⟩
  refine Nat.le_of_not_lt fun hlt => ?_
  have hlt : max w.address e < (w.refresh t).span := by
    have : w.address < (w.refresh t).span := hspan
    omega
  obtain ⟨page, hpage, hstart, hend, hstop, -⟩ := of_lt_span_refresh hlt
  have hmem : page ∈ w.page := hpage
  cases hb : w.bounds with
  | nil =>
    rw [stop, hb, List.headD_nil, Tape.endPosition, he] at hstop
    simp only [Position.byte_ofByte] at hstop
    omega
  | cons p outer =>
    rw [stop, hb, List.headD_cons] at hstop
    have hlimit := w.byte_le_limit p
    obtain ⟨hd, hpages⟩ := h p (hb ▸ List.mem_cons_self) (by omega)
    rcases hpages page hmem with hbefore | hbehind
    · have := pageEnd_le hd hbefore
      omega
    · omega

/-- A byte that may be stored is before the end. -/
theorem Tight.lt (h : w.Tight t e) (he : t.eof = some e) (hc : w.checkStore t = .ok ()) :
    w.address < e := by
  rcases checkStore_eq_ok.1 hc with hf | ⟨hb, hcheck, hpage⟩
  · simp only [fast, Bool.and_eq_true, decide_eq_true_eq] at hf
    exact Nat.lt_of_lt_of_le hf.1.1 (h.span hf.1.1)
  · rcases hpage with hh | hw
    · have hlt := checkByte_eq_ok.1 hcheck
      have hmem : t.pageOf w.address ∈ w.page := eq_of_beq hh
      cases hbounds : w.bounds with
      | nil =>
        rw [stop, hbounds, List.headD_nil, Tape.endPosition, he] at hlt
        simp only [limit_ofByte] at hlt
        exact hlt
      | cons p outer =>
        rw [stop, hbounds, List.headD_cons] at hlt
        refine Nat.lt_of_not_le fun hle => ?_
        obtain ⟨hd, hpages⟩ := h.fenced p (hbounds ▸ List.mem_cons_self) (by omega)
        have hstart := t.pageStart_le w.address
        rcases hpages _ hmem with hbefore | hbehind
        · have := pageEnd_le hd hbefore
          have := t.lt_pageEnd w.address
          omega
        · omega
    · refine Nat.lt_of_not_le fun hle => ?_
      rw [Tape.checkWritable, hb, if_neg Bool.false_ne_true, he, Option.filter_some] at hw
      simp only [hle, decide_true, if_true] at hw
      cases hw

/-- A tight writer stays tight when it stores a byte. -/
theorem Tight.stored (h : w.Tight t e) (he : t.eof = some e)
    (hc : w.checkStore t = .ok ()) :
    Tight { w.onPage t with address := w.address + 1 } (w.paged t) e := by
  have hlt := h.lt he hc
  have hg := w.paged_grows t
  have hfenced := h.fenced.of_pageSize hg.pageSize
  have hpage : (w.onPage t).Tight (w.paged t) e := by
    unfold onPage
    by_cases hf : w.fast t = true
    · rw [if_pos hf]
      exact ⟨hfenced, h.span⟩
    · rw [if_neg hf]
      -- the page of the byte begins before the end
      refine Fenced.refresh (fun p hp hle => ?_) (hg.eof.trans he)
      refine ⟨(hfenced p hp hle).1, fun page hpage => .inl ?_⟩
      obtain rfl : t.pageOf w.address = page := by simpa using hpage
      rw [← hg.pageOf]
      exact Nat.lt_of_le_of_lt ((w.paged t).pageStart_le w.address) hlt
  refine ⟨hpage.fenced, fun hspan => hpage.span ?_⟩
  rw [address_onPage]
  exact Nat.lt_of_succ_lt hspan

end

end Cursor

/-! ## What is behind the end -/

/-- The stream has not come to go on behind `e`, and the bytes there are as they were. -/
structure Spared (e : Nat) (t t' : Tape) : Prop where
  fill : t'.fill ≤ max t.fill e
  bytes : ∀ a, e ≤ a → t'.byteAt a = t.byteAt a

namespace Spared

variable {e : Nat} {t t' t'' : Tape}

theorem refl (e : Nat) (t : Tape) : Spared e t t := ⟨Nat.le_max_left .., fun _ _ => rfl⟩

theorem trans (h : Spared e t t') (k : Spared e t' t'') : Spared e t t'' := by
  refine ⟨?_, fun a ha => (k.bytes a ha).trans (h.bytes a ha)⟩
  have := h.fill
  have := k.fill
  omega

end Spared

/-- A byte before `e` changes nothing behind it. -/
theorem Cursor.spared_store {w : Writer} {t : Tape} {e : Nat} (h : w.address < e) (b : UInt8) :
    Spared e t (((w.paged t).put w.address b).noteWritten (w.address + 1)) := by
  refine ⟨?_, fun a ha => ?_⟩
  · simp only [Tape.noteWritten, Tape.fill_put, Cursor.fill_paged]
    omega
  · rw [Tape.byteAt_noteWritten, Tape.byteAt_put_of_ne (by omega), Cursor.byteAt_paged]

/-- Whatever a tight writer stores is before the end. -/
theorem Stores.tight {s s' : Tape × Writer} {e : Nat} (h : Stores s s') (hk : s.2.Kept s.1)
    (he : s.1.eof = some e) (ht : s.2.Tight s.1 e) :
    s'.2.Tight s'.1 e ∧ Spared e s.1 s'.1 ∧ s'.2.address ≤ max s.2.address e := by
  induction h with
  | nil => exact ⟨ht, .refl e _, Nat.le_max_left ..⟩
  | bits _ _ _ ih =>
    obtain ⟨ht', hspared, ha⟩ := ih hk he ht
    exact ⟨⟨ht'.fenced, ht'.span⟩, hspared, ha⟩
  | @store _ t w h hc b ih =>
    obtain ⟨ht', hspared, -⟩ := ih hk he ht
    obtain ⟨hk', hg⟩ := h.keeps hk
    have heof : t.eof = some e := hg.eof.trans he
    have hlt := ht'.lt heof hc
    have hsize := (hk'.stored_grows hc b).pageSize.trans (w.paged_grows t).pageSize.symm
    refine ⟨(ht'.stored heof hc).of_pageSize hsize, hspared.trans (Cursor.spared_store hlt b), ?_⟩
    exact Nat.le_trans hlt (Nat.le_max_right ..)
  | @restore _ _ t w₀ w h₀ h ih₀ ih =>
    obtain ⟨ht₀, hspared₀, ha₀⟩ := ih₀ hk he ht
    obtain ⟨hk₀, hg₀⟩ := h₀.keeps hk
    obtain ⟨ht', hspared, -⟩ := ih hk₀ (hg₀.eof.trans he) ht₀
    have heof : t.eof = some e := ((hg₀.trans (h.keeps hk₀).2).eof).trans he
    have hfenced : Cursor.Fenced { w with address := w₀.address, bits := w₀.bits } t e := ht'.fenced
    exact ⟨hfenced.refresh heof, hspared₀.trans hspared, ha₀⟩
  | reset h₀ h ih₀ ih =>
    obtain ⟨ht₀, hspared₀, ha₀⟩ := ih₀ hk he ht
    obtain ⟨hk₀, hg₀⟩ := h₀.keeps hk
    have hspared := (ih hk₀ (hg₀.eof.trans he) ht₀).2.1
    exact ⟨ht₀.of_pageSize (h.keeps hk₀).2.pageSize, hspared₀.trans hspared, ha₀⟩
  | @cut _ t₀ t _ _ h₀ h ih₀ ih =>
    obtain ⟨ht₀, hspared₀, ha₀⟩ := ih₀ hk he ht
    obtain ⟨hk₀, hg₀⟩ := h₀.keeps hk
    obtain ⟨ht', hspared, ha⟩ := ih hk₀ (hg₀.eof.trans he) ht₀
    have hcut : Spared e t { t with fill := min t.fill t₀.fill } :=
      ⟨Nat.le_trans (Nat.min_le_left ..) (Nat.le_max_left ..), fun _ _ => rfl⟩
    refine ⟨⟨ht'.fenced, ht'.span⟩, (hspared₀.trans hspared).trans hcut, ?_⟩
    simp only at ha₀ ha ⊢
    omega

/-! ## Moves -/

namespace Cursor

/-- What a cursor becomes when it is moved, enters or leaves a block, or has its caches set anew. -/
inductive Moves (t : Tape) (c : Cursor role) : Cursor role → Prop
  | push {p : Position} (h : p ≤ c.stop t) :
    Moves t c (({ c with bounds := p :: c.bounds } : Cursor role).refresh t)
  | pop {p : Position} {outer : List Position} (h : c.bounds = p :: outer) :
    Moves t c (({ c with bounds := outer } : Cursor role).refresh t)
  | seek (address : Nat) : Moves t c (c.seek t address)
  | close : Moves t c c.close
  | refresh : Moves t c (c.refresh t)

theorem Regular.moved {c c' : Cursor role} {t : Tape} (h : c.Regular t) (hm : Moves t c c') :
    c'.Regular t := by
  have htidy (bounds : List Position) : ({ c with bounds } : Cursor role).Tidy :=
    ⟨h.tidy.short, h.tidy.whole⟩
  cases hm with
  | push _ => exact regular_refresh h.page (htidy _)
  | pop _ => exact regular_refresh h.page (htidy _)
  | seek address =>
    refine regular_refresh (fun p hp => ?_) (tidy_nil rfl)
    simp only at hp
    split at hp
    · exact h.page p hp
    · cases hp
  | close =>
    refine ⟨⟨fun p hp => ?_, fun a _ ha => ?_⟩, fun _ _ => Nat.zero_le _, ?_⟩
    · cases hp
    · exact absurd ha (Nat.not_lt_zero a)
    · exact ⟨h.tidy.short, h.tidy.whole⟩
  | refresh => exact regular_refresh h.page h.tidy

section

variable {w w' : Writer} {t : Tape} {e : Nat}

/-- A tight writer stays tight wherever it is moved. -/
theorem Tight.moved (h : w.Tight t e) (he : t.eof = some e) (hm : Moves t w w') : w'.Tight t e := by
  cases hm with
  | @push p hp =>
    -- the new block ends in the one around it, or before the end
    refine Fenced.refresh (fun q hq hlt => ?_) he
    rcases List.mem_cons.1 hq with rfl | hq
    · cases hb : w.bounds with
      | nil =>
        rw [stop, hb, List.headD_nil, Tape.endPosition, he] at hp
        have hle := w.limit_mono hp
        rw [limit_ofByte] at hle
        exact absurd hlt (Nat.not_lt.2 hle)
      | cons p outer =>
        rw [stop, hb, List.headD_cons] at hp
        have hle := w.limit_mono hp
        obtain ⟨hd, hpages⟩ := h.fenced p (hb ▸ List.mem_cons_self) (Nat.lt_of_lt_of_le hlt hle)
        refine ⟨hd, fun page hpage => ?_⟩
        exact (hpages page hpage).imp_right (Nat.le_trans hle)
    · exact h.fenced q hq hlt
  | pop hb =>
    refine Fenced.refresh (fun q hq hlt => ?_) he
    exact h.fenced q (hb ▸ List.mem_cons_of_mem _ hq) hlt
  | seek address =>
    refine Fenced.refresh (fun q hq hlt => ?_) he
    obtain ⟨hd, hpages⟩ := h.fenced q hq hlt
    refine ⟨hd, fun page hpage => ?_⟩
    simp only at hpage
    split at hpage
    · exact hpages page hpage
    · cases hpage
  | close =>
    refine ⟨fun q hq hlt => ?_, fun ha => absurd ha (Nat.not_lt_zero _)⟩
    exact ⟨(h.fenced q hq hlt).1, fun page hpage => by cases hpage⟩
  | refresh => exact h.fenced.refresh he

end

end Cursor

end Transcoder

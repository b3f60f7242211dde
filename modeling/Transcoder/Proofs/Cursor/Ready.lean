import Transcoder.Proofs.Cursor.Guards
import Transcoder.Proofs.Tape.Backed

/-!
# Cursors that are ready

An access is refused as on a broken tape for two reasons: the tape is broken, or the page that it
needs was given up. Where the tape is whole and its stream ends on a page that is there, or on the
next one, a cursor on such a page meets neither. It may still be refused, for want of room or of
input, or as a size is too large.

Results:
* `Stores.retains`: writes give no page up, and make one for every byte.
* `Loads.ready`, `Stores.ready`: ready cursors stay ready.
* `guard_ready`: they meet no broken tape.
* `Regular.ready_of_bytes`: where bytes have got through, a writer is ready to write them again.
-/
namespace Transcoder

/-- The error of an access to a broken tape, or to a page that was given up. -/
inductive StreamError.Broken : StreamError → Prop
  | brokenCursor (a : Nat) : Broken (.brokenCursor a)

/-! ## Tapes -/

namespace Tape

variable {t : Tape} {a : Nat}

theorem Firm.not_broken_of_checkWritable (h : t.Firm) (hs : t.start ≤ a) {e : StreamError}
    (he : t.checkWritable a = .error e) : ¬e.Broken := by
  rw [checkWritable, h.whole, if_neg Bool.false_ne_true] at he
  split at he
  · cases he
    rintro ⟨⟩
  · rw [if_neg (Nat.not_lt.2 (firstPage_le_pageOf.2 hs))] at he
    cases he

theorem Firm.not_broken_of_checkReadable (h : t.Firm) {e : StreamError}
    (he : t.checkReadable a = .error e) : ¬e.Broken := by
  rw [checkReadable, h.whole, if_neg Bool.false_ne_true] at he
  split at he
  · cases he
  · split at he
    all_goals
      cases he
      rintro ⟨⟩

end Tape

/-! ## Writes -/

theorem Stores.backed {s s' : Tape × Writer} (h : Stores s s') (hk : s.2.Kept s.1)
    (hb : s.1.Backed) : s'.1.Backed := by
  induction h with
  | nil => exact hb
  | bits _ _ _ ih => exact ih hk hb
  | @store _ t w h hc b ih =>
    have hk' := (h.keeps hk).1
    obtain ⟨hs, hr⟩ := hk'.resident hc
    rw [← (w.paged_grows t).start] at hs
    have hmade := (Tape.store_grows hs b).pages_le
    simp only [Tape.resident, Bool.and_eq_true, decide_eq_true_eq] at hr
    show max ((w.paged t).put w.address b).fill (w.address + 1) ≤ _
    rw [Tape.fill_put, Cursor.fill_paged]
    refine Nat.max_le.2 ⟨?_, ?_⟩
    · exact Nat.le_trans (ih hk hb) (hk'.stored_grows hc b).pages_le
    · exact Nat.le_trans (Tape.pageOf_lt.1 hr.2) hmade
  | restore h₀ _ ih₀ ih | reset h₀ _ ih₀ ih => exact ih (h₀.keeps hk).1 (ih₀ hk hb)
  | cut h₀ _ ih₀ ih =>
    exact Nat.le_trans (Nat.min_le_left ..) (ih (h₀.keeps hk).1 (ih₀ hk hb))

/-- Writes give no page up, and make one for every byte. -/
theorem Stores.retains {s s' : Tape × Writer} (h : Stores s s') (hk : s.2.Kept s.1) :
    s.1.Retains s'.1 :=
  have hg := (h.keeps hk).2
  ⟨hg.start, hg.broken, fun hle => Nat.le_trans hle h.fill_le, h.backed hk⟩

/-! ## Cursors -/

theorem StreamError.not_broken_of_ofPage {e : StreamError} (h : e.ofPage = false) : ¬e.Broken := by
  rintro ⟨⟩
  cases h

/-- The cursor stands on a page that is there or behind them all, on a tape that holds out. -/
structure Cursor.Ready {role : Role} (c : Cursor role) (t : Tape) : Prop extends c.Regular t where
  firm : t.Firm
  start_le : t.start ≤ c.address

theorem Stores.ready {t t' : Tape} {w w' : Writer} (h : Stores (t, w) (t', w')) (hw : w.Ready t) :
    w'.Ready t' := by
  refine ⟨h.regular hw.toRegular, hw.firm.retains (h.retains hw.toKept), ?_⟩
  rw [(h.keeps hw.toKept).2.start]
  exact Nat.le_trans hw.start_le h.ahead.1

/-- A reader never ends before where it began. -/
theorem Loads.address_le {t : Tape} {c c' : Reader} (h : Loads t c c') :
    c.address ≤ c'.address := by
  induction h with
  | nil => exact Nat.le_refl _
  | bits _ _ _ _ ih => exact ih
  | load _ hf ih =>
    obtain ⟨rfl, -⟩ := Cursor.of_fetch_ok hf
    exact Nat.le_succ_of_le ih
  | restore _ _ ih₀ _ => exact ih₀
  | bound _ _ ih => exact ih

theorem Loads.ready {t : Tape} {c c' : Reader} (h : Loads t c c') (hc : c.Ready t) : c'.Ready t :=
  ⟨h.regular hc.toRegular, hc.firm, Nat.le_trans hc.start_le h.address_le⟩

namespace Cursor

variable {t t' : Tape} {e : StreamError}

theorem Ready.beside {c : Reader} {w w' : Writer} (h : c.Ready t) (hw : w.Ready t)
    (hs : Stores (t, w) (t', w')) : c.Ready t' := by
  have hg := (hs.keeps hw.toKept).2
  refine ⟨h.toRegular.grows hg, h.firm.retains (hs.retains hw.toKept), ?_⟩
  rw [hg.start]
  exact h.start_le

theorem Ready.not_broken_of_checkFetch {c : Reader} (h : c.Ready t)
    (hc : c.checkFetch t = .error e) : ¬e.Broken := by
  have ht := h.firm
  rw [checkFetch, ht.whole, if_neg Bool.false_ne_true] at hc
  simp only [bind, Except.bind] at hc
  split at hc
  · cases hc
    exact StreamError.not_broken_of_ofPage (not_ofPage_of_checkByte ‹_›)
  · split at hc
    · cases hc
      exact ht.not_broken_of_checkReadable ‹_›
    · rename_i hread
      have hlt : c.address < t.fill := by
        refine Decidable.byContradiction fun hge => ?_
        rw [Tape.checkReadable, ht.whole, if_neg Bool.false_ne_true, if_neg hge] at hread
        split at hread <;> cases hread
      rw [ht.backed.resident h.start_le hlt, Bool.or_true, if_pos rfl] at hc
      cases hc

theorem Ready.not_broken_of_checkStore {w : Writer} (h : w.Ready t)
    (hc : w.checkStore t = .error e) : ¬e.Broken := by
  rw [checkStore, h.firm.whole, if_neg Bool.false_ne_true] at hc
  split at hc
  · cases hc
  · cases hcheck : w.checkByte t with
    | error e' =>
      rw [hcheck] at hc
      cases hc
      exact StreamError.not_broken_of_ofPage (not_ofPage_of_checkByte hcheck)
    | ok u =>
      rw [hcheck] at hc
      simp only [bind, Except.bind] at hc
      split at hc
      · cases hc
      · exact h.firm.not_broken_of_checkWritable h.start_le hc

theorem Ready.not_broken_of_truncate {w : Writer} {address : Nat} (h : w.Ready t)
    (ha : address = t.fill ∨ address = w.address) (hr : t.truncate address = .error e) :
    ¬e.Broken := by
  have hle : t.start ≤ address := by
    rcases ha with rfl | rfl
    · exact h.firm.start_le
    · exact h.start_le
  rw [Tape.truncate, if_neg (Nat.not_lt.2 hle)] at hr
  cases hr

/-- Ready cursors meet no broken tape. -/
theorem guard_ready : Guard Ready StreamError.Broken where
  ofPage := by
    rintro e ⟨⟩
    rfl
  kept h := h.toKept
  stores h hs := hs.ready h
  loads h hl := hl.ready h
  beside hw hc hs := hc.beside hw hs
  ahead h ha := ⟨regular_fresh _ _ _ _, h.firm, Nat.le_trans h.start_le ha⟩
  fetch h hf := h.not_broken_of_checkFetch (h.toKept.checkFetch_of_error hf)
  store h hc := h.not_broken_of_checkStore hc
  cut h ha hr := h.not_broken_of_truncate ha hr

end Cursor

/-! ## Beginning a block -/

namespace Cursor

variable {t t' : Tape} {w w' : Writer}

theorem whole_of_checkStore (h : w.checkStore t = .ok ()) : t.broken = false := by
  rcases checkStore_eq_ok.1 h with hfast | ⟨hb, -⟩
  · simp only [fast, Bool.and_eq_true, Bool.not_eq_true'] at hfast
    exact hfast.1.2
  · exact hb

/-- Where bytes have got through, the tape holds out, and a writer left behind before them is ready
to write them again. -/
theorem Regular.ready_of_bytes {bytes : List UInt8} (h : w.Regular t) (hb : t.Backed)
    (hne : bytes ≠ []) (hr : bytes.forM writeByte (t, w) = .ok () (t', w')) :
    w.Ready t' ∧ w.address < t'.fill := by
  have hlike := resembles_forM resembles_writeByte bytes (t, w)
  have hreaches := reaches_bytes bytes h.toKept
  obtain ⟨b, rest, rfl⟩ := List.exists_cons_of_ne_nil hne
  rw [hr] at hlike
  generalize (b :: rest).forM bareByte (t, w) = r at hlike hreaches
  cases hlike
  cases hreaches with
  | @ok out _ _ hlaid =>
    have hg := (hlaid.stores.keeps h.toKept).2
    have hout : out ≠ [] := by
      -- a byte that got through does not fit into the byte at hand
      rintro rfl
      have hshort := (hlaid.stores.regular h).tidy.short
      have hbits := congrArg List.length hlaid.bits
      rw [Bits.ofBytes_cons, Bits.ofBytes_nil, List.nil_append, List.length_append,
        List.length_append, Bits.length_ofByte] at hbits
      simp only at hshort
      omega
    have hfill : w.address < t'.fill := by
      have hlength := List.length_pos_iff.2 hout
      have haddress := hlaid.address
      rw [hlaid.fill, if_neg hout]
      omega
    have hwhole : t.broken = false := by
      have hr : (writeByte b >>= fun _ => rest.forM writeByte) (t, w) = .ok () (t', w') := hr
      obtain ⟨⟨⟩, s, hfirst, -⟩ := of_bind_ok hr
      exact whole_of_checkStore ((h.toKept.writeByte_iff h.tidy b).1 ⟨s, hfirst⟩).1
    have hstart : t'.start ≤ w.address := hg.start.symm ▸ hlaid.start_le hout
    refine ⟨⟨h.grows hg, ⟨hg.broken.trans hwhole, ?_, ?_⟩, hstart⟩, hfill⟩
    · exact Nat.le_trans hstart (Nat.le_of_lt hfill)
    · exact hlaid.stores.backed h.toKept hb

theorem Regular.ready_of_writePaddedSize {size reserved : Nat} (h : w.Regular t) (hb : t.Backed)
    (hr : writePaddedSize size reserved (t, w) = .ok () (t', w')) :
    w.Ready t' ∧ w.address < t'.fill := by
  have hne : Leb128.padded reserved size ≠ [] := by
    refine List.ne_nil_of_length_pos ?_
    rw [Leb128.length_padded]
    exact Nat.le_max_right ..
  rw [writePaddedSize] at hr
  split at hr
  · cases hr
  · rw [Leb128.emitPadded_eq, Writing.mapError] at hr
    split at hr
    · cases hr
      exact h.ready_of_bytes hb hne ‹_›
    · cases hr

end Cursor

end Transcoder

import Transcoder.Proofs.Cursor.Storing
import Transcoder.Proofs.Cursor.Writing

/-!
# Every write is a series of stores

`Stores` lists what a write can do to a tape and its writer: take bits up, store a byte, and, where
it is refused half-way, go back and drop what it has added. What holds of all writes is proved from
the list, once, and not from the writes.

Results:
* `Stores.regular`, `Stores.keeps`: the caches stay right, and the tape only grows.
* `Stores.fill_le`, `Stores.ahead`: no byte is lost, and none before the writer is changed.
* `putsWhole_writeByte` and others: each write is such a series. Bits, a byte or a value come to the
  stream as a whole or not at all (`Writing.PutsWhole`), bytes and sizes as far as they are not
  refused (`Writing.Puts`).
-/
namespace Transcoder

/-! ## Bytes that stay -/

namespace Tape

theorem byteAt_grow (t : Tape) (page a : Nat) : (t.grow page).byteAt a = t.byteAt a := by
  have hstart : (t.grow page).start = t.start := rfl
  unfold byteAt byte?
  rw [hstart]
  by_cases hs : t.start ≤ a
  · rw [if_pos hs, if_pos hs]
    simp only [grow, Array.getElem?_append, Array.getElem?_replicate]
    by_cases hlt : a - t.start < t.cells.size
    · rw [if_pos hlt]
    · -- a cell that is new holds a zero, as a cell that is missing reads
      rw [if_neg hlt, Array.getElem?_eq_none (Nat.le_of_not_lt hlt)]
      split <;> rfl
  · rw [if_neg hs, if_neg hs]

theorem byteAt_put_of_ne {t : Tape} {a a' : Nat} (hne : a' ≠ a) (b : UInt8) :
    (t.put a b).byteAt a' = t.byteAt a' := by
  unfold byteAt byte? put
  by_cases hs : t.start ≤ a
  · rw [if_pos hs]
    have hstart : start { t with cells := t.cells.setIfInBounds (a - t.start) b } = t.start := rfl
    rw [hstart]
    by_cases hs' : t.start ≤ a'
    · rw [if_pos hs', if_pos hs', Array.getElem?_setIfInBounds_ne (by omega)]
    · rw [if_neg hs', if_neg hs']
  · rw [if_neg hs]

theorem byteAt_noteWritten (t : Tape) (stop a : Nat) :
    (t.noteWritten stop).byteAt a = t.byteAt a := rfl

theorem fill_put (t : Tape) (a : Nat) (b : UInt8) : (t.put a b).fill = t.fill := by
  unfold put
  split <;> rfl

end Tape

/-! ## Series of stores -/

theorem Cursor.byteAt_paged (w : Writer) (t : Tape) (a : Nat) :
    (w.paged t).byteAt a = t.byteAt a := by
  unfold Cursor.paged
  split
  · rfl
  · exact t.byteAt_grow _ a

/-- Going back leaves a writer on its page. -/
theorem Cursor.Kept.restore {w : Writer} {t : Tape} (h : w.Kept t) (w₀ : Writer) :
    (w.restore w₀ t).Kept t :=
  have hp : ∀ p, ({ w with address := w₀.address, bits := w₀.bits } : Writer).page = some p →
      t.firstPage ≤ p ∧ p < t.endPage := h.page
  (Cursor.trusted_refresh hp).toKept

/-- The byte at hand is not full, and a byte cursor has none. -/
structure Cursor.Tidy {role : Role} (c : Cursor role) : Prop where
  short : c.bits.length < 8
  whole : c.grain = .byte → c.bits = []

theorem Cursor.tidy_nil {role : Role} {c : Cursor role} (h : c.bits = []) : c.Tidy :=
  ⟨h ▸ Nat.zero_lt_succ _, fun _ => h⟩

/-- The second tape and writer come from the first by storing bytes. -/
inductive Stores : Tape × Writer → Tape × Writer → Prop
  | nil (s : Tape × Writer) : Stores s s
  /-- Takes up other bits of the byte at hand, but not all of it; a byte writer takes up none. -/
  | bits {s : Tape × Writer} {t : Tape} {w : Writer} (h : Stores s (t, w)) (bits : List Bool)
    (hb : w.Tidy → ({ w with bits } : Writer).Tidy) : Stores s (t, { w with bits })
  | store {s : Tape × Writer} {t : Tape} {w : Writer} (h : Stores s (t, w))
    (hc : w.checkStore t = .ok ()) (b : UInt8) :
    Stores s (((w.paged t).put w.address b).noteWritten (w.address + 1),
      { w.onPage t with address := w.address + 1 })
  /-- Goes back to where the writer has been. -/
  | restore {s : Tape × Writer} {t₀ t : Tape} {w₀ w : Writer} (h₀ : Stores s (t₀, w₀))
    (h : Stores (t₀, w₀) (t, w)) : Stores s (t, w.restore w₀ t)
  /-- Goes back to what the writer has been. -/
  | reset {s : Tape × Writer} {t₀ t : Tape} {w₀ w : Writer} (h₀ : Stores s (t₀, w₀))
    (h : Stores (t₀, w₀) (t, w)) : Stores s (t, w₀)
  /-- Drops what was added since then. -/
  | cut {s : Tape × Writer} {t₀ t : Tape} {w₀ w : Writer} (h₀ : Stores s (t₀, w₀))
    (h : Stores (t₀, w₀) (t, w)) : Stores s ({ t with fill := min t.fill t₀.fill }, w)

namespace Stores

variable {s s' s'' : Tape × Writer}

theorem trans (h : Stores s s') (k : Stores s' s'') : Stores s s'' := by
  induction k with
  | nil => exact h
  | bits _ bits hb ih => exact (ih h).bits bits hb
  | store _ hc b ih => exact (ih h).store hc b
  | restore _ k ih₀ _ => exact (ih₀ h).restore k
  | reset _ k ih₀ _ => exact (ih₀ h).reset k
  | cut _ k ih₀ _ => exact (ih₀ h).cut k

/-- The caches stay right, and the tape only grows. -/
theorem keeps (h : Stores s s') (hk : s.2.Kept s.1) : s'.2.Kept s'.1 ∧ s.1.Grows s'.1 := by
  induction h with
  | nil => exact ⟨hk, .refl _⟩
  | bits _ _ _ ih =>
    obtain ⟨hk', hg⟩ := ih hk
    exact ⟨⟨hk'.page, hk'.span⟩, hg⟩
  | @store _ t w _ hc b ih =>
    obtain ⟨hk', hg⟩ := ih hk
    exact ⟨hk'.stored hc (w.onPage t).bits, hg.trans (hk'.stored_grows hc b)⟩
  | restore _ _ ih₀ ih =>
    obtain ⟨hk₀, hg₀⟩ := ih₀ hk
    obtain ⟨hk', hg⟩ := ih hk₀
    exact ⟨hk'.restore _, hg₀.trans hg⟩
  | reset _ _ ih₀ ih =>
    obtain ⟨hk₀, hg₀⟩ := ih₀ hk
    have hg := (ih hk₀).2
    exact ⟨hk₀.grows hg, hg₀.trans hg⟩
  | @cut _ t₀ t _ _ _ _ ih₀ ih =>
    obtain ⟨hk₀, hg₀⟩ := ih₀ hk
    obtain ⟨hk', hg⟩ := ih hk₀
    have hcut := t.refill_grows (min t.fill t₀.fill)
    exact ⟨hk'.grows hcut, (hg₀.trans hg).trans hcut⟩

theorem bounds (h : Stores s s') : s'.2.bounds = s.2.bounds ∧ s'.2.grain = s.2.grain := by
  induction h with
  | nil => exact ⟨rfl, rfl⟩
  | bits _ _ _ ih => exact ih
  | @store _ t w _ _ _ ih =>
    exact ⟨(Cursor.bounds_onPage w t).trans ih.1, (Cursor.grain_onPage w t).trans ih.2⟩
  | restore _ _ ih₀ ih => exact ⟨ih.1.trans ih₀.1, ih.2.trans ih₀.2⟩
  | reset _ _ ih₀ _ => exact ih₀
  | cut _ _ ih₀ ih => exact ⟨ih.1.trans ih₀.1, ih.2.trans ih₀.2⟩

theorem fill_le (h : Stores s s') : s.1.fill ≤ s'.1.fill := by
  induction h with
  | nil => exact Nat.le_refl _
  | bits _ _ _ ih => exact ih
  | @store _ t w _ _ _ ih =>
    rw [← Cursor.fill_paged w t] at ih
    exact Nat.le_trans ih (Tape.fill_put (w.paged t) .. ▸ Nat.le_max_left ..)
  | restore _ _ ih₀ ih => exact Nat.le_trans ih₀ ih
  | reset _ _ ih₀ ih => exact Nat.le_trans ih₀ ih
  | cut _ _ ih₀ ih =>
    simp only at ih₀ ih ⊢
    omega

/-- Nothing is stored before the writer. -/
theorem ahead (h : Stores s s') :
    s.2.address ≤ s'.2.address ∧ ∀ a < s.2.address, s'.1.byteAt a = s.1.byteAt a := by
  induction h with
  | nil => exact ⟨Nat.le_refl _, fun _ _ => rfl⟩
  | bits _ _ _ ih => exact ih
  | @store _ t w _ _ b ih =>
    obtain ⟨ha, hbytes⟩ := ih
    refine ⟨Nat.le_succ_of_le ha, fun a hlt => ?_⟩
    rw [Tape.byteAt_noteWritten, Tape.byteAt_put_of_ne (Nat.ne_of_lt (Nat.lt_of_lt_of_le hlt ha)),
      Cursor.byteAt_paged, hbytes a hlt]
  | restore _ _ ih₀ ih | reset _ _ ih₀ ih =>
    obtain ⟨ha₀, hbytes₀⟩ := ih₀
    refine ⟨ha₀, fun a hlt => ?_⟩
    exact (ih.2 a (Nat.lt_of_lt_of_le hlt ha₀)).trans (hbytes₀ a hlt)
  | cut _ _ ih₀ ih =>
    obtain ⟨ha₀, hbytes₀⟩ := ih₀
    obtain ⟨ha, hbytes⟩ := ih
    refine ⟨Nat.le_trans ha₀ ha, fun a hlt => ?_⟩
    exact (hbytes a (Nat.lt_of_lt_of_le hlt ha₀)).trans (hbytes₀ a hlt)

end Stores

/-! ## What cursors are like -/

/-- What all cursors have in common: the page held is resident, the span stays on it and in the
innermost block, and the byte at hand is not full. -/
structure Cursor.Regular {role : Role} (c : Cursor role) (t : Tape) : Prop extends c.Kept t where
  inside : ∀ p ∈ c.bounds.head?, c.span ≤ p.byte
  tidy : c.Tidy

namespace Cursor

variable {role : Role}

/-- The span is right when it is set anew, and so is everything else. -/
theorem regular_refresh {c : Cursor role} {t : Tape}
    (hp : ∀ p, c.page = some p → t.firstPage ≤ p ∧ p < t.endPage) (hb : c.Tidy) :
    (c.refresh t).Regular t := by
  refine ⟨(trusted_refresh hp).toKept, fun p hp => ?_, ⟨hb.short, hb.whole⟩⟩
  refine Nat.le_of_not_lt fun hlt => ?_
  obtain ⟨-, -, -, -, hstop, -⟩ := of_lt_span_refresh hlt
  have hhead : c.bounds.head? = some p := hp
  rw [stop, List.headD_eq_head?_getD, hhead, Option.getD_some] at hstop
  exact absurd hstop (Nat.lt_irrefl _)

/-- A cursor without a page. -/
theorem regular_fresh (t : Tape) (grain : Grain) (bounds : List Position) (address : Nat) :
    Regular ({ grain, bounds, address } : Cursor role) t :=
  ⟨(trusted_fresh rfl rfl t).toKept, fun _ _ => Nat.zero_le _, ⟨Nat.zero_lt_succ _, fun _ => rfl⟩⟩

/-- Going back leaves a cursor on its page. -/
theorem Regular.restore {c c₀ : Cursor role} {t : Tape} (h : c.Regular t) (h₀ : c₀.Tidy)
    (hg : c.grain = c₀.grain) : (c.restore c₀ t).Regular t := by
  have htidy : Tidy ({ c with address := c₀.address, bits := c₀.bits } : Cursor role) :=
    ⟨h₀.short, fun hb => h₀.whole (hg.symm.trans hb)⟩
  exact regular_refresh h.page htidy

theorem Regular.grows {c : Cursor role} {t t' : Tape} (h : c.Regular t) (g : t.Grows t') :
    c.Regular t' :=
  ⟨h.toKept.grows g, h.inside, h.tidy⟩

end Cursor

theorem Stores.regular {s s' : Tape × Writer} (h : Stores s s') (hr : s.2.Regular s.1) :
    s'.2.Regular s'.1 := by
  induction h with
  | nil => exact hr
  | bits _ _ hb ih =>
    have hr' := ih hr
    exact ⟨⟨hr'.page, hr'.span⟩, hr'.inside, hb hr'.tidy⟩
  | @store _ t w _ hc b ih =>
    have hr' : w.Regular t := ih hr
    have hpage : (w.onPage t).Regular (w.paged t) := by
      have hp := hr'.toKept.resident_onPage hc
      unfold Cursor.onPage at hp ⊢
      by_cases hf : w.fast t = true
      · rw [if_pos hf]
        exact hr'.grows (w.paged_grows t)
      · rw [if_neg hf] at hp ⊢
        exact Cursor.regular_refresh hp ⟨hr'.tidy.short, hr'.tidy.whole⟩
    exact ⟨hr'.toKept.stored hc (w.onPage t).bits, hpage.inside,
      ⟨hpage.tidy.short, hpage.tidy.whole⟩⟩
  | @restore _ _ t w₀ w _ h ih₀ ih =>
    have hr₀ := ih₀ hr
    exact (ih hr₀).restore hr₀.tidy h.bounds.2
  | reset _ h ih₀ _ =>
    have hr₀ := ih₀ hr
    exact hr₀.grows (h.keeps hr₀.toKept).2
  | @cut _ t₀ t _ _ _ _ ih₀ ih =>
    exact (ih (ih₀ hr)).grows (t.refill_grows (min t.fill t₀.fill))

/-! ## Actions -/

/-- A result of a series of stores from `s` on: with a writer as `P` says, or refused and as `Q`
says. -/
inductive Yields {ε α : Type} (s : Tape × Writer) (P : Writer → Prop) (Q : Tape → Writer → Prop) :
    EStateM.Result ε (Tape × Writer) α → Prop
  | ok {a : α} {t : Tape} {w : Writer} (h : Stores s (t, w)) (hp : P w) :
    Yields s P Q (.ok a (t, w))
  | error {e : ε} {t : Tape} {w : Writer} (h : Stores s (t, w)) (hq : Q t w) :
    Yields s P Q (.error e (t, w))

theorem Yields.mono {ε α : Type} {s : Tape × Writer} {P P' : Writer → Prop}
    {Q Q' : Tape → Writer → Prop} {r : EStateM.Result ε (Tape × Writer) α} (h : Yields s P Q r)
    (hp : ∀ w, P w → P' w) (hq : ∀ t w, Q t w → Q' t w) : Yields s P' Q' r := by
  cases h with
  | ok h h' => exact .ok h (hp _ h')
  | error h h' => exact .error h (hq _ _ h')

/-- One action after the other puts the bits of both on the stream. -/
theorem Yields.andThen {ε : Type} {t : Tape} {w : Writer} {m n : Nat}
    {r r' : EStateM.Result ε (Tape × Writer) Unit} {next : Writing ε Unit}
    (h : Yields (t, w) (fun w' => w'.position.bits = w.position.bits + m) (fun _ _ => True) r)
    (hnext : ∀ t' w', Stores (t, w) (t', w') → Yields (t', w')
      (fun w'' => w''.position.bits = w'.position.bits + n) (fun _ _ => True) (next (t', w')))
    (hok : ∀ s, r = .ok () s → r' = next s) (herror : ∀ e s, r = .error e s → r' = .error e s) :
    Yields (t, w) (fun w' => w'.position.bits = w.position.bits + (m + n)) (fun _ _ => True)
      r' := by
  cases h with
  | error h _ =>
    rw [herror _ _ rfl]
    exact .error h trivial
  | @ok _ t' w' h' hp' =>
    rw [hok _ rfl]
    have hlater := hnext t' w' h'
    generalize next (t', w') = r at hlater
    cases hlater with
    | error h _ => exact .error (h'.trans h) trivial
    | ok h hp =>
      refine .ok (h'.trans h) ?_
      omega

/-- The stream is as long as it was, and the writer stands where it did. -/
def Untouched (t : Tape) (w : Writer) (t' : Tape) (w' : Writer) : Prop :=
  t.start ≤ t.fill → t'.fill = t.fill ∧ w'.position = w.position

namespace Writing

variable {ε ε' α : Type}

/-- All that the action does is a series of stores. -/
def Series (act : Writing ε α) : Prop :=
  ∀ ⦃t : Tape⦄ ⦃w : Writer⦄, w.Kept t → Yields (t, w) (fun _ => True) (fun _ _ => True) (act (t, w))

/-- The action puts so many bits on the stream, unless it is refused. -/
def Puts (n : Nat) (act : Writing ε Unit) : Prop :=
  ∀ ⦃t : Tape⦄ ⦃w : Writer⦄, w.Kept t →
    Yields (t, w) (fun w' => w'.position.bits = w.position.bits + n) (fun _ _ => True) (act (t, w))

/-- The action puts so many bits on the stream, or none if it is refused. -/
def PutsWhole (n : Nat) (act : Writing ε Unit) : Prop :=
  ∀ ⦃t : Tape⦄ ⦃w : Writer⦄, w.Kept t →
    Yields (t, w) (fun w' => w'.position.bits = w.position.bits + n) (Untouched t w) (act (t, w))

variable {n : Nat} {act : Writing ε Unit}

theorem Puts.series (h : Puts n act) : Series act :=
  fun _ _ hk => (h hk).mono (fun _ _ => trivial) fun _ _ _ => trivial

theorem PutsWhole.puts (h : PutsWhole n act) : Puts n act :=
  fun _ _ hk => (h hk).mono (fun _ hp => hp) fun _ _ _ => trivial

theorem putsWhole_throw (e : ε) (n : Nat) : PutsWhole n (throw e : Writing ε Unit) :=
  fun _ _ _ => .error (.nil _) fun _ => ⟨rfl, rfl⟩

/-- Errors of another kind change nothing else. -/
theorem yields_mapError {act : Writing ε α} {s s' : Tape × Writer} {P : Writer → Prop}
    {Q : Tape → Writer → Prop} (h : Yields s P Q (act s')) (f : ε → ε') :
    Yields s P Q (act.mapError f s') := by
  rw [Writing.mapError]
  generalize act s' = r at h
  cases h with
  | ok h hp => exact .ok h hp
  | error h hq => exact .error h hq

/-- What is done for each of a list. -/
theorem puts_forM {f : α → Writing ε Unit} (hf : ∀ a, Puts n (f a)) (as : List α) :
    Puts (n * as.length) (as.forM f) := by
  induction as with
  | nil => exact fun _ _ _ => .ok (.nil _) rfl
  | cons a rest ih =>
    intro t w hk
    rw [List.length_cons, Nat.mul_succ, Nat.add_comm (n * rest.length)]
    refine (hf a hk).andThen (fun t' w' h => ih (h.keeps hk).1) ?_ ?_
    · intro s h
      exact bind_of_ok h
    · intro e s h
      exact bind_of_error h

end Writing

/-! ## Writes -/

namespace Cursor

open Writing

theorem position_eq (w : Writer) : w.position.bits = 8 * w.address + w.bits.length := rfl

/-- A byte is stored, or nothing happens. -/
theorem Kept.yields_store {w : Writer} {t : Tape} (h : w.Kept t) (b : UInt8) :
    Yields (t, w) (fun w' => w'.address = w.address + 1 ∧ w'.bits = w.bits) (Untouched t w)
      (store b (t, w)) := by
  cases hc : w.checkStore t with
  | error e =>
    rw [store_of_error hc]
    exact .error (.nil _) fun _ => ⟨rfl, rfl⟩
  | ok u =>
    rw [h.store_of_ok hc]
    exact .ok ((Stores.nil _).store hc b) ⟨rfl, bits_onPage w t⟩

/-- A bit that is let through, and does not fill the byte at hand, leaves it in order. -/
theorem tidy_append {w : Writer} {t : Tape} {bit : Bool} (hcheck : w.checkBit t = .ok ())
    (h7 : w.bits.length ≠ 7) (h : w.Tidy) :
    ({ w with bits := w.bits ++ [bit] } : Writer).Tidy := by
  refine ⟨?_, fun hg => ?_⟩
  · rw [List.length_append, List.length_singleton]
    have := h.short
    omega
  · -- a byte writer takes no bits
    rw [checkBit, if_pos (by simp [show w.grain = .byte from hg])] at hcheck
    cases hcheck

theorem putsWhole_writeBit (bit : Bool) : PutsWhole 1 (writeBit bit) := by
  intro t w hk
  rw [writeBit]
  cases hcheck : w.checkBit t with
  | error e => exact .error (.nil _) fun _ => ⟨rfl, rfl⟩
  | ok u =>
    by_cases h7 : w.bits.length = 7
    · simp only [if_pos h7]
      have hstore := hk.yields_store (Bits.toByte (w.bits ++ [bit]))
      generalize store (Bits.toByte (w.bits ++ [bit])) (t, w) = r at hstore
      cases hstore with
      | error h hq => exact .error h hq
      | ok h hp =>
        refine .ok (h.bits [] fun _ => tidy_nil rfl) ?_
        simp only [position_eq, hp.1, h7, List.length_nil]
        omega
    · simp only [if_neg h7]
      refine .ok ((Stores.nil _).bits _ (tidy_append hcheck h7)) ?_
      rw [position_eq, position_eq, List.length_append]
      rfl

/-- What stands as a whole or not at all: a refusal takes back what was done. -/
theorem yields_wholly {t : Tape} {w : Writer} {P : Writer → Prop} {back : Tape → Writer → Writer}
    {r : EStateM.Result StreamError (Tape × Writer) Unit}
    (h : Yields (t, w) P (fun _ _ => True) r) (hback : ∀ t' w', Stores (t, w) (t', w') →
      Stores (t, w) (t', back t' w') ∧ (back t' w').position = w.position) (hk : w.Kept t) :
    Yields (t, w) P (Untouched t w) (wholly t.fill back r) := by
  cases h with
  | ok h hp => exact .ok h hp
  | @error e t' w' h _ =>
    obtain ⟨hs, hp⟩ := hback t' w' h
    have hfill : t.fill ≤ t'.fill := h.fill_le
    have hstart : t'.start = t.start := ((h.keeps hk).2).start
    rw [wholly]
    by_cases hlt : t.fill < t'.fill
    · rw [if_pos hlt, Tape.truncate]
      by_cases hcut : t.fill < t'.start
      · rw [if_pos hcut]
        refine .error hs fun hle => ?_
        omega
      · rw [if_neg hcut]
        refine .error (.cut (.nil _) hs) fun _ => ⟨?_, hp⟩
        exact Nat.min_eq_right hfill
    · rw [if_neg hlt]
      refine .error hs fun _ => ⟨?_, hp⟩
      omega

theorem putsWhole_writeBitList (bs : List Bool) : PutsWhole bs.length (writeBitList bs) := by
  intro t w hk
  have hall := puts_forM (fun bit => (putsWhole_writeBit bit).puts) bs hk
  rw [Nat.one_mul] at hall
  refine yields_wholly hall (fun t' w' h => ?_) hk
  exact ⟨.restore (.nil _) h, rfl⟩

theorem putsWhole_writeBits (word : UInt64) (count : Nat) :
    PutsWhole (min count 64) (writeBits word count) := by
  have h := putsWhole_writeBitList (Bits.ofNat (min count 64) word.toNat)
  rwa [Bits.length_ofNat] at h

theorem putsWhole_writeByte (b : UInt8) : PutsWhole 8 (writeByte b) := by
  intro t w hk
  rw [writeByte]
  by_cases hwhole : (w.aligned && !w.stopsWithin t) = true
  · rw [if_pos hwhole]
    refine (hk.yields_store b).mono (fun w' hp => ?_) fun _ _ hq => hq
    rw [position_eq, position_eq, hp.1, hp.2]
    omega
  · rw [if_neg hwhole]
    have h := putsWhole_writeBitList (Bits.ofByte b) hk
    rwa [Bits.length_ofByte] at h

/-- A whole byte is stored where that may be done. -/
theorem Kept.writeByte_of_ok {w : Writer} {t : Tape} (h : w.Kept t) (hb : w.bits = [])
    (hw : w.stopsWithin t = false) (hc : w.checkStore t = .ok ()) (b : UInt8) :
    writeByte b (t, w) = .ok () (((w.paged t).put w.address b).noteWritten (w.address + 1),
      { w.onPage t with address := w.address + 1 }) := by
  have hwhole : (w.aligned && !w.stopsWithin t) = true := by
    rw [aligned, hb, hw]
    rfl
  rw [writeByte, if_pos hwhole, h.store_of_ok hc]

theorem puts_writeBytes (bytes : List UInt8) : Puts (8 * bytes.length) (writeBytes bytes) :=
  puts_forM (fun b => (putsWhole_writeByte b).puts) bytes

theorem series_alignWriter : Series alignWriter := by
  intro t w hk
  rw [alignWriter]
  by_cases haligned : w.aligned = true
  · rw [if_pos haligned]
    exact .ok (.nil _) trivial
  · rw [if_neg haligned]
    have hstore := hk.yields_store (Bits.toByte w.bits)
    generalize store (Bits.toByte w.bits) (t, w) = r at hstore
    cases hstore with
    | error h _ => exact .error h trivial
    | ok h _ => exact .ok (h.bits [] fun _ => tidy_nil rfl) trivial

/-- A byte that was begun is stored where that may be done. -/
theorem Kept.alignWriter_of_ok {w : Writer} {t : Tape} (h : w.Kept t) (hb : w.bits ≠ [])
    (hc : w.checkStore t = .ok ()) : alignWriter (t, w) =
      .ok () (((w.paged t).put w.address (Bits.toByte w.bits)).noteWritten (w.address + 1),
        { w.onPage t with address := w.address + 1, bits := [] }) := by
  have haligned : ¬w.aligned = true := fun ha => hb (List.isEmpty_iff.1 ha)
  rw [alignWriter, if_neg haligned, h.store_of_ok hc]

theorem putsWhole_stageWhole (kind : IntKind) (word : UInt64) :
    PutsWhole (8 * (kind.bytes word).length) (stageWhole kind word) := by
  intro t w hk
  have hall := puts_writeBytes (kind.bytes word) hk
  rw [stageWhole, stageValue_eq]
  refine yields_wholly hall (fun t' w' h => ?_) hk
  exact ⟨.reset (.nil _) h, rfl⟩

theorem putsWhole_writeValue (kind : IntKind) (word : UInt64) :
    PutsWhole (8 * (kind.bytes word).length) (writeValue kind word) := by
  rw [writeValue]
  by_cases hf : kind.fits word = true
  · rw [if_pos hf]
    exact fun t w hk => yields_mapError (putsWhole_stageWhole kind word hk) _
  · rw [if_neg hf]
    exact putsWhole_throw _ _

theorem series_writeNode (node : Node) (word : UInt64) : Series (writeNode node word) := by
  rw [writeNode]
  cases node.valueKind? with
  | none => exact (putsWhole_throw _ 0).puts.series
  | some kind => exact (putsWhole_writeValue kind word).puts.series

theorem puts_writePaddedSize (size reserved : Nat) :
    Puts (8 * max reserved 1) (writePaddedSize size reserved) := by
  rw [writePaddedSize]
  by_cases hlimit : headerLimit reserved < size
  · rw [if_pos hlimit]
    exact (putsWhole_throw _ _).puts
  · rw [if_neg hlimit, Leb128.emitPadded_eq]
    intro t w hk
    have h := puts_writeBytes (Leb128.padded reserved size) hk
    rw [Leb128.length_padded] at h
    exact yields_mapError h _

theorem puts_writeSize (size : Nat) : Puts (8 * (Leb128.unsigned size).length) (writeSize size) :=
  fun _ _ hk => yields_mapError (puts_writeBytes (Leb128.unsigned size) hk) _

theorem puts_copyFrom (n : Nat) (source : Reader) : Puts (8 * n) (copyFrom n source) := by
  induction n generalizing source with
  | zero => exact fun _ _ _ => .ok (.nil _) rfl
  | succ n ih =>
    intro t w hk
    simp only [copyFrom]
    generalize source.readByte t = found
    obtain ⟨read, source'⟩ := found
    cases read with
    | error e => exact .error (.nil _) trivial
    | ok b =>
      rw [Nat.mul_succ, Nat.add_comm (8 * n)]
      refine ((putsWhole_writeByte b).puts hk).andThen (fun t' w' h => ih source' (h.keeps hk).1)
        ?_ ?_
      · intro s h
        simp only [h]
      · intro e s h
        simp only [h]

theorem puts_moveBlock (start size : Nat) : Puts (8 * size) (moveBlock start size) :=
  fun _ w hk => yields_mapError (puts_copyFrom size (readerOver w start) hk) _

end Cursor

end Transcoder

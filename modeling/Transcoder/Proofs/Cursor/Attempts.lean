import Transcoder.Proofs.Bits.Packing
import Transcoder.Proofs.Cursor.Broken
import Transcoder.Proofs.Cursor.Tight

/-!
# What a refused write leaves on its tape

A write that is refused half-way is taken back: the writer goes back to where it was and the fill
address is lowered again. The bytes that it put before are not. So what is left is told by the same
write with nothing taken back, the bare one: as many of its bits as got through, in whole bytes.

Results:
* `reaches_forM`, `reaches_bareByte`: bare writes put a front of their bits where the writer stands.
* `resembles_writeBitList`, `resembles_stageWhole`: the real ones leave the same bytes.
* `TakesBack.untouched_iff`: when a refused write leaves nothing behind.
-/
namespace Transcoder

theorem Tape.byteAt_put {t : Tape} {a : Nat} (h : t.start ≤ a)
    (hr : t.resident (t.pageOf a) = true) (b : UInt8) : (t.put a b).byteAt a = b := by
  rw [byteAt, byte?_put h (lt_of_resident hr), if_pos rfl, Option.getD_some]

/-! ## Bits that were put on a tape -/

/-- The bits `bs` were put on the tape at the writer: `out` in whole bytes, the rest at hand. -/
structure Laid (bs : List Bool) (t : Tape) (w : Writer) (out : List UInt8) (t' : Tape)
    (w' : Writer) : Prop where
  stores : Stores (t, w) (t', w')
  bits : w.bits ++ bs = Bits.ofBytes out ++ w'.bits
  address : w'.address = w.address + out.length
  shown : ∀ i b, out[i]? = some b → t'.byteAt (w.address + i) = b
  others : ∀ a, a < w.address ∨ w'.address ≤ a → t'.byteAt a = t.byteAt a
  start_le : out ≠ [] → t.start ≤ w.address
  fill : t'.fill = if out = [] then t.fill else max t.fill w'.address

section

variable {t t' t'' : Tape} {w w' w'' : Writer} {bs cs : List Bool} {out out' : List UInt8}

theorem laid_nil (t : Tape) (w : Writer) : Laid [] t w [] t w :=
  ⟨.nil _, List.append_nil _, rfl, fun _ _ h => (nomatch h), fun _ _ => rfl, fun h => absurd rfl h,
    rfl⟩

/-- Bits that do not fill the byte at hand. -/
theorem laid_inHand (t : Tape) {w : Writer} {bit : Bool}
    (hb : w.Tidy → ({ w with bits := w.bits ++ [bit] } : Writer).Tidy) :
    Laid [bit] t w [] t { w with bits := w.bits ++ [bit] } :=
  ⟨(Stores.nil _).bits _ hb, rfl, rfl, fun _ _ h => (nomatch h), fun _ _ => rfl,
    fun h => absurd rfl h, rfl⟩

/-- A byte that may be stored. -/
theorem laid_store (hk : w.Kept t) (hc : w.checkStore t = .ok ()) {b : UInt8}
    (hb : w.bits ++ bs = Bits.ofByte b) :
    Laid bs t w [b] (((w.paged t).put w.address b).noteWritten (w.address + 1))
      { w.onPage t with address := w.address + 1, bits := [] } := by
  obtain ⟨hs, hr⟩ := hk.resident hc
  refine ⟨((Stores.nil _).store hc b).bits [] fun _ => Cursor.tidy_nil rfl, ?_, rfl, ?_, ?_,
    fun _ => hs, ?_⟩
  · rw [hb]
    exact (List.append_nil _).symm.trans (List.append_nil _).symm
  · intro i b' h
    obtain ⟨rfl, rfl⟩ : i = 0 ∧ b = b' := by
      cases i with
      | zero => exact ⟨rfl, Option.some.inj h⟩
      | succ i => cases h
    rw [Nat.add_zero, Tape.byteAt_noteWritten]
    rw [← (w.paged_grows t).start] at hs
    exact Tape.byteAt_put hs hr b
  · intro a ha
    have hne : a ≠ w.address := by
      simp only at ha
      omega
    rw [Tape.byteAt_noteWritten, Tape.byteAt_put_of_ne hne, Cursor.byteAt_paged]
  · show max ((w.paged t).put w.address b).fill (w.address + 1) = _
    rw [Tape.fill_put, Cursor.fill_paged, if_neg (List.cons_ne_nil _ _)]

/-- What was put is put on, one after the other. -/
theorem Laid.trans (h : Laid bs t w out t' w') (hk : w.Kept t)
    (k : Laid cs t' w' out' t'' w'') : Laid (bs ++ cs) t w (out ++ out') t'' w'' := by
  have hstart := (h.stores.keeps hk).2.start
  have haddress := h.address
  have haddress' := k.address
  refine ⟨h.stores.trans k.stores, ?_, ?_, fun i b hb => ?_, fun a ha => ?_, fun hne => ?_, ?_⟩
  · rw [← List.append_assoc, h.bits, List.append_assoc, k.bits, ← List.append_assoc,
      Bits.ofBytes_append]
  · rw [haddress', haddress, List.length_append, Nat.add_assoc]
  · by_cases hi : i < out.length
    · rw [List.getElem?_append_left hi] at hb
      rw [k.others _ (.inl (by omega)), h.shown i b hb]
    · rw [List.getElem?_append_right (Nat.le_of_not_lt hi)] at hb
      have hshown := k.shown _ b hb
      rwa [haddress, Nat.add_assoc, Nat.add_sub_of_le (Nat.le_of_not_lt hi)] at hshown
  · rw [k.others a (by omega), h.others a (by omega)]
  · by_cases hout : out = []
    · subst hout
      have hle := k.start_le hne
      rw [hstart, haddress] at hle
      exact hle
    · exact h.start_le hout
  · rw [k.fill, h.fill]
    by_cases hout : out = []
    · subst hout
      rfl
    · have hne : out ++ out' ≠ [] := fun he => hout (List.append_eq_nil_iff.1 he).1
      rw [if_neg hout, if_neg hne]
      by_cases hout' : out' = []
      · subst hout'
        rw [if_pos rfl, haddress']
        rfl
      · rw [if_neg hout']
        omega

/-- The write has put all the bits, or as many as got through. -/
inductive Reaches {ε : Type} (bs : List Bool) (t : Tape) (w : Writer) :
    EStateM.Result ε (Tape × Writer) Unit → Prop
  | ok {out : List UInt8} {t' : Tape} {w' : Writer} (h : Laid bs t w out t' w') :
    Reaches bs t w (.ok () (t', w'))
  | error {e : ε} {done : List Bool} {out : List UInt8} {t' : Tape} {w' : Writer}
    (hd : done <+: bs) (h : Laid done t w out t' w') : Reaches bs t w (.error e (t', w'))

theorem Reaches.bind {ε : Type} {act next : Writing ε Unit} (h : Reaches bs t w (act (t, w)))
    (hk : w.Kept t) (hnext : ∀ t' w', w'.Kept t' → Reaches cs t' w' (next (t', w'))) :
    Reaches (bs ++ cs) t w ((do act; next : Writing ε Unit) (t, w)) := by
  generalize hr : act (t, w) = r at h
  cases h with
  | error hd h =>
    rw [bind_of_error hr]
    exact .error (hd.trans (List.prefix_append ..)) h
  | @ok out t' w' h =>
    rw [bind_of_ok hr]
    have hk' := (h.stores.keeps hk).1
    have hrest := hnext t' w' hk'
    generalize next (t', w') = r' at hrest
    cases hrest with
    | ok k => exact .ok (h.trans hk k)
    | error hd k => exact .error ((List.prefix_append_right_inj bs).2 hd) (h.trans hk k)

theorem reaches_forM {ε α : Type} {f : α → Writing ε Unit} {g : α → List Bool}
    (hf : ∀ a t w, w.Kept t → Reaches (g a) t w (f a (t, w))) (as : List α) (hk : w.Kept t) :
    Reaches (as.flatMap g) t w (as.forM f (t, w)) := by
  induction as generalizing t w with
  | nil => exact .ok (laid_nil t w)
  | cons a rest ih => exact (hf a t w hk).bind hk fun t' w' hk' => ih hk'

end

namespace Cursor

variable {t t' : Tape} {w w' : Writer}

/-! ## Bare writes -/

theorem reaches_writeBit (bit : Bool) (hk : w.Kept t) :
    Reaches [bit] t w (writeBit bit (t, w)) := by
  rw [writeBit]
  cases hcheck : w.checkBit t with
  | error e => exact .error (List.nil_prefix) (laid_nil t w)
  | ok u =>
    by_cases h7 : w.bits.length = 7
    · have hlength : (w.bits ++ [bit]).length = 8 := by rw [List.length_append, h7]; rfl
      simp only [if_pos h7]
      cases hc : w.checkStore t with
      | error e =>
        rw [store_of_error hc]
        exact .error (List.nil_prefix) (laid_nil t w)
      | ok u =>
        rw [hk.store_of_ok hc]
        refine .ok (laid_store hk hc ?_)
        have hbits := Bits.ofBytes_toByte hlength
        rw [Bits.ofBytes_cons, Bits.ofBytes_nil, List.append_nil] at hbits
        exact hbits.symm
    · simp only [if_neg h7]
      exact .ok (laid_inHand t (tidy_append hcheck h7))

theorem reaches_bits (bits : List Bool) (hk : w.Kept t) :
    Reaches bits t w (bits.forM writeBit (t, w)) := by
  have h := reaches_forM (g := fun bit => [bit]) (fun bit _ _ => reaches_writeBit bit) bits hk
  rwa [List.flatMap_singleton'] at h

/-- A byte as `writeByte` writes it, with nothing taken back where it is refused. -/
def bareByte (b : UInt8) : Writing StreamError Unit := fun (t, c) =>
  if c.aligned && !c.stopsWithin t then store b (t, c) else (Bits.ofByte b).forM writeBit (t, c)

theorem reaches_bareByte (b : UInt8) (hk : w.Kept t) :
    Reaches (Bits.ofByte b) t w (bareByte b (t, w)) := by
  rw [bareByte]
  by_cases hwhole : (w.aligned && !w.stopsWithin t) = true
  · have hb : w.bits = [] := by
      simp only [Bool.and_eq_true, aligned, List.isEmpty_iff] at hwhole
      exact hwhole.1
    rw [if_pos hwhole]
    cases hc : w.checkStore t with
    | error e =>
      rw [store_of_error hc]
      exact .error (List.nil_prefix) (laid_nil t w)
    | ok u =>
      have hlaid : Laid (Bits.ofByte b) t w [b] _ _ := laid_store hk hc (by rw [hb]; rfl)
      have hbits : (w.onPage t).bits = [] := (bits_onPage w t).trans hb
      rw [hk.store_of_ok hc]
      rw [← hbits] at hlaid
      exact .ok hlaid
  · rw [if_neg hwhole]
    exact reaches_bits _ hk

theorem reaches_bytes (bytes : List UInt8) (hk : w.Kept t) :
    Reaches (Bits.ofBytes bytes) t w (bytes.forM bareByte (t, w)) :=
  reaches_forM (fun b _ _ => reaches_bareByte b) bytes hk

end Cursor

/-! ## Taking back -/

/-- The second write does what the first, bare one does, but takes back some of the fill address
where it is refused, and never below the pages that are there. -/
inductive Resembles {ε ε' : Type} : EStateM.Result ε (Tape × Writer) Unit →
    EStateM.Result ε' (Tape × Writer) Unit → Prop
  | ok (s : Tape × Writer) : Resembles (.ok () s) (.ok () s)
  | error {e : ε} {e' : ε'} {t t' : Tape} {w w' : Writer}
    (bytes : ∀ a, t'.byteAt a = t.byteAt a) (start : t'.start = t.start) (le : t'.fill ≤ t.fill)
    (fill : t'.fill = t.fill ∨ t.start ≤ t'.fill) : Resembles (.error e (t, w)) (.error e' (t', w'))

section

variable {ε ε' : Type} {t : Tape} {w : Writer}

theorem Resembles.refl (r : EStateM.Result ε (Tape × Writer) Unit) : Resembles r r := by
  cases r with
  | ok u s => exact .ok s
  | error e s => exact .error (fun _ => rfl) rfl (Nat.le_refl _) (.inl rfl)

theorem Resembles.bind {act next : Writing ε Unit} {act' next' : Writing ε' Unit}
    {s : Tape × Writer} (h : Resembles (act s) (act' s))
    (hnext : ∀ s', act s = .ok () s' → Resembles (next s') (next' s')) :
    Resembles ((do act; next : Writing ε Unit) s) ((do act'; next' : Writing ε' Unit) s) := by
  generalize hr : act s = r at h
  generalize hr' : act' s = r' at h
  cases h with
  | ok s' =>
    rw [bind_of_ok hr, bind_of_ok hr']
    exact hnext s' hr
  | error bytes start le fill =>
    rw [bind_of_error hr, bind_of_error hr']
    exact .error bytes start le fill

/-- Errors of another kind change nothing else. -/
theorem Resembles.mapBare {ε₁ : Type} {act : Writing ε Unit} {s : Tape × Writer}
    {r' : EStateM.Result ε' (Tape × Writer) Unit} (h : Resembles (act s) r') (f : ε → ε₁) :
    Resembles (act.mapError f s) r' := by
  rw [Writing.mapError]
  generalize act s = r at h
  cases h with
  | ok s' => exact .ok s'
  | error bytes start le fill => exact .error bytes start le fill

theorem Resembles.mapError {ε₁ : Type} {act : Writing ε' Unit} {s : Tape × Writer}
    {r : EStateM.Result ε (Tape × Writer) Unit} (h : Resembles r (act s)) (f : ε' → ε₁) :
    Resembles r (act.mapError f s) := by
  rw [Writing.mapError]
  generalize act s = r' at h
  cases h with
  | ok s' => exact .ok s'
  | error bytes start le fill => exact .error bytes start le fill

theorem resembles_forM {α : Type} {f : α → Writing ε Unit} {f' : α → Writing ε' Unit}
    (h : ∀ a s, Resembles (f a s) (f' a s)) (as : List α) (s : Tape × Writer) :
    Resembles (as.forM f s) (as.forM f' s) := by
  induction as generalizing s with
  | nil => exact .ok s
  | cons a rest ih => exact (h a s).bind fun s' _ => ih s'

/-- What stands as a whole or not at all. -/
theorem Resembles.wholly {r : EStateM.Result ε (Tape × Writer) Unit}
    {r' : EStateM.Result StreamError (Tape × Writer) Unit} (h : Resembles r r') (fill : Nat)
    (back : Tape → Writer → Writer) : Resembles r (Cursor.wholly fill back r') := by
  cases h with
  | ok s => exact .ok s
  | @error _ _ t t' _ _ bytes start le hfill =>
    rw [Cursor.wholly]
    by_cases hlt : fill < t'.fill
    · rw [if_pos hlt, Tape.truncate]
      by_cases hcut : fill < t'.start
      · rw [if_pos hcut]
        exact .error bytes start le hfill
      · rw [if_neg hcut]
        have hmin : min t'.fill fill = fill := Nat.min_eq_right (Nat.le_of_lt hlt)
        refine .error bytes start ?_ (.inr ?_)
        · exact Nat.le_trans (Nat.min_le_left ..) le
        · simp only [hmin]
          omega
    · rw [if_neg hlt]
      exact .error bytes start le hfill

/-- Where something is taken back, the writer goes back. -/
theorem back_of_wholly {r : EStateM.Result StreamError (Tape × Writer) Unit} {fill : Nat}
    {back : Tape → Writer → Writer} {e : StreamError} {s : Tape × Writer}
    (h : Cursor.wholly fill back r = .error e s) : ∃ t w, s.2 = back t w := by
  rw [Cursor.wholly.eq_def] at h
  split at h
  · cases h
  · split at h
    · split at h
      · cases h
        exact ⟨_, _, rfl⟩
      · cases h
        exact ⟨_, _, rfl⟩
    · cases h
      exact ⟨_, _, rfl⟩

end

namespace Cursor

theorem resembles_writeBitList (bits : List Bool) (s : Tape × Writer) :
    Resembles (bits.forM writeBit s) (writeBitList bits s) :=
  (Resembles.refl _).wholly _ _

theorem resembles_writeByte (b : UInt8) (s : Tape × Writer) :
    Resembles (bareByte b s) (writeByte b s) := by
  obtain ⟨t, w⟩ := s
  rw [bareByte, writeByte]
  by_cases hwhole : (w.aligned && !w.stopsWithin t) = true
  · rw [if_pos hwhole, if_pos hwhole]
    exact .refl _
  · rw [if_neg hwhole, if_neg hwhole]
    exact resembles_writeBitList _ _

theorem resembles_stageWhole (kind : IntKind) (word : UInt64) (s : Tape × Writer) :
    Resembles ((kind.bytes word).forM bareByte s) (stageWhole kind word s) := by
  have h := resembles_forM resembles_writeByte (kind.bytes word) s
  rw [stageWhole, stageValue_eq]
  exact h.wholly _ _

end Cursor

namespace Writing

/-- Where the writer is when a write is through or refused. -/
def reach {ε : Type} (act : Writing ε Unit) (t : Tape) (w : Writer) : Nat :=
  match act (t, w) with
  | .ok () (_, w') => w'.address
  | .error _ (_, w') => w'.address

/-- The whole bytes that a bare write of `bits` puts at the writer before it is refused. -/
def putBytes {ε : Type} (bits : List Bool) (bare : Writing ε Unit) (t : Tape) (w : Writer) :
    List UInt8 :=
  (Bits.toBytes (w.bits ++ bits)).take (bare.reach t w - w.address)

/-- The action writes `bits` as the bare one does, and goes back where it is refused. -/
structure TakesBack {ε ε' : Type} (bits : List Bool) (bare : Writing ε Unit)
    (act : Writing ε' Unit) : Prop where
  reaches : ∀ {t w}, w.Kept t → Reaches bits t w (bare (t, w))
  resembles : ∀ s, Resembles (bare s) (act s)
  back : ∀ {t w e t' w'}, w.Kept t → act (t, w) = .error e (t', w') →
    w'.address = w.address ∧ w'.bits = w.bits ∧ w'.bounds = w.bounds
  fill : ∀ {t w e t' w'}, w.Kept t → act (t, w) = .error e (t', w') → t.start ≤ t.fill →
    t'.fill = t.fill

variable {ε ε' : Type} {bits : List Bool} {bare : Writing ε Unit} {act : Writing ε' Unit}
  {t t' : Tape} {w w' : Writer} {e : ε'}

/-- The bytes that got through are those that the bits begin with. -/
theorem putBytes_eq {e : ε} {done : List Bool} {out : List UInt8}
    (hr : bare (t, w) = .error e (t', w')) (hd : done <+: bits) (h : Laid done t w out t' w') :
    putBytes bits bare t w = out := by
  obtain ⟨rest, rfl⟩ := hd
  have hbytes : Bits.toBytes (w.bits ++ (done ++ rest)) =
      out ++ Bits.toBytes (w'.bits ++ rest) := by
    rw [← List.append_assoc, h.bits, List.append_assoc, Bits.toBytes_ofBytes_append]
  have hreach : bare.reach t w - w.address = out.length := by
    rw [reach, hr]
    simp only [h.address, Nat.add_sub_cancel_left]
  rw [putBytes, hreach, hbytes, List.take_left]

/-- A refused write leaves no trace on the tape exactly where the bytes that it put before stood
there already, as far as the tape was written. Where the fill address was given up it cannot be
lowered again, so nothing may have been put there. -/
theorem TakesBack.untouched_iff (h : TakesBack bits bare act) (hk : w.Kept t)
    (hr : act (t, w) = .error e (t', w')) :
    (t'.fill = t.fill ∧ ∀ a < t.fill, t'.byteAt a = t.byteAt a) ↔
      ∀ i b, (putBytes bits bare t w)[i]? = some b →
        t.start ≤ t.fill ∧ (w.address + i < t.fill → t.byteAt (w.address + i) = b) := by
  have hlike := h.resembles (t, w)
  have hreaches := h.reaches hk
  rw [hr] at hlike
  generalize hbare : bare (t, w) = r at hlike hreaches
  cases hlike with
  | @error _ _ t₁ _ w₁ _ bytes start le fill =>
    cases hreaches with
    | @error _ done out _ _ hd hlaid =>
      rw [putBytes_eq hbare hd hlaid]
      have hstart : t₁.start = t.start := ((hlaid.stores.keeps hk).2).start
      have haddress := hlaid.address
      have hfill := hlaid.fill
      constructor
      · rintro ⟨hsame, hbytes⟩ i b hb
        have hi : i < out.length := (List.getElem?_eq_some_iff.1 hb).1
        have hne : out ≠ [] := List.ne_nil_of_length_pos (by omega)
        have hle := hlaid.start_le hne
        rw [if_neg hne] at hfill
        refine ⟨by omega, fun hlt => ?_⟩
        rw [← hbytes _ hlt, bytes, hlaid.shown i b hb]
      · intro hall
        by_cases hne : out = []
        · rw [if_pos hne] at hfill
          have hw : w₁.address = w.address := by rw [haddress, hne]; rfl
          refine ⟨?_, fun a _ => ?_⟩
          · by_cases hs : t.start ≤ t.fill
            · exact h.fill hk hr hs
            · omega
          · rw [bytes, hlaid.others a (by omega)]
        · obtain ⟨b, rest, rfl⟩ := List.exists_cons_of_ne_nil hne
          refine ⟨h.fill hk hr (hall 0 b rfl).1, fun a ha => ?_⟩
          rw [bytes]
          by_cases hin : w.address ≤ a ∧ a < w₁.address
          · have hi : a - w.address < (b :: rest).length := by omega
            have hb := List.getElem?_eq_getElem hi
            have hshown := hlaid.shown _ _ hb
            have hsame := (hall _ _ hb).2
            rw [Nat.add_sub_of_le hin.1] at hshown hsame
            rw [hshown, hsame ha]
          · exact hlaid.others a (by omega)

/-- At the end of the stream there is nothing to spoil. -/
theorem TakesBack.fill_of_atEnd (h : TakesBack bits bare act) (hk : w.Kept t)
    (hend : w.address = t.fill) (hr : act (t, w) = .error e (t', w')) : t'.fill = t.fill := by
  refine ((h.untouched_iff hk hr).2 fun i b hb => ?_).1
  have hlike := h.resembles (t, w)
  have hreaches := h.reaches hk
  rw [hr] at hlike
  generalize hbare : bare (t, w) = r at hlike hreaches
  cases hlike with
  | error bytes start le fill =>
    cases hreaches with
    | error hd hlaid =>
      rw [putBytes_eq hbare hd hlaid] at hb
      have hi := (List.getElem?_eq_some_iff.1 hb).1
      have hstart := hlaid.start_le (List.ne_nil_of_length_pos (by omega))
      exact ⟨by omega, by omega⟩

/-- What stands as a whole or not at all, and sends the writer back to where it was. -/
theorem takesBack_of_putsWhole {n : Nat}
    (hreaches : ∀ {t w}, w.Kept t → Reaches bits t w (bare (t, w)))
    (hlike : ∀ s, Resembles (bare s) (act s)) (hputs : PutsWhole n act)
    (hback : ∀ {t w e t' w'}, w.Kept t → act (t, w) = .error e (t', w') →
      w'.address = w.address ∧ w'.bits = w.bits) : TakesBack bits bare act := by
  refine ⟨hreaches, hlike, fun hk hr => ?_, fun hk hr hle => ?_⟩
  · have hy := hputs hk
    rw [hr] at hy
    cases hy with
    | error hs _ => exact ⟨(hback hk hr).1, (hback hk hr).2, hs.bounds.1⟩
  · have hy := hputs hk
    rw [hr] at hy
    cases hy with
    | error _ hq => exact (hq hle).1

/-- What is refused before it is begun. -/
theorem takesBack_throw (bits : List Bool) (e : ε) (e' : ε') :
    TakesBack bits (throw e : Writing ε Unit) (throw e' : Writing ε' Unit) := by
  refine takesBack_of_putsWhole (fun _ => .error List.nil_prefix (laid_nil _ _)) (fun s => ?_)
    (putsWhole_throw e' 0) (fun _ hr => ?_)
  · exact .error (fun _ => rfl) rfl (Nat.le_refl _) (.inl rfl)
  · cases hr
    exact ⟨rfl, rfl⟩

theorem error_of_mapError {ε₁ α : Type} {act : Writing ε α} {f : ε → ε₁} {s s' : Tape × Writer}
    {e : ε₁}
    (h : act.mapError f s = .error e s') : ∃ e, act s = .error e s' := by
  rw [mapError] at h
  split at h
  · cases h
  · cases h
    exact ⟨_, ‹_›⟩

/-- Errors of another kind change nothing else. -/
theorem TakesBack.mapBare {ε₁ : Type} (h : TakesBack bits bare act) (f : ε → ε₁) :
    TakesBack bits (bare.mapError f) act := by
  refine ⟨fun hk => ?_, fun s => (h.resembles s).mapBare f, h.back, h.fill⟩
  have hreaches := h.reaches hk
  rw [Writing.mapError]
  generalize bare _ = r at hreaches
  cases hreaches with
  | ok hl => exact .ok hl
  | error hd hl => exact .error hd hl

theorem TakesBack.mapError {ε₁ : Type} (h : TakesBack bits bare act) (f : ε' → ε₁) :
    TakesBack bits bare (act.mapError f) := by
  refine ⟨h.reaches, fun s => (h.resembles s).mapError f, fun hk hr => ?_, fun hk hr => ?_⟩
  · obtain ⟨e, hr⟩ := error_of_mapError hr
    exact h.back hk hr
  · obtain ⟨e, hr⟩ := error_of_mapError hr
    exact h.fill hk hr

end Writing

namespace Cursor

open Writing

theorem takesBack_writeBits (word : UInt64) (count : Nat) :
    TakesBack (Bits.ofNat (min count 64) word.toNat)
      ((Bits.ofNat (min count 64) word.toNat).forM writeBit) (writeBits word count) := by
  refine takesBack_of_putsWhole (reaches_bits _) (resembles_writeBitList _)
    (putsWhole_writeBits word count) fun _ hr => ?_
  obtain ⟨t, c, hback⟩ := back_of_wholly hr
  subst hback
  exact ⟨rfl, rfl⟩

theorem takesBack_writeByte (b : UInt8) :
    TakesBack (Bits.ofByte b) (bareByte b) (writeByte b) := by
  refine takesBack_of_putsWhole (reaches_bareByte b) (resembles_writeByte b)
    (putsWhole_writeByte b) ?_
  intro t w e t' w' hk hr
  rw [writeByte] at hr
  by_cases hwhole : (w.aligned && !w.stopsWithin t) = true
  · rw [if_pos hwhole] at hr
    cases hc : w.checkStore t with
    | error e' =>
      rw [store_of_error hc] at hr
      cases hr
      exact ⟨rfl, rfl⟩
    | ok u =>
      rw [hk.store_of_ok hc] at hr
      cases hr
  · rw [if_neg hwhole] at hr
    obtain ⟨t, c, hback⟩ := back_of_wholly hr
    subst hback
    exact ⟨rfl, rfl⟩

theorem takesBack_stageWhole (kind : IntKind) (word : UInt64) :
    TakesBack (Bits.ofBytes (kind.bytes word)) ((kind.bytes word).forM bareByte)
      (stageWhole kind word) := by
  refine takesBack_of_putsWhole (reaches_bytes _) (resembles_stageWhole kind word)
    (putsWhole_stageWhole kind word) fun _ hr => ?_
  obtain ⟨t, c, hback⟩ := back_of_wholly hr
  subst hback
  exact ⟨rfl, rfl⟩

end Cursor

end Transcoder

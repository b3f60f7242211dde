import Transcoder.Proofs.Block.Offset
import Transcoder.Proofs.Cursor.Ready

/-!
# What finishing a block does to the tape

A block is finished through a writer on its header, which is gone then, and leaves the one that
wrote the body where it is, unless the header was made shorter: then the stream ends before that
writer, and the writer goes there. However far it gets, finishing adds pages at most, and only if
the page of the header was given up is it refused as on a broken tape.

Results:
* `through_finishBlock`: what is stored and cut off, and what is not to blame for a refusal.
* `finishes_finishBlock`: what is left, whether the block is finished or refused.
-/
namespace Transcoder

/-- The error is for no reason that is kept away from the writer. -/
def Cursor.Spared (c : Writer) (t : Tape) (e : EncodeError) : Prop :=
  ∀ ⦃fit : {role : Role} → Cursor role → Tape → Prop⦄ ⦃bad : StreamError → Prop⦄,
    Guard fit bad → fit c t → ¬e.Of bad

/-- What an action through the writer `c` makes of the tape and of the writer `w` beside it: bytes
are stored, and at the end the stream may be cut off, and then `w` is moved there. If the action is
refused, it is for no reason that is kept away from `c`. -/
inductive Through (t : Tape) (c w : Writer) {α : Type} :
    EStateM.Result EncodeError (Tape × Writer) α → Prop
  | ok {a : α} {t' : Tape} {c' : Writer} (h : Stores (t, c) (t', c')) :
    Through t c w (.ok a (t', w))
  | cut {a : α} {t' : Tape} {c' : Writer} {address : Nat} (h : Stores (t, c) (t', c'))
    (ha : t'.start ≤ address) :
    Through t c w (.ok a ({ t' with fill := min t'.fill address },
      w.seek { t' with fill := min t'.fill address } address))
  | error {e : EncodeError} {t' : Tape} {c' : Writer} (h : Stores (t, c) (t', c'))
    (he : c.Spared t e) : Through t c w (.error e (t', w))

section

variable {t t' : Tape} {c c' w : Writer} {α β : Type}

/-- What was done before comes on top. -/
theorem Through.after {r : EStateM.Result EncodeError (Tape × Writer) α} (h : Through t' c' w r)
    (hs : Stores (t, c) (t', c')) : Through t c w r := by
  cases h with
  | ok h => exact .ok (hs.trans h)
  | cut h ha => exact .cut (hs.trans h) ha
  | error h he => exact .error (hs.trans h) fun _ _ g hc => he g (g.stores hc hs)

/-- An action through `c`, and then something else. -/
theorem through_bind {act : Writing EncodeError α} {next : α × Writer → Writing EncodeError β}
    (hk : c.Kept t) (hseries : Writing.Series act)
    (hsafe : ∀ e s, act (t, c) = .error e s → c.Spared t e)
    (hnext : ∀ a t' c', Stores (t, c) (t', c') → Through t c w (next (a, c') (t', w))) :
    Through t c w ((Writing.through c act >>= next) (t, w)) := by
  have hy := hseries hk
  generalize hr : act (t, c) = r at hy
  cases hy with
  | @ok a t' c' h _ =>
    have hact : Writing.through c act (t, w) = .ok (a, c') (t', w) := by
      simp only [Writing.through, hr]
    rw [bind_of_ok hact]
    exact hnext a t' c' h
  | @error e t' c' h _ =>
    have hact : Writing.through c act (t, w) = .error e (t', w) := by
      simp only [Writing.through, hr]
    rw [bind_of_error hact]
    exact .error h (hsafe e _ hr)

variable {header : OpenHeader}

/-- The stream is cut off where the header has got to. -/
theorem through_cut (t : Tape) (c w : Writer) : Through t c w ((do
    Framing.truncateAt c.address
    Framing.seekTo c.address : Writing EncodeError Unit) (t, w)) := by
  by_cases hlt : c.address < t.start
  · have hcut : Framing.truncateAt c.address (t, w) =
        .error (.stream (.brokenCursor c.address)) (t, w) := by
      simp only [Framing.truncateAt, Tape.truncate, if_pos hlt]
    rw [bind_of_error hcut]
    refine .error (.nil _) fun fit bad g hc => ?_
    rintro ⟨hbad⟩
    exact g.cut hc (.inr rfl) (if_pos hlt) hbad
  · have hcut : Framing.truncateAt c.address (t, w) =
        .ok () ({ t with fill := min t.fill c.address }, w) := by
      simp only [Framing.truncateAt, Tape.truncate, if_neg hlt]
    rw [bind_of_ok hcut]
    exact .cut (.nil _) (Nat.le_of_not_lt hlt)

theorem through_shorten (hk : header.cursor.Kept t) (size : Nat) (w : Writer) :
    Through t header.cursor w (Framing.shorten header size (t, w)) := by
  rw [Framing.shorten]
  refine through_bind hk (Cursor.puts_writeSize size).series
    (fun e s hr _ _ g hc => g.safe_writeSize size hc hr) fun _ t₁ c₁ h₁ => ?_
  have hk₁ := (h₁.keeps hk).1
  by_cases hlt : c₁.address < header.bodyStart
  · simp only [if_pos hlt]
    refine Through.after ?_ h₁
    refine through_bind hk₁ (Cursor.puts_moveBlock header.bodyStart size).series
      (fun e s hr _ _ g hc => ?_) fun _ t₂ c₂ h₂ => (through_cut t₂ c₂ w).after h₂
    exact g.not_of_moveBlock hc (g.ahead hc (Nat.le_of_lt hlt)) hr
  · simp only [if_neg hlt]
    exact .ok h₁

/-- Finishing a block goes through its header. -/
theorem through_finishBlock (hk : header.cursor.Kept t) (f : Framing) (w : Writer) :
    Through t header.cursor w (f.finishBlock header (t, w)) := by
  rw [Framing.finishBlock_eq]
  generalize bodySize header.start w.address header.reserved = size
  have hdiscard {next : Writing EncodeError Nat} :
      (discard (Writing.through header.cursor (Cursor.writePaddedSize size header.reserved)) >>=
        fun _ => next) (t, w) = (Writing.through header.cursor
          (Cursor.writePaddedSize size header.reserved) >>= fun _ => next) (t, w) := by
    cases hr : Writing.through header.cursor (Cursor.writePaddedSize size header.reserved) (t, w)
    with
    | ok _ _ => rw [bind_of_ok hr, bind_of_ok (discard_of_ok hr)]
    | error _ _ => rw [bind_of_error hr, bind_of_error (discard_of_error hr)]
  rw [hdiscard]
  refine through_bind hk (Cursor.puts_writePaddedSize size header.reserved).series
    (fun e s hr _ _ g hc => g.safe_writePaddedSize size header.reserved hc hr)
    fun _ t₁ c₁ h₁ => ?_
  cases f.minimize with
  | false => exact .ok h₁
  | true =>
    -- the header is written once more, from where it begins
    have h₀ : Stores (t, header.cursor) (t₁, header.cursor) := .reset (.nil _) h₁
    have hrest := (through_shorten (h₀.keeps hk).1 size w).after h₀
    rw [if_pos rfl]
    generalize hr : Framing.shorten header size (t₁, w) = r at hrest
    cases hrest with
    | ok h =>
      rw [bind_of_ok hr]
      exact .ok h
    | cut h ha =>
      rw [bind_of_ok hr]
      exact .cut h ha
    | error h he =>
      rw [bind_of_error hr]
      exact .error h he

end

/-- The tape and the writer that an action leaves, refused or not. -/
def Writing.leaves {ε α : Type} (act : Writing ε α) (s : Tape × Writer) : Tape × Writer :=
  match act s with
  | .ok _ s' => s'
  | .error _ s' => s'

/-- What finishing a block makes of the tape and the writer: the stream may have been cut off, and
then the writer was moved. -/
inductive Finishes (t : Tape) (w : Writer) : Tape × Writer → Prop
  | stays {t' : Tape} (hg : t.Grows t') (hf : t.fill ≤ t'.fill) : Finishes t w (t', w)
  | cut {t' : Tape} (hg : t.Grows t') (address : Nat) : Finishes t w (t', w.seek t' address)

theorem finishes_finishBlock {t : Tape} {header : OpenHeader} (hk : header.cursor.Kept t)
    (f : Framing) (w : Writer) : Finishes t w (Writing.leaves (f.finishBlock header) (t, w)) := by
  have h := through_finishBlock hk f w
  rw [Writing.leaves]
  generalize f.finishBlock header (t, w) = r at h
  cases h with
  | ok h | error h _ => exact .stays (h.keeps hk).2 h.fill_le
  | cut h _ => exact .cut ((h.keeps hk).2.trans (Tape.refill_grows _ _)) _

end Transcoder

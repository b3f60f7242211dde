import Transcoder.Proofs.Machine.Whole
import Transcoder.Proofs.Schema.Meaning

/-!
# Visits of nodes

A machine that visits a node does what the node means and leaves the rest of its stack alone: it
goes on behind the piece that was transcoded, or it fails as the meaning says. The meaning knows how
many tasks stand below the node, so it also says where the stack is full.

Results:
* `Machine.performs_visit`: a visit of a node performs its meaning.
-/
namespace Transcoder

/-! ## Arriving -/

namespace Machine

variable {r : Rules} {input : List UInt8} {m m' m'' : Machine} {res : Except Failure Machine}

/-- Where a machine stands. -/
def place (m : Machine) : Place := ⟨m.bounds, m.position, m.output.length⟩

/-- The machine behind a piece. -/
def took (r : Rules) (m : Machine) (p : Piece) : Machine :=
  { m with
    position := p.position
    output := m.output ++ p.output
    values := if r.collect then m.values ++ p.values.toArray else m.values }

theorem place_took (p : Piece) : (m.took r p).place = m.place.after p := by
  simp only [place, took, Place.after, List.length_append]

theorem took_append (p q : Piece) : m.took r (p.append q) = (m.took r p).took r q := by
  simp only [took, Piece.append, List.append_assoc]
  split <;> simp

/-- To do nothing is to stay. -/
theorem map_nothing : (Meaning.nothing m.place).map (m.took r) = .ok m := by
  simp [Meaning.nothing, Except.map, took, place]

/-- The machine goes to where `res` says, or fails as it says. -/
def Arrives (r : Rules) (src : Source) (m : Machine) : Except Failure Machine → Prop
  | .ok m' => ∃ n, Goes r src n m m'
  | .error x => ∃ n m' m'', Goes r src n m m' ∧ step r src m' = .error x m''

namespace Arrives

variable {src : Source}

theorem refl (m : Machine) : Arrives r src m (.ok m) := ⟨0, .none m⟩

theorem step (h : Machine.step r src m = .ok .advanced m') (k : Arrives r src m' res) :
    Arrives r src m res := by
  cases res with
  | ok m₁ =>
    obtain ⟨n, hg⟩ := k
    exact ⟨n + 1, .step h hg⟩
  | error x =>
    obtain ⟨n, m₁, m₂, hg, hs⟩ := k
    exact ⟨n + 1, m₁, m₂, .step h hg, hs⟩

theorem fail {x : Failure} (h : Machine.step r src m = .error x m') :
    Arrives r src m (.error x) := ⟨0, m, m', .none m, h⟩

theorem trans (h : Arrives r src m (.ok m')) (k : Arrives r src m' res) : Arrives r src m res := by
  obtain ⟨n, hg⟩ := h
  induction hg with
  | none => exact k
  | step hs _ ih => exact .step hs (ih k)

end Arrives

/-- A piece of a step leads to where `res` says, or fails as it says. -/
def Leads (r : Rules) (src : Source) (res : Except Failure Machine) :
    EStateM.Result Failure Machine Unit → Prop
  | .ok _ m' => Arrives r src m' res
  | .error x _ => res = .error x

/-- No value is in the making, and no host answers. -/
structure Idle (m : Machine) : Prop where
  pending : m.pending = none
  hook : m.hook = none

theorem Idle.took (h : m.Idle) (p : Piece) : (m.took r p).Idle := ⟨h.pending, h.hook⟩

theorem Idle.step {src : Source} (h : m.Idle) (task : Task) :
    Machine.step r src { m with tasks := task :: m.tasks } = doTask r src task m :=
  step_of_task (m := { m with tasks := task :: m.tasks }) h.pending rfl

/-- With `k` tasks below it, the task does what `f` says. -/
def Performs (r : Rules) (input : List UInt8) (k : Nat) (task : Task) (f : Meaning) : Prop :=
  ∀ m : Machine, m.Idle → m.tasks.length = k →
    Arrives r (.whole input) { m with tasks := task :: m.tasks } ((f m.place).map (m.took r))

theorem arrives_task {src : Source} (h : m.Idle) {task : Task} {turn : Turn Unit}
    (ht : doTask r src task m = (do turn; return .advanced : Turn Progress) m)
    (k : Leads r src res (turn m)) :
    Arrives r src { m with tasks := task :: m.tasks } res := by
  have hs : step r src { m with tasks := task :: m.tasks } =
      (do turn; return .advanced : Turn Progress) m := (h.step task).trans ht
  cases he : turn m with
  | ok u m' =>
    rw [he] at k
    rw [bind_of_ok he] at hs
    exact .step hs k
  | error x m' =>
    rw [he] at k
    rw [bind_of_error he] at hs
    exact k ▸ .fail hs

/-- The rest of a piece is done behind it. -/
theorem map_follow (p : Piece) (f : Meaning) : (Meaning.follow p f m.place).map (m.took r) =
    (f (m.took r p).place).map ((m.took r p).took r) := by
  rw [Meaning.follow, place_took]
  cases f (m.place.after p) with
  | error x => rfl
  | ok q => exact congrArg Except.ok (took_append p q)

/-! ## Tasks -/

variable {k : Nat}

section Body

variable {id : Nat} {task : Task} {f : Meaning}

/-- A body is done on top of a task, if there is room for it, and the task does the rest. -/
theorem leads_visit (hf : Performs r input (k + 1) (.visit id) f) (hi : m.Idle)
    (hm : m.tasks.length = k)
    (hx : ∀ x, Meaning.within r.maxNesting (k + 1) f m.place = .error x → res = .error x)
    (hp : ∀ p, Meaning.within r.maxNesting (k + 1) f m.place = .ok p →
      Arrives r (.whole input) { m.took r p with tasks := task :: m.tasks } res) :
    Leads r (.whole input) res (pushTask r (.visit id) { m with tasks := task :: m.tasks }) := by
  have hlen : { m with tasks := task :: m.tasks }.tasks.length = k + 1 := congrArg (· + 1) hm
  by_cases hk : k + 1 < r.maxNesting
  · have hw : Meaning.within r.maxNesting (k + 1) f m.place = f m.place := if_pos hk
    have hb := hf { m with tasks := task :: m.tasks } ⟨hi.pending, hi.hook⟩ hlen
    rw [pushTask_of_room (hlen ▸ Nat.not_le.2 hk)]
    rw [hw] at hx hp
    rw [show f (place { m with tasks := task :: m.tasks }) = f m.place from rfl] at hb
    cases he : f m.place with
    | error x =>
      rw [he] at hb
      rw [hx x he]
      exact hb
    | ok p =>
      rw [he] at hb
      exact Arrives.trans hb (hp p he)
  · rw [pushTask_of_full (hlen ▸ Nat.not_lt.1 hk)]
    exact hx _ (if_neg hk)

/-- A task goes back on the stack, a body is done on top of it, and the task does the rest. -/
theorem leads_again (hf : Performs r input (k + 1) (.visit id) f) (hi : m.Idle)
    (hm : m.tasks.length = k)
    (hx : ∀ x, Meaning.within r.maxNesting (k + 1) f m.place = .error x → res = .error x)
    (hp : ∀ p, Meaning.within r.maxNesting (k + 1) f m.place = .ok p →
      Arrives r (.whole input) { m.took r p with tasks := task :: m.tasks } res) :
    Leads r (.whole input) res ((do putBack task; pushTask r (.visit id) : Turn Unit) m) :=
  leads_visit hf hi hm hx hp

end Body

theorem performs_sequence {f : Nat → Meaning} {children : List Nat}
    (hf : ∀ c ∈ children, Performs r input (k + 1) (.visit c) (f c)) :
    Performs r input k (.sequence children)
      (.inOrder (children.map fun c => .within r.maxNesting (k + 1) (f c))) := by
  induction children with
  | nil =>
    intro m hi hm
    rw [List.map_nil, Meaning.inOrder, map_nothing]
    exact arrives_task hi rfl (.refl m)
  | cons c rest ih =>
    intro m hi hm
    have hrest := ih fun c hc => hf c (List.mem_cons_of_mem _ hc)
    refine arrives_task hi rfl (leads_again (hf c List.mem_cons_self) hi hm ?_ ?_)
    · intro x hx
      simp only [List.map_cons, Meaning.inOrder, hx]
      rfl
    · intro p hp
      simp only [List.map_cons, Meaning.inOrder, hp, map_follow]
      exact hrest _ (hi.took p) hm

/-- A task is put on the stack, if there is room for it, and does what it means. -/
theorem leads_push {task : Task} {f : Meaning} (hm : m.tasks.length = k)
    (h : Arrives r (.whole input) { m with tasks := task :: m.tasks } ((f m.place).map (m.took r))) :
    Leads r (.whole input) ((Meaning.within r.maxNesting k f m.place).map (m.took r))
      (pushTask r task m) := by
  unfold Meaning.within
  by_cases hk : k < r.maxNesting
  · rw [if_pos hk, pushTask_of_room (hm ▸ Nat.not_le.2 hk)]
    exact h
  · rw [if_neg hk, pushTask_of_full (hm ▸ Nat.not_lt.1 hk)]
    rfl

/-- A counted loop at a place where no repetition began, or without repetitions left. -/
theorem arrives_loop {id body : Nat} {f : Meaning} (hf : Performs r input (k + 1) (.visit body) f)
    (n : Nat) {last : Option Position} (hi : m.Idle) (hm : m.tasks.length = k)
    (hl : n = 0 ∨ last ≠ some (.ofByte m.position)) :
    Arrives r (.whole input) { m with tasks := .loop id body n last :: m.tasks }
      ((Meaning.repeated id (.within r.maxNesting (k + 1) f) n m.place).map (m.took r)) := by
  induction n generalizing m last with
  | zero =>
    rw [Meaning.repeated, map_nothing]
    exact arrives_task hi rfl (.refl m)
  | succ n ih =>
    have hl : last ≠ some (.ofByte m.position) := hl.resolve_left (Nat.succ_ne_zero n)
    have hs : nextRepetition r id body last (n + 1) m = (do
        putBack (.loop id body n (some (.ofByte m.position)))
        pushTask r (.visit body) : Turn Unit) m := if_neg hl
    refine arrives_task hi rfl ?_
    rw [hs]
    refine leads_again hf hi hm ?_ ?_
    · intro x hx
      cases n with
      | zero =>
        rw [Meaning.repeated, hx]
        rfl
      | succ n =>
        simp only [Meaning.repeated, hx]
        rfl
    · intro p hp
      cases n with
      | zero =>
        rw [Meaning.repeated, hp]
        exact arrives_task (hi.took p) rfl (.refl _)
      | succ n =>
        simp only [Meaning.repeated, hp]
        by_cases he : p.position = m.place.position
        · -- the next repetition would begin where this one did
          have heq : some (Position.ofByte m.position) = some (.ofByte (m.took r p).position) :=
            congrArg (fun a => some (Position.ofByte a)) he.symm
          have hs : nextRepetition r id body (some (.ofByte m.position)) (n + 1) (m.took r p) =
              .error (.emptyLoopBody id) (m.took r p) := if_pos heq
          rw [if_pos he]
          refine arrives_task (hi.took p) rfl ?_
          rw [hs]
          rfl
        · rw [if_neg he, map_follow]
          refine ih (hi.took p) hm (.inr fun h => he ?_)
          simp only [Option.some.injEq, Position.ofByte, Position.mk.injEq, took] at h
          show p.position = m.position
          omega

/-- Before the end, a loop to the end begins a repetition. -/
theorem doTask_untilEof {id body : Nat} {last : Option Position}
    (hs : ¬(Source.whole input).stop m.bounds ≤ .ofByte m.position)
    (hl : last ≠ some (.ofByte m.position)) :
    doTask r (.whole input) (.untilEof id body last) m = (do
      (do
        putBack (.untilEof id body (some (.ofByte m.position)))
        pushTask r (.visit body) : Turn Unit)
      return .advanced : Turn Progress) m := by
  have ha : ¬((Source.whole input).bytes.length - m.position = 0 ∧ m.bounds = []) := by
    rintro ⟨h1, h2⟩
    rw [h2, Source.stop_whole, List.headD_nil, Position.le_def] at hs
    simp only [Source.whole, Position.ofByte] at h1 hs
    omega
  simp only [doTask, repeatToEnd]
  rw [if_neg hs, if_neg hl, if_neg ha]
  rfl

/-- A loop to the end at a place where no repetition began. -/
theorem arrives_toEnd {id body : Nat} {f : Meaning} (hf : Performs r input (k + 1) (.visit body) f)
    (hstep : f.InStep input) {last : Option Position} (hi : m.Idle) (hm : m.tasks.length = k)
    (hl : last ≠ some (.ofByte m.position)) :
    Arrives r (.whole input) { m with tasks := .untilEof id body last :: m.tasks }
      ((Meaning.toEnd input id (.within r.maxNesting (k + 1) f) m.place).map (m.took r)) := by
  obtain ⟨g, hg⟩ : ∃ g, g = Meaning.within r.maxNesting (k + 1) f := ⟨_, rfl⟩
  obtain ⟨place, hplace⟩ : ∃ place, place = m.place := ⟨_, rfl⟩
  rw [← hg, ← hplace]
  fun_induction Meaning.toEnd input id g place generalizing m last with
  | case1 place hs =>
    subst hplace
    have ht : doTask r (.whole input) (.untilEof id body last) m = .ok .advanced m := if_pos hs
    rw [map_nothing]
    exact .step ((hi.step _).trans ht) (.refl m)
  | case2 place hs x hx =>
    subst hplace hg
    refine arrives_task hi (doTask_untilEof hs hl) (leads_again hf hi hm ?_ ?_)
    · intro y hy
      rw [hx] at hy
      exact hy ▸ rfl
    · intro p hp
      simp [hx] at hp
  | case3 place hs p hp hle =>
    subst hplace hg
    refine arrives_task hi (doTask_untilEof hs hl) (leads_again hf hi hm ?_ ?_)
    · intro x hx
      simp [hp] at hx
    · intro q hq
      obtain rfl := Except.ok.inj (hp.symm.trans hq)
      -- the next repetition would begin where this one did
      have he : p.position = m.position :=
        Nat.le_antisymm hle (Meaning.inStep_within hstep _ _ hp).position_le
      have hs' : ¬(Source.whole input).stop (m.took r p).bounds ≤ .ofByte (m.took r p).position := by
        rw [took, he]
        exact hs
      have ht : doTask r (.whole input) (.untilEof id body (some (.ofByte m.position)))
          (m.took r p) = .error (.emptyLoopBody id) (m.took r p) := by
        have heq : some (Position.ofByte m.position) = some (.ofByte (m.took r p).position) :=
          congrArg (fun a => some (Position.ofByte a)) he.symm
        simp only [doTask, repeatToEnd]
        rw [if_neg hs', if_pos heq]
      exact .fail (((hi.took p).step _).trans ht)
  | case4 place hs p hp hle ih =>
    subst hplace hg
    refine arrives_task hi (doTask_untilEof hs hl) (leads_again hf hi hm ?_ ?_)
    · intro x hx
      simp [hp] at hx
    · intro q hq
      obtain rfl := Except.ok.inj (hp.symm.trans hq)
      have hn : some (Position.ofByte m.position) ≠ some (.ofByte (m.took r p).position) := by
        intro h
        simp only [Option.some.injEq, Position.ofByte, Position.mk.injEq, took] at h
        exact hle (by show p.position ≤ m.position; omega)
      have h := ih (hi.took p) hm hn (place_took p).symm
      rw [← place_took (r := r)] at h
      exact (map_follow p (Meaning.toEnd input id (.within r.maxNesting (k + 1) f))).symm ▸ h

/-! ## Numbers and blocks -/

section Number

variable {id : Nat} {goal : Goal} {kind : IntKind}

/-- The step after a number was begun. -/
theorem step_number (hi : m.Idle) :
    step r (.whole input) { m with pending := some ⟨goal, .start kind, m.position⟩ } =
      readOn r (.whole input) ⟨goal, .start kind, m.position⟩ m := by
  have hm : { m with pending := none } = m := by rw [← hi.pending]
  exact (step_of_pending rfl).trans (congrArg (readOn r (.whole input) _) hm)

/-- A visit that begins a number reads it in the next step. -/
theorem arrives_number (hi : m.Idle)
    (hv : visit r id m = .ok () { m with pending := some ⟨goal, .start kind, m.position⟩ })
    {word : UInt64} {position : Nat} (hn : Meaning.number input kind m.place = .ok (word, position))
    (h : Leads r (.whole input) res
      (complete r (.whole input) ⟨goal, .start kind, m.position⟩ word { m with position })) :
    Arrives r (.whole input) { m with tasks := .visit id :: m.tasks } res := by
  have hs : readOn r (.whole input) ⟨goal, .start kind, m.position⟩ m = (do
      complete r (.whole input) ⟨goal, .start kind, m.position⟩ word
      return .advanced : Turn Progress) { m with position } := by
    unfold Meaning.number at hn
    split at hn
    · rename_i hr
      simp only [Except.ok.injEq, Prod.mk.injEq] at hn
      obtain ⟨rfl, rfl⟩ := hn
      rw [readOn_whole]
      simp only [place] at hr
      simp only [hr]
    · simp at hn
  rw [← step_number hi] at hs
  refine .step ((hi.step _).trans (bind_of_ok hv)) ?_
  cases he : complete r (.whole input) ⟨goal, .start kind, m.position⟩ word { m with position } with
  | ok u m' =>
    rw [he] at h
    rw [bind_of_ok he] at hs
    exact .step hs h
  | error x m' =>
    rw [he] at h
    rw [bind_of_error he] at hs
    exact h ▸ .fail hs

theorem arrives_number_error (hi : m.Idle)
    (hv : visit r id m = .ok () { m with pending := some ⟨goal, .start kind, m.position⟩ })
    {x : Failure} (hn : Meaning.number input kind m.place = .error x) :
    Arrives r (.whole input) { m with tasks := .visit id :: m.tasks } (.error x) := by
  have hs : ∃ m', readOn r (.whole input) ⟨goal, .start kind, m.position⟩ m = .error x m' := by
    unfold Meaning.number at hn
    split at hn
    · simp at hn
    · rename_i hr
      simp only [Except.error.injEq] at hn
      rw [readOn_whole]
      simp only [place] at hr
      simp only [hr, hn]
      exact ⟨_, rfl⟩
  obtain ⟨m', hs⟩ := hs
  rw [← step_number hi] at hs
  exact .step ((hi.step _).trans (bind_of_ok hv)) (.fail hs)

end Number

/-- A number that was read is written and recorded. -/
theorem passOn_eq (goal : Goal) (kind : IntKind) (word : UInt64) (start : Nat) :
    passOn r ⟨goal, .start kind, start⟩ word m =
      match Meaning.emit kind word start m.place with
      | .ok p => .ok () (m.took r p)
      | .error x => .error x m := by
  have hk := PartialValue.kind_start kind
  unfold passOn Meaning.emit
  simp only [hk]
  by_cases hf : kind.fits word = true
  · by_cases ha : m.output.length + (kind.bytes word).length ≤ addressLimit
    · have hw : writeValue kind word m =
          .ok () { m with output := m.output ++ kind.bytes word } := by
        rw [writeValue, if_pos hf, if_pos ha]
      rw [bind_of_ok hw, if_pos hf]
      rw [if_pos (show m.place.address + (kind.bytes word).length ≤ addressLimit from ha)]
      simp only [record, took, place]
      split <;> rfl
    · have hw : writeValue kind word m = .error (.ofStream outOfSpace) m := by
        rw [writeValue, if_pos hf, if_neg ha]
      rw [bind_of_error hw, if_pos hf]
      rw [if_neg (show ¬m.place.address + (kind.bytes word).length ≤ addressLimit from ha)]
  · have hw : writeValue kind word m = .error (.valueOutOfRange kind word) m := by
      rw [writeValue, if_neg hf]
    rw [bind_of_error hw, if_neg hf]

section Value

variable {id : Nat} {kind : IntKind}

/-- A number is read and written, and then `next` does what `rest` says. -/
theorem arrives_value (goal : Goal) (next : UInt64 → Turn Unit) {rest : UInt64 → Meaning}
    (hi : m.Idle)
    (hv : visit r id m = .ok () { m with pending := some ⟨goal, .start kind, m.position⟩ })
    (hc : ∀ word, complete r (.whole input) ⟨goal, .start kind, m.position⟩ word = (do
      passOn r ⟨goal, .start kind, m.position⟩ word
      next word))
    (hk : ∀ word p, Leads r (.whole input)
      ((rest word (m.took r p).place).map ((m.took r p).took r)) (next word (m.took r p))) :
    Arrives r (.whole input) { m with tasks := .visit id :: m.tasks }
      ((Meaning.value input kind rest m.place).map (m.took r)) := by
  cases hw : Meaning.number input kind m.place with
  | error x =>
    simp only [Meaning.value, hw]
    exact arrives_number_error hi hv hw
  | ok read =>
    obtain ⟨word, position⟩ := read
    refine arrives_number hi hv hw ?_
    rw [hc]
    have hp := passOn_eq (r := r) (m := { m with position }) goal kind word m.position
    cases he : Meaning.emit kind word m.position (place { m with position }) with
    | error x =>
      have he' : Meaning.emit kind word m.place.position { m.place with position } = .error x := he
      simp only [he] at hp
      rw [bind_of_error hp]
      simp only [Meaning.value, hw, he']
      rfl
    | ok p =>
      have he' : Meaning.emit kind word m.place.position { m.place with position } = .ok p := he
      simp only [he] at hp
      rw [bind_of_ok hp]
      simp only [Meaning.value, hw, he', map_follow]
      exact hk word p

theorem performs_value (hn : r.schema.node? id = some (.value kind)) :
    Performs r input k (.visit id) (.value input kind fun _ => .nothing) := by
  intro m hi _
  refine arrives_value .value (fun _ => pure ()) hi ?_ ?_ ?_
  · rw [visit, hn]
    rfl
  · intro word
    exact (bind_pure_unit).symm
  · intro word p
    rw [map_nothing]
    exact .refl _

theorem performs_loop {body : Nat} {f : Meaning}
    (hn : r.schema.node? id = some (.loop kind body))
    (hf : Performs r input (k + 1) (.visit body) f) :
    Performs r input k (.visit id) (.value input kind fun n =>
      .within r.maxNesting k (.repeated id (.within r.maxNesting (k + 1) f) n.toNat)) := by
  intro m hi hm
  refine arrives_value (.loopCount id body)
    (fun word => pushTask r (.loop id body word.toNat none)) hi ?_ (fun word => rfl)
    fun word p => ?_
  · rw [visit, hn]
    rfl
  · exact leads_push hm (arrives_loop hf _ (hi.took p) hm (.inr nofun))

end Value

section Block

variable {id body : Nat} {f : Meaning}

/-- The header of a block that is opened next. -/
def nextHeader (r : Rules) (m : Machine) : OpenHeader :=
  ⟨{ grain := .byte, address := m.output.length }, r.framing.reserved⟩

/-- The machine inside a block that it has opened on both sides. -/
def opened (r : Rules) (m : Machine) (position : Nat) (stop : Position) : Machine :=
  { m with
    position
    bounds := stop :: m.bounds
    output := m.output ++ Leb128.padded r.framing.reserved 0 }

theorem place_opened (position : Nat) (stop : Position) : (m.opened r position stop).place =
    ⟨stop :: m.bounds, position, m.output.length + r.framing.reserved⟩ := by
  simp only [place, opened, List.length_append, Leb128.length_padded_of_pos r.reserved_pos]

/-- A block is closed where it should end, if its header can say its size. -/
theorem leads_finishBlock {position : Nat} {stop : Position} (p : Piece) :
    Leads r (.whole input) ((Meaning.framed r.framing stop p).map (m.took r))
      (finishBlock r ⟨position, stop⟩ (m.nextHeader r) ((m.opened r position stop).took r p)) := by
  obtain ⟨hs, hc⟩ := Framing.close_reserved r.reserved_pos m.output p.output
  unfold Meaning.framed
  by_cases he : Position.ofByte p.position = stop
  · have hl : leaveBlock ⟨position, stop⟩ ((m.opened r position stop).took r p) =
        .ok () { (m.opened r position stop).took r p with bounds := m.bounds } := if_pos he
    have hb : bodySize (m.nextHeader r).start ((m.opened r position stop).took r p).output.length
        (m.nextHeader r).reserved = p.output.length := hs
    have ho : r.framing.close ((m.opened r position stop).took r p).output (m.nextHeader r).start
        (m.nextHeader r).reserved = _ := hc
    rw [finishBlock, bind_of_ok hl, if_neg (fun h => h he)]
    simp only [closeBlock, hb, ho]
    by_cases hl : headerLimit r.framing.reserved < p.output.length
    · rw [if_pos hl, if_pos (show headerLimit (m.nextHeader r).reserved < _ from hl)]
      rfl
    · rw [if_neg hl, if_neg (show ¬headerLimit (m.nextHeader r).reserved < _ from hl)]
      exact .refl _
  · have hl : leaveBlock ⟨position, stop⟩ ((m.opened r position stop).took r p) =
        .error (.blockUnderrun stop (.ofByte p.position)) _ := if_neg he
    rw [finishBlock, bind_of_error hl, if_pos he]
    rfl

/-- A block that was entered is opened, its body done, and it is closed. -/
theorem leads_openBlock (hf : Performs r input (k + 1) (.visit body) f) (hi : m.Idle)
    (hm : m.tasks.length = k) (position : Nat) {stop : Position}
    (hle : stop ≤ m.bounds.headD .unbounded) :
    Leads r (.whole input) ((Meaning.window r.framing (.within r.maxNesting (k + 1) f) stop position
      m.place).map (m.took r)) ((do
      let header ← openBlock r
      pushTask r (.block ⟨position, stop⟩ header)
      pushTask r (.visit body) : Turn Unit) { m with position, bounds := stop :: m.bounds }) := by
  have hle : ¬¬stop ≤ m.place.bounds.headD .unbounded := fun h => h hle
  unfold Meaning.window
  simp only [if_neg hle]
  by_cases ha : addressLimit < m.place.address + r.framing.reserved
  · have ho : openBlock r { m with position, bounds := stop :: m.bounds } = .error _ _ :=
      if_neg (by rw [Leb128.length_padded_of_pos r.reserved_pos]; exact Nat.not_le.2 ha)
    rw [bind_of_error ho, if_pos ha]
    rfl
  · have ho : openBlock r { m with position, bounds := stop :: m.bounds } =
        .ok (m.nextHeader r) (m.opened r position stop) :=
      if_pos (by rw [Leb128.length_padded_of_pos r.reserved_pos]; exact Nat.not_lt.1 ha)
    have hi' : (m.opened r position stop).Idle := ⟨hi.pending, hi.hook⟩
    have hplace := place_opened (r := r) (m := m) position stop
    have hbody : Meaning.within r.maxNesting (k + 1) f (m.opened r position stop).place =
      Meaning.within r.maxNesting (k + 1) f ⟨stop :: m.place.bounds, position,
        m.place.address + r.framing.reserved⟩ := congrArg _ hplace
    rw [bind_of_ok ho, if_neg ha]
    by_cases hk : k < r.maxNesting
    · have hb : pushTask r (.block ⟨position, stop⟩ (m.nextHeader r)) (m.opened r position stop) =
          .ok () { m.opened r position stop with
            tasks := .block ⟨position, stop⟩ (m.nextHeader r) :: m.tasks } :=
        pushTask_of_room (by show ¬r.maxNesting ≤ m.tasks.length; omega)
      rw [bind_of_ok hb]
      refine leads_visit hf hi' hm ?_ ?_
      · intro x hx
        simp only [hbody.symm.trans hx]
        rfl
      · intro p hp
        simp only [hbody.symm.trans hp]
        exact arrives_task (hi'.took p) rfl (leads_finishBlock p)
    · have hb : pushTask r (.block ⟨position, stop⟩ (m.nextHeader r)) (m.opened r position stop) =
          .error (.nestingTooDeep r.maxNesting) (m.opened r position stop) :=
        pushTask_of_full (by show r.maxNesting ≤ m.tasks.length; omega)
      have hx : Meaning.within r.maxNesting (k + 1) f ⟨stop :: m.place.bounds, position,
          m.place.address + r.framing.reserved⟩ = .error (.nestingTooDeep r.maxNesting) :=
        if_neg (by omega)
      rw [bind_of_error hb]
      simp only [hx]
      rfl

theorem performs_block (hn : r.schema.node? id = some (.block body))
    (hf : Performs r input (k + 1) (.visit body) f) :
    Performs r input k (.visit id)
      (.block input r.framing (.within r.maxNesting (k + 1) f)) := by
  intro m hi hm
  have hv : visit r id m =
      .ok () { m with pending := some ⟨.blockSize body, .start .varuint32, m.position⟩ } := by
    rw [visit, hn]
    rfl
  cases hw : Meaning.number input .varuint32 m.place with
  | error x =>
    simp only [Meaning.block, hw]
    exact arrives_number_error hi hv hw
  | ok read =>
    obtain ⟨size, position⟩ := read
    refine arrives_number hi hv hw ?_
    obtain ⟨stop, hstop⟩ : ∃ stop,
        stop = Position.ofByte (min (position + size.toNat) addressLimit) := ⟨_, rfl⟩
    simp only [Meaning.block, hw, ← hstop]
    show Leads _ _ _ ((do
      let extent ← enterBlock (.whole input) size.toNat
      let header ← openBlock r
      pushTask r (.block extent header)
      pushTask r (.visit body) : Turn Unit) { m with position })
    by_cases hle : stop ≤ m.bounds.headD .unbounded
    · have he : enterBlock (.whole input) size.toNat { m with position } =
          .ok ⟨position, stop⟩ { m with position, bounds := stop :: m.bounds } := by
        rw [hstop] at hle ⊢
        exact if_pos hle
      rw [bind_of_ok he]
      exact leads_openBlock hf hi hm position hle
    · have he : enterBlock (.whole input) size.toNat { m with position } =
          .error (.pastBlockEnd stop (m.bounds.headD .unbounded)) { m with position } := by
        rw [hstop] at hle ⊢
        exact if_neg hle
      have hle : ¬stop ≤ m.place.bounds.headD .unbounded := hle
      rw [bind_of_error he, Meaning.window, if_pos hle]
      rfl

end Block

/-- A visit of a node does what the node means with that many tasks below it. -/
theorem performs_visit (r : Rules) (input : List UInt8) (k id : Nat) :
    Performs r input k (.visit id)
      (r.schema.transcodeWithin r.framing input r.maxNesting k id) := by
  induction id using Nat.strongRecOn generalizing k with
  | ind id ih =>
    cases hn : r.schema.node? id with
    | none =>
      intro m hi _
      rw [Schema.transcodeWithin_none hn]
      refine arrives_task hi rfl ?_
      have hv : visit r id m = .error (.invalidSchema (.unknownNode id)) m := by
        rw [visit, hn]
      rw [hv]
      rfl
    | some n =>
      have hchild (c : Nat) (hc : c ∈ n.children) := ih c (r.schema.child_lt hn hc) (k + 1)
      rw [Schema.transcodeWithin_eq hn]
      cases n with
      | value kind => exact performs_value hn
      | action action =>
        intro m hi _
        have hv : visit r id m = .ok () m := by
          simp only [visit, hn, runAction, hi.hook]
        rw [map_nothing]
        exact arrives_task hi rfl (hv ▸ .refl m)
      | sequence children =>
        intro m hi hm
        have hv : visit r id m = pushTask r (.sequence children) m := by rw [visit, hn]
        refine arrives_task hi rfl ?_
        rw [hv]
        exact leads_push hm (performs_sequence hchild m hi hm)
      | loop count body => exact performs_loop hn (hchild body (List.mem_singleton_self _))
      | block body => exact performs_block hn (hchild body (List.mem_singleton_self _))
      | untilEof body =>
        intro m hi hm
        have hv : visit r id m = pushTask r (.untilEof id body none) m := by rw [visit, hn]
        refine arrives_task hi rfl ?_
        rw [hv]
        have hstep := r.schema.inStep_transcodeWithin r.reserved_pos input r.maxNesting (k + 1) body
        exact leads_push hm
          (arrives_toEnd (hchild body (List.mem_singleton_self _)) hstep hi hm (by simp))
      | unknown opcode =>
        intro m hi _
        have hv : visit r id m = .error (.unsupported (.unknown opcode)) m := by
          rw [visit, hn]
        refine arrives_task hi rfl ?_
        rw [hv]
        rfl

end Machine

end Transcoder

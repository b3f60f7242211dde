import Transcoder.Proofs.Engine.Calls

/-!
# Headers that are not patched yet

An engine finds the blocks that it must hold back on its stack. The stack is not the whole truth:
the task that closes a block is taken off before it is done, and the task of a new block is put on
after its header was reserved. `book` keeps count of the headers themselves, of each from the time
that it is reserved until it is patched.

Results:
* `Accounts.perform`: through all calls, the headers on the stack are those in the book, except that
  a failure may leave one in the book that is on the stack no more.
* `unpatched_drainable_iff`: output behind the start of an unpatched header can be drained just
  then, if no other block is open.
-/
namespace Transcoder

/-- The block that a task closes. -/
def Task.block? : Task → Option (Extent × OpenHeader)
  | .block extent header => some (extent, header)
  | _ => none

namespace Engine

/-- The blocks on the stack, innermost first. -/
def blocks (e : Engine) : List (Extent × OpenHeader) := e.tasks.filterMap Task.block?

theorem openHeaders_eq (e : Engine) : e.openHeaders = e.blocks.map Prod.snd := by
  rw [openHeaders, blocks, List.map_filterMap]
  congr 1
  funext task
  cases task <;> rfl

theorem openHeaders_congr {e e' : Engine} (h : e'.blocks = e.blocks) :
    e'.openHeaders = e.openHeaders := by
  rw [openHeaders_eq, openHeaders_eq, h]

/-- The header that the next step reserves, if it reserves one. -/
def begins? (e : Engine) : Option OpenHeader :=
  match e.pending with
  | some ⟨.blockSize _, partialValue, _⟩ =>
    match e.reader.resume e.input partialValue with
    | (.ok word, reader, _) =>
      match (do let _ ← enterBlock word.toNat; openBlock : Stepping OpenHeader)
          { e with reader, pending := none } with
      | .ok header _ => some header
      | .error .. => none
    | _ => none
  | _ => none

/-- The header that the next step patches, if it patches one. -/
def patches? (e : Engine) : Option OpenHeader :=
  match e.pending, e.tasks with
  | none, .block extent header :: rest =>
    match finishBlock extent header { e with tasks := rest } with
    | .ok .. => some header
    | .error .. => none
  | _, _ => none

/-- The unpatched headers, latest first, after a step of `e`. -/
def book (e : Engine) (headers : List OpenHeader) : List OpenHeader :=
  match e.patches? with
  | some header => headers.erase header
  | none => e.begins?.toList ++ headers

/-- The unpatched headers after a run of `e`. -/
def bookRun (e : Engine) (headers : List OpenHeader) : List OpenHeader :=
  match e.pressure? with
  | some _ => headers
  | none =>
    match h : e.step with
    | .ok .advanced e' =>
      have : Below e e' e.load := descends_of_step h
      bookRun { e' with steps := e'.steps + 1 } (e.book headers)
    | _ => e.book headers
termination_by (e.room, e.load)
decreasing_by
  rw [Prod.lex_def]
  exact this

/-- The unpatched headers after a call. -/
def bookCall (e : Engine) (headers : List OpenHeader) : Request → List OpenHeader
  | .resume => if e.status.phase.terminal then headers
    else bookRun { e with status := .running } headers
  | _ => headers

/-- An engine and its unpatched headers after the calls `requests`. -/
def after (schema : Schema) (config : Config) (requests : List Request) :
    Engine × List OpenHeader :=
  requests.foldl (fun (e, headers) request => ((e.perform request).2, e.bookCall headers request))
    (new schema config, [])

/-! ## Pieces of a step that concern no block -/

/-- The blocks on the stack stay the same, whether a piece succeeds or not. -/
def Spares (e : Engine) {α : Type} : EStateM.Result Failure Engine α → Prop
  | .ok _ e' | .error _ e' => e'.blocks = e.blocks

section Spares

variable {e e' : Engine} {α β : Type}

theorem Spares.bind {act : Stepping α} {next : α → Stepping β} (h : Spares e (act e'))
    (k : ∀ a e₁, e₁.blocks = e.blocks → Spares e (next a e₁)) :
    Spares e ((act >>= next) e') := by
  simp only [Bind.bind, EStateM.bind]
  cases ha : act e' with
  | ok a e₁ =>
    rw [ha] at h
    exact k a e₁ h
  | error x e₁ =>
    rw [ha] at h
    exact h

theorem Spares.answer {act : Stepping Unit} (h : Spares e (act e')) (p : Progress) :
    Spares e ((do act; return p : Stepping Progress) e') :=
  h.bind fun _ _ h => h

theorem spares_writing (act : Writing EncodeError α) (h : e'.blocks = e.blocks) :
    Spares e (writing act e') := by
  unfold writing
  simp only
  split <;> exact h

theorem spares_pushTask {task : Task} (ht : task.block? = none)
    (h : e'.blocks = e.blocks) : Spares e (pushTask task e') := by
  unfold pushTask
  split
  · exact h
  · show List.filterMap Task.block? (task :: e'.tasks) = _
    rw [List.filterMap_cons_none ht]
    exact h

theorem spares_putBack {task : Task} (ht : task.block? = none)
    (h : e'.blocks = e.blocks) : Spares e (putBack task e') := by
  show List.filterMap Task.block? (task :: e'.tasks) = _
  rw [List.filterMap_cons_none ht]
  exact h

theorem spares_passOn (p : Pending) (word : UInt64) (h : e'.blocks = e.blocks) :
    Spares e (passOn p word e') := by
  refine (spares_writing _ h).bind ?_
  intro _ e₁ h₁
  unfold record
  split <;> exact h₁

theorem spares_runAction (action : Nat) (h : e'.blocks = e.blocks) :
    Spares e (runAction action e') := by
  unfold runAction
  split
  · exact h
  · simp only
    split <;> exact h

theorem spares_visit (id : Nat) (h : e'.blocks = e.blocks) : Spares e (visit id e') := by
  unfold visit
  split
  · exact h
  · exact h
  · exact spares_runAction _ h
  · exact spares_pushTask rfl h
  · exact h
  · exact h
  · exact spares_pushTask rfl h
  · exact h

theorem spares_nextChild (children : List Nat) (h : e'.blocks = e.blocks) :
    Spares e (nextChild children e') := by
  cases children with
  | nil => exact h
  | cons child rest => exact (spares_putBack rfl h).bind fun _ _ h => spares_pushTask rfl h

theorem spares_nextRepetition (id body : Nat) (last : Option Position) (remaining : Nat)
    (h : e'.blocks = e.blocks) :
    Spares e (nextRepetition id body last remaining e') := by
  cases remaining with
  | zero => exact h
  | succ remaining =>
    simp only [nextRepetition]
    split
    · exact h
    · exact (spares_putBack rfl h).bind fun _ _ h => spares_pushTask rfl h

theorem spares_repeatToEnd (id body : Nat) (last : Option Position)
    (h : e'.blocks = e.blocks) : Spares e (repeatToEnd id body last e') := by
  unfold repeatToEnd
  split
  · exact h
  · split
    · exact h
    · split
      · exact (spares_putBack rfl h).bind fun _ _ h => h
      · refine (spares_putBack rfl h).bind ?_
        intro _ _ h
        exact (spares_pushTask rfl h).bind fun _ _ h => h

theorem spares_finishBlock (extent : Extent) (header : OpenHeader)
    (h : e'.blocks = e.blocks) : Spares e (finishBlock extent header e') := by
  refine Spares.bind ?_ fun _ e₁ h₁ => spares_writing _ h₁
  unfold leaveBlock
  split <;> exact h

theorem spares_readOn {p : Pending} (hp : ∀ body, p.goal ≠ .blockSize body)
    (h : e'.blocks = e.blocks) : Spares e (readOn p e') := by
  unfold readOn
  split
  · refine Spares.bind ?_ fun _ _ h => h
    unfold complete
    cases hg : p.goal with
    | value => exact spares_passOn p _ h
    | loopCount id body =>
      refine Spares.bind ?_ fun _ _ h => spares_pushTask rfl h
      exact spares_passOn p _ h
    | blockSize body => exact absurd hg (hp body)
  · split <;> exact h

theorem spares_checkTrailing (h : e'.blocks = e.blocks) :
    Spares e (checkTrailing e') := by
  unfold checkTrailing
  split
  · exact h
  · split
    · exact h
    · split <;> exact h

end Spares

/-! ## Steps -/

/-- The header was reserved, but no block around it is still open for less. -/
structure Lost (e : Engine) (header : OpenHeader) : Prop where
  reserved : header.start < e.output.fill
  inside : e.openHeaders ≠ [] → e.drainableEnd ≤ header.start

/-- The book has the headers on the stack, and one that a failure left. -/
def Leaves (headers : List OpenHeader) : EStateM.Result Failure Engine Progress → Prop
  | .ok _ e' => headers = e'.openHeaders
  | .error _ e' => ∃ lost : Option OpenHeader, headers = lost.toList ++ e'.openHeaders ∧
    ∀ header ∈ lost, Lost e' header

variable {src : Source} {e e' : Engine} {m m' : Machine}

theorem Spares.leaves {r : EStateM.Result Failure Engine Progress} (h : Spares e r) :
    Leaves e.openHeaders r := by
  cases r with
  | ok p e' => exact (openHeaders_congr h).symm
  | error x e' => exact ⟨none, (openHeaders_congr h).symm, by simp⟩

theorem book_of_none (hb : e.begins? = none) (hp : e.patches? = none) (headers : List OpenHeader) :
    e.book headers = headers := by
  rw [book, hp, hb]
  rfl

/-- As long as a block is open, output is held back from where the outermost one begins. -/
theorem drainableEnd_congr (h : e'.openHeaders = e.openHeaders) (hn : e.openHeaders ≠ []) :
    e'.drainableEnd = e.drainableEnd := by
  unfold drainableEnd
  rw [h]
  cases hl : e.openHeaders.getLast? with
  | none => exact absurd (List.getLast?_eq_none_iff.1 hl) hn
  | some header => rfl

/-- An inner block holds nothing back. -/
theorem drainableEnd_of_cons {header : OpenHeader} (h : e.openHeaders = header :: e'.openHeaders)
    (hn : e'.openHeaders ≠ []) : e'.drainableEnd = e.drainableEnd := by
  unfold drainableEnd
  rw [h, List.getLast?_cons]
  cases hl : e'.openHeaders.getLast? with
  | none => exact absurd (List.getLast?_eq_none_iff.1 hl) hn
  | some last => rfl

theorem begins?_of_none (h : e.pending = none) : e.begins? = none := by
  unfold begins?
  rw [h]

theorem begins?_of_goal {p : Pending} (h : e.pending = some p)
    (hg : ∀ body, p.goal ≠ .blockSize body) : e.begins? = none := by
  unfold begins?
  split
  · rename_i body _ _ he
    rw [h, Option.some.injEq] at he
    exact absurd (congrArg Pending.goal he) (hg body)
  · rfl

theorem patches?_of_some {p : Pending} (h : e.pending = some p) : e.patches? = none := by
  unfold patches?
  rw [h]

theorem patches?_of_block {extent : Extent} {header : OpenHeader} {rest : List Task}
    (hp : e.pending = none) (ht : e.tasks = .block extent header :: rest) :
    e.patches? = match finishBlock extent header { e with tasks := rest } with
      | .ok .. => some header
      | .error .. => none := by
  unfold patches?
  split <;> simp_all

/-- A step that closes a block. -/
theorem leaves_finishBlock (h : Follows src e m) (hp : e.pending = none) {extent : Extent}
    {header : OpenHeader} {rest : List Task} (ht : e.tasks = .block extent header :: rest) :
    Leaves (e.book e.openHeaders) (Engine.step e) := by
  have hheaders : e.openHeaders = header :: rest.filterMap Task.header? := by
    rw [openHeaders, ht]
    rfl
  have hm : m.tasks = .block extent header.flat :: rest.map Task.flat := by
    rw [← h.tied.tasks, ht]
    rfl
  have ho := h.orderly
  rw [Machine.Orderly, hm] at ho
  have hpin := h.tied.pinned header (by rw [hheaders]; exact List.mem_cons_self)
  have htr := (h.tied.pop ht).finishBlock extent hpin ho.1 ho.2.1
  have hsp := spares_finishBlock (e := { e with tasks := rest }) extent header rfl
  rw [step_of_task hp ht]
  cases hf : finishBlock extent header { e with tasks := rest } with
  | ok u e' =>
    have hstep : doTask (.block extent header) { e with tasks := rest } = .ok .advanced e' :=
      bind_of_ok hf
    rw [hf] at hsp
    have hpatch : e.patches? = some header := by rw [patches?_of_block hp ht, hf]
    rw [hstep, Leaves, book, hpatch, hheaders]
    simp only [List.erase_cons_head]
    exact (openHeaders_congr hsp).symm
  | error x e' =>
    have hstep : doTask (.block extent header) { e with tasks := rest } = .error x e' :=
      bind_of_error hf
    rw [hf] at hsp htr
    have hpatch : e.patches? = none := by rw [patches?_of_block hp ht, hf]
    have hopen : e'.openHeaders = rest.filterMap Task.header? := openHeaders_congr hsp
    rw [hstep, Leaves, book, hpatch, begins?_of_none hp, hheaders]
    refine ⟨some header, by rw [hopen]; rfl, ?_⟩
    intro header' hin
    obtain rfl : header = header' := Option.some.inj hin
    obtain ⟨m', hM, hS⟩ := htr.of_error
    have hout := Machine.output_of_finishBlock_error hM
    simp only at hout
    have hstart : header.start < header.bodyStart := Nat.lt_add_of_pos_right ho.1
    refine ⟨?_, fun hn => ?_⟩
    · rw [hS.output.fill, hout]
      exact Nat.lt_of_lt_of_le hstart ho.2.1
    · have hle : m.held ≤ header.flat.start := Stacked.heldBelow_le_start h.orderly (by
        rw [hm]
        exact List.mem_cons_self)
      rw [drainableEnd_of_cons (hopen ▸ hheaders) hn, h.tied.spent.drainableEnd]
      exact hle

/-- Where a size is complete, the next step reserves a header if the block can be opened. -/
theorem begins?_of_size {body : Nat} {p : PartialValue} {address : Nat} {word : UInt64}
    {reader : Reader} {q : PartialValue} (hp : e.pending = some ⟨.blockSize body, p, address⟩)
    (hr : e.reader.resume e.input p = (.ok word, reader, q)) :
    e.begins? = match (do let _ ← enterBlock word.toNat; openBlock : Stepping OpenHeader)
        { e with reader, pending := none } with
      | .ok header _ => some header
      | .error .. => none := by
  unfold begins?
  rw [hp]
  simp only [hr]

theorem begins?_of_unread {body : Nat} {p : PartialValue} {address : Nat} {x : StreamError}
    {reader : Reader} {q : PartialValue} (hp : e.pending = some ⟨.blockSize body, p, address⟩)
    (hr : e.reader.resume e.input p = (.error x, reader, q)) : e.begins? = none := by
  unfold begins?
  rw [hp]
  simp only [hr]

theorem of_enterBlock {size : Nat} {extent : Extent} (h : enterBlock size e = .ok extent e') :
    e'.tasks = e.tasks ∧ e'.output = e.output := by
  unfold enterBlock at h
  split at h
  · simp only [EStateM.Result.ok.injEq] at h
    rw [← h.2]
    exact ⟨rfl, rfl⟩
  · simp at h

theorem spares_enterBlock (size : Nat) (h : e'.blocks = e.blocks) :
    Spares e (enterBlock size e') := by
  unfold enterBlock
  split <;> exact h

/-- The last part of opening a block, where its header was reserved at the end of the output. -/
theorem leaves_pushBlock {extent : Extent} {header : OpenHeader} {body : Nat}
    (h : e'.openHeaders = e.openHeaders) (hl : header.start < e'.output.fill)
    (hd : e.openHeaders ≠ [] → e.drainableEnd ≤ header.start) :
    Leaves (header :: e.openHeaders) ((do
      pushTask (.block extent header)
      pushTask (.visit body)
      return .advanced : Stepping Progress) e') := by
  by_cases hp : e'.config.maxNesting ≤ e'.tasks.length
  · have hp : pushTask (.block extent header) e' = .error _ e' := if_pos hp
    rw [bind_of_error hp]
    refine ⟨some header, by rw [h]; rfl, fun header' hin => ?_⟩
    obtain rfl : header = header' := Option.some.inj hin
    refine ⟨hl, fun hn => ?_⟩
    rw [drainableEnd_congr h (h ▸ hn)]
    exact hd (h ▸ hn)
  · have hp : pushTask (.block extent header) e' =
        .ok () { e' with tasks := .block extent header :: e'.tasks } := if_neg hp
    rw [bind_of_ok hp]
    have hs : Spares { e' with tasks := .block extent header :: e'.tasks } (pushTask (.visit body)
        { e' with tasks := .block extent header :: e'.tasks }) := spares_pushTask rfl rfl
    have ho : openHeaders { e' with tasks := .block extent header :: e'.tasks } =
        header :: e.openHeaders := congrArg (header :: ·) h
    exact ho ▸ (hs.answer .advanced).leaves

/-- A header is reserved, and its block is opened if the stack has room for it. -/
theorem leaves_reserve {s : Setting} (h : Matches s src e' m) {extent : Extent} {body : Nat}
    (ho : e'.blocks = e.blocks)
    (hd : e.openHeaders ≠ [] → e.drainableEnd ≤ m.output.length) {begun : Option OpenHeader}
    (hb : begun = match openBlock e' with
      | .ok header _ => some header
      | .error .. => none) :
    Leaves (begun.toList ++ e.openHeaders) ((do
      let header ← openBlock
      pushTask (.block extent header)
      pushTask (.visit body)
      return .advanced : Stepping Progress) e') := by
  have ht := h.openBlock
  have hs : Spares e (openBlock e') := spares_writing _ ho
  cases hop : openBlock e' with
  | error x e₁ =>
    rw [hop] at hs hb
    rw [bind_of_error hop, hb]
    exact Spares.leaves hs
  | ok header e₁ =>
    rw [hop] at hs hb ht
    rw [bind_of_ok hop, hb]
    obtain ⟨header', m₁, hm, ⟨rfl, -⟩, hM⟩ := ht.of_ok
    obtain ⟨hstart, hlen⟩ := Machine.of_openBlock hm
    have hstart : header.start = m.output.length := hstart
    refine leaves_pushBlock (openHeaders_congr hs) ?_ (hstart ▸ hd)
    rw [hM.output.carries.fill, hstart]
    exact hlen

/-- A step that opens a block, if the size is complete and everything else goes well. -/
theorem leaves_openBlock (h : Follows src e m) {p : Pending} (hp : e.pending = some p) {body : Nat}
    (hg : p.goal = .blockSize body) : Leaves (e.book e.openHeaders) (Engine.step e) := by
  obtain ⟨goal, partialValue, address⟩ := p
  obtain rfl : goal = .blockSize body := hg
  have hpatch := patches?_of_some hp
  have hM : Matches e.setting src { e with pending := none } { m with pending := none } :=
    { h.tied with setting := rfl, pending := rfl }
  obtain ⟨c, hc, hM⟩ := hM.resume partialValue
  rw [step_of_pending hp]
  cases hr : (src.read m.bounds m.position partialValue).1 with
  | error x =>
    rw [hr] at hc
    rw [book_of_none (begins?_of_unread hp hc) hpatch]
    have hs : Spares e (readOn ⟨.blockSize body, partialValue, address⟩
        { e with pending := none }) := by
      unfold readOn
      rw [hc]
      simp only
      split <;> rfl
    exact hs.leaves
  | ok word =>
    rw [hr] at hc
    have hb := begins?_of_size hp hc
    have hread : readOn ⟨.blockSize body, partialValue, address⟩ { e with pending := none } =
        (do
          let extent ← enterBlock word.toNat
          let header ← openBlock
          pushTask (.block extent header)
          pushTask (.visit body)
          return .advanced : Stepping Progress) { e with reader := c, pending := none } := by
      unfold readOn
      rw [hc]
      simp only [complete, bind_assoc]
    rw [hread]
    cases he : enterBlock word.toNat { e with reader := c, pending := none } with
    | error x e₁ =>
      have hs : Spares e (enterBlock word.toNat { e with reader := c, pending := none }) :=
        spares_enterBlock _ rfl
      rw [he] at hs
      rw [bind_of_error he] at hb ⊢
      rw [book_of_none hb hpatch]
      exact Spares.leaves hs
    | ok extent e₁ =>
      obtain ⟨ht, ho⟩ := of_enterBlock he
      have ht₁ := hM.enterBlock word.toNat
      rw [he] at ht₁
      obtain ⟨extent', m₁, -, -, hM₁⟩ := ht₁.of_ok
      have hout : m₁.output.length = m.output.length := by
        rw [← hM₁.output.carries.fill, ho, h.tied.output.carries.fill]
      rw [bind_of_ok he] at hb ⊢
      rw [book, hpatch]
      have hopen : e₁.blocks = e.blocks := congrArg (List.filterMap Task.block?) ht
      refine leaves_reserve hM₁ hopen (fun _ => ?_) hb
      rw [hout, h.tied.spent.drainableEnd]
      exact h.orderly.loose.held_le

/-- A step that goes on with no size and takes no block off the stack. -/
theorem spares_step (hg : ∀ p ∈ e.pending, ∀ body, p.goal ≠ .blockSize body)
    (ht : ∀ task ∈ e.tasks.head?, e.pending = none → task.block? = none) :
    Spares e (Engine.step e) := by
  cases hp : e.pending with
  | some p =>
    rw [step_of_pending hp]
    have hs : Spares e (readOn p { e with pending := none }) := spares_readOn (hg p hp) rfl
    exact hs
  | none =>
    cases htasks : e.tasks with
    | nil =>
      rw [step_of_none hp htasks]
      exact spares_checkTrailing rfl
    | cons task rest =>
      have hn : task.block? = none := ht task (by rw [htasks]; rfl) hp
      have hpop : blocks { e with tasks := rest } = e.blocks := by
        rw [blocks, blocks, htasks, List.filterMap_cons_none hn]
      rw [step_of_task hp htasks]
      cases task with
      | block extent header => simp [Task.block?] at hn
      | visit id => exact (spares_visit id hpop).answer .advanced
      | sequence children => exact (spares_nextChild children hpop).answer .advanced
      | loop id body remaining last =>
        exact (spares_nextRepetition id body last remaining hpop).answer .advanced
      | untilEof id body last => exact spares_repeatToEnd id body last hpop

/-- What a step has to do with blocks. -/
inductive Touches (e : Engine) : Prop
  /-- It goes on with the size of one. -/
  | opens {p : Pending} {body : Nat} (hp : e.pending = some p) (hg : p.goal = .blockSize body)
  /-- It closes one. -/
  | closes {extent : Extent} {header : OpenHeader} {rest : List Task} (hp : e.pending = none)
    (ht : e.tasks = .block extent header :: rest)
  | spares (hg : ∀ p ∈ e.pending, ∀ body, p.goal ≠ .blockSize body)
    (ht : ∀ task ∈ e.tasks.head?, e.pending = none → task.block? = none)

theorem touches (e : Engine) : Touches e := by
  cases hp : e.pending with
  | some p =>
    by_cases hg : ∃ body, p.goal = .blockSize body
    · obtain ⟨body, hg⟩ := hg
      exact .opens hp hg
    · have hg (body : Nat) : p.goal ≠ .blockSize body := fun he => hg ⟨body, he⟩
      exact .spares (by simpa [hp] using hg) (by simp [hp])
  | none =>
    cases ht : e.tasks with
    | nil => exact .spares (by simp [hp]) (by simp [ht])
    | cons task rest =>
      cases task with
      | block extent header => exact .closes hp ht
      | visit | sequence | loop | untilEof =>
        exact .spares (by simp [hp]) (by simp [ht, Task.block?])

/-- A step that touches no block leaves the book alone. -/
theorem book_of_spares (hg : ∀ p ∈ e.pending, ∀ body, p.goal ≠ .blockSize body)
    (ht : ∀ task ∈ e.tasks.head?, e.pending = none → task.block? = none)
    (headers : List OpenHeader) : e.book headers = headers := by
  apply book_of_none
  · cases hp : e.pending with
    | none => exact begins?_of_none hp
    | some p => exact begins?_of_goal hp (hg p hp)
  · unfold patches?
    split
    · rename_i hp htasks
      have := ht _ (by rw [htasks]; rfl) hp
      simp [Task.block?] at this
    · rfl

/-- After a step the book has the headers on the stack, and one more only where it fails. -/
theorem leaves_step (h : Follows src e m) : Leaves (e.book e.openHeaders) (Engine.step e) := by
  cases touches e with
  | opens hp hg => exact leaves_openBlock h hp hg
  | closes hp ht => exact leaves_finishBlock h hp ht
  | spares hg ht =>
    rw [book_of_spares hg ht]
    exact (spares_step hg ht).leaves

/-! ## Runs and calls -/

/-- The book has the headers on the stack; of a failed engine it may have one more. -/
inductive Accounts (e : Engine) (headers : List OpenHeader) : Prop
  | all (hs : ∀ reason, e.status ≠ .failed reason) (h : headers = e.openHeaders)
  | failed (reason : Failure) (hs : e.status = .failed reason) (lost : Option OpenHeader)
    (h : headers = lost.toList ++ e.openHeaders) (hl : ∀ header ∈ lost, Lost e header)

theorem bookRun_eq (e : Engine) (headers : List OpenHeader) : e.bookRun headers =
    match e.pressure? with
    | some _ => headers
    | none =>
      match e.step with
      | .ok .advanced e' => bookRun { e' with steps := e'.steps + 1 } (e.book headers)
      | _ => e.book headers := by
  rw [bookRun]
  split
  · rfl
  · split <;> simp_all

theorem accounts_run (h : Follows src e m) : Accounts e.run.2 (e.bookRun e.openHeaders) := by
  rw [bookRun_eq]
  fun_induction run e generalizing m with
  | case1 e wait hp =>
    rw [hp]
    exact .all (by simp [stopFor]) rfl
  | case2 e hp e₁ hs _ ih =>
    have hb := leaves_step h
    rw [hs] at hb
    obtain ⟨m₁, -, -, hf, -⟩ := h.of_step hs
    have hi := ih (hf.retuned e₁.status e₁.nextStop (e₁.steps + 1))
    rw [← bookRun_eq] at hi
    rw [hp, hs]
    simp only
    have hb : e.book e.openHeaders = e₁.openHeaders := hb
    rw [hb]
    exact hi
  | case3 e hp e₁ hs =>
    have hb := leaves_step h
    rw [hs] at hb
    rw [hp, hs]
    exact .all (by simp) hb
  | case4 e hp e₁ hs =>
    have hb := leaves_step h
    rw [hs] at hb
    obtain ⟨m₁, -, -, hf, -⟩ := h.of_step hs
    rw [hp, hs, hf.finishOutput]
    exact .all (by simp [conclude]) hb
  | case5 e hp x e₁ hs =>
    have hb := leaves_step h
    rw [hs] at hb
    obtain ⟨lost, hl, hall⟩ := hb
    rw [hp, hs]
    exact .failed x rfl lost hl fun header hin => ⟨(hall header hin).1, (hall header hin).2⟩

/-- A call that does nothing to the state, the stack and the length of the output. -/
theorem Accounts.congr {headers : List OpenHeader} (h : Accounts e headers)
    (hs : e'.status = e.status) (ht : e'.tasks = e.tasks) (hf : e'.output.fill = e.output.fill) :
    Accounts e' headers := by
  have ho : e'.openHeaders = e.openHeaders := congrArg (List.filterMap Task.header?) ht
  have hd : e'.drainableEnd = e.drainableEnd := by rw [drainableEnd, drainableEnd, ho, hf]
  cases h with
  | all hn h => exact .all (hs ▸ hn) (h.trans ho.symm)
  | failed reason hn lost h hl =>
    refine .failed reason (hs.trans hn) lost (ho.symm ▸ h) ?_
    intro header hin
    obtain ⟨h1, h2⟩ := hl header hin
    exact ⟨hf.symm ▸ h1, ho.symm ▸ hd.symm ▸ h2⟩

theorem Accounts.handOut {headers : List OpenHeader} (h : Accounts e headers) (count : Nat) :
    Accounts (e.handOut count).2 headers := by
  unfold Engine.handOut
  split
  · exact h
  · split
    · exact h
    · exact h.congr rfl rfl rfl

/-- Every call keeps the book. -/
theorem Accounts.perform {headers : List OpenHeader} (h : Accounts e headers) (k : Tells e m)
    (request : Request) : Accounts (e.perform request).2 (e.bookCall headers request) := by
  have quiet (hq : request.intake = true) : Accounts (e.perform request).2 headers := by
    obtain ⟨answer, t, he, -⟩ := k.intake hq
    rw [he]
    exact h.congr rfl rfl rfl
  cases request with
  | supply | commit | close => exact quiet rfl
  | resume =>
    show Accounts e.resume.2 (if e.status.phase.terminal then headers
      else bookRun { e with status := .running } headers)
    cases k with
    | works src hs f =>
      rw [resume_of_live hs, if_neg (by simp [hs])]
      cases h with
      | all _ ho => exact ho ▸ accounts_run (f.retuned .running e.nextStop e.steps)
      | failed reason hr => simp [hr, Status.phase, Phase.terminal] at hs
    | rests hs f hf =>
      rw [resume_of_terminal hs, if_pos hs]
      exact h
  | drain max => exact h.handOut _
  | drainAll => exact h.handOut _
  | setHook hook => exact h.congr rfl rfl rfl
  | takeValues => exact h.congr rfl rfl rfl

theorem accounts_after (schema : Schema) (config : Config) (requests : List Request) :
    ∃ m, Tells (after schema config requests).1 m ∧
      Accounts (after schema config requests).1 (after schema config requests).2 := by
  obtain ⟨start, hs⟩ : ∃ start, start = (new schema config, ([] : List OpenHeader)) := ⟨_, rfl⟩
  have h : ∃ m, Tells start.1 m ∧ Accounts start.1 start.2 := by
    subst hs
    exact ⟨.new schema, .works { bytes := [] } rfl (.new schema config), .all (by simp [new]) rfl⟩
  rw [after, ← hs]
  clear hs
  induction requests generalizing start with
  | nil => exact h
  | cons request rest ih =>
    obtain ⟨m, k, h⟩ := h
    obtain ⟨m', k', -⟩ := k.perform request
    exact ih _ ⟨m', k', h.perform k request⟩

theorem Accounts.drainable_iff {headers : List OpenHeader} (h : Accounts e headers)
    (k : Tells e m) : (∃ header ∈ headers, header.start < e.drainableEnd) ↔
      (∃ reason, e.status = .failed reason) ∧ headers ≠ [] ∧ e.openHeaders = [] := by
  cases h with
  | all hs ho =>
    subst ho
    constructor
    · rintro ⟨header, hin, hlt⟩
      exact absurd (k.drainableEnd_le hin) (by omega)
    · rintro ⟨⟨reason, hr⟩, -⟩
      exact absurd hr (hs reason)
  | failed reason hs lost ho hl =>
    subst ho
    constructor
    · rintro ⟨header, hin, hlt⟩
      rcases List.mem_append.1 hin with hin | hin
      · obtain ⟨-, h2⟩ := hl header (Option.mem_toList.1 hin)
        refine ⟨⟨reason, hs⟩, List.ne_nil_of_mem (List.mem_append_left _ hin), ?_⟩
        by_cases hn : e.openHeaders = []
        · exact hn
        · exact absurd (h2 hn) (by omega)
      · exact absurd (k.drainableEnd_le hin) (by omega)
    · rintro ⟨-, hne, hn⟩
      rw [hn, List.append_nil] at hne ⊢
      cases lost with
      | none => exact absurd rfl hne
      | some header =>
        refine ⟨header, List.mem_singleton_self _, ?_⟩
        rw [drainableEnd, hn]
        exact (hl header rfl).1

/-- Output at or behind the start of an unpatched header can be drained exactly when the engine has
failed, a header is unpatched, and no block is on the stack. -/
theorem unpatched_drainable_iff (schema : Schema) (config : Config) (requests : List Request) :
    let (e, headers) := after schema config requests
    (∃ header ∈ headers, header.start < e.drainableEnd) ↔
      (∃ reason, e.status = .failed reason) ∧ headers ≠ [] ∧ e.openHeaders = [] := by
  obtain ⟨m, k, h⟩ := accounts_after schema config requests
  exact h.drainable_iff k

/-- The book after a run of less than `n` steps, and nothing of a longer one. -/
def bookWithin : Nat → Engine → List OpenHeader → Option (List OpenHeader)
  | 0, _, _ => none
  | n + 1, e, headers =>
    match e.pressure? with
    | some _ => some headers
    | none =>
      match e.step with
      | .ok .advanced e' => bookWithin n { e' with steps := e'.steps + 1 } (e.book headers)
      | _ => some (e.book headers)

theorem bookRun_of_bookWithin {n : Nat} {headers headers' : List OpenHeader}
    (h : bookWithin n e headers = some headers') : bookRun e headers = headers' := by
  fun_induction bookRun e headers generalizing n with
  | case1 e headers wait hp =>
    cases n with
    | zero => simp [bookWithin] at h
    | succ n => simpa only [bookWithin, hp, Option.some.injEq] using h
  | case2 e headers hp e₁ hs _ ih =>
    cases n with
    | zero => simp [bookWithin] at h
    | succ n =>
      simp only [bookWithin, hp, hs] at h
      exact ih h
  | case3 e headers hp hs =>
    cases n with
    | zero => simp [bookWithin] at h
    | succ n => simpa only [bookWithin, hp, Option.some.injEq] using h

/-- One byte in a block. -/
def boxed : Schema := ⟨#[.value .uint8, .block 0], 1, Schema.wellFormed_of_fault? (by decide)⟩

/-- A block of two bytes has a body of one: it is not closed, and its output can be drained. -/
theorem unpatched_drainable_underrun :
    let (e, headers) := after boxed { pageSize := 4 } [.supply [2, 0xAA, 0xBB], .resume]
    ∃ header ∈ headers, header.start < e.drainableEnd := by
  obtain ⟨m, k, h⟩ := accounts_after boxed { pageSize := 4 } [.supply [2, 0xAA, 0xBB], .resume]
  let e := ((new boxed { pageSize := 4 }).perform (.supply [2, 0xAA, 0xBB])).2
  have hs : e.resume.2.status = .failed (.blockUnderrun (.ofByte 3) (.ofByte 2)) :=
    of_runWithin (f := (·.2.status)) 9 rfl (by decide +kernel)
  have ho : e.resume.2.openHeaders = [] :=
    of_runWithin (f := (·.2.openHeaders)) 9 rfl (by decide +kernel)
  have hb : (bookWithin 9 { e with status := .running } []).map List.isEmpty = some false := by
    decide +kernel
  obtain ⟨headers, hw, hb⟩ := Option.map_eq_some_iff.1 hb
  refine (h.drainable_iff k).2 ⟨⟨_, hs⟩, ?_, ho⟩
  show bookRun { e with status := .running } [] ≠ []
  rw [bookRun_of_bookWithin hw]
  simpa using hb

end Engine

end Transcoder

import Transcoder.Proofs.Engine.Asking
import Transcoder.Proofs.Engine.Failing
import Transcoder.Proofs.Schema.Paths

/-!
# How deep an engine goes

Before every step the stack spells a path down from the root: each task is what is left of one node,
and a value in the making belongs to a node below them, though it stands on no stack. A task is put
back where it was taken from without a look at the limit, and all others only under it, so the limit
and the depth of the schema both bound the stack, and the limit is never in the way of a schema that
is no deeper.

Results:
* `Engine.keeps_step`: a step keeps the stack on a path, or fails where the path is too long.
* `Engine.Reaches.nested`: so it is in every state that calls come to.
* `Engine.nests_soundly`: what both bounds on the stack come to.
-/
namespace Transcoder.Engine

variable {α β : Type} {e e' : Engine} {path : List Nat} {id : Nat} {task : Task}

/-- The stack spells a path, within the limit, which the first task need not keep. A value in the
making belongs to a node that lies below. -/
structure Nested (e : Engine) : Prop where
  length_le : e.tasks.length ≤ max 1 e.config.maxNesting
  climbs : ∃ path, e.schema.Spells e.tasks path ∧ ∀ p, e.pending = some p →
    ∃ id, p.goal.Of e.schema id ∧ e.schema.Path (id :: path)

/-- The engine with another limit on the nesting. -/
def withNesting (e : Engine) (limit : Nat) : Engine :=
  { e with config := { e.config with maxNesting := limit } }

/-- From `e`, a piece of a step stops at `e'`, where the limit leaves no room for a task of a node:
the path down to it has more nodes than that. Under a limit with room the task would be put there. -/
structure Exceeds (act : Stepping α) (e e' : Engine) (limit : Nat) : Prop where
  limit_eq : limit = e.config.maxNesting
  blocked : ∃ task id path, task.Of e.schema id ∧ e.schema.Path (id :: path) ∧
    e.schema.Spells e'.tasks path ∧ limit < (id :: path).length ∧
    ∀ more, e'.tasks.length + 2 ≤ more →
      ∃ a e'', act (e.withNesting more) = .ok a e'' ∧ task :: e'.tasks <:+ e''.tasks

/-- The engine goes by the same, and its stack spells a path. -/
structure Nests (e e' : Engine) : Prop where
  schema : e'.schema = e.schema
  config : e'.config = e.config
  nested : e'.Nested

/-- A piece of a step leaves a stack that spells a path, and fails for the nesting only where the
path would be too long. -/
structure Keeps (act : Stepping α) (e : Engine) : Prop where
  ok : ∀ {a e'}, act e = .ok a e' → Nests e e'
  error : ∀ {x e'}, act e = .error x e' → Nests e e'
  exceeds : ∀ {limit e'}, act e = .error (.nestingTooDeep limit) e' → Exceeds act e e' limit

/-! ## Pieces that leave the stack alone -/

/-- The engine goes by the same and has the same to do. -/
structure Alike (e e' : Engine) : Prop where
  schema : e'.schema = e.schema
  config : e'.config = e.config
  tasks : e'.tasks = e.tasks
  pending : e'.pending = e.pending

theorem Alike.refl (e : Engine) : Alike e e := ⟨rfl, rfl, rfl, rfl⟩

theorem Alike.trans {e'' : Engine} (h : Alike e e') (k : Alike e' e'') : Alike e e'' :=
  ⟨k.schema.trans h.schema, k.config.trans h.config, k.tasks.trans h.tasks,
    k.pending.trans h.pending⟩

theorem Alike.nests (h : Alike e e') (k : e.Nested) : Nests e e' := by
  refine ⟨h.schema, h.config, ?_, ?_⟩
  · rw [h.tasks, h.config]
    exact k.length_le
  · rw [h.schema, h.tasks, h.pending]
    exact k.climbs

/-- The piece has nothing to do with the stack, nor with the limit on it. -/
structure Quiet (act : Stepping α) : Prop where
  ok : ∀ {e a e'}, act e = .ok a e' →
    Alike e e' ∧ ∀ limit, act (e.withNesting limit) = .ok a (e'.withNesting limit)
  error : ∀ {e x e'}, act e = .error x e' → Alike e e' ∧ ∀ limit, x ≠ .nestingTooDeep limit

theorem Quiet.bind {act : Stepping α} {next : α → Stepping β} (h : Quiet act)
    (k : ∀ a, Quiet (next a)) : Quiet (act >>= next) := by
  constructor
  · intro e b e'' hok
    obtain ⟨a, e', ha, hb⟩ := Stepping.of_bind_ok hok
    obtain ⟨h₁, hlimit₁⟩ := h.ok ha
    obtain ⟨h₂, hlimit₂⟩ := (k a).ok hb
    refine ⟨h₁.trans h₂, fun limit => ?_⟩
    simp only [Bind.bind, EStateM.bind, hlimit₁ limit, hlimit₂ limit]
  · intro e x e'' herr
    simp only [Bind.bind, EStateM.bind] at herr
    cases ha : act e with
    | error y e' =>
      rw [ha] at herr
      cases herr
      exact h.error ha
    | ok a e' =>
      rw [ha] at herr
      obtain ⟨h₂, hx⟩ := (k a).error herr
      exact ⟨(h.ok ha).1.trans h₂, hx⟩

theorem ofStream_ne (cause : StreamError) (limit : Nat) :
    Failure.ofStream cause ≠ .nestingTooDeep limit := by
  intro h
  cases cause <;> cases h

theorem ofDecode_ne (cause : DecodeError) (limit : Nat) :
    Failure.ofDecode cause ≠ .nestingTooDeep limit := by
  cases cause with
  | stream cause => exact ofStream_ne cause limit
  | unsupported | blockUnderrun => exact fun h => by cases h

theorem ofEncode_ne (cause : EncodeError) (limit : Nat) :
    Failure.ofEncode cause ≠ .nestingTooDeep limit := by
  cases cause with
  | stream cause => exact ofStream_ne cause limit
  | unsupported | valueOutOfRange | blockTooLarge => exact fun h => by cases h

theorem quiet_writing (act : Writing EncodeError α) : Quiet (writing act) := by
  constructor
  · intro e a e' h
    simp only [writing] at h
    split at h
    · rename_i hact
      cases h
      refine ⟨⟨rfl, rfl, rfl, rfl⟩, fun limit => ?_⟩
      simp only [writing, withNesting, hact]
    · cases h
  · intro e x e' h
    simp only [writing] at h
    split at h
    · cases h
    · cases h
      exact ⟨⟨rfl, rfl, rfl, rfl⟩, ofEncode_ne _⟩

theorem quiet_record (kind : IntKind) (word : UInt64) (address : Nat) :
    Quiet (record kind word address) := by
  constructor
  · intro e a e' h
    unfold record at h ⊢
    split at h <;> rename_i hc <;> cases h
    · exact ⟨⟨rfl, rfl, rfl, rfl⟩, fun _ => if_pos hc⟩
    · exact ⟨⟨rfl, rfl, rfl, rfl⟩, fun _ => if_neg hc⟩
  · intro e x e' h
    unfold record at h
    split at h <;> cases h

theorem quiet_enterBlock (size : Nat) : Quiet (enterBlock size) := by
  constructor
  · intro e extent e' h
    unfold enterBlock at h ⊢
    split at h
    · rename_i hr
      cases h
      refine ⟨⟨rfl, rfl, rfl, rfl⟩, fun limit => ?_⟩
      simp only [withNesting, hr]
    · cases h
  · intro e x e' h
    unfold enterBlock at h
    split at h
    · cases h
    · cases h
      exact ⟨⟨rfl, rfl, rfl, rfl⟩, ofDecode_ne _⟩

theorem quiet_leaveBlock (extent : Extent) : Quiet (leaveBlock extent) := by
  constructor
  · intro e u e' h
    unfold leaveBlock at h ⊢
    split at h
    · rename_i hr
      cases h
      refine ⟨⟨rfl, rfl, rfl, rfl⟩, fun limit => ?_⟩
      simp only [withNesting, hr]
    · cases h
  · intro e x e' h
    unfold leaveBlock at h
    split at h
    · cases h
    · cases h
      exact ⟨⟨rfl, rfl, rfl, rfl⟩, ofDecode_ne _⟩

theorem quiet_openBlock : Quiet openBlock :=
  ⟨fun {e} => (quiet_writing e.config.framing.beginBlock).ok,
    fun {e} => (quiet_writing e.config.framing.beginBlock).error⟩

theorem quiet_closeBlock (header : OpenHeader) : Quiet (closeBlock header) :=
  ⟨fun {e} => (quiet_writing (discard (e.config.framing.finishBlock header))).ok,
    fun {e} => (quiet_writing (discard (e.config.framing.finishBlock header))).error⟩

theorem quiet_finishBlock (extent : Extent) (header : OpenHeader) :
    Quiet (finishBlock extent header) :=
  (quiet_leaveBlock extent).bind fun _ => quiet_closeBlock header

theorem quiet_passOn (p : Pending) (word : UInt64) : Quiet (passOn p word) :=
  (quiet_writing _).bind fun _ => quiet_record ..

theorem quiet_runAction (action : Nat) : Quiet (runAction action) := by
  constructor
  · intro e u e' h
    unfold runAction at h ⊢
    cases hh : e.hook with
    | none =>
      simp only [hh] at h
      cases h
      refine ⟨⟨rfl, rfl, rfl, rfl⟩, fun limit => ?_⟩
      simp only [withNesting, hh]
    | some hook =>
      simp only [hh] at h
      split at h
      · rename_i ha
        cases h
        refine ⟨⟨rfl, rfl, rfl, rfl⟩, fun limit => ?_⟩
        simp only [withNesting, hh]
        exact if_pos ha
      · cases h
  · intro e x e' h
    unfold runAction at h
    split at h
    · cases h
    · simp only at h
      split at h
      · cases h
      · cases h
        exact ⟨⟨rfl, rfl, rfl, rfl⟩, fun _ h => by cases h⟩

/-! ## Pieces that put tasks on the stack -/

theorem Quiet.keeps {act : Stepping α} (h : Quiet act) (k : e.Nested) : Keeps act e := by
  refine ⟨fun ha => (h.ok ha).1.nests k, fun ha => (h.error ha).1.nests k, fun ha => ?_⟩
  exact absurd rfl ((h.error ha).2 _)

theorem Keeps.of_ok {act : Stepping α} {a : α} (heq : act e = .ok a e') (h : Nests e e') :
    Keeps act e := by
  refine ⟨fun hok => ?_, fun herr => ?_, fun herr => ?_⟩
  · cases heq.symm.trans hok
    exact h
  · cases heq.symm.trans herr
  · cases heq.symm.trans herr

theorem Keeps.of_error {act : Stepping α} {x : Failure} (heq : act e = .error x e')
    (hx : ∀ limit, x ≠ .nestingTooDeep limit) (h : Nests e e') : Keeps act e := by
  refine ⟨fun hok => ?_, fun herr => ?_, fun herr => ?_⟩
  · cases heq.symm.trans hok
  · cases heq.symm.trans herr
    exact h
  · cases heq.symm.trans herr
    exact absurd rfl (hx _)

/-- A piece that goes on like another one from elsewhere on. -/
theorem Keeps.from {act act' : Stepping α} {e₁ : Engine} (h : Keeps act' e₁)
    (hs : e₁.schema = e.schema) (hc : e₁.config = e.config) (heq : act e = act' e₁)
    (hmore : ∀ {x e'}, act' e₁ = .error x e' → ∀ more, e'.tasks.length + 2 ≤ more →
      act (e.withNesting more) = act' (e₁.withNesting more)) : Keeps act e := by
  have hto {e' : Engine} (k : Nests e₁ e') : Nests e e' :=
    ⟨k.schema.trans hs, k.config.trans hc, k.nested⟩
  refine ⟨fun ha => hto (h.ok (heq ▸ ha)), fun ha => hto (h.error (heq ▸ ha)), fun ha => ?_⟩
  have herr := heq ▸ ha
  obtain ⟨hlimit, task, id, path, ht, hp, hspells, hlt, hroom⟩ := h.exceeds herr
  rw [hs] at ht hp hspells
  refine ⟨hc ▸ hlimit, task, id, path, ht, hp, hspells, hlt, fun more hle => ?_⟩
  rw [hmore herr more hle]
  exact hroom more hle

theorem Keeps.answer {act : Stepping Unit} (h : Keeps act e) (p : Progress) :
    Keeps (do act; return p : Stepping Progress) e := by
  constructor
  · intro a e' hok
    obtain ⟨_, e₁, hact, hret⟩ := Stepping.of_bind_ok hok
    cases hret
    exact h.ok hact
  · intro x e' herr
    simp only [Bind.bind, EStateM.bind] at herr
    split at herr
    · cases herr
    · rename_i hact
      cases herr
      exact h.error hact
  · intro limit e' herr
    simp only [Bind.bind, EStateM.bind] at herr
    split at herr
    · cases herr
    · rename_i hact
      cases herr
      obtain ⟨hlimit, task, id, path, ht, hp, hspells, hlt, hroom⟩ := h.exceeds hact
      refine ⟨hlimit, task, id, path, ht, hp, hspells, hlt, fun more hle => ?_⟩
      obtain ⟨u, e'', hok, hsuffix⟩ := hroom more hle
      refine ⟨p, e'', ?_, hsuffix⟩
      simp only [Bind.bind, EStateM.bind, hok]
      rfl

theorem Quiet.keeps_bind {act : Stepping α} {next : α → Stepping β} (h : Quiet act)
    (k : e.Nested) (hnext : ∀ a e', Alike e e' → Keeps (next a) e') : Keeps (act >>= next) e := by
  cases ha : act e with
  | error x e' =>
    have heq : (act >>= next) e = .error x e' := by simp only [Bind.bind, EStateM.bind, ha]
    obtain ⟨halike, hx⟩ := h.error ha
    exact .of_error heq hx (halike.nests k)
  | ok a e' =>
    obtain ⟨halike, hlimit⟩ := h.ok ha
    refine (hnext a e' halike).from halike.schema halike.config ?_ fun _ more _ => ?_
    · simp only [Bind.bind, EStateM.bind, ha]
    · simp only [Bind.bind, EStateM.bind, hlimit more]

/-- The stack spells a path, and nothing is in the making. -/
structure OnPath (e : Engine) (path : List Nat) : Prop where
  spells : e.schema.Spells e.tasks path
  pending : e.pending = none
  length_le : e.tasks.length ≤ max 1 e.config.maxNesting

namespace OnPath

variable (h : e.OnPath path) (hp : e.schema.Path (id :: path))
include h

theorem nested : e.Nested := by
  refine ⟨h.length_le, path, h.spells, fun p hpending => ?_⟩
  rw [h.pending] at hpending
  cases hpending

theorem nests : Nests e e := ⟨rfl, rfl, h.nested⟩

theorem alike (k : Alike e e') : e'.OnPath path := by
  refine ⟨?_, k.pending.trans h.pending, ?_⟩
  · rw [k.schema, k.tasks]
    exact h.spells
  · rw [k.tasks, k.config]
    exact h.length_le

include hp

theorem push (ht : task.Of e.schema id) (hlt : e.tasks.length < max 1 e.config.maxNesting) :
    OnPath { e with tasks := task :: e.tasks } (id :: path) :=
  ⟨.cons h.spells ht hp, h.pending, hlt⟩

theorem beginValue {goal : Goal} {kind : IntKind} (hg : goal.Of e.schema id) :
    Keeps (beginValue goal kind) e := by
  refine .of_ok rfl ⟨rfl, rfl, h.length_le, path, h.spells, fun p hpending => ?_⟩
  cases hpending
  exact ⟨id, hg, hp⟩

/-- On a full stack there is no room for a task, though there would be under another limit. -/
theorem full {act : Stepping α} (ht : task.Of e.schema id)
    (hfull : e.config.maxNesting ≤ e.tasks.length)
    (heq : act e = .error (.nestingTooDeep e.config.maxNesting) e)
    (hroom : ∀ more, e.tasks.length + 2 ≤ more →
      ∃ a e'', act (e.withNesting more) = .ok a e'' ∧ task :: e.tasks <:+ e''.tasks) :
    Keeps act e := by
  refine ⟨fun hok => ?_, fun herr => ?_, fun herr => ?_⟩
  · cases heq.symm.trans hok
  · cases heq.symm.trans herr
    exact h.nests
  · cases heq.symm.trans herr
    refine ⟨rfl, task, id, path, ht, hp, h.spells, ?_, hroom⟩
    rw [List.length_cons, ← h.spells.length_eq]
    omega

theorem pushTask (ht : task.Of e.schema id) : Keeps (pushTask task) e := by
  by_cases hfull : e.config.maxNesting ≤ e.tasks.length
  · refine h.full hp ht hfull (if_pos hfull) fun more hle => ?_
    exact ⟨(), _, if_neg (show ¬more ≤ e.tasks.length by omega), List.suffix_rfl⟩
  · exact .of_ok (if_neg hfull) ⟨rfl, rfl, (h.push hp ht (by omega)).nested⟩

/-- A task is put back, and one for a child of its node on it. -/
theorem again {child : Nat} {n : Node} (ht : task.Of e.schema id)
    (hn : e.schema.node? id = some n) (hc : child ∈ n.children)
    (hlt : e.tasks.length < max 1 e.config.maxNesting) :
    Keeps (do putBack task; Engine.pushTask (.visit child) : Stepping Unit) e :=
  ((h.push hp ht hlt).pushTask (hp.child hn hc) (.visit child)).from rfl rfl rfl
    fun _ _ _ => rfl

/-- A task of a node, and one for its child on it. -/
theorem pushTwo {child : Nat} {n : Node} (ht : task.Of e.schema id)
    (hn : e.schema.node? id = some n) (hc : child ∈ n.children) :
    Keeps (do Engine.pushTask task; Engine.pushTask (.visit child) : Stepping Unit) e := by
  by_cases hfull : e.config.maxNesting ≤ e.tasks.length
  · refine h.full hp ht hfull ?_ fun more hle => ?_
    · simp only [Bind.bind, EStateM.bind, Engine.pushTask, if_pos hfull]
    · refine ⟨(), { e.withNesting more with tasks := .visit child :: task :: e.tasks }, ?_,
        List.suffix_cons ..⟩
      have h₁ : Engine.pushTask task (e.withNesting more) =
          .ok () { e.withNesting more with tasks := task :: e.tasks } :=
        if_neg (show ¬more ≤ e.tasks.length by omega)
      simp only [Bind.bind, EStateM.bind, h₁]
      exact if_neg (show ¬more ≤ e.tasks.length + 1 by omega)
  · refine ((h.push hp ht (by omega)).pushTask (hp.child hn hc) (.visit child)).from rfl rfl ?_
      fun herr more hle => ?_
    · simp only [Bind.bind, EStateM.bind, Engine.pushTask, if_neg hfull]
    · -- the error is that of the second task, so the first one is on the stack
      have htasks : e.tasks.length < more := by
        unfold Engine.pushTask at herr
        split at herr
        · cases herr
          simp only [List.length_cons] at hle
          omega
        · cases herr
      have h₁ : Engine.pushTask task (e.withNesting more) =
          .ok () { e.withNesting more with tasks := task :: e.tasks } :=
        if_neg (show ¬more ≤ e.tasks.length by omega)
      simp only [Bind.bind, EStateM.bind, h₁]
      rfl

end OnPath

/-! ## Steps -/

theorem keeps_visit (h : e.OnPath path) (hp : e.schema.Path (id :: path)) : Keeps (visit id) e := by
  have like (act : Stepping Unit) (heq : visit id e = act e)
      (hmore : ∀ more, visit id (e.withNesting more) = act (e.withNesting more))
      (k : Keeps act e) : Keeps (visit id) e := k.from rfl rfl heq fun _ more _ => hmore more
  obtain ⟨n, hn⟩ := hp.node
  cases n with
  | value kind =>
    refine like (beginValue .value kind) ?_ ?_ (h.beginValue hp (.value hn)) <;>
      simp only [visit, withNesting, hn, implies_true]
  | action action =>
    refine like (runAction action) ?_ ?_ ((quiet_runAction action).keeps h.nested) <;>
      simp only [visit, withNesting, hn, implies_true]
  | sequence children =>
    refine like (pushTask (.sequence children)) ?_ ?_
      (h.pushTask hp (.sequence hn List.suffix_rfl)) <;>
      simp only [visit, withNesting, hn, implies_true]
  | loop count body =>
    refine like (beginValue (.loopCount id body) count) ?_ ?_
      (h.beginValue hp (.loopCount hn)) <;> simp only [visit, withNesting, hn, implies_true]
  | block body =>
    refine like (beginValue (.blockSize body) .varuint32) ?_ ?_
      (h.beginValue hp (.blockSize hn)) <;> simp only [visit, withNesting, hn, implies_true]
  | untilEof body =>
    refine like (pushTask (.untilEof id body none)) ?_ ?_
      (h.pushTask hp (.untilEof hn none)) <;> simp only [visit, withNesting, hn, implies_true]
  | unknown opcode =>
    have heq : visit id e = .error (.unsupported (.unknown opcode)) e := by
      simp only [visit, hn]
    exact .of_error heq (fun _ hx => by cases hx) h.nests

theorem keeps_nextChild {rest : List Nat} (h : e.OnPath path) (hp : e.schema.Path (id :: path))
    (ht : (Task.sequence rest).Of e.schema id) (hlt : e.tasks.length < max 1 e.config.maxNesting) :
    Keeps (nextChild rest) e := by
  cases ht with
  | @sequence _ children _ hn hrest =>
    cases rest with
    | nil => exact .of_ok rfl h.nests
    | cons child rest =>
      exact h.again hp (.sequence hn ((List.suffix_cons child rest).trans hrest)) hn
        (hrest.subset (List.mem_cons_self ..)) hlt

theorem keeps_nextRepetition {body remaining : Nat} {last : Option Position} (h : e.OnPath path)
    (hp : e.schema.Path (id :: path)) (ht : (Task.loop id body remaining last).Of e.schema id)
    (hlt : e.tasks.length < max 1 e.config.maxNesting) :
    Keeps (nextRepetition id body last remaining) e := by
  cases ht with
  | @loop _ _ count hn =>
    cases remaining with
    | zero => exact .of_ok rfl h.nests
    | succ remaining =>
      by_cases hlast : last = some e.reader.position
      · exact .of_error (if_pos hlast) (fun _ hx => by cases hx) h.nests
      · exact (h.again hp (.loop hn remaining (some e.reader.position)) hn
          (List.mem_singleton_self body) hlt).from rfl rfl (if_neg hlast)
          fun _ more _ => if_neg hlast

theorem keeps_repeatToEnd {body : Nat} {last : Option Position} (h : e.OnPath path)
    (hp : e.schema.Path (id :: path)) (ht : (Task.untilEof id body last).Of e.schema id)
    (hlt : e.tasks.length < max 1 e.config.maxNesting) : Keeps (repeatToEnd id body last) e := by
  cases ht with
  | untilEof hn =>
    by_cases hstop : e.reader.stop e.input ≤ e.reader.position
    · exact .of_ok (if_pos hstop) h.nests
    · by_cases hlast : last = some e.reader.position
      · exact .of_error ((if_neg hstop).trans (if_pos hlast)) (fun _ hx => by cases hx) h.nests
      · by_cases hend : e.reader.available e.input = 0 ∧ e.reader.bounds = []
        · exact .of_ok ((if_neg hstop).trans ((if_neg hlast).trans (if_pos hend)))
            ⟨rfl, rfl, (h.push hp (.untilEof hn last) hlt).nested⟩
        · exact ((h.again hp (.untilEof hn (some e.reader.position)) hn
            (List.mem_singleton_self body) hlt).answer .advanced).from rfl rfl
            ((if_neg hstop).trans ((if_neg hlast).trans (if_neg hend)))
            fun _ more _ => (if_neg hstop).trans ((if_neg hlast).trans (if_neg hend))

theorem keeps_doTask (h : e.OnPath path) (hp : e.schema.Path (id :: path))
    (ht : task.Of e.schema id) (hlt : e.tasks.length < max 1 e.config.maxNesting) :
    Keeps (doTask task) e := by
  cases task with
  | visit node =>
    cases ht with
    | visit => exact (keeps_visit h hp).answer .advanced
  | sequence rest => exact (keeps_nextChild h hp ht hlt).answer .advanced
  | loop node body remaining last =>
    cases ht with
    | loop hn => exact (keeps_nextRepetition h hp (.loop hn remaining last) hlt).answer .advanced
  | block extent header =>
    exact ((quiet_finishBlock extent header).keeps h.nested).answer .advanced
  | untilEof node body last =>
    cases ht with
    | untilEof hn => exact keeps_repeatToEnd h hp (.untilEof hn last) hlt

theorem keeps_complete {p : Pending} (word : UInt64) (h : e.OnPath path)
    (hg : p.goal.Of e.schema id) (hp : e.schema.Path (id :: path)) :
    Keeps (complete p word) e := by
  obtain ⟨goal, partialValue, address⟩ := p
  cases hg with
  | value => exact (quiet_passOn _ word).keeps h.nested
  | @loopCount _ body _ hn =>
    refine (quiet_passOn _ word).keeps_bind h.nested fun _ e₁ k => ?_
    rw [← k.schema] at hn hp
    exact (h.alike k).pushTask hp (.loop hn word.toNat none)
  | @blockSize _ body hn =>
    refine (quiet_enterBlock word.toNat).keeps_bind h.nested fun extent e₁ k₁ => ?_
    refine quiet_openBlock.keeps_bind (h.alike k₁).nested fun header e₂ k₂ => ?_
    rw [← k₁.schema, ← k₂.schema] at hn hp
    exact ((h.alike k₁).alike k₂).pushTwo hp (.block hn extent header) hn
      (List.mem_singleton_self body)

theorem keeps_checkTrailing (h : e.Nested) : Keeps checkTrailing e := by
  have k : Nests e e := ⟨rfl, rfl, h⟩
  by_cases hr : (!e.config.rejectTrailing) = true
  · exact .of_ok (if_pos hr) k
  · by_cases ha : 0 < e.reader.available e.input
    · exact .of_error ((if_neg hr).trans (if_pos ha)) (fun _ hx => by cases hx) k
    · by_cases heof : e.input.eof.isSome = true
      · exact .of_ok ((if_neg hr).trans ((if_neg ha).trans (if_pos heof))) k
      · exact .of_ok ((if_neg hr).trans ((if_neg ha).trans (if_neg heof))) k

/-- A step keeps the stack on a path from the root, or fails where the path is too long. -/
theorem keeps_step (h : e.Nested) : Keeps step e := by
  obtain ⟨hle, path, hspells, hpending⟩ := h
  cases hp : e.pending with
  | some p =>
    obtain ⟨id, hg, hpath⟩ := hpending p hp
    match hr : e.reader.resume e.input p.partialValue with
    | (.ok word, reader, q) =>
      have hon : OnPath { e with pending := none, reader } path := ⟨hspells, rfl, hle⟩
      refine ((keeps_complete word hon hg hpath).answer .advanced).from rfl rfl ?_
        fun _ more _ => ?_
      · rw [step_of_pending hp]
        simp only [readOn, hr]
      · rw [step_of_pending (e := e.withNesting more) hp]
        simp only [readOn, withNesting, hr]
    | (.error cause, reader, q) =>
      by_cases hs : cause.suspends = true
      · have heq : step e = .ok .needInput
            { e with reader, pending := some { p with partialValue := q } } := by
          rw [step_of_pending hp]
          simp only [readOn, hr, if_pos hs]
        refine .of_ok heq ⟨rfl, rfl, hle, path, hspells, fun p' hp' => ?_⟩
        cases hp'
        exact ⟨id, hg, hpath⟩
      · have heq : step e = .error (.ofStream cause) { e with pending := none, reader } := by
          rw [step_of_pending hp]
          simp only [readOn, hr, if_neg hs]
        have hon : OnPath { e with pending := none, reader } path := ⟨hspells, rfl, hle⟩
        exact .of_error heq (ofStream_ne cause) ⟨rfl, rfl, hon.nested⟩
  | none =>
    cases ht : e.tasks with
    | nil =>
      refine (keeps_checkTrailing ⟨hle, path, hspells, hpending⟩).from rfl rfl ?_ fun _ more _ => ?_
      · exact step_of_none hp ht
      · exact step_of_none (e := e.withNesting more) hp ht
    | cons task rest =>
      rw [ht] at hspells hle
      cases hspells with
      | cons hrest htask hpath =>
        have hon : OnPath { e with tasks := rest } _ := ⟨hrest, hp, Nat.le_of_succ_le hle⟩
        refine (keeps_doTask hon hpath htask hle).from rfl rfl ?_ fun _ more _ => ?_
        · exact step_of_task hp ht
        · exact step_of_task (e := e.withNesting more) hp ht

/-! ## Runs and calls -/

theorem Nests.trans {e'' : Engine} (h : Nests e e') (k : Nests e' e'') : Nests e e'' :=
  ⟨k.schema.trans h.schema, k.config.trans h.config, k.nested⟩

theorem Nests.alike {e'' : Engine} (h : Nests e e') (k : Alike e' e'') : Nests e e'' :=
  h.trans (k.nests h.nested)

/-- Counters and the state are nothing to the stack. -/
theorem alike_retuned (e : Engine) (status : Status) (nextStop steps : Nat) :
    Alike e { e with status, nextStop, steps } := ⟨rfl, rfl, rfl, rfl⟩

theorem alike_finishOutput (e : Engine) : Alike e (conclude (finishOutput e)).2 := by
  have hq := quiet_writing (Cursor.alignWriter.mapError EncodeError.stream)
  unfold finishOutput
  cases hw : writing (Cursor.alignWriter.mapError EncodeError.stream) e with
  | error x e₁ => exact (hq.error hw).1.trans (alike_retuned ..)
  | ok u e₁ =>
    have h₁ := (hq.ok hw).1
    simp only
    cases e₁.output.fixEnd e₁.output.fill with
    | error x => exact h₁.trans (alike_retuned ..)
    | ok t => exact h₁.trans ⟨rfl, rfl, rfl, rfl⟩

theorem Nested.run (h : e.Nested) : Nests e e.run.2 := by
  fun_induction Engine.run e with
  | case1 e wait hp => exact (alike_retuned ..).nests h
  | case2 e hp e₁ hs _ ih =>
    have k := ((keeps_step h).ok hs).alike (alike_retuned e₁ e₁.status e₁.nextStop (e₁.steps + 1))
    exact k.trans (ih k.nested)
  | case3 e hp e₁ hs => exact ((keeps_step h).ok hs).alike (alike_retuned ..)
  | case4 e hp e₁ hs => exact ((keeps_step h).ok hs).alike (alike_finishOutput e₁)
  | case5 e hp x e₁ hs => exact ((keeps_step h).error hs).alike (alike_retuned ..)

theorem Nested.runs (h : e.Nested) (hr : Runs e e') : Nests e e' := by
  induction hr with
  | here => exact ⟨rfl, rfl, h⟩
  | @on e e₁ e₂ _ hs _ ih =>
    have k := ((keeps_step h).ok hs).alike (alike_retuned e₁ e₁.status e₁.nextStop (e₁.steps + 1))
    exact k.trans (ih k.nested)

theorem Nested.perform (h : e.Nested) (request : Request) : Nests e (e.perform request).2 := by
  by_cases hq : request = .resume
  · subst hq
    show Nests e e.resume.2
    cases ht : e.status.phase.terminal with
    | true =>
      rw [resume_of_terminal ht]
      exact ⟨rfl, rfl, h⟩
    | false =>
      have k := (alike_retuned e .running e.nextStop e.steps).nests h
      rw [resume_of_live ht]
      exact k.trans k.nested.run
  · obtain ⟨input, output, drained, hook, values, he⟩ := e.perform_other hq
    rw [he]
    exact ⟨rfl, rfl, h.length_le, h.climbs⟩

theorem nested_new (schema : Schema) (config : Config) : (new schema config).Nested := by
  refine ⟨Nat.le_max_left .., [schema.root], ?_, fun p hp => by cases hp⟩
  exact .cons .nil (.visit schema.root) .root

theorem Calls.nests {src src' : Source} (h : Calls e src e' src') (k : e.Nested) :
    Nests e e' := by
  induction h with
  | none => exact ⟨rfl, rfl, k⟩
  | more _ request ih => exact ih.trans (ih.nested.perform request)

/-- The states of an engine: between two calls, and between two steps of a run. -/
inductive Reaches (schema : Schema) (config : Config) : Engine → Prop
  | between {e : Engine} {src : Source} (h : Calls (new schema config) { bytes := [] } e src) :
    Reaches schema config e
  | inside {e e' : Engine} {src : Source} (h : Calls (new schema config) { bytes := [] } e src)
    (live : e.status.phase.terminal = false) (hr : Runs { e with status := .running } e') :
    Reaches schema config e'

variable {schema : Schema} {config : Config}

/-- In every state the stack spells a path from the root. -/
theorem Reaches.nests (h : Reaches schema config e) : Nests (new schema config) e := by
  have hnew := nested_new schema config
  cases h with
  | between h => exact h.nests hnew
  | @inside e _ _ h _ hr =>
    have k := (h.nests hnew).alike (alike_retuned e .running e.nextStop e.steps)
    exact k.trans (k.nested.runs hr)

theorem Nested.length_le_depth (h : e.Nested) : e.tasks.length ≤ e.schema.depth := by
  obtain ⟨path, hspells, -⟩ := h.climbs
  exact hspells.length_le_depth

/-- The step that failed, when an engine says that its nesting was too deep. -/
theorem exceeds_of_failed {src : Source} {limit : Nat}
    (h : Calls (new schema config) { bytes := [] } e src)
    (hr : e.resume.1 = .failed (.nestingTooDeep limit)) : ∃ e₀ src₀ e₁ e₂,
      Calls (new schema config) { bytes := [] } e₀ src₀ ∧
      Calls (e₀.perform .resume).2 src₀ e.resume.2 src ∧ e₀.status.phase.terminal = false ∧
      Runs { e₀ with status := .running } e₁ ∧ e₁.step = .error (.nestingTooDeep limit) e₂ ∧
      Exceeds step e₁ e₂ limit := by
  have hcalls : Calls (new schema config) { bytes := [] } e.resume.2 src := by
    have h' := h.more .resume
    rwa [told_of_input rfl rfl] at h'
  have hfailed : e.resume.2.status = .failed (.nestingTooDeep limit) := by
    rw [status_resume, hr]
    rfl
  obtain ⟨e₀, src₀, e₁, e₂, -, hc₀, hc, live, hruns, hstep, -⟩ :=
    hcalls.failing_step hfailed (invariant_true _) trivial
  have hnests := Reaches.nests (.inside hc₀ live hruns)
  exact ⟨e₀, src₀, e₁, e₂, hc₀, hc, live, hruns, hstep, (keeps_step hnests.nested).exceeds hstep⟩

/-- The limit on the nesting is exact. In every state of an engine the stack holds no more tasks than
the limit, or one, and no more than the schema is deep. An engine that fails for the nesting was about
to put a task of a node on the stack whose path from the root has more nodes than the limit; under a
limit that is no less than the depth of the schema, no engine does. -/
theorem nests_soundly (schema : Schema) (config : Config) :
    (∀ e, Reaches schema config e → e.schema = schema ∧ e.config = config ∧
      e.tasks.length ≤ max 1 config.maxNesting ∧ e.tasks.length ≤ schema.depth) ∧
    (schema.depth ≤ config.maxNesting → ∀ e src limit,
      Calls (new schema config) { bytes := [] } e src →
        e.resume.1 ≠ .failed (.nestingTooDeep limit)) ∧
    ∀ e src limit, Calls (new schema config) { bytes := [] } e src →
      e.resume.1 = .failed (.nestingTooDeep limit) → limit = config.maxNesting ∧
        ∃ e₀ src₀ e₁ e₂, Calls (new schema config) { bytes := [] } e₀ src₀ ∧
          Calls (e₀.perform .resume).2 src₀ e.resume.2 src ∧ e₀.status.phase.terminal = false ∧
          Runs { e₀ with status := .running } e₁ ∧
          e₁.step = .error (.nestingTooDeep limit) e₂ ∧ Exceeds step e₁ e₂ limit := by
  refine ⟨fun e h => ?_, fun hdepth e src limit h hr => ?_, fun e src limit h hr => ?_⟩
  · have k := h.nests
    have hle := k.nested.length_le
    have hdepth := k.nested.length_le_depth
    rw [k.config] at hle
    rw [k.schema] at hdepth
    exact ⟨k.schema, k.config, hle, hdepth⟩
  · obtain ⟨e₀, src₀, e₁, e₂, hc₀, -, live, hruns, -, hx⟩ := exceeds_of_failed h hr
    have k := Reaches.nests (.inside hc₀ live hruns)
    obtain ⟨hlimit, task, id, path, -, hpath, -, hlt, -⟩ := hx
    have hle := hpath.length_le_depth
    rw [k.schema] at hle
    rw [k.config] at hlimit
    have hnew : (new schema config).schema.depth ≤ (new schema config).config.maxNesting := hdepth
    omega
  · obtain ⟨e₀, src₀, e₁, e₂, hc₀, hc, live, hruns, hstep, hx⟩ := exceeds_of_failed h hr
    have k := Reaches.nests (.inside hc₀ live hruns)
    refine ⟨?_, e₀, src₀, e₁, e₂, hc₀, hc, live, hruns, hstep, hx⟩
    rw [hx.limit_eq, k.config]
    rfl

/-- A sequence of bytes is two nodes deep: its engine fails under a limit of one, where the first of
the bytes was to be visited, and not under a limit of two. -/
theorem nests_soundly_twoBytes :
    (new .twoBytes { pageSize := 4, maxNesting := 1 }).resume.1 = .failed (.nestingTooDeep 1) ∧
      (∃ e₁ e₂ : Engine, e₁.step = .error (.nestingTooDeep 1) e₂ ∧ Exceeds step e₁ e₂ 1) ∧
      ∀ limit, (new .twoBytes { pageSize := 4, maxNesting := 2 }).resume.1 ≠
        .failed (.nestingTooDeep limit) := by
  have hr : (new .twoBytes { pageSize := 4, maxNesting := 1 }).resume.1 =
      .failed (.nestingTooDeep 1) := of_runWithin (f := (·.1)) 9 rfl (by decide +kernel)
  have hdepth : Schema.twoBytes.depth ≤ 2 := by decide +kernel
  obtain ⟨-, -, hexceeds⟩ := nests_soundly .twoBytes { pageSize := 4, maxNesting := 1 }
  obtain ⟨-, hnever, -⟩ := nests_soundly .twoBytes { pageSize := 4, maxNesting := 2 }
  obtain ⟨-, -, -, e₁, e₂, -, -, -, -, hs, hx⟩ := hexceeds _ _ _ (.none _ _) hr
  exact ⟨hr, ⟨e₁, e₂, hs, hx⟩, fun limit => hnever hdepth _ _ limit (.none _ _)⟩

end Transcoder.Engine

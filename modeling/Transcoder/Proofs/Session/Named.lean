import Transcoder.Session.Step

/-!
# Things by name

What a session has under a name, and what its helpers come to in terms of that. Only the first entry
of a name counts, so nothing is said about the list itself.
-/
namespace Transcoder

namespace Named

variable {α : Type}

theorem get?_cons (name name' : String) (x : α) (xs : Named α) :
    get? ((name, x) :: xs) name' = if name' = name then some x else get? xs name' := by
  unfold get?
  rw [List.lookup_cons]
  by_cases h : name' = name
  · rw [if_pos h, beq_iff_eq.2 h]
  · rw [if_neg h, beq_eq_false_iff_ne.2 h]

theorem get?_erase (xs : Named α) (name name' : String) :
    get? (erase xs name) name' = if name' = name then none else get? xs name' := by
  induction xs with
  | nil =>
    by_cases h : name' = name
    · rw [if_pos h]
      rfl
    · rw [if_neg h]
      rfl
  | cons entry xs ih =>
    obtain ⟨name₁, x⟩ := entry
    unfold erase at ih ⊢
    rw [List.filter_cons, get?_cons]
    by_cases h : name₁ = name
    · subst h
      rw [if_neg (by simp), ih]
      by_cases h' : name' = name₁
      · rw [if_pos h', if_pos h']
      · rw [if_neg h', if_neg h', if_neg h']
    · rw [if_pos (by simpa using h), get?_cons, ih]
      by_cases h' : name' = name₁
      · rw [if_pos h', if_pos h', if_neg (fun e => h (h'.symm.trans e))]
      · rw [if_neg h', if_neg h']

/-- A thing just named is found, and the others are found as before. -/
theorem get?_put (xs : Named α) (name name' : String) (x : α) :
    get? (put xs name x) name' = if name' = name then some x else get? xs name' := by
  rw [put, get?_cons, get?_erase]
  by_cases h : name' = name
  · rw [if_pos h, if_pos h]
  · rw [if_neg h, if_neg h, if_neg h]

/-- What has a name is in the list. -/
theorem mem_values_of_get? {xs : Named α} {name : String} {x : α} (h : get? xs name = some x) :
    x ∈ values xs := by
  induction xs with
  | nil => cases h
  | cons entry xs ih =>
    obtain ⟨name₁, y⟩ := entry
    rw [get?_cons] at h
    by_cases hn : name = name₁
    · rw [if_pos hn] at h
      cases h
      exact List.mem_cons_self
    · rw [if_neg hn] at h
      exact List.mem_cons_of_mem _ (ih h)

/-- What is left when a name is taken out was there before. -/
theorem mem_values_of_erase {xs : Named α} {name : String} {x : α}
    (h : x ∈ values (erase xs name)) : x ∈ values xs := by
  obtain ⟨entry, hentry, rfl⟩ := List.mem_map.1 h
  exact List.mem_map_of_mem (List.mem_filter.1 hentry).1

/-- A list with one more name has what it had before, and the thing just named. -/
theorem mem_values_of_put {xs : Named α} {name : String} {x y : α}
    (h : y ∈ values (put xs name x)) : y = x ∨ y ∈ values xs := by
  rcases List.mem_cons.1 h with rfl | h
  · exact .inl rfl
  · exact .inr (mem_values_of_erase h)

end Named

namespace Session

/-- The page of a named cursor is held. -/
theorem mem_heldPages {s : Session} {name : String} {c : AnyCursor}
    (h : s.cursors.get? name = some c) {page : Nat} (hp : page ∈ c.page) : page ∈ s.heldPages := by
  rw [heldPages]
  refine List.mem_append_left _ (List.mem_append_left _ ?_)
  exact List.mem_filterMap.2 ⟨c, Named.mem_values_of_get? h, hp⟩

/-- The page of the header of a begun block is held. -/
theorem mem_heldPages_header {s : Session} {block : String} {h : OpenHeader}
    (hget : s.headers.get? block = some h) {page : Nat} (hp : page ∈ h.cursor.page) :
    page ∈ s.heldPages := by
  rw [heldPages]
  refine List.mem_append_left _ (List.mem_append_right _ ?_)
  exact List.mem_filterMap.2 ⟨h, Named.mem_values_of_get? hget, hp⟩

/-! ## Changes under one name -/

/-- `s'` is `s` with another tape, and with another cursor under the name, or none. A block that was
begun meanwhile has the writer of that name on its header. -/
structure Becomes (s : Session) (name : String) (t : Tape) (c : Option AnyCursor) (s' : Session) :
    Prop where
  tape : s'.tape = t
  cursors : ∀ name', s'.cursors.get? name' = if name' = name then c else s.cursors.get? name'
  headers : ∀ block h, s'.headers.get? block = some h →
    s.headers.get? block = some h ∨ s.cursors.get? name = some (.writer h.cursor)

/-- What a name stands for may stay. -/
theorem becomes_self (s : Session) (name : String) (t : Tape) :
    Becomes s name t (s.cursors.get? name) { s with tape := t } := by
  refine ⟨rfl, fun name' => ?_, fun _ _ => .inl⟩
  by_cases hn : name' = name
  · rw [if_pos hn, hn]
  · rw [if_neg hn]

theorem becomes_put (s : Session) (name : String) (t : Tape) (c : AnyCursor) :
    Becomes s name t (some c) ({ s with tape := t }.putCursor name c) :=
  ⟨rfl, fun name' => Named.get?_put s.cursors name name' c, fun _ _ => .inl⟩

theorem onCursor_of_some {s : Session} {name : String} {c : AnyCursor}
    (h : s.cursors.get? name = some c) (f : AnyCursor → Reply × Session) :
    s.onCursor name f = f c := by
  rw [onCursor, h]

theorem onCursor_of_none {s : Session} {name : String} (h : s.cursors.get? name = none)
    (f : AnyCursor → Reply × Session) : s.onCursor name f = (.missing, s) := by
  rw [onCursor, h]

end Session

end Transcoder

import TreeQuery.Value.Basic

/-!
# Addresses

An address is a way down a tree: a key or a position for every container that is
entered.  It names one location at most, unlike a path, which may name many.

`Value.get?` reads a location and `Value.put` replaces what is there.  Writing
never makes a location, and it keeps the order of keys and the length of lists.
`get?_put_self` reads back what was written, and `get?_put_disjoint` says that a
location apart from the written one keeps its value.

Most edits visit many locations in turn and carry a state from one to the next.
`Value.editEach` is that loop.
-/

namespace TreeQuery

/-- A step from a container to one of its children. -/
inductive Step where
  /-- To the child with a key. -/
  | key (name : String)
  /-- To the element at a position. -/
  | index (position : Nat)
deriving DecidableEq, Repr

/-- A way down a tree, from the root. -/
abbrev Address := List Step

namespace Value

/-- The child at a step. -/
def child? : Value → Step → Option Value
  | .compound entries, .key name => Compound.get? entries name
  | .list items, .index position => items[position]?
  | _, _ => none

/-- Replace the child at a step, if there is one. -/
def putChild : Value → Step → Value → Value
  | .compound entries, .key name, new =>
      if (Compound.get? entries name).isSome then .compound (Compound.insert entries name new)
      else .compound entries
  | .list items, .index position, new => .list (items.set position new)
  | value, _, _ => value

/-- The value at an address. -/
def get? : Value → Address → Option Value
  | value, [] => some value
  | value, step :: rest => (value.child? step).bind fun child => get? child rest

/-- Replace the value at an address, if there is one. -/
def put : Value → Address → Value → Value
  | _, [], new => new
  | value, step :: rest, new =>
      match value.child? step with
      | some child => value.putChild step (put child rest new)
      | none => value

/-! ## Reading after writing -/

/-- A child that is replaced reads as the new one. -/
theorem child?_putChild_self {value child : Value} {step : Step} (new : Value)
    (h : value.child? step = some child) : (value.putChild step new).child? step = some new := by
  cases value <;> cases step <;> simp only [child?, reduceCtorEq] at h
  · simp [putChild, child?, h, Compound.get?_insert]
  · obtain ⟨hlt, _⟩ := List.getElem?_eq_some_iff.mp h
    simp [putChild, child?, hlt]

/-- The other children stay as they were. -/
theorem child?_putChild_of_ne (value new : Value) {step other : Step} (h : step ≠ other) :
    (value.putChild step new).child? other = value.child? other := by
  cases value <;> cases step <;> cases other <;> simp only [putChild]
  · next entries name name' =>
    have hne : name ≠ name' := fun heq => h (heq ▸ rfl)
    split <;> simp [child?, Compound.get?_insert, hne]
  · split <;> rfl
  · rfl
  · next items position position' =>
    have hne : position ≠ position' := fun heq => h (heq ▸ rfl)
    simp [child?, List.getElem?_set_ne hne]

@[simp] theorem get?_nil (value : Value) : value.get? [] = some value := by
  simp [get?]

@[simp] theorem put_nil (value new : Value) : value.put [] new = new := by
  simp [put]

/-- An address made of two parts is read one part after the other. -/
theorem get?_append (value : Value) (first second : Address) :
    value.get? (first ++ second) = (value.get? first).bind fun inner => inner.get? second := by
  induction first generalizing value with
  | nil => simp
  | cons step first ih =>
      simp only [List.cons_append, get?]
      cases value.child? step with
      | none => rfl
      | some child => exact ih child

/-- What is written at a location is read there. -/
theorem get?_put_self {value old : Value} {address : Address} (new : Value)
    (h : value.get? address = some old) : (value.put address new).get? address = some new := by
  induction address generalizing value with
  | nil => simp
  | cons step rest ih =>
      simp only [get?] at h
      cases hchild : value.child? step with
      | none => simp [hchild] at h
      | some child =>
          rw [hchild, Option.bind_some] at h
          simp only [put, hchild, get?, child?_putChild_self _ hchild, Option.bind_some]
          exact ih h

end Value

/-- Two addresses part ways: neither leads to a location at or above the other. -/
def Address.Disjoint (first second : Address) : Prop :=
  ¬first <+: second ∧ ¬second <+: first

/-- A location apart from the written one keeps its value. -/
theorem Value.get?_put_disjoint (value new : Value) {written read : Address}
    (h : Address.Disjoint written read) :
    (value.put written new).get? read = value.get? read := by
  induction written generalizing value read with
  | nil => exact absurd List.nil_prefix h.1
  | cons step written ih =>
      cases read with
      | nil => exact absurd List.nil_prefix h.2
      | cons step' read =>
          cases hchild : value.child? step with
          | none => simp [put, hchild]
          | some child =>
              simp only [put, hchild, get?]
              by_cases hstep : step = step'
              · subst hstep
                have hrest : Address.Disjoint written read :=
                  ⟨fun hp => h.1 (List.cons_prefix_cons.mpr ⟨rfl, hp⟩),
                    fun hp => h.2 (List.cons_prefix_cons.mpr ⟨rfl, hp⟩)⟩
                rw [child?_putChild_self _ hchild, hchild, Option.bind_some, Option.bind_some]
                exact ih child hrest
              · rw [child?_putChild_of_ne _ _ hstep]

/-! ## Editing many locations in turn -/

/-- Edit the values at some addresses one after the other.  The result has the
answer of the edit for every address at which there was a value. -/
def Value.editEach {m : Type → Type} [Monad m] {α : Type} (edit : Value → m (Value × α)) :
    List Address → Value → m (Value × List (Address × α))
  | [], root => pure (root, [])
  | address :: rest, root =>
      match root.get? address with
      | none => editEach edit rest root
      | some value => do
          let (edited, answer) ← edit value
          let (result, answers) ← editEach edit rest (root.put address edited)
          pure (result, (address, answer) :: answers)

end TreeQuery

import TreeQuery.Proofs.Path.Alike
import TreeQuery.Proofs.Path.Growth
import TreeQuery.Proofs.Path.Write

/-!
# Writing along keys

A path of keys leads to one location at most.  So writing to it is a recursion over the
keys, without addresses (`Path.writeKeys`).  What is on the way may be missing, so the
recursion starts from an optional value.  The write of a path, with its parents and its
loop, comes to the same (`writeValue_keys`).

Along keys a write that fails has met something that is no compound before it made
anything, so it leaves the tree as it was (`writeKeys_of_error`).  Two writes along keys
commute if neither path is a beginning of the other one (`writeKeys_comm`).  They share
some keys, and where they part each of them writes an entry of its own, so that only the
order of new entries differs.
-/

namespace TreeQuery

namespace Path

/-- Write a value to where keys lead from an old value, and make the compounds that are
missing.  The answer counts the change, or is the number of the key at which the write
fails. -/
def writeKeys (value : Value) : List String → Option Value → Value × Except Nat Nat
  | [], none => (value, .ok 1)
  | [], some old => ((Selector.overwrite old value).1, .ok (Selector.overwrite old value).2)
  | name :: rest, old =>
      match old.getD (.compound []) with
      | .compound entries =>
          let (new, outcome) := writeKeys value rest (Compound.get? entries name)
          (.compound (Compound.insert entries name new), outcome.mapError (· + 1))
      | other => (other, if rest.isEmpty then .ok 0 else .error 0)

theorem writeKeys_compound (value : Value) (name : String) (rest : List String)
    (entries : Compound) :
    writeKeys value (name :: rest) (some (.compound entries))
      = (.compound (Compound.insert entries name
          (writeKeys value rest (Compound.get? entries name)).1),
        (writeKeys value rest (Compound.get? entries name)).2.mapError (· + 1)) := rfl

/-- To go on from what is missing is to go on from an empty compound. -/
theorem writeKeys_getD (value : Value) {names : List String} (h : names ≠ [])
    (old : Option Value) :
    writeKeys value names (some (old.getD (.compound []))) = writeKeys value names old := by
  cases names with
  | nil => exact absurd rfl h
  | cons name rest => rfl

/-- No key leads on from what is no compound. -/
theorem writeKeys_stuck (value : Value) (name : String) {rest : List String} (h : rest ≠ [])
    {old : Value} (hold : ∀ entries, old ≠ .compound entries) :
    writeKeys value (name :: rest) (some old) = (old, .error 0) := by
  cases rest with
  | nil => exact absurd rfl h
  | cons next rest =>
      cases old with
      | compound entries => exact absurd rfl (hold entries)
      | list items => rfl
      | scalar leaf => rfl

/-! ## Failure -/

theorem mapError_eq_error {ε ε' α : Type} {outcome : Except ε α} {f : ε → ε'} {failure : ε'} :
    outcome.mapError f = .error failure ↔ ∃ inner, outcome = .error inner ∧ f inner = failure := by
  cases outcome <;> simp [Except.mapError]

/-- What is missing can always be made. -/
theorem writeKeys_none (value : Value) (names : List String) :
    ∃ count, (writeKeys value names none).2 = .ok count := by
  induction names with
  | nil => exact ⟨1, rfl⟩
  | cons name rest ih =>
      obtain ⟨count, hcount⟩ := ih
      exact ⟨count, congrArg (Except.mapError (· + 1)) hcount⟩

theorem writeKeys_of_error {value : Value} {names : List String} :
    ∀ {old : Value} {failure : Nat}, (writeKeys value names (some old)).2 = .error failure →
      (writeKeys value names (some old)).1 = old := by
  induction names with
  | nil => exact nofun
  | cons name rest ih =>
      intro old failure h
      cases old with
      | list items => rfl
      | scalar leaf => rfl
      | compound entries =>
          rw [writeKeys_compound] at h ⊢
          obtain ⟨inner, hinner, -⟩ := mapError_eq_error.mp h
          cases hget : Compound.get? entries name with
          | none =>
              obtain ⟨count, hcount⟩ := writeKeys_none value rest
              rw [hget, hcount] at hinner
              cases hinner
          | some child =>
              rw [hget] at hinner
              dsimp only
              rw [ih hinner, Compound.insert_of_get?_eq_some hget]

/-! ## Trees that are alike -/

theorem getD_alike {old old' : Option Value} (h : Option.Rel Value.Alike old old') :
    (old.getD (.compound [])).Alike (old'.getD (.compound [])) := by
  cases h with
  | none => exact container_alike (.child "")
  | some halike => exact halike

theorem writeKeys_alike {value value' : Value} (hvalue : value.Alike value')
    (names : List String) : ∀ {old old' : Option Value}, Option.Rel Value.Alike old old' →
      AlikeEdit (writeKeys value names old) (writeKeys value' names old') := by
  induction names with
  | nil =>
      intro old old' h
      cases h with
      | none => exact ⟨hvalue, rfl⟩
      | some halike =>
          obtain ⟨hnew, hcount⟩ := Selector.overwrite_alike halike hvalue
          exact ⟨hnew, congrArg Except.ok hcount⟩
  | cons name rest ih =>
      intro old old' h
      have hne := List.cons_ne_nil name rest
      rw [← writeKeys_getD value hne old, ← writeKeys_getD value' hne old']
      have halike := getD_alike h
      generalize old.getD (.compound []) = first at halike ⊢
      generalize old'.getD (.compound []) = second at halike ⊢
      cases halike.like with
      | compound =>
          obtain ⟨hnew, houtcome⟩ := ih (halike.child? (.key name))
          exact ⟨halike.insert name hnew, congrArg (Except.mapError (· + 1)) houtcome⟩
      | list => exact ⟨halike, rfl⟩
      | scalar => exact ⟨halike, rfl⟩

/-- Entries of different keys can be written in either order, apart from their own order. -/
theorem insert_comm_alike {entries : Compound} {name name' : String} {new new' : Value}
    (hne : name ≠ name') (h : (Value.compound entries).Alike (.compound entries))
    (hnew : new.Alike new) (hnew' : new'.Alike new') :
    (Value.compound (Compound.insert (Compound.insert entries name new) name' new')).Alike
      (.compound (Compound.insert (Compound.insert entries name' new') name new)) := by
  obtain ⟨hkeys, -, hget⟩ := Value.alike_compound.mp ((h.insert name hnew).insert name' hnew')
  obtain ⟨hkeys', -⟩ := Value.alike_compound.mp ((h.insert name' hnew').insert name hnew)
  refine Value.alike_compound.mpr ⟨hkeys, hkeys', fun other => ?_⟩
  rw [← Compound.get?_insert_comm hne]
  exact hget other

/-! ## Two writes -/

/-- The second write does not see the first one, and their order does not matter. -/
theorem writeKeys_comm {value value' : Value} (hvalue : value.Alike value)
    (hvalue' : value'.Alike value') {names : List String} :
    ∀ {names' : List String} {old : Option Value}, ¬names <+: names' → ¬names' <+: names →
      Option.Rel Value.Alike old old →
        (writeKeys value' names' (some (writeKeys value names old).1)).2
            = (writeKeys value' names' old).2
          ∧ (writeKeys value' names' (some (writeKeys value names old).1)).1.Alike
            (writeKeys value names (some (writeKeys value' names' old).1)).1 := by
  induction names with
  | nil => exact fun h => absurd List.nil_prefix h
  | cons name rest ih =>
      intro names' old hnot hnot' h
      cases names' with
      | nil => exact absurd List.nil_prefix hnot'
      | cons name' rest' =>
          rw [← writeKeys_getD value (List.cons_ne_nil name rest) old,
            ← writeKeys_getD value' (List.cons_ne_nil name' rest') old]
          have halike := getD_alike h
          generalize old.getD (.compound []) = first at halike ⊢
          cases first with
          | list items => exact ⟨rfl, halike⟩
          | scalar leaf => exact ⟨rfl, halike⟩
          | compound entries =>
              simp only [writeKeys_compound, Compound.get?_insert]
              have hget := halike.child? (.key name)
              by_cases hname : name = name'
              · -- Both writes go on in the value of one key.
                subst hname
                simp only [if_pos, Compound.insert_insert_self]
                have hrest : ¬rest <+: rest' := fun hle =>
                  hnot (List.cons_prefix_cons.mpr ⟨rfl, hle⟩)
                have hrest' : ¬rest' <+: rest := fun hle =>
                  hnot' (List.cons_prefix_cons.mpr ⟨rfl, hle⟩)
                obtain ⟨houtcome, hnew⟩ := ih hrest hrest' hget
                exact ⟨congrArg (Except.mapError (· + 1)) houtcome, halike.insert name hnew⟩
              · -- Here they part.
                simp only [if_neg hname, if_neg (Ne.symm hname)]
                refine ⟨trivial, insert_comm_alike hname halike ?_ ?_⟩
                · exact (writeKeys_alike hvalue rest hget).1
                · exact (writeKeys_alike hvalue' rest' (halike.child? (.key name'))).1

/-! ## The write of a path -/

section

variable {value : Value} {s : Supply}

/-- The last key is written as in the recursion. -/
theorem writeKeys_singleton (hs : s.Constant value) (name : String) (old : Value) :
    writeKeys value [name] (some old)
      = ((((Selector.child name).write old).run s).1.1,
        .ok (((Selector.child name).write old).run s).1.2) := by
  cases old with
  | list items => rfl
  | scalar leaf => rfl
  | compound entries =>
      rw [writeKeys_compound, Selector.write, hs.run_next_bind]
      cases hget : Compound.get? entries name with
      | none => rfl
      | some child =>
          rw [writeKeys, Selector.overwrite, Option.any_some]
          split
          · rw [Compound.insert_of_get?_eq_some hget]
            rfl
          · rfl

/-- A key that is missing is ensured with an empty compound. -/
theorem ensure_child (hs : s.Constant (.compound [])) (name : String) (entries : Compound) :
    (((Selector.child name).ensure (.compound entries)).run s).1
      = (.compound (Compound.insert entries name
          ((Compound.get? entries name).getD (.compound []))), [[.key name]]) := by
  rw [Selector.ensure]
  cases hget : Compound.get? entries name with
  | none =>
      rw [Option.isSome_none, if_neg Bool.false_ne_true, hs.run_next_bind]
      rfl
  | some child =>
      rw [Option.isSome_some, if_pos rfl, Option.getD_some, Compound.insert_of_get?_eq_some hget]
      rfl

end

section

variable {root : Value} {address : Address} (ordinal : Nat) (name : String) {names : List String}

/-- One step of ensuring parents that are keys. -/
theorem ensureParentsFrom_child (h : names ≠ []) (found : List Address) :
    ensureParentsFrom ordinal ((name :: names).map .child) found root
      = match (((Selector.child name).ensureEach found root).run (.always (.compound []))).1 with
        | (grown, []) => (grown, .error ordinal)
        | (grown, picked) => ensureParentsFrom (ordinal + 1) (names.map .child) picked grown := by
  cases names with
  | nil => exact absurd rfl h
  | cons next rest =>
      rw [List.map_cons, List.map_cons, ensureParentsFrom, Selector.container]
      generalize ((Selector.child name).ensureEach found root).run (.always (.compound []))
        = outcome
      obtain ⟨⟨grown, picked⟩, s⟩ := outcome
      cases picked <;> rfl

theorem ensureParentsFrom_compound (h : names ≠ []) {entries : Compound}
    (hold : root.get? address = some (.compound entries)) :
    ensureParentsFrom ordinal ((name :: names).map .child) [address] root
      = ensureParentsFrom (ordinal + 1) (names.map .child) [address ++ [.key name]]
        (root.put address (.compound (Compound.insert entries name
          ((Compound.get? entries name).getD (.compound []))))) := by
  have hensure := ensure_child (Supply.constant_always (.compound [])) name entries
  rw [ensureParentsFrom_child ordinal name h, run_ensureEach, Value.run_editEach_cons [] _ hold]
  generalize ((Selector.child name).ensure (.compound entries)).run (.always (.compound []))
    = outcome at hensure ⊢
  obtain ⟨⟨grown, picked⟩, s⟩ := outcome
  obtain ⟨rfl, rfl⟩ := Prod.mk.inj hensure
  rfl

theorem ensureParentsFrom_stuck (h : names ≠ []) {old : Value}
    (hold : root.get? address = some old) (hstuck : ∀ entries, old ≠ .compound entries) :
    ensureParentsFrom ordinal ((name :: names).map .child) [address] root
      = (root, .error ordinal) := by
  rw [ensureParentsFrom_child ordinal name h, run_ensureEach, Value.run_editEach_cons [] _ hold]
  cases old with
  | compound entries => exact absurd rfl (hstuck entries)
  | list items => exact Prod.ext (Value.put_get? hold) rfl
  | scalar leaf => exact Prod.ext (Value.put_get? hold) rfl

/-- What is written below an entry is written to the compound. -/
theorem put_entry {entries : Compound} (hold : root.get? address = some (.compound entries))
    (child new : Value) :
    (root.put address (.compound (Compound.insert entries name child))).put
        (address ++ [.key name]) new
      = root.put address (.compound (Compound.insert entries name new)) := by
  rw [Value.put_append _ _ (Value.get?_put_self _ hold), Value.put_put_self, Value.put_key,
    Compound.insert_insert_self]
  rw [Compound.get?_insert, if_pos rfl, Option.isSome_some]

end

/-- The write of the last selector, once the parents are looked for. -/
def writeLast {ε : Type} (last : Selector) (value : Value) :
    Value × Except ε (List Address) → Value × Except ε Nat
  | (grown, .error failure) => (grown, .error failure)
  | (grown, .ok found) =>
      let outcome := (Value.editEach last.write found grown).run (Supply.always value)
      (outcome.1.1, .ok (outcome.1.2.map Prod.snd).sum)

/-- From one address on, a path of keys writes as the recursion does with the value there. -/
theorem writeLast_ensureParentsFrom (value : Value) (last : String) {names : List String} :
    ∀ (ordinal : Nat) {root old : Value} {address : Address}, root.get? address = some old →
      writeLast (.child last) value
          (ensureParentsFrom ordinal ((names ++ [last]).map .child) [address] root)
        = (root.put address (writeKeys value (names ++ [last]) (some old)).1,
          (writeKeys value (names ++ [last]) (some old)).2.mapError (ordinal + ·)) := by
  induction names with
  | nil =>
      intro ordinal root old address hold
      rw [List.nil_append, writeKeys_singleton (Supply.constant_always value)]
      show writeLast _ _ (root, .ok [address]) = _
      rw [writeLast, Value.run_editEach_cons [] _ hold]
      rfl
  | cons name rest ih =>
      intro ordinal root old address hold
      have hne : rest ++ [last] ≠ [] := List.concat_ne_nil last rest
      rw [List.cons_append]
      by_cases hstuck : ∀ entries, old ≠ .compound entries
      · rw [ensureParentsFrom_stuck ordinal name hne hold hstuck,
          writeKeys_stuck value name hne hstuck, Value.put_get? hold]
        rfl
      · obtain ⟨entries, rfl⟩ := not_forall_not.mp hstuck
        have hchild : (root.put address (.compound (Compound.insert entries name
            ((Compound.get? entries name).getD (.compound []))))).get? (address ++ [.key name])
              = some ((Compound.get? entries name).getD (.compound [])) := by
          rw [Value.get?_put_below _ _ hold, Value.get?_key, Compound.get?_insert, if_pos rfl]
        rw [ensureParentsFrom_compound ordinal name hne hold, ih (ordinal + 1) hchild,
          put_entry name hold, writeKeys_getD value hne, writeKeys_compound]
        refine Prod.ext rfl ?_
        cases (writeKeys value (rest ++ [last]) (Compound.get? entries name)).2 with
        | ok count => rfl
        | error failure => exact congrArg Except.error (Nat.add_right_comm ..)

theorem writeLast_mapError {ε ε' : Type} (last : Selector) (value grown : Value)
    (outcome : Except ε (List Address)) (name : ε → ε') :
    writeLast last value (grown, outcome.mapError name)
      = ((writeLast last value (grown, outcome)).1,
        (writeLast last value (grown, outcome)).2.mapError name) := by
  cases outcome <;> rfl

/-- Writing to a path of keys is the recursion over the keys. -/
theorem writeValue_keys {path : Path} {names : List String}
    (h : path.selectors = names.map .child) (hne : names ≠ []) (root value : Value) :
    path.writeValue root value = ((writeKeys value names (some root)).1,
      (writeKeys value names (some root)).2.mapError path.notFound) := by
  obtain ⟨parents, last, rfl⟩ := names.eq_nil_or_concat'.resolve_left hne
  have hselectors : path.selectors = parents.map .child ++ [.child last] := by
    rw [h, List.map_append, List.map_singleton]
  calc path.writeValue root value
      = writeLast (.child last) value (path.ensureParents root) := by
        rw [writeValue_of_concat hselectors]
        obtain ⟨grown, failure | found⟩ := path.ensureParents root <;> rfl
    _ = ((root.put [] (writeKeys value (parents ++ [last]) (some root)).1),
          ((writeKeys value (parents ++ [last]) (some root)).2.mapError (0 + ·)).mapError
            path.notFound) := by
        rw [ensureParents, writeLast_mapError, h,
          writeLast_ensureParentsFrom value last 0 (Value.get?_nil root)]
    _ = _ := by
        rw [Value.put_nil]
        cases (writeKeys value (parents ++ [last]) (some root)).2 with
        | ok count => rfl
        | error failure => simp [Except.mapError]

/-! ## Laws of the write -/

/-- A write along keys that fails leaves the tree as it was, whatever it was to put there. -/
theorem write_unchanged {path : Path} {names : List String}
    (h : path.selectors = names.map .child) {root after : Value} {failure : NotFound}
    {supply supply' : Supply}
    (hwrite : (path.write root).run supply = ((after, .error failure), supply')) :
    after = root := by
  have hparents := ensureParents_of_write_error hwrite
  have hne : names ≠ [] := by
    rintro rfl
    rw [ensureParents_of_nil h] at hparents
    cases hparents
  -- Every value fails to be written in the same way.
  have hkeys := writeValue_keys h hne root root
  obtain ⟨parents, last, rfl⟩ := names.eq_nil_or_concat'.resolve_left hne
  rw [List.map_append, List.map_singleton] at h
  rw [writeValue_of_concat h, hparents] at hkeys
  obtain ⟨htree, houtcome⟩ := Prod.mk.inj hkeys
  obtain ⟨ordinal, hwritten, -⟩ := mapError_eq_error.mp houtcome.symm
  exact htree.trans (writeKeys_of_error hwritten)

/-- Writes to paths of keys do not interfere with each other if neither path is a beginning
of the other one.  In both orders each write has the result that it has alone, and the trees
are the same at the end.  A write to a path of keys that fails changes nothing. -/
theorem writes_commute {path : Path} {names : List String}
    (h : path.selectors = names.map .child) :
    (∀ (root after : Value) (failure : NotFound) (supply supply' : Supply),
      (path.write root).run supply = ((after, .error failure), supply') → after = root)
    ∧ ∀ (path' : Path) (names' : List String), path'.selectors = names'.map .child →
      ¬path.selectors <+: path'.selectors → ¬path'.selectors <+: path.selectors →
      ∀ root value value' : Value, root.Keyed → root.isNaNFree = true →
        value.Keyed → value.isNaNFree = true → value'.Keyed → value'.isNaNFree = true →
        let first := path.writeValue root value
        let first' := path'.writeValue root value'
        (path'.writeValue first.1 value').2 = first'.2
          ∧ (path.writeValue first'.1 value).2 = first.2
          ∧ (path'.writeValue first.1 value').1.Same (path.writeValue first'.1 value).1 := by
  refine ⟨fun _ _ _ _ _ => write_unchanged h, fun path' names' h' hnot hnot' root value value'
    hroot hrootNumbers hvalue hvalueNumbers hvalue' hvalueNumbers' => ?_⟩
  rw [h, h'] at hnot hnot'
  have hnames : ¬names <+: names' := fun hle => hnot (hle.map Selector.child)
  have hnames' : ¬names' <+: names := fun hle => hnot' (hle.map Selector.child)
  have hne : names ≠ [] := fun hnil => hnames (hnil ▸ List.nil_prefix)
  have hne' : names' ≠ [] := fun hnil => hnames' (hnil ▸ List.nil_prefix)
  have hself := Value.alike_self hvalue hvalueNumbers
  have hself' := Value.alike_self hvalue' hvalueNumbers'
  have halike := Option.Rel.some (Value.alike_self hroot hrootNumbers)
  obtain ⟨hsecond, htrees⟩ := writeKeys_comm hself hself' hnames hnames' halike
  obtain ⟨hfirst, -⟩ := writeKeys_comm hself' hself hnames' hnames halike
  simp only [writeValue_keys h hne, writeValue_keys h' hne', hfirst, hsecond]
  exact ⟨trivial, trivial, htrees.same⟩

/-- Both writes make the first compound if they come first, so the orders of keys differ.
The first write fails below a number, and leaves it. -/
theorem writes_commute_in_empty :
    let path : Path := ⟨"a.b.c", [⟨.child "a", 1⟩, ⟨.child "b", 3⟩, ⟨.child "c", 5⟩]⟩
    let path' : Path := ⟨"a.d", [⟨.child "a", 1⟩, ⟨.child "d", 3⟩]⟩
    let value (n : Int64) : Value := .scalar (.int n)
    let branch : String × Value := ("b", .compound [("c", value 1)])
    let tree : Value := .compound [("a", .compound [branch, ("d", value 2)])]
    let tree' : Value := .compound [("a", .compound [("d", value 2), branch])]
    let numbered : Value := .compound [("a", value 3)]
    path'.writeValue (path.writeValue (.compound []) (value 1)).1 (value 2) = (tree, .ok 1)
      ∧ path.writeValue (path'.writeValue (.compound []) (value 2)).1 (value 1) = (tree', .ok 1)
      ∧ tree.Same tree'
      ∧ ∃ after, path.writeValue numbered (value 1) = (after, .error ⟨"a.b"⟩)
        ∧ after = numbered := by
  intro path path' value branch tree tree' numbered
  have hpath : path.selectors = ["a", "b", "c"].map .child := rfl
  obtain ⟨hunchanged, hcommute⟩ := writes_commute hpath
  obtain ⟨-, -, hsame⟩ := hcommute path' ["a", "d"] rfl
    (by simp [path, path', selectors]) (by simp [path, path', selectors])
    (.compound []) (value 1) (value 2) (.compound List.nodup_nil nofun) rfl .scalar rfl .scalar rfl
  have hwrite : (path.write numbered).run (.always (value 1))
      = ((numbered, .error ⟨"a.b"⟩), .always (value 1)) := by cbv
  exact ⟨rfl, rfl, hsame, numbered, congrArg Prod.fst hwrite, hunchanged _ _ _ _ _ hwrite⟩

end Path

end TreeQuery

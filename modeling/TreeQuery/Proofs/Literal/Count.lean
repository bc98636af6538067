import TreeQuery.Proofs.Advance
import TreeQuery.Proofs.Literal.Parsing
import TreeQuery.Proofs.Literal.Values

/-!
# The count of open containers

A reader of literals can be called again and again.  It counts one container more at every
opening bracket, if the limit allows, and one less at every closing bracket.  An error leaves
the containers counted that were open, and the next call goes on from there.

A reader of this library knows how much room the limit leaves, and its count cannot go below
zero, as no natural number does.  So its states before and after a call do not show that the
limit is kept on the way, and that nothing is taken from zero.  A *counting* reader shows it.
It compares the count itself with the limit before every container.  The count is an integer
that could be anything, and every one there has been is recorded.

Both do the same (`counts_valueWithin`), whatever the calls are and whether they fail or not,
and the record holds nothing below zero and nothing above the limit (`calls_keep_count`).
-/

namespace TreeQuery.Literal

open Reader

/-! ## Readers with a record of their count -/

/-- Where a counting reader is. -/
structure CountingState where
  /-- The cursor. -/
  cursor : Cursor
  /-- The number of open containers, as an integer that nothing keeps in bounds. -/
  count : Int
  /-- The counts there have been, in order. -/
  counts : List Int

/-- A reader that records its count. -/
abbrev CountingReader := EStateM SyntaxError CountingState

namespace Counting

/-- Read with the cursor, which leaves the count alone. -/
def onCursor {α : Type} (read : Reader α) : CountingReader α := fun state =>
  match read state.cursor with
  | .ok value cursor => .ok value { state with cursor }
  | .error error cursor => .error error { state with cursor }

/-- Add to the count and record the sum. -/
def add (change : Int) : CountingReader Unit := modify fun state =>
  { state with count := state.count + change, counts := state.counts ++ [state.count + change] }

/-- Count one more container, unless the limit is reached. -/
def enter (limit : Nat) : CountingReader Unit := do
  let state ← get
  if limit ≤ state.count then onCursor (fail (.tooDeep limit)) else add 1

/-- Read an entry of a compound. -/
def readEntry (value : CountingReader Value) : CountingReader (String × Value) := do
  let key ← onCursor readKey
  onCursor readKeyMark
  let found ← value
  pure (key, found)

/-- Read one or more parts with commas between them, fewer than the fuel. -/
def readParts {α : Type} (close : Char) (part : CountingReader α) : Nat → CountingReader (List α)
  | 0 => onCursor (fail .trailingInput)
  | fuel + 1 => do
      let first ← part
      let more ← onCursor (readSeparator close)
      if more then
        let rest ← readParts close part fuel
        pure (first :: rest)
      else pure [first]

/-- Read the parts up to the closing bracket, of which there may be none. -/
def readPartsUntil {α : Type} (close : Char) (part : CountingReader α) :
    CountingReader (List α) := do
  let next ← onCursor peek
  if next = some close then pure []
  else
    let state ← get
    readParts close part (state.cursor.rest.length + 1)

/-- Read a container.  Only its end takes it off the count. -/
def readContainer {α : Type} (limit : Nat) (opening closing : Char) (part : CountingReader α) :
    CountingReader (List α) := do
  enter limit
  onCursor (expect opening)
  onCursor skipBlanks
  let parts ← readPartsUntil closing part
  onCursor (expect closing)
  add (-1)
  pure parts

/-- Read a compound, given how its values are read. -/
def compoundOf (limit : Nat) (value : CountingReader Value) : CountingReader Compound := do
  let entries ← readContainer limit '{' '}' (readEntry value)
  pure (Compound.ofList entries)

/-- Read a value, given how compounds and lists are read. -/
def valueOf (compound : CountingReader Compound) (list : CountingReader (List Value)) :
    CountingReader Value := do
  onCursor skipBlanks
  let next ← onCursor peek
  match next with
  | none => onCursor (fail (.unexpectedEnd .value))
  | some c =>
      if c = '{' then return .compound (← compound)
      else if c = '[' then return .list (← list)
      else if isQuote c then return .scalar (.string (← onCursor readQuoted))
      else onCursor readBare

/-- Read a value.  The fuel is more than the number of containers that can be opened. -/
def readValue (limit : Nat) : Nat → CountingReader Value
  | 0 => onCursor (fail .trailingInput)
  | fuel + 1 =>
      valueOf (compoundOf limit (readValue limit fuel))
        (readContainer limit '[' ']' (readValue limit fuel))

end Counting

/-! ## Two readings with one count -/

/-- The count is one that the limit allows. -/
def InBounds (limit : Nat) (count : Int) : Prop := 0 ≤ count ∧ count ≤ limit

/-- Both readings end in the same way and at the same place.  After an error at least as many
containers are open as given, otherwise as many as given.  The counts in between are ones that
the limit allows. -/
inductive Agrees {α : Type} (limit least stop : Nat) (counts : List Int) :
    EStateM.Result SyntaxError LiteralState α → EStateM.Result SyntaxError CountingState α →
      Prop where
  | ok {a : α} {cursor : Cursor} {more : List Int} : (∀ count ∈ more, InBounds limit count) →
      Agrees limit least stop counts (.ok a ⟨cursor, stop⟩) (.ok a ⟨cursor, stop, counts ++ more⟩)
  | error {e : SyntaxError} {cursor : Cursor} {depth : Nat} {more : List Int} :
      least ≤ depth → depth ≤ limit → (∀ count ∈ more, InBounds limit count) →
      Agrees limit least stop counts (.error e ⟨cursor, depth⟩)
        (.error e ⟨cursor, depth, counts ++ more⟩)

/-- From where as many containers are open as given first, the reader and the counting reader
agree, and as many are open afterwards as given last. -/
def Counts {α : Type} (limit least start stop : Nat) (read : LiteralReader α)
    (counting : CountingReader α) : Prop :=
  ∀ cursor counts,
    Agrees limit least stop counts (read ⟨cursor, start⟩) (counting ⟨cursor, start, counts⟩)

section

variable {α β : Type} {limit least start middle stop : Nat}

/-- The counts that were recorded before are in bounds as well. -/
theorem Agrees.after {counts more : List Int} {outcome : EStateM.Result SyntaxError LiteralState α}
    {outcome' : EStateM.Result SyntaxError CountingState α}
    (h : Agrees limit least stop (counts ++ more) outcome outcome')
    (hmore : ∀ count ∈ more, InBounds limit count) :
    Agrees limit least stop counts outcome outcome' := by
  cases h with
  | ok hall =>
      rw [List.append_assoc]
      exact .ok (List.forall_mem_append.mpr ⟨hmore, hall⟩)
  | error hleast hlimit hall =>
      rw [List.append_assoc]
      exact .error hleast hlimit (List.forall_mem_append.mpr ⟨hmore, hall⟩)

theorem counts_pure (a : α) : Counts limit least start start (pure a) (pure a) := by
  intro cursor counts
  have hok : Agrees limit least start counts (.ok a ⟨cursor, start⟩)
      (.ok a ⟨cursor, start, counts ++ []⟩) := .ok (List.forall_mem_nil _)
  rwa [List.append_nil] at hok

theorem Counts.bind {read : LiteralReader α} {counting : CountingReader α}
    {next : α → LiteralReader β} {next' : α → CountingReader β}
    (h : Counts limit least start middle read counting)
    (hnext : ∀ a, Counts limit least middle stop (next a) (next' a)) :
    Counts limit least start stop (read >>= next) (counting >>= next') := by
  intro cursor counts
  have hfirst := h cursor counts
  cases hread : read ⟨cursor, start⟩ with
  | ok a s =>
      cases hcounting : counting ⟨cursor, start, counts⟩ with
      | ok a' s' =>
          rw [hread, hcounting] at hfirst
          rw [bind_of_ok hread, bind_of_ok hcounting]
          cases hfirst with
          | ok hall => exact (hnext a _ _).after hall
      | error e' s' =>
          rw [hread, hcounting] at hfirst
          cases hfirst
  | error e s =>
      cases hcounting : counting ⟨cursor, start, counts⟩ with
      | ok a' s' =>
          rw [hread, hcounting] at hfirst
          cases hfirst
      | error e' s' =>
          rw [hread, hcounting] at hfirst
          rw [bind_of_error hread, bind_of_error hcounting]
          cases hfirst with
          | error hleast hlimit hall => exact .error hleast hlimit hall

/-- The reader only wraps the value. -/
theorem Counts.map {read : LiteralReader α} {counting : CountingReader α}
    (h : Counts limit least start stop read counting) (f : α → β) :
    Counts limit least start stop (read >>= fun a => pure (f a))
      (counting >>= fun a => pure (f a)) :=
  h.bind fun a => counts_pure (f a)

theorem Counts.ite {condition : Prop} [Decidable condition] {read other : LiteralReader α}
    {counting other' : CountingReader α} (h : Counts limit least start stop read counting)
    (hother : Counts limit least start stop other other') :
    Counts limit least start stop (if condition then read else other)
      (if condition then counting else other') := by
  split
  · exact h
  · exact hother

/-- With fewer containers open after an error. -/
theorem Counts.mono {least' : Nat} {read : LiteralReader α} {counting : CountingReader α}
    (h : Counts limit least start stop read counting) (hle : least' ≤ least) :
    Counts limit least' start stop read counting := by
  intro cursor counts
  have hrun := h cursor counts
  generalize read ⟨cursor, start⟩ = outcome at hrun ⊢
  generalize counting ⟨cursor, start, counts⟩ = outcome' at hrun ⊢
  cases hrun with
  | ok hall => exact .ok hall
  | error hleast hlimit hall => exact .error (Nat.le_trans hle hleast) hlimit hall

/-- What is read at the cursor does not touch the count. -/
theorem counts_onCursor (hleast : least ≤ start) (hlimit : start ≤ limit) (read : Reader α) :
    Counts limit least start start (onCursor read) (Counting.onCursor read) := by
  intro cursor counts
  unfold onCursor Counting.onCursor
  dsimp only
  cases read cursor with
  | ok a cursor' =>
      have hok : Agrees limit least start counts (.ok a ⟨cursor', start⟩)
          (.ok a ⟨cursor', start, counts ++ []⟩) := .ok (List.forall_mem_nil _)
      rwa [List.append_nil] at hok
  | error e cursor' =>
      have herror : Agrees limit least start counts
          (.error e ⟨cursor', start⟩ : EStateM.Result SyntaxError LiteralState α)
          (.error e ⟨cursor', start, counts ++ []⟩) := .error hleast hlimit (List.forall_mem_nil _)
      rwa [List.append_nil] at herror

end

/-! ## Containers -/

section

variable {α : Type} {limit least depth : Nat}

/-- One container more is open. -/
theorem counts_enter (hlt : depth < limit) :
    Counts limit least depth (depth + 1)
      (modify fun state => { state with depth := state.depth + 1 }) (Counting.enter limit) := by
  intro cursor counts
  have hroom : ¬(limit : Int) ≤ depth := by omega
  have hrun : Counting.enter limit ⟨cursor, depth, counts⟩
      = .ok () ⟨cursor, (depth : Int) + 1, counts ++ [(depth : Int) + 1]⟩ := by
    show (if (limit : Int) ≤ depth then Counting.onCursor (fail (.tooDeep limit))
      else Counting.add 1 : CountingReader Unit) _ = _
    rw [if_neg hroom]
    rfl
  rw [hrun]
  refine .ok (List.forall_mem_singleton.mpr ⟨?_, ?_⟩)
  · omega
  · omega

/-- One container less is open. -/
theorem counts_leave (hle : depth ≤ limit) :
    Counts limit least (depth + 1) depth
      (modify fun state => { state with depth := state.depth - 1 }) (Counting.add (-1)) := by
  intro cursor counts
  have hcount : ((depth + 1 : Nat) : Int) + -1 = depth := by omega
  have hrun : Counting.add (-1) ⟨cursor, (depth + 1 : Nat), counts⟩
      = .ok () ⟨cursor, depth, counts ++ [(depth : Int)]⟩ := by
    rw [← hcount]
    rfl
  rw [hrun]
  refine .ok (List.forall_mem_singleton.mpr ⟨?_, ?_⟩)
  · omega
  · omega

/-- Where no more containers may be opened, both readers refuse. -/
theorem counts_refuse (opening closing : Char) (part : CountingReader α) :
    Counts limit limit limit limit (refuse limit)
      (Counting.readContainer limit opening closing part) := by
  intro cursor counts
  have hrun : Counting.enter limit ⟨cursor, limit, counts⟩
      = .error ⟨.tooDeep limit, cursor.position⟩ ⟨cursor, limit, counts ++ []⟩ := by
    show (if (limit : Int) ≤ limit then Counting.onCursor (fail (.tooDeep limit))
      else Counting.add 1 : CountingReader Unit) _ = _
    rw [if_pos (Int.le_refl _), List.append_nil]
    rfl
  rw [Counting.readContainer, bind_of_error hrun]
  exact .error (Nat.le_refl _) (Nat.le_refl _) (List.forall_mem_nil _)

variable {part : LiteralReader α} {part' : CountingReader α}

theorem counts_readParts (hlimit : depth ≤ limit) (h : Counts limit depth depth depth part part')
    (close : Char) (fuel : Nat) :
    Counts limit depth depth depth (readParts close part fuel)
      (Counting.readParts close part' fuel) := by
  have hcursor : ∀ {β : Type} (read : Reader β),
      Counts limit depth depth depth (onCursor read) (Counting.onCursor read) :=
    counts_onCursor (Nat.le_refl depth) hlimit
  induction fuel with
  | zero => exact hcursor _
  | succ fuel ih =>
      exact h.bind fun first => (hcursor _).bind fun more => (ih.map _).ite (counts_pure _)

theorem counts_readPartsUntil (hlimit : depth ≤ limit)
    (h : Counts limit depth depth depth part part') (close : Char) :
    Counts limit depth depth depth (readPartsUntil close part)
      (Counting.readPartsUntil close part') := by
  refine (counts_onCursor (Nat.le_refl depth) hlimit _).bind fun next => (counts_pure _).ite ?_
  exact fun cursor counts =>
    counts_readParts hlimit h close (cursor.rest.length + 1) cursor counts

/-- Between its brackets a container is counted, and afterwards it is not any more. -/
theorem counts_readContainer (hlt : depth < limit)
    (h : Counts limit (depth + 1) (depth + 1) (depth + 1) part part') (opening closing : Char) :
    Counts limit depth depth depth (readContainer opening closing part)
      (Counting.readContainer limit opening closing part') := by
  have hcursor : ∀ {β : Type} (read : Reader β),
      Counts limit depth (depth + 1) (depth + 1) (onCursor read) (Counting.onCursor read) :=
    counts_onCursor (Nat.le_succ depth) hlt
  have hparts := (counts_readPartsUntil hlt h closing).mono (Nat.le_succ depth)
  refine (counts_enter hlt).bind fun _ => (hcursor _).bind fun _ => (hcursor _).bind fun _ => ?_
  refine hparts.bind fun parts => (hcursor _).bind fun _ => ?_
  exact (counts_leave (Nat.le_of_lt hlt)).map fun _ => parts

end

/-! ## Values -/

section

variable {limit depth : Nat}

theorem counts_readEntry (hlimit : depth ≤ limit) {value : LiteralReader Value}
    {value' : CountingReader Value} (h : Counts limit depth depth depth value value') :
    Counts limit depth depth depth (readEntry value) (Counting.readEntry value') := by
  have hcursor : ∀ {β : Type} (read : Reader β),
      Counts limit depth depth depth (onCursor read) (Counting.onCursor read) :=
    counts_onCursor (Nat.le_refl depth) hlimit
  exact (hcursor _).bind fun key => (hcursor _).bind fun _ => h.map _

theorem counts_compoundOf (hlt : depth < limit) {value : LiteralReader Value}
    {value' : CountingReader Value}
    (h : Counts limit (depth + 1) (depth + 1) (depth + 1) value value') :
    Counts limit depth depth depth (compoundOf value) (Counting.compoundOf limit value') :=
  (counts_readContainer hlt (counts_readEntry hlt h) _ _).map _

theorem counts_refuseCompound (value : CountingReader Value) :
    Counts limit limit limit limit (refuse limit) (Counting.compoundOf limit value) :=
  (counts_refuse _ _ _).map Compound.ofList

theorem counts_valueOf (hlimit : depth ≤ limit) {compound : LiteralReader Compound}
    {compound' : CountingReader Compound} {list : LiteralReader (List Value)}
    {list' : CountingReader (List Value)}
    (hcompound : Counts limit depth depth depth compound compound')
    (hlist : Counts limit depth depth depth list list') :
    Counts limit depth depth depth (valueOf compound list) (Counting.valueOf compound' list') := by
  have hcursor : ∀ {β : Type} (read : Reader β),
      Counts limit depth depth depth (onCursor read) (Counting.onCursor read) :=
    counts_onCursor (Nat.le_refl depth) hlimit
  refine (hcursor _).bind fun _ => (hcursor _).bind fun next => ?_
  split
  · exact hcursor _
  · exact hcompound.map _
  · exact hlist.map _
  · next c hbrace hbracket =>
    dsimp only
    rw [if_neg hbrace, if_neg hbracket]
    refine Counts.ite ?_ (hcursor _)
    exact (hcursor _).map _

/-- The room for containers is what the limit leaves above the count, so a reader runs out of
it exactly where the count has come to the limit. -/
theorem counts_valueWithin {room fuel : Nat} (hroom : depth + room = limit) (hfuel : room < fuel) :
    Counts limit depth depth depth (valueWithin limit room) (Counting.readValue limit fuel) := by
  induction room generalizing depth fuel with
  | zero =>
      obtain ⟨fuel, rfl⟩ := Nat.exists_eq_succ_of_ne_zero (Nat.ne_zero_of_lt hfuel)
      obtain rfl : depth = limit := hroom
      exact counts_valueOf (Nat.le_refl _) (counts_refuseCompound _) (counts_refuse _ _ _)
  | succ room ih =>
      obtain ⟨fuel, rfl⟩ := Nat.exists_eq_succ_of_ne_zero (Nat.ne_zero_of_lt hfuel)
      have hvalue := @ih (depth + 1) fuel (by omega) (by omega)
      exact counts_valueOf (by omega) (counts_compoundOf (by omega) hvalue)
        (counts_readContainer (by omega) hvalue _ _)

/-- Compounds likewise. -/
theorem counts_compoundWithin {room : Nat} (hroom : depth + room = limit) :
    Counts limit depth depth depth (compoundWithin limit room)
      (Counting.compoundOf limit (Counting.readValue limit limit)) := by
  cases room with
  | zero =>
      obtain rfl : depth = limit := hroom
      exact counts_refuseCompound _
  | succ room =>
      exact counts_compoundOf (by omega) (counts_valueWithin (by omega) (by omega))

end

/-! ## Calls of one reader -/

/-- A call of a reader of literals. -/
inductive Call where
  /-- Read any value. -/
  | value
  /-- Read a compound. -/
  | compound

namespace Call

/-- Read what the call asks for. -/
def read (limit : Nat) : Call → LiteralReader Value
  | value => readValue limit
  | compound => do return .compound (← readCompound limit)

/-- The same with a record of the count.  No more containers than the limit allows can be
opened. -/
def counting (limit : Nat) : Call → CountingReader Value
  | value => Counting.readValue limit (limit + 1)
  | compound => do
      return .compound (← Counting.compoundOf limit (Counting.readValue limit limit))

/-- Where a reader is after some calls, whether they have failed or not. -/
def after (limit : Nat) (calls : List Call) (state : LiteralState) : LiteralState :=
  calls.foldl (fun state call => stateAfter (call.read limit state)) state

/-- The same for a counting reader. -/
def afterCounting (limit : Nat) (calls : List Call) (state : CountingState) : CountingState :=
  calls.foldl (fun state call => stateAfter (call.counting limit state)) state

variable {limit depth : Nat}

theorem counts_read (hlimit : depth ≤ limit) (call : Call) :
    Counts limit depth depth depth (call.read limit) (call.counting limit) := by
  have hroom : depth + (limit - depth) = limit := Nat.add_sub_cancel' hlimit
  cases call with
  | value => exact counts_valueWithin hroom (by omega)
  | compound => exact Counts.map (counts_compoundWithin hroom) Value.compound

/-- What a call takes is the text of a value with no more containers inside each other than
the limit leaves room for. -/
theorem takesAfterGap_read (call : Call) {s s' : LiteralState} {value : Value}
    (h : call.read limit s = .ok value s') :
    ∃ gap text, ValueText (limit - s.depth) text value
      ∧ s.cursor.Passes (gap ++ text) s'.cursor := by
  cases call with
  | value =>
      obtain ⟨gap, text, -, htext, hpass, -⟩ := valueWithin_takes limit (limit - s.depth) h
      exact ⟨gap, text, htext, hpass⟩
  | compound =>
      obtain ⟨entries, hentries, rfl⟩ := map_eq_ok.mp h
      obtain ⟨text, htext, hpass, -⟩ := compoundWithin_takes limit (limit - s.depth) hentries
      exact ⟨[], text, htext.valueText, hpass⟩

/-- A call that succeeds takes at least one character. -/
theorem position_lt (call : Call) {s s' : LiteralState} {value : Value}
    (h : call.read limit s = .ok value s') : s.cursor.position < s'.cursor.position := by
  obtain ⟨gap, text, htext, hpass⟩ := call.takesAfterGap_read h
  obtain ⟨c, rest, rfl, -⟩ := htext.start
  have hsize := c.utf8Size_pos
  rw [hpass.2]
  simp only [Text.byteLength_append, Text.byteLength_cons]
  omega

/-- What a call reads fits in the room that the limit leaves. -/
theorem nesting_le (call : Call) {s s' : LiteralState} {value : Value}
    (h : call.read limit s = .ok value s') : value.nesting ≤ limit - s.depth := by
  obtain ⟨gap, text, htext, -⟩ := call.takesAfterGap_read h
  exact htext.nesting_le

end Call

/-! ## Many calls -/

/-- Both readers are at the same place with the same count, and the limit has been kept. -/
structure Keeps (limit : Nat) (state : LiteralState) (counted : CountingState) : Prop where
  cursor : counted.cursor = state.cursor
  count : counted.count = state.depth
  bound : state.depth ≤ limit
  counts : ∀ count ∈ counted.counts, InBounds limit count

section

variable {limit : Nat} {state : LiteralState} {counted : CountingState}

/-- Any call does the same for both readers. -/
theorem Keeps.agrees (h : Keeps limit state counted) (call : Call) :
    Agrees limit state.depth state.depth counted.counts (call.read limit state)
      (call.counting limit counted) := by
  obtain ⟨cursor, count, counts⟩ := counted
  obtain ⟨rfl, rfl, hbound, -⟩ := h
  exact call.counts_read hbound state.cursor counts

/-- One call keeps the limit, whether it fails or not. -/
theorem Keeps.call (h : Keeps limit state counted) (call : Call) :
    Keeps limit (stateAfter (call.read limit state))
      (stateAfter (call.counting limit counted)) := by
  have hagrees := h.agrees call
  generalize call.read limit state = outcome at hagrees ⊢
  generalize call.counting limit counted = outcome' at hagrees ⊢
  cases hagrees with
  | ok hmore => exact ⟨rfl, rfl, h.bound, List.forall_mem_append.mpr ⟨h.counts, hmore⟩⟩
  | error _ hlimit hmore => exact ⟨rfl, rfl, hlimit, List.forall_mem_append.mpr ⟨h.counts, hmore⟩⟩

/-- So do any number of calls. -/
theorem Keeps.calls (h : Keeps limit state counted) (calls : List Call) :
    Keeps limit (Call.after limit calls state) (Call.afterCounting limit calls counted) := by
  induction calls generalizing state counted with
  | nil => exact h
  | cons call calls ih => exact ih (h.call call)

end

/-- A reader of literals does what a counting reader does, after any calls and wherever they
left it.  The counts there have been on the way are not below zero and not above the limit.  A
call that succeeds leaves the count as it is, takes at least one character, and its value has no
more containers inside each other than the limit leaves room for.  A call that fails leaves no
fewer containers counted than before. -/
theorem calls_keep_count (limit : Nat) (start : Cursor) (calls : List Call) (call : Call) :
    let here := Call.after limit calls ⟨start, 0⟩
    let counted := Call.afterCounting limit calls ⟨start, 0, [0]⟩
    counted.cursor = here.cursor ∧ counted.count = here.depth ∧ here.depth ≤ limit
      ∧ (∀ count ∈ counted.counts, 0 ≤ count ∧ count ≤ limit)
      ∧ match call.read limit here, call.counting limit counted with
        | .ok value there, .ok value' there' =>
            value' = value ∧ there'.cursor = there.cursor ∧ there'.count = there.depth
              ∧ there.depth = here.depth ∧ here.cursor.position < there.cursor.position
              ∧ here.depth + value.nesting ≤ limit
        | .error error there, .error error' there' =>
            error' = error ∧ there'.cursor = there.cursor ∧ there'.count = there.depth
              ∧ here.depth ≤ there.depth
        | _, _ => False := by
  intro here counted
  have hstart : Keeps limit ⟨start, 0⟩ ⟨start, 0, [0]⟩ :=
    ⟨rfl, rfl, Nat.zero_le _, List.forall_mem_singleton.mpr ⟨Int.le_refl _, Int.natCast_nonneg _⟩⟩
  have hkeeps : Keeps limit here counted := hstart.calls calls
  have hbound := hkeeps.bound
  refine ⟨hkeeps.cursor, hkeeps.count, hbound, hkeeps.counts, ?_⟩
  have hagrees := hkeeps.agrees call
  cases hread : call.read limit here with
  | ok value there =>
      have htaken := call.position_lt hread
      have hnesting := call.nesting_le hread
      rw [hread] at hagrees
      generalize call.counting limit counted = outcome' at hagrees ⊢
      cases hagrees with
      | ok _ => exact ⟨rfl, rfl, rfl, rfl, htaken, by omega⟩
  | error error there =>
      rw [hread] at hagrees
      generalize call.counting limit counted = outcome' at hagrees ⊢
      cases hagrees with
      | error hle _ _ => exact ⟨rfl, rfl, rfl, hle⟩

end TreeQuery.Literal

import TreeQuery.Proofs.Literal.Count
import TreeQuery.Proofs.Path.Advance
import TreeQuery.Proofs.Path.Embedding

/-!
# A cursor in a text

Single characters, runs, paths and literals can be read from one cursor in any order
(`Operation`), and the cursor can be set to any byte of the text in between (`Action`).  What a
run takes next can depend on what it has taken before (`Reader.readRun`).

A cursor of this library has the characters that are still to be read and not the whole text.
So what ties it to the text is an invariant (`PlacedIn`): it is between two characters, and
the characters after it are left, or it is inside a character, and nothing is left.  Every
operation keeps it, since it goes over text that is left (`Operation.advances`).

From this follows where a cursor can be after any actions, and what an operation does there
(`cursor_stays_in_text`).
-/

namespace TreeQuery

open Text Cursor

/-! ## Runs -/

/-- The beginning of a text whose characters are accepted one after the other.  What has been
accepted before decides about the next one too. -/
def Text.runOf (accept : List Char → Char → Bool) (before : List Char) : List Char → List Char
  | [] => []
  | c :: rest => if accept before c then c :: runOf accept (before ++ [c]) rest else []

theorem Text.runOf_isPrefix (accept : List Char → Char → Bool) (text : List Char) :
    ∀ before, runOf accept before text <+: text := by
  induction text with
  | nil => exact fun _ => List.prefix_rfl
  | cons c rest ih =>
      intro before
      rw [runOf]
      split
      · exact (List.prefix_cons_inj c).mpr (ih _)
      · exact List.nil_prefix

theorem Text.runOf_of_condition (accept : Char → Bool) (text : List Char) :
    ∀ before, runOf (fun _ => accept) before text = text.takeWhile accept := by
  induction text with
  | nil => exact fun _ => rfl
  | cons c rest ih =>
      intro before
      rw [runOf, List.takeWhile_cons, ih]

namespace Reader

/-- Read the longest run of characters that are accepted one after the other. -/
def readRun (accept : List Char → Char → Bool) : Reader (List Char) := fun cursor =>
  let run := runOf accept [] cursor.rest
  .ok run ⟨cursor.position + byteLength run, cursor.rest.drop run.length⟩

theorem readRun_passes {accept : List Char → Char → Bool} {c stop : Cursor} {run : List Char}
    (h : readRun accept c = .ok run stop) : c.Passes run stop := by
  cases h
  exact ⟨(List.prefix_iff_eq_append.mp (runOf_isPrefix accept c.rest [])).symm, rfl⟩

theorem advances_readRun (accept : List Char → Char → Bool) : Advances id (readRun accept) :=
  fun _ => ⟨_, readRun_passes rfl⟩

/-- If only the next character decides, runs are those of a condition on characters. -/
theorem readRun_of_condition (accept : Char → Bool) :
    readRun (fun _ => accept) = readWhile accept := by
  funext c
  have hsplit : c.rest.takeWhile accept ++ c.rest.drop (c.rest.takeWhile accept).length
      = c.rest.takeWhile accept ++ c.rest.dropWhile accept := by
    rw [List.prefix_iff_eq_append.mp <| List.takeWhile_prefix accept,
      List.takeWhile_append_dropWhile]
  rw [readRun, readWhile, runOf_of_condition, dropWhile, List.append_cancel_left hsplit]

end Reader

/-! ## Operations and actions -/

/-- An operation that reads at a cursor. -/
inductive Operation where
  /-- Look at the next character. -/
  | peek
  /-- Read one character, if there is one. -/
  | skip
  /-- Read the blanks that come next. -/
  | skipBlanks
  /-- Read one character that must be the given one. -/
  | expect (wanted : Char)
  /-- Read the longest run of characters that are accepted, each after those before it. -/
  | readWhile (accept : List Char → Char → Bool)
  /-- Read text in quotes. -/
  | readQuoted
  /-- Read an integer. -/
  | readInteger
  /-- Read a path under a limit on open containers. -/
  | path (limit : Nat)
  /-- Read a literal, with as many containers open as earlier calls have left. -/
  | literal (limit depth : Nat) (call : Literal.Call)

/-- What an operation gives. -/
inductive Answer where
  /-- Nothing but the new place of the cursor. -/
  | done
  /-- A character, or none. -/
  | char (found : Option Char)
  /-- Some text. -/
  | text (text : List Char)
  /-- An integer. -/
  | integer (n : Int64)
  /-- A path. -/
  | path (path : Path)
  /-- The value of a literal. -/
  | value (value : Value)

/-- What can be done with a cursor in a text. -/
inductive Action where
  /-- Set the cursor to a byte of the text. -/
  | seek (offset : Nat)
  /-- Read at the cursor. -/
  | operate (operation : Operation)

namespace Operation

/-- Read what the operation asks for. -/
def run : Operation → Reader Answer
  | peek => return .char (← Reader.peek)
  | skip => do
      Reader.skip
      return .done
  | skipBlanks => do
      Reader.skipBlanks
      return .done
  | expect wanted => do
      Reader.expect wanted
      return .done
  | readWhile accept => return .text (← Reader.readRun accept)
  | readQuoted => return .text (← Reader.readQuoted).toList
  | readInteger => return .integer (← Reader.readInteger)
  | path limit => return .path (← Path.read limit)
  | literal limit depth call => do
      let value ← Literal.fromOutside do
        modify fun state => { state with depth }
        call.read limit
      return .value value

/-- No operation moves the cursor backwards or into the middle of a character. -/
theorem advances (operation : Operation) : Advances id operation.run := by
  cases operation with
  | peek => exact Reader.advances_peek.map _
  | skip => exact Reader.advances_skip.map _
  | skipBlanks => exact Reader.advances_skipBlanks.map _
  | expect wanted => exact (Reader.advances_expect wanted).map _
  | readWhile accept => exact (Reader.advances_readRun accept).map _
  | readQuoted => exact Reader.advances_readQuoted.map _
  | readInteger => exact Reader.advances_readInteger.map _
  | path limit => exact (Path.advances_read limit).map _
  | literal limit depth call =>
      have hcall : Advances LiteralState.cursor (call.read limit) := by
        cases call with
        | value => exact Literal.advances_readValue limit
        | compound => exact (Literal.advances_readCompound limit).map _
      refine (Literal.advances_fromOutside ?_).map _
      exact (Literal.advances_depth fun _ => depth).bind fun _ => hcall

/-- The answer of an operation where nothing is left to read, none if it fails there. -/
def atEnd? : Operation → Option Answer
  | peek => some (.char none)
  | skip | skipBlanks => some .done
  | readWhile _ => some (.text [])
  | expect _ | readQuoted | readInteger | path _ | literal .. => none

/-- A given character, integers, paths, literals and text in quotes all take at least one
character.  So an operation that does not fail at the end is one of the others. -/
theorem atEnd?_of_run {operation : Operation} {c stop : Cursor} {answer : Answer}
    (hend : c.rest = []) (h : operation.run c = .ok answer stop) :
    operation.atEnd? = some answer := by
  have hnil : ∀ {text : List Char} {stop : Cursor}, c.Passes text stop → text = [] :=
    fun hpass => (List.append_eq_nil_iff.mp (hpass.1.symm.trans hend)).1
  cases operation with
  | peek =>
      obtain ⟨found, hpeek, rfl⟩ := map_eq_ok.mp h
      obtain ⟨rfl, -⟩ := Reader.peek_eq_ok.mp hpeek
      rw [hend]
      rfl
  | skip =>
      obtain ⟨_, -, rfl⟩ := map_eq_ok.mp h
      rfl
  | skipBlanks =>
      obtain ⟨_, -, rfl⟩ := map_eq_ok.mp h
      rfl
  | expect wanted =>
      obtain ⟨_, hexpect, -⟩ := map_eq_ok.mp h
      exact absurd (hnil (Reader.expect_eq_ok.mp hexpect)) (List.cons_ne_nil _ _)
  | readWhile accept =>
      obtain ⟨run, hrun, rfl⟩ := map_eq_ok.mp h
      obtain rfl := hnil (Reader.readRun_passes hrun)
      rfl
  | readQuoted =>
      obtain ⟨content, hquoted, -⟩ := map_eq_ok.mp h
      obtain ⟨text, htext, hpass⟩ := Reader.readQuoted_eq_ok.mp hquoted
      obtain rfl := hnil hpass
      cases htext
  | readInteger =>
      obtain ⟨n, hinteger, -⟩ := map_eq_ok.mp h
      obtain ⟨text, htext, hpass, -⟩ := Reader.readInteger_eq_ok.mp hinteger
      exact absurd (hnil hpass) htext.ne_nil
  | path limit =>
      obtain ⟨path, hpath, -⟩ := map_eq_ok.mp h
      obtain ⟨text, -, htext, hpass, -⟩ := Path.read_eq_ok.mp hpath
      obtain ⟨first, hfirst, -⟩ := htext.head?
      exact absurd (hnil hpass) (List.ne_nil_of_mem (List.mem_of_head? hfirst))
  | literal limit depth call =>
      obtain ⟨value, hvalue, -⟩ := map_eq_ok.mp h
      obtain ⟨state, hread, -⟩ := Literal.exists_of_fromOutside hvalue
      obtain ⟨_, s₁, hdepth, hcall⟩ := bind_eq_ok.mp hread
      obtain rfl := Literal.modify_eq_ok.mp hdepth
      obtain ⟨gap, text, htext, hpass⟩ := call.takesAfterGap_read hcall
      obtain ⟨first, rest, rfl, -⟩ := htext.start
      exact absurd (hnil hpass) (List.append_ne_nil_of_right_ne_nil _ (List.cons_ne_nil _ _))

/-- Where nothing is left to read, an operation has this answer or fails. -/
theorem run_eq_ok_of_end (operation : Operation) {c : Cursor} {answer : Answer}
    (hend : c.rest = []) :
    operation.run c = .ok answer c ↔ operation.atEnd? = some answer := by
  refine ⟨atEnd?_of_run hend, fun h => ?_⟩
  obtain ⟨position, _⟩ := c
  obtain rfl := hend
  cases operation <;> cases h <;> rfl

end Operation

/-! ## The place of a cursor in a text -/

/-- A character of the text starts or ends at the byte, or the text does. -/
def Boundary (text : List Char) (position : Nat) : Prop :=
  ∃ before after, text = before ++ after ∧ byteLength before = position

/-- The cursor is between two characters of the text, or at one of its ends. -/
def Between (text : List Char) (c : Cursor) : Prop :=
  ∃ before, text = before ++ c.rest ∧ byteLength before = c.position

/-- The cursor is in the text.  Inside a character it has nothing left to read. -/
inductive PlacedIn (text : List Char) : Cursor → Prop where
  | between {c : Cursor} : Between text c → PlacedIn text c
  | inside {position : Nat} : position ≤ byteLength text → ¬Boundary text position →
      PlacedIn text ⟨position, []⟩

section

variable {text word : List Char} {position : Nat} {c c' : Cursor}

theorem splitBytes?_eq_none_iff : splitBytes? position text = none ↔ ¬Boundary text position := by
  constructor
  · rintro hsplit ⟨before, after, rfl, rfl⟩
    rw [splitBytes?_byteLength_append] at hsplit
    cases hsplit
  · intro hnot
    refine Option.eq_none_iff_forall_not_mem.mpr fun parts hsplit => hnot ?_
    exact ⟨parts.1, parts.2, append_of_splitBytes? hsplit⟩

theorem Between.boundary (h : Between text c) : Boundary text c.position := by
  obtain ⟨before, htext, hposition⟩ := h
  exact ⟨before, c.rest, htext, hposition⟩

/-- Text that is left is passed from one character to another. -/
theorem Between.passes (h : Between text c) (hpass : c.Passes word c') : Between text c' := by
  obtain ⟨before, htext, hposition⟩ := h
  refine ⟨before ++ word, ?_, ?_⟩
  · rw [htext, hpass.1, List.append_assoc]
  · rw [byteLength_append, hposition, hpass.2]

theorem PlacedIn.passes (h : PlacedIn text c) (hpass : c.Passes word c') : PlacedIn text c' := by
  cases h with
  | between hbetween => exact .between (hbetween.passes hpass)
  | inside hle hnot =>
      obtain ⟨rfl, -⟩ := List.append_eq_nil_iff.mp hpass.1.symm
      rw [← passes_nil.mp hpass]
      exact .inside hle hnot

theorem PlacedIn.position_le (h : PlacedIn text c) : c.position ≤ byteLength text := by
  cases h with
  | between hbetween =>
      obtain ⟨before, htext, hposition⟩ := hbetween
      rw [htext, byteLength_append, hposition]
      exact Nat.le_add_right _ _
  | inside hle _ => exact hle

/-- What is left is what follows the position in the text. -/
theorem PlacedIn.seek_eq (h : PlacedIn text c) : Cursor.seek text c.position = c := by
  cases h with
  | between hbetween =>
      obtain ⟨before, htext, hposition⟩ := hbetween
      rw [htext, ← hposition, Path.seek_append, hposition]
  | inside hle hnot =>
      rw [Cursor.seek, Nat.min_eq_left hle, splitBytes?_eq_none_iff.mpr hnot]

theorem PlacedIn.rest_eq_nil (h : PlacedIn text c) (hnot : ¬Boundary text c.position) :
    c.rest = [] := by
  cases h with
  | between hbetween => exact absurd hbetween.boundary hnot
  | inside _ _ => rfl

/-! ## Setting the cursor -/

/-- A cursor can be set between two characters. -/
theorem between_seek {offset : Nat} (h : Boundary text (min offset (byteLength text))) :
    Between text (Cursor.seek text offset) := by
  obtain ⟨before, after, htext, hposition⟩ := h
  have hseek : Cursor.seek text offset = ⟨byteLength before, after⟩ := by
    rw [Cursor.seek, ← hposition, htext, splitBytes?_byteLength_append]
  rw [hseek]
  exact ⟨before, htext, rfl⟩

/-- And it can be set inside of one. -/
theorem placedIn_seek (text : List Char) (offset : Nat) :
    PlacedIn text (Cursor.seek text offset) := by
  by_cases h : Boundary text (min offset (byteLength text))
  · exact .between (between_seek h)
  · rw [Cursor.seek, splitBytes?_eq_none_iff.mpr h]
    exact .inside (Nat.min_le_right _ _) h

end

/-! ## After any actions -/

namespace Action

/-- Where the cursor is after an action. -/
def place (text : List Char) (c : Cursor) : Action → Cursor
  | seek offset => Cursor.seek text offset
  | operate operation => stateAfter (operation.run c)

/-- Where the cursor is after some actions, from the start of the text. -/
def placeAfter (text : List Char) (actions : List Action) : Cursor :=
  actions.foldl (place text) (.atStart text)

/-- The action does not set the cursor inside a character. -/
def Lands (text : List Char) : Action → Prop
  | seek offset => Boundary text (min offset (byteLength text))
  | operate _ => True

variable {text : List Char} {c : Cursor}

theorem placedIn_place (h : PlacedIn text c) (action : Action) :
    PlacedIn text (place text c action) := by
  cases action with
  | seek offset => exact placedIn_seek text offset
  | operate operation =>
      obtain ⟨word, hpass⟩ := operation.advances c
      exact h.passes hpass

theorem between_place (h : Between text c) {action : Action} (hlands : action.Lands text) :
    Between text (place text c action) := by
  cases action with
  | seek offset => exact between_seek hlands
  | operate operation =>
      obtain ⟨word, hpass⟩ := operation.advances c
      exact h.passes hpass

theorem between_placeAfter {actions : List Action}
    (hlands : ∀ action ∈ actions, action.Lands text) : Between text (placeAfter text actions) :=
  List.foldlRecOn actions _ ⟨[], rfl, rfl⟩ fun _ h action hmem =>
    between_place h (hlands action hmem)

theorem placedIn_placeAfter (text : List Char) (actions : List Action) :
    PlacedIn text (placeAfter text actions) :=
  List.foldlRecOn actions _ (.between ⟨[], rfl, rfl⟩) fun _ h action _ => placedIn_place h action

end Action

/-- A character or an integer that is not there leaves the cursor where it was. -/
theorem Operation.stays_of_error {operation : Operation} {c stop : Cursor} {error : SyntaxError}
    (hoperation : operation = .readInteger ∨ ∃ wanted, operation = .expect wanted)
    (h : operation.run c = .error error stop) : stop = c := by
  obtain rfl | ⟨wanted, rfl⟩ := hoperation
  · rcases bind_eq_error.mp h with hinteger | ⟨n, c₁, -, h⟩
    · exact Reader.readInteger_error hinteger
    · cases h
  · rcases bind_eq_error.mp h with hexpect | ⟨n, c₁, -, h⟩
    · exact Reader.expect_error hexpect
    · cases h

/-- Where a cursor is after any actions, and what an operation does there.

It is not past the end of the text, and what is left is what follows its place.  The operation
does not move it backwards.  If no action has set it inside a character, it is between two
characters, and a run that is read is what stands between the old and the new place.  An
integer or a character that is not there leaves it where it was.  Inside a character every
operation does.  There it is answered as at the end of the text, with no text, or it fails. -/
theorem cursor_stays_in_text (text : List Char) (actions : List Action) (operation : Operation) :
    let here := Action.placeAfter text actions
    let there := stateAfter (operation.run here)
    here.position ≤ byteLength text ∧ Cursor.seek text here.position = here
      ∧ here.position ≤ there.position
      ∧ ((∀ action ∈ actions, action.Lands text) →
          ∃ before, text = before ++ here.rest ∧ byteLength before = here.position
            ∧ ∀ accept, operation = .readWhile accept →
                ∃ word, operation.run here = .ok (.text word) there
                  ∧ text = before ++ word ++ there.rest
                  ∧ byteLength (before ++ word) = there.position)
      ∧ (operation = .readInteger ∨ (∃ wanted, operation = .expect wanted) →
          ∀ error stop, operation.run here = .error error stop → stop = here)
      ∧ (¬Boundary text here.position →
          there = here ∧ ∀ answer,
            operation.run here = .ok answer here ↔ operation.atEnd? = some answer) := by
  intro here there
  have hplaced : PlacedIn text here := Action.placedIn_placeAfter text actions
  obtain ⟨passed, hpass⟩ : ∃ passed, here.Passes passed there := operation.advances here
  have hforward : here.position ≤ there.position := by
    rw [hpass.2]
    exact Nat.le_add_right _ _
  refine ⟨hplaced.position_le, hplaced.seek_eq, hforward, fun hlands => ?_,
    fun hoperation _ _ => Operation.stays_of_error hoperation, fun hnot => ?_⟩
  · obtain ⟨before, htext, hposition⟩ := Action.between_placeAfter hlands
    refine ⟨before, htext, hposition, ?_⟩
    rintro accept rfl
    have hword : here.Passes (runOf accept [] here.rest) there := Reader.readRun_passes rfl
    refine ⟨runOf accept [] here.rest, rfl, ?_, ?_⟩
    · rw [List.append_assoc, ← hword.1, ← htext]
    · rw [byteLength_append, hposition, hword.2]
  · have hend : here.rest = [] := hplaced.rest_eq_nil hnot
    exact ⟨operation.advances.stays hend, fun _ => operation.run_eq_ok_of_end hend⟩

/-- Inside a character a run is empty and a given character is not there.  Before it, a run
that takes no second character has the first one. -/
theorem cursor_stays_in_text_of_three :
    let text := "aéb".toList
    let operation := Operation.readWhile fun before _ => before.isEmpty
    let inside := Action.placeAfter text [.operate .skip, .seek 2]
    let between := Action.placeAfter text [.seek 1]
    ¬Boundary text inside.position ∧ stateAfter (operation.run inside) = inside
      ∧ operation.run inside = .ok (.text []) inside
      ∧ (∀ answer, (Operation.expect 'b').run inside ≠ .ok answer inside)
      ∧ ∃ word, operation.run between = .ok (.text word) ⟨3, ['b']⟩ := by
  intro text operation inside between
  obtain ⟨-, -, -, -, -, hinside⟩ := cursor_stays_in_text text [.operate .skip, .seek 2] operation
  obtain ⟨-, -, -, -, -, hexpect⟩ :=
    cursor_stays_in_text text [.operate .skip, .seek 2] (.expect 'b')
  obtain ⟨-, -, -, hbetween, -⟩ := cursor_stays_in_text text [.seek 1] operation
  have hnot : ¬Boundary text inside.position := splitBytes?_eq_none_iff.mp (by decide)
  have hlands : ∀ action ∈ [Action.seek 1], action.Lands text :=
    List.forall_mem_singleton.mpr ⟨['a'], ['é', 'b'], by decide, by decide⟩
  obtain ⟨hstays, hanswer⟩ := hinside hnot
  have hmissing : ∀ answer, (Operation.expect 'b').run inside ≠ .ok answer inside := by
    intro answer h
    cases ((hexpect hnot).2 answer).mp h
  obtain ⟨before, -, -, hword⟩ := hbetween hlands
  obtain ⟨word, hrun, -⟩ := hword _ rfl
  exact ⟨hnot, hstays, (hanswer _).mpr rfl, hmissing, word, hrun⟩

end TreeQuery

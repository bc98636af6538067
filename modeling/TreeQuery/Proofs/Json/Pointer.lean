import Mathlib.Data.List.Basic
import TreeQuery.Json.Conversion

/-!
# Reading pointers

The text of a pointer is split at its slashes.  Nothing stands before the first one, and
what stands after each is a token.  In a token `~1` is replaced by a slash first, and then
`~0` by a tilde.  The other order would turn `~01`, which is written for `~1`, into a slash.

Writing escapes a key in the opposite order, the tilde first (`escape_twice`).  So every
token is read as it was written, whatever characters it has (`ofText?_text`).

A token leads from a document to one of its parts: a key to the member with that key, and
the digits of a position, without a zero in front, to the item there.
-/

namespace TreeQuery

namespace Json

namespace Pointer

/-! ## Escaping -/

/-- A tilde is written `~0`. -/
def escapeTilde (c : Char) : List Char := if c = '~' then ['~', '0'] else [c]

/-- A slash is written `~1`. -/
def escapeSlash (c : Char) : List Char := if c = '/' then ['~', '1'] else [c]

/-- To escape all tildes and then all slashes is to escape each character once. -/
theorem escape_twice (token : List Char) :
    (token.flatMap escapeTilde).flatMap escapeSlash = token.flatMap escapeChar := by
  rw [List.flatMap_assoc]
  refine List.flatMap_congr fun c _ => ?_
  by_cases htilde : c = '~'
  · subst htilde
    rfl
  · rw [escapeTilde, if_neg htilde, escapeChar, if_neg htilde, List.flatMap_singleton, escapeSlash]

theorem slash_notMem_escape (token : List Char) : '/' ∉ token.flatMap escapeChar := by
  rw [List.mem_flatMap]
  rintro ⟨c, -, hmem⟩
  rw [escapeChar] at hmem
  split at hmem
  · simp at hmem
  · split at hmem
    · simp at hmem
    · next hne => exact hne (List.mem_singleton.mp hmem).symm

/-- One more token makes the text longer. -/
theorem text_concat (pointer : Pointer) (token : String) :
    (pointer ++ [token]).text.toList
      = pointer.text.toList ++ '/' :: token.toList.flatMap escapeChar := by
  rw [text, text, String.toList_ofList, String.toList_ofList, List.flatMap_append,
    List.flatMap_singleton]

/-! ## Unescaping -/

/-- Replace every tilde that stands before a mark, together with the mark. -/
def replacePair (mark new : Char) : List Char → List Char
  | [] => []
  | [c] => [c]
  | c :: next :: rest =>
      if c = '~' ∧ next = mark then new :: replacePair mark new rest
      else c :: replacePair mark new (next :: rest)

/-- The token that an escaped text stands for. -/
def unescape (text : List Char) : List Char := replacePair '0' '~' (replacePair '1' '/' text)

theorem replacePair_of_ne_tilde (mark new : Char) {c : Char} (h : c ≠ '~') (rest : List Char) :
    replacePair mark new (c :: rest) = c :: replacePair mark new rest := by
  cases rest with
  | nil => rfl
  | cons next rest => rw [replacePair, if_neg fun hpair => h hpair.1]

theorem replacePair_of_ne_mark {mark next : Char} (new : Char) (h : next ≠ mark)
    (rest : List Char) :
    replacePair mark new ('~' :: next :: rest) = '~' :: replacePair mark new (next :: rest) := by
  rw [replacePair, if_neg fun hpair => h hpair.2]

theorem replacePair_pair (mark new : Char) (rest : List Char) :
    replacePair mark new ('~' :: mark :: rest) = new :: replacePair mark new rest := by
  rw [replacePair, if_pos ⟨rfl, rfl⟩]

/-- Reading the slashes back leaves the tildes escaped. -/
theorem replacePair_escape (token : List Char) :
    replacePair '1' '/' (token.flatMap escapeChar) = token.flatMap escapeTilde := by
  induction token with
  | nil => rfl
  | cons c rest ih =>
      rw [List.flatMap_cons, List.flatMap_cons, escapeChar, escapeTilde]
      by_cases htilde : c = '~'
      · rw [if_pos htilde, if_pos htilde, List.cons_append, List.singleton_append,
          replacePair_of_ne_mark '/' (by decide), replacePair_of_ne_tilde '1' '/' (by decide), ih]
        rfl
      · rw [if_neg htilde, if_neg htilde]
        by_cases hslash : c = '/'
        · rw [if_pos hslash, List.cons_append, List.singleton_append, replacePair_pair, ih, hslash]
          rfl
        · rw [if_neg hslash, List.singleton_append, replacePair_of_ne_tilde '1' '/' htilde, ih]
          rfl

theorem replacePair_escapeTilde (token : List Char) :
    replacePair '0' '~' (token.flatMap escapeTilde) = token := by
  induction token with
  | nil => rfl
  | cons c rest ih =>
      rw [List.flatMap_cons, escapeTilde]
      by_cases htilde : c = '~'
      · rw [if_pos htilde, List.cons_append, List.singleton_append, replacePair_pair, ih, htilde]
      · rw [if_neg htilde, List.singleton_append, replacePair_of_ne_tilde '0' '~' htilde, ih]

theorem unescape_escape (token : List Char) : unescape (token.flatMap escapeChar) = token := by
  rw [unescape, replacePair_escape, replacePair_escapeTilde]

/-! ## Reading -/

/-- The pointer that a text stands for. -/
def ofText? (text : String) : Option Pointer :=
  match text.toList.splitOn '/' with
  | [] :: tokens => some (tokens.map fun token => String.ofList (unescape token))
  | _ => none

/-- A slash before each token is a slash between all of them and an empty one. -/
theorem intercalate_slash (first : List Char) (tokens : List (List Char)) :
    ['/'].intercalate (first :: tokens) = first ++ tokens.flatMap ('/' :: ·) := by
  induction tokens generalizing first with
  | nil => simp
  | cons token rest ih =>
      rw [List.intercalate_cons_cons, ih, List.flatMap_cons, List.append_assoc]
      rfl

/-- What is written for a pointer is read as that pointer. -/
theorem ofText?_text (pointer : Pointer) : ofText? pointer.text = some pointer := by
  have hsplit : pointer.text.toList.splitOn '/'
      = [] :: pointer.map fun token => token.toList.flatMap escapeChar := by
    have htext : pointer.text.toList
        = ['/'].intercalate ([] :: pointer.map fun token => token.toList.flatMap escapeChar) := by
      rw [intercalate_slash, text, String.toList_ofList, List.nil_append, List.flatMap_map]
    rw [htext]
    refine List.splitOn_intercalate '/' ?_ (List.cons_ne_nil _ _)
    refine List.forall_mem_cons.mpr ⟨List.not_mem_nil, List.forall_mem_map.mpr ?_⟩
    exact fun token _ => slash_notMem_escape token.toList
  rw [ofText?, hsplit]
  dsimp only
  rw [List.map_map]
  refine congrArg some (List.map_id'' (fun token => ?_) pointer)
  rw [Function.comp_apply, unescape_escape, String.ofList_toList]

example : ofText? "/a~1b/~01/" = some ["a/b", "~1", ""] := by rfl
example : ofText? "a" = none := by rfl

end Pointer

/-! ## Parts of a document -/

/-- The digits of a position. -/
def indexToken (position : Nat) : String := String.ofList (Numeral.ofNat position)

theorem indexToken_inj {i j : Nat} (h : indexToken i = indexToken j) : i = j := by
  have hdigits := congrArg Numeral.natural? (String.ofList_injective h)
  rw [Numeral.natural?_ofNat, Numeral.natural?_ofNat] at hdigits
  exact Option.some.inj hdigits

/-- Digits need no escape. -/
theorem escape_indexToken (position : Nat) :
    (indexToken position).toList.flatMap Pointer.escapeChar = Numeral.ofNat position := by
  have hdigit : ∀ c ∈ Numeral.ofNat position, Pointer.escapeChar c = [c] := by
    intro c hc
    have hdigit : c.isDigit = true := Nat.isDigit_of_mem_toDigits (by decide) (by decide) hc
    have htilde : c ≠ '~' := by
      rintro rfl
      cases hdigit
    have hslash : c ≠ '/' := by
      rintro rfl
      cases hdigit
    rw [Pointer.escapeChar, if_neg htilde, if_neg hslash]
  rw [indexToken, String.toList_ofList, List.flatMap_congr hdigit, List.flatMap_singleton']

/-- The items of an array with their tokens, from a position on. -/
def numbered : Nat → List Json → List (String × Json)
  | _, [] => []
  | position, item :: rest => (indexToken position, item) :: numbered (position + 1) rest

/-- The parts of a document with the tokens that lead to them, in order. -/
def parts : Json → List (String × Json)
  | .array items => numbered 0 items
  | .object members => members
  | _ => []

/-- The value that a pointer leads to. -/
def at? : Json → Pointer → Option Json
  | document, [] => some document
  | document, token :: rest => (document.parts.lookup token).bind fun part => at? part rest

example : (Json.object [("a", .array [.null, .bool true])]).at? ["a", "1"] = some (.bool true) := by
  rfl

end Json

end TreeQuery

import TreeQuery.Path.Reader
import TreeQuery.Proofs.Literal.Grammar

/-!
# The grammar of paths

The texts of paths and the segments they stand for:

    path     := selector ('.'? selector)*
    selector := key filter? | '[' index ']' | filter
    key      := quoted | barekey
    index    := '' | integer | filter

A filter is a compound literal, and the given limit bounds how deep its containers
are nested.  A filter alone may only be the first selector.

Between two selectors a point stands.  It may be left out where the next selector
starts with a bracket.  No point stands at the end.

The derivation of a path also says at which byte the text of each selector ends.
-/

namespace TreeQuery.Path

open Reader Text

/-- `key := quoted | barekey`.  A bare key does not start with a single quote, though
it may hold one. -/
inductive KeyText : List Char → String → Prop where
  | quoted {text : List Char} {name : String} : QuotedText text name → KeyText text name
  | bare {word : List Char} : word ≠ [] → (∀ c ∈ word, isKeyChar c = true) →
      word.head? ≠ some '\'' → KeyText word (String.ofList word)

/-- `index := '' | integer | filter`, with the selector it stands for. -/
inductive IndexText (limit : Nat) : List Char → Selector → Prop where
  | elements : IndexText limit [] .elements
  | element {text : List Char} {index : Int64} :
      Numeral.IntegerText text index.toInt → IndexText limit text (.element index)
  | elementsMatching {filter : List Char} {pattern : Compound} :
      Literal.CompoundText limit filter pattern → IndexText limit filter (.elementsMatching pattern)

/-- `selector := key filter? | '[' index ']' | filter`, where the last form may only
come first. -/
inductive SelectorText (limit : Nat) : (first : Bool) → List Char → Selector → Prop where
  | child {first : Bool} {text : List Char} {name : String} :
      KeyText text name → SelectorText limit first text (.child name)
  | childMatching {first : Bool} {text filter : List Char} {name : String} {pattern : Compound} :
      KeyText text name → Literal.CompoundText limit filter pattern →
      SelectorText limit first (text ++ filter) (.childMatching name pattern)
  | index {first : Bool} {text : List Char} {selector : Selector} :
      IndexText limit text selector → SelectorText limit first ('[' :: (text ++ [']'])) selector
  | rootMatching {filter : List Char} {pattern : Compound} :
      Literal.CompoundText limit filter pattern →
      SelectorText limit true filter (.rootMatching pattern)

/-- `path := selector ('.'? selector)*`.  The text starts at a byte of the path, and
each segment keeps the byte at which its selector ends. -/
inductive SegmentsText (limit : Nat) :
    (first : Bool) → (start : Nat) → List Char → List Segment → Prop where
  | last {first : Bool} {start : Nat} {text : List Char} {selector : Selector} :
      SelectorText limit first text selector →
      SegmentsText limit first start text [⟨selector, start + byteLength text⟩]
  | point {first : Bool} {start : Nat} {text rest : List Char} {selector : Selector}
      {segments : List Segment} : SelectorText limit first text selector →
      SegmentsText limit false (start + byteLength (text ++ ['.'])) rest segments →
      SegmentsText limit first start (text ++ '.' :: rest)
        (⟨selector, start + byteLength text⟩ :: segments)
  | adjacent {first : Bool} {start : Nat} {text rest : List Char} {selector : Selector}
      {segments : List Segment} : SelectorText limit first text selector →
      rest.head? = some '[' →
      SegmentsText limit false (start + byteLength text) rest segments →
      SegmentsText limit first start (text ++ rest)
        (⟨selector, start + byteLength text⟩ :: segments)

/-- The text of a whole path and its segments. -/
def Derives (limit : Nat) (text : List Char) (segments : List Segment) : Prop :=
  SegmentsText limit true 0 text segments

/-! ## What a selector starts with -/

theorem KeyText.head? {text : List Char} {name : String} (h : KeyText text name) :
    ∃ c, text.head? = some c ∧ c ≠ '\x7b' ∧ c ≠ '[' := by
  cases h with
  | quoted hquoted =>
      obtain @⟨quote, rest, content, hquote, hrest⟩ := hquoted
      refine ⟨quote, rfl, ?_⟩
      rcases isQuote_eq_true.mp hquote with rfl | rfl
      · decide
      · decide
  | bare hne hall =>
      cases text with
      | nil => exact absurd rfl hne
      | cons c rest =>
          have hc : isKeyChar c = true := hall c (List.mem_cons_self ..)
          refine ⟨c, rfl, ?_, ?_⟩
          · rintro rfl
            exact absurd hc (by decide)
          · rintro rfl
            exact absurd hc (by decide)

/-- Only the first selector starts with a brace. -/
theorem SelectorText.head? {limit : Nat} {first : Bool} {text : List Char} {selector : Selector}
    (h : SelectorText limit first text selector) :
    ∃ c, text.head? = some c ∧ (c = '\x7b' → first = true) := by
  cases h with
  | child hkey =>
      obtain ⟨c, hhead, hbrace, -⟩ := hkey.head?
      exact ⟨c, hhead, fun h => absurd h hbrace⟩
  | childMatching hkey =>
      obtain ⟨c, hhead, hbrace, -⟩ := hkey.head?
      refine ⟨c, ?_, fun h => absurd h hbrace⟩
      rw [List.head?_append, hhead]
      rfl
  | index => exact ⟨'[', rfl, fun h => absurd h (by decide)⟩
  | rootMatching hfilter => exact ⟨'\x7b', hfilter.head?, fun _ => rfl⟩

theorem SelectorText.ne_nil {limit : Nat} {first : Bool} {text : List Char} {selector : Selector}
    (h : SelectorText limit first text selector) : text ≠ [] := by
  obtain ⟨c, hhead, -⟩ := h.head?
  exact List.ne_nil_of_mem (List.mem_of_head? hhead)

theorem SegmentsText.head? {limit start : Nat} {first : Bool} {text : List Char}
    {segments : List Segment} (h : SegmentsText limit first start text segments) :
    ∃ c, text.head? = some c ∧ (c = '\x7b' → first = true) := by
  cases h with
  | last hselector => exact hselector.head?
  | point hselector =>
      obtain ⟨c, hhead, hbrace⟩ := hselector.head?
      exact ⟨c, by rw [List.head?_append, hhead]; rfl, hbrace⟩
  | adjacent hselector =>
      obtain ⟨c, hhead, hbrace⟩ := hselector.head?
      exact ⟨c, by rw [List.head?_append, hhead]; rfl, hbrace⟩

end TreeQuery.Path

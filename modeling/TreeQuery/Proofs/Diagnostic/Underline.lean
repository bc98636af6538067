import Mathlib
import TreeQuery.Diagnostic.Failure
import TreeQuery.Diagnostic.Layout
import TreeQuery.Proofs.Path.Failing
import TreeQuery.Proofs.Path.Faults
import TreeQuery.Proofs.Path.Joining

/-!
# What a diagnostic underlines

The range of a diagnostic counts bytes, and its carets stand in columns, which count
characters.  The range of every diagnostic cuts its source in three texts, of which the
middle one is marked (`Span.Marks`).  So both ends are between characters, and the carets
stand below the marked text.  The text layout has nothing more than the headline above the
source and the hint below the carets (`textLayout_of_marks`).

A syntax error is at a place of the text, and the range is empty or goes on to the end.  A
path that picks nothing is marked up to the selector that failed.  The bytes up to there
were counted when the path was read, and its text is the one that was read.  An edit that
fails in a list is marked as a whole.
-/

namespace TreeQuery

open Text

/-! ## Columns -/

namespace Text

theorem utf8ByteSize_eq (text : String) : text.utf8ByteSize = byteLength text.toList := by
  have hlist : ∀ chars : List Char, (String.ofList chars).utf8ByteSize = byteLength chars := by
    intro chars
    induction chars with
    | nil => rfl
    | cons c chars ih =>
        rw [String.ofList_cons, String.utf8ByteSize_append, String.utf8ByteSize_singleton, ih,
          byteLength_cons]
  rw [← hlist, String.ofList_toList]

/-- As many characters start before the end of a beginning as it has. -/
theorem column_byteLength_append (before after : List Char) :
    column (byteLength before) (before ++ after) = before.length := by
  induction before with
  | nil => cases after <;> rfl
  | cons c before ih =>
      have hpos : 0 < c.utf8Size + byteLength before := Nat.add_pos_left c.utf8Size_pos _
      rw [List.cons_append, byteLength_cons, column, if_pos hpos, Nat.add_sub_cancel_left, ih,
        List.length_cons]

theorem column_utf8ByteSize (before after : String) :
    column before.utf8ByteSize (before ++ after).toList = before.length := by
  rw [utf8ByteSize_eq, String.toList_append, column_byteLength_append, String.length_toList]

end Text

/-! ## Marked texts -/

/-- The range is that of the marked text, with the other text before it. -/
structure Span.Marks (span : Span) (before marked : String) : Prop where
  start : span.start = before.utf8ByteSize
  stop : span.stop = (before ++ marked).utf8ByteSize

theorem Span.Marks.point {position : Nat} {before : String} (h : position = before.utf8ByteSize) :
    (Span.point position).Marks before "" :=
  ⟨h, by rw [String.append_empty]; exact h⟩

theorem Span.Marks.beginning (marked : String) :
    (Span.between 0 marked.utf8ByteSize).Marks "" marked :=
  ⟨rfl, by rw [String.empty_append]; exact Nat.zero_max _⟩

namespace Diagnostic

/-- The source and the carets under the marked text in it.  Four characters stand before
both, and one caret stands for an empty text. -/
def markedLines (before marked after : String) : String :=
  let source := before ++ marked ++ after
  let blanks := String.ofList (List.replicate before.length ' ')
  let carets := String.ofList (List.replicate (max 1 marked.length) '^')
  "  | " ++ source ++ "\n" ++ "  | " ++ blanks ++ carets ++ "\n"

theorem underline_of_marks {span : Span} {before marked : String} (h : span.Marks before marked)
    (after : String) : underline (before ++ marked ++ after) span
      = "  | " ++ String.ofList (List.replicate before.length ' ')
        ++ String.ofList (List.replicate (max 1 marked.length) '^') := by
  have hstart : column span.start (before ++ marked ++ after).toList = before.length := by
    rw [h.start, String.append_assoc, column_utf8ByteSize]
  have hstop : column span.stop (before ++ marked ++ after).toList
      = before.length + marked.length := by
    rw [h.stop, column_utf8ByteSize, String.length_append]
  rw [underline, hstart, hstop, Nat.add_sub_cancel_left, String.ofList_append, String.append_assoc]

/-- What stands above the source: the severity, the message and on request the code. -/
def headline (showCode : Bool) (diagnostic : Diagnostic) : String :=
  let code := if showCode then " [" ++ diagnostic.code.number ++ "]" else ""
  diagnostic.severity.text ++ ": " ++ diagnostic.message ++ code ++ "\n"

/-- What stands below the carets: the hint on a line of its own, if there is one. -/
def hintLine (diagnostic : Diagnostic) : String :=
  match diagnostic.help with
  | none => ""
  | some help => "help: " ++ help ++ "\n"

theorem textLayout_of_source {diagnostic : Diagnostic} {source : String}
    (h : diagnostic.source = some source) (showCode : Bool) :
    diagnostic.textLayout showCode = diagnostic.headline showCode
      ++ ("  | " ++ source ++ "\n" ++ underline source diagnostic.span ++ "\n")
      ++ diagnostic.hintLine := by
  obtain ⟨severity, code, message, span, _, help⟩ := diagnostic
  obtain rfl := h
  cases showCode <;> cases help <;> rfl

/-- The carets stand below the text that is marked, and around the two lines is nothing but
the headline and the hint. -/
theorem textLayout_of_marks {diagnostic : Diagnostic} {before marked after : String}
    (hsource : diagnostic.source = some (before ++ marked ++ after))
    (hspan : diagnostic.span.Marks before marked) (showCode : Bool) :
    diagnostic.textLayout showCode
      = diagnostic.headline showCode ++ markedLines before marked after ++ diagnostic.hintLine := by
  have hplace : "  | " ++ (before ++ marked ++ after) ++ "\n"
      ++ underline (before ++ marked ++ after) diagnostic.span ++ "\n"
      = markedLines before marked after := by
    rw [underline_of_marks hspan, markedLines]
    simp only [String.append_assoc]
  rw [textLayout_of_source hsource, hplace]

end Diagnostic

/-! ## Failures -/

/-- The failures of working with a text.  It is no path or no literal, or a path that was
read from it picks nothing, has nothing to write to or cannot insert. -/
inductive FailsOn (text : String) : Failure → Prop where
  | path {limit : Nat} {error : SyntaxError} : Path.parse text limit = .error error →
      FailsOn text (.malformed error)
  | literal {error : SyntaxError} : Literal.parse text = .error error →
      FailsOn text (.malformed error)
  | get {limit : Nat} {path : Path} {root : Value} {error : NotFound} :
      Path.parse text limit = .ok path → path.get root = .error error →
      FailsOn text (.notFound error)
  | write {limit : Nat} {path : Path} {root : Value} {supply : Supply} {error : NotFound} :
      Path.parse text limit = .ok path → ((path.write root).run supply).1.2 = .error error →
      FailsOn text (.notFound error)
  | insert {limit : Nat} {path : Path} {index : Int} {root : Value} {values : List Value}
      {error : EditError} :
      Path.parse text limit = .ok path → (path.insert index root values).2 = .error error →
      FailsOn text (.edit error)

/-- What a failure to find something says. -/
def Failure.notFound? : Failure → Option NotFound
  | .notFound error | .edit (.notFound error) => some error
  | _ => none

/-- The failure is that of a path that is read from the text.  It quotes the text through
one of the selectors. -/
def QuotesPath (text : String) (error : NotFound) : Prop :=
  ∃ limit path, Path.parse text limit = .ok path ∧ path.FailsAt error

/-- The diagnostic of the failure marks a part of the text, with carets under it, and the text
layout is a headline, the text, these carets and the hint.  Where something was not found, it
marks the beginning of the path that the failure quotes. -/
structure Failure.Underlines (failure : Failure) (text before marked after : String)
    (diagnostic : Diagnostic) : Prop where
  diagnostic_eq : failure.diagnostic? text = some diagnostic
  source_eq : diagnostic.source = some text
  text_eq : text = before ++ marked ++ after
  marks : diagnostic.span.Marks before marked
  quotes : ∀ error, failure.notFound? = some error →
    QuotesPath text error ∧ before = "" ∧ marked = error.text
  layout : ∀ showCode, diagnostic.textLayout showCode
    = diagnostic.headline showCode ++ Diagnostic.markedLines before marked after
      ++ diagnostic.hintLine
  within : before.length + max 1 marked.length ≤ text.length + 1

section

variable {text before marked after : String}

/-- A diagnostic that is made with the text as its source underlines what its range marks. -/
theorem underlines_of_marks {failure : Failure} {code : DiagnosticCode} {message : String}
    {span : Span} (hdiagnostic : failure.diagnostic? text = some (.inSource code message span text))
    (htext : text = before ++ marked ++ after) (hspan : span.Marks before marked)
    (hquotes : ∀ error, failure.notFound? = some error →
      QuotesPath text error ∧ before = "" ∧ marked = error.text) :
    failure.Underlines text before marked after (.inSource code message span text) := by
  refine ⟨hdiagnostic, rfl, htext, hspan, hquotes, ?_, ?_⟩
  · exact Diagnostic.textLayout_of_marks (congrArg some htext) hspan
  · rw [htext, String.length_append, String.length_append]
    omega

/-- A syntax error that is true of the text has its place there. -/
theorem SyntaxError.TrueOf.marks {limit : Nat} {ended : String → String → Prop}
    {error : SyntaxError} (h : error.TrueOf limit ended text) :
    ∃ before marked after, text = before ++ marked ++ after
      ∧ (error.span text).Marks before marked := by
  obtain ⟨before, after, rfl, hposition, htrue⟩ := h
  obtain ⟨fault, position⟩ := error
  have hstart : position = before.utf8ByteSize := by
    rw [utf8ByteSize_eq, hposition]
  cases fault with
  | badInteger text => exact htrue.elim
  | trailingInput =>
      refine ⟨before, after, "", String.append_empty.symm, hstart, ?_⟩
      refine Nat.max_eq_right ?_
      rw [String.utf8ByteSize_append, hstart]
      exact Nat.le_add_right ..
  | _ => exact ⟨before, "", after, by rw [String.append_empty], .point hstart⟩

theorem underlines_of_trueOf {limit : Nat} {ended : String → String → Prop}
    {error : SyntaxError} (h : error.TrueOf limit ended text) :
    ∃ before marked after diagnostic,
      (Failure.malformed error).Underlines text before marked after diagnostic := by
  obtain ⟨before, marked, after, htext, hspan⟩ := h.marks
  exact ⟨before, marked, after, _, underlines_of_marks rfl htext hspan (by rintro _ ⟨⟩)⟩

/-- What a failing path quotes is the beginning of the text that it was read from. -/
theorem QuotesPath.append {error : NotFound} (h : QuotesPath text error) :
    ∃ after, text = "" ++ error.text ++ after := by
  obtain ⟨limit, path, hparse, ordinal, hordinal, rfl⟩ := h
  obtain ⟨rfl, hderives⟩ := Path.parse_eq_ok.mp hparse
  obtain ⟨before, after, htext, -, hthrough, -⟩ := Path.textThrough_of_derives hderives hordinal
  refine ⟨String.ofList after, ?_⟩
  rw [String.empty_append, Path.notFound, hthrough, ← String.ofList_append, ← htext,
    String.ofList_toList]

theorem underlines_of_notFound {failure : Failure} {error : NotFound}
    (hdiagnostic : failure.diagnostic? text = some (error.diagnostic text))
    (hfailure : failure.notFound? = some error) (hquotes : QuotesPath text error) :
    ∃ before marked after diagnostic, failure.Underlines text before marked after diagnostic := by
  obtain ⟨after, htext⟩ := hquotes.append
  refine ⟨"", error.text, after, _, underlines_of_marks hdiagnostic htext (.beginning _) ?_⟩
  intro error' hsame
  obtain rfl := Option.some.inj (hfailure.symm.trans hsame)
  exact ⟨hquotes, rfl, rfl⟩

/-- **Diagnostics underline the right characters.**  Every failure of working with a text has
a diagnostic with that text as its source.  The range cuts the text between characters.  The
text layout is the headline with its line break, the source, the carets and the hint.  After
the same four characters as before the source, the carets have as many blanks before them as
characters are before the range.  There is a caret for each character in it, or one caret where
it is empty.  So no caret is further to the right than one column after the last character.  A
path that picks nothing is marked from its start to the selector that failed. -/
theorem failure_underlined {failure : Failure} (h : FailsOn text failure) :
    ∃ before marked after diagnostic, failure.Underlines text before marked after diagnostic := by
  cases h with
  | path hparse => exact underlines_of_trueOf (Path.trueOf_of_parse_error hparse)
  | literal hparse => exact underlines_of_trueOf (Literal.trueOf_of_parse_error hparse)
  | get hparse hget =>
      exact underlines_of_notFound rfl rfl ⟨_, _, hparse, Path.get_eq_error hget⟩
  | write hparse hwrite =>
      exact underlines_of_notFound rfl rfl ⟨_, _, hparse, Path.write_eq_error hwrite⟩
  | @insert limit path index root values error hparse hinsert =>
      have hwhole : text = "" ++ text ++ "" := by
        rw [String.append_empty, String.empty_append]
      cases error with
      | notFound error =>
          exact underlines_of_notFound rfl rfl ⟨_, _, hparse, Path.insert_eq_notFound hinsert⟩
      | expectedList found =>
          exact ⟨"", text, "", _, underlines_of_marks rfl hwhole (.beginning text) (by rintro _ ⟨⟩)⟩
      | invalidIndex index =>
          exact ⟨"", text, "", _, underlines_of_marks rfl hwhole (.beginning text) (by rintro _ ⟨⟩)⟩

/-- A key of two bytes that is not found, and an index that is missing after it. -/
theorem failure_underlined_after_key :
    let path : Path := ⟨"é.b", [⟨.child "é", 2⟩, ⟨.child "b", 4⟩]⟩
    Path.parse "é.b" = .ok path ∧ path.get (.compound []) = .error ⟨"é"⟩
      ∧ (∃ before marked after diagnostic,
        (Failure.notFound ⟨"é"⟩).Underlines "é.b" before marked after diagnostic)
      ∧ Path.parse "é[x" = .error ⟨.badIndex "", 3⟩
      ∧ ∃ before marked after diagnostic,
        (Failure.malformed ⟨.badIndex "", 3⟩).Underlines "é[x" before marked after diagnostic := by
  intro path
  have hparse : Path.parse "é.b" = .ok path := by cbv
  have hget : path.get (.compound []) = .error ⟨"é"⟩ := by cbv
  have hindex : Path.parse "é[x" = .error ⟨.badIndex "", 3⟩ := by cbv
  exact ⟨hparse, hget, failure_underlined (.get hparse hget), hindex,
    failure_underlined (.path hindex)⟩

end

end TreeQuery

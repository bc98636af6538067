import TreeQuery.Diagnostic.Basic
import TreeQuery.Json.Writer
import TreeQuery.Text.Offset

/-!
# Layouts of diagnostics

A diagnostic is laid out in one of three ways.

* The text layout has a headline, the source with carets under the range, and the
  hint.
* The compact layout is one line.
* The JSON layout is an object with the fields in a fixed order.

The carets stand in the columns of the characters that start in the range, and one
caret stands for an empty range.  The code is shown on request in the first two
layouts and always in the third.
-/

namespace TreeQuery

/-- A way to lay out diagnostics. -/
inductive DiagnosticLayout where
  /-- Headline, source and hint. -/
  | text
  /-- One line. -/
  | compact
  /-- An object. -/
  | json
deriving DecidableEq, Repr

namespace Diagnostic

/-- The line of carets under a range of a text, before which four characters
stand. -/
def underline (source : String) (span : Span) : String :=
  let column := Text.column span.start source.toList
  let width := max 1 (Text.column span.stop source.toList - column)
  "  | " ++ String.ofList (List.replicate column ' ' ++ List.replicate width '^')

/-- The text layout, which ends with a new line. -/
def textLayout (showCode : Bool) (diagnostic : Diagnostic) : String :=
  let code := if showCode then s!" [{diagnostic.code.number}]" else ""
  let headline := s!"{diagnostic.severity.text}: {diagnostic.message}{code}\n"
  let place :=
    match diagnostic.source with
    | some source => s!"  | {source}\n{underline source diagnostic.span}\n"
    | none => s!" --> {diagnostic.span.text}\n"
  let hint := diagnostic.help.elim "" fun help => s!"help: {help}\n"
  headline ++ place ++ hint

/-- The compact layout. -/
def compactLayout (showCode : Bool) (diagnostic : Diagnostic) : String :=
  let code := if showCode then s!"[{diagnostic.code.number}] " else ""
  s!"{diagnostic.span.text}: {diagnostic.severity.text}: {code}{diagnostic.message}"

/-- A code as a JSON document: its name, with the character that was needed if
there is one. -/
def codeJson : DiagnosticCode → Json
  | .expectedToken token => .object [("ExpectedToken", .string token.toString)]
  | code => .string code.name

/-- A diagnostic as a JSON document.  Missing parts are left out. -/
def toJson (diagnostic : Diagnostic) : Json :=
  let span := Json.object
    [("start", .integer diagnostic.span.start), ("end", .integer diagnostic.span.stop)]
  let parts :=
    [("severity", Json.string diagnostic.severity.text), ("code", codeJson diagnostic.code),
      ("message", .string diagnostic.message), ("span", span)]
  let optional (name : String) (part : Option String) : List (String × Json) :=
    part.toList.map fun text => (name, .string text)
  .object (parts ++ optional "source_text" diagnostic.source ++ optional "help" diagnostic.help)

/-- One diagnostic, laid out. -/
def render (layout : DiagnosticLayout) (showCode : Bool) (diagnostic : Diagnostic) : String :=
  match layout with
  | .text => diagnostic.textLayout showCode
  | .compact => diagnostic.compactLayout showCode
  | .json => diagnostic.toJson.indented

/-- Several diagnostics, laid out one after the other, in JSON as an array. -/
def renderAll (layout : DiagnosticLayout) (showCode : Bool) (diagnostics : List Diagnostic) :
    String :=
  match layout with
  | .text => "\n".intercalate (diagnostics.map (textLayout showCode))
  | .compact => "\n".intercalate (diagnostics.map (compactLayout showCode))
  | .json => (Json.array (diagnostics.map toJson)).indented

example : underline "aé.b" (.between 1 3) = "  |  ^" := by rfl
example : underline "ab" (.point 2) = "  |   ^" := by rfl

end Diagnostic

end TreeQuery

import TreeQuery.Diagnostic.Basic
import TreeQuery.Json.Conversion
import TreeQuery.Path.Edit
import TreeQuery.SyntaxError

/-!
# Failures and their diagnostics

A `Failure` is any of the ways in which working with paths can fail.  All but one
of them concern the text of a path or a literal, and have a diagnostic that points
into it.  A syntax error is at its position, a numeral that is no integer and
trailing text are marked as a whole, and a path that picks nothing is marked up to
the selector that failed.  A null in a document has no place in the path, and so
no diagnostic.
-/

namespace TreeQuery

/-- Anything that can go wrong. -/
inductive Failure where
  /-- A text is no path or no literal. -/
  | malformed (error : SyntaxError)
  /-- A path picks nothing. -/
  | notFound (error : NotFound)
  /-- Values could not be put into lists. -/
  | edit (error : EditError)
  /-- A document has no value. -/
  | document (error : Json.UnsupportedNull)

/-- The failure in words. -/
def Failure.message : Failure → String
  | .malformed error => error.message
  | .notFound error => error.message
  | .edit error => error.message
  | .document error => error.message

/-- The code of a syntax error. -/
def SyntaxFault.code : SyntaxFault → DiagnosticCode
  | .missingKey _ | .badIndex _ => .invalidNode
  | .expected wanted _ => .expectedToken wanted
  | .unexpectedEnd _ => .unexpectedEnd
  | .misplacedRootFilter => .misplacedFilter
  | .badInteger _ => .invalidNumber
  | .trailingComma _ | .missingEntryKey | .missingValue => .invalidLiteral
  | .tooDeep _ => .tooDeep
  | .trailingInput => .trailingInput

/-- The range of a syntax error in the text it is in. -/
def SyntaxError.span (error : SyntaxError) (source : String) : Span :=
  match error.fault with
  | .badInteger text => .between error.position (error.position + text.utf8ByteSize)
  | .trailingInput => .between error.position source.utf8ByteSize
  | _ => .point error.position

/-- A syntax error as a diagnostic. -/
def SyntaxError.diagnostic (error : SyntaxError) (source : String) : Diagnostic :=
  .inSource error.fault.code error.reason (error.span source) source

/-- A path that picks nothing as a diagnostic. -/
def NotFound.diagnostic (error : NotFound) (source : String) : Diagnostic :=
  .inSource .nothingFound error.message (.between 0 error.text.utf8ByteSize) source

/-- A failed insertion as a diagnostic. -/
def EditError.diagnostic (error : EditError) (source : String) : Diagnostic :=
  match error with
  | .notFound error => error.diagnostic source
  | .expectedList _ => .inSource .expectedList error.message (.between 0 source.utf8ByteSize) source
  | .invalidIndex _ =>
      .inSource .indexOutOfBounds error.message (.between 0 source.utf8ByteSize) source

/-- The diagnostic of a failure in a source text, if it has one. -/
def Failure.diagnostic? (failure : Failure) (source : String) : Option Diagnostic :=
  match failure with
  | .malformed error => some (error.diagnostic source)
  | .notFound error => some (error.diagnostic source)
  | .edit error => some (error.diagnostic source)
  | .document _ => none

end TreeQuery

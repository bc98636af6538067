/-!
# Diagnostics

A diagnostic is an error that is described for a reader: a code, a severity, a
message, the range of the source text it concerns, that text, and a hint.

The range of a diagnostic counts bytes.  It never ends before it starts, which the
type `Span` carries with it.
-/

namespace TreeQuery

/-- How much a diagnostic matters. -/
inductive Severity where
  /-- For information. -/
  | info
  /-- A possible problem. -/
  | warning
  /-- An error. -/
  | error
deriving DecidableEq, Repr

/-- What a diagnostic is about. -/
inductive DiagnosticCode where
  /-- A malformed selector. -/
  | invalidNode
  /-- Another character was needed. -/
  | expectedToken (token : Char)
  /-- The text ended too early. -/
  | unexpectedEnd
  /-- A filter without a key after the first selector. -/
  | misplacedFilter
  /-- A malformed integer. -/
  | invalidNumber
  /-- A malformed literal. -/
  | invalidLiteral
  /-- Too many open containers. -/
  | tooDeep
  /-- Text after the end. -/
  | trailingInput
  /-- A selector picked nothing. -/
  | nothingFound
  /-- Something that had to be a list was none. -/
  | expectedList
  /-- A position outside a list. -/
  | indexOutOfBounds
deriving DecidableEq, Repr

/-- A range of bytes. -/
structure Span where
  /-- The first byte. -/
  start : Nat
  /-- The byte after the last one. -/
  stop : Nat
  /-- A range does not end before it starts. -/
  start_le_stop : start ≤ stop := by omega
deriving DecidableEq, Repr

/-- A described error. -/
structure Diagnostic where
  /-- How much it matters. -/
  severity : Severity
  /-- What it is about. -/
  code : DiagnosticCode
  /-- The description. -/
  message : String
  /-- The range of the source text. -/
  span : Span
  /-- The text that the range is in. -/
  source : Option String
  /-- A hint. -/
  help : Option String
deriving DecidableEq, Repr

/-- The range between two bytes, and an empty one if they are in the wrong
order. -/
def Span.between (start stop : Nat) : Span := ⟨start, max start stop, Nat.le_max_left ..⟩

/-- The empty range at a byte. -/
def Span.point (position : Nat) : Span := ⟨position, position, Nat.le_refl _⟩

/-- A range in words. -/
def Span.text (span : Span) : String := s!"{span.start}..{span.stop}"

/-- A severity in words. -/
def Severity.text : Severity → String
  | .info => "info"
  | .warning => "warning"
  | .error => "error"

/-- A severity as a mark in front of a line. -/
def Severity.mark : Severity → String
  | .info => "INFO"
  | .warning => "WARN"
  | .error => "ERROR"

namespace DiagnosticCode

/-- The number of a code. -/
def number : DiagnosticCode → String
  | .invalidNode => "E001"
  | .expectedToken _ => "E002"
  | .unexpectedEnd => "E003"
  | .misplacedFilter => "E004"
  | .invalidNumber => "E005"
  | .invalidLiteral => "E006"
  | .tooDeep => "E007"
  | .trailingInput => "E008"
  | .nothingFound => "E100"
  | .expectedList => "E101"
  | .indexOutOfBounds => "E102"

/-- The name of a code. -/
def name : DiagnosticCode → String
  | .invalidNode => "InvalidNode"
  | .expectedToken _ => "ExpectedToken"
  | .unexpectedEnd => "UnexpectedEnd"
  | .misplacedFilter => "MisplacedFilter"
  | .invalidNumber => "InvalidNumber"
  | .invalidLiteral => "InvalidLiteral"
  | .tooDeep => "TooDeep"
  | .trailingInput => "TrailingInput"
  | .nothingFound => "NothingFound"
  | .expectedList => "ExpectedList"
  | .indexOutOfBounds => "IndexOutOfBounds"

/-- A code in words. -/
def text : DiagnosticCode → String
  | .invalidNode => "invalid path node"
  | .expectedToken token => s!"expected '{token}'"
  | .unexpectedEnd => "unexpected end of input"
  | .misplacedFilter => "misplaced root filter"
  | .invalidNumber => "invalid number format"
  | .invalidLiteral => "invalid literal"
  | .tooDeep => "literal nested too deeply"
  | .trailingInput => "trailing input"
  | .nothingFound => "nothing found"
  | .expectedList => "expected a list"
  | .indexOutOfBounds => "index out of bounds"

/-- The hint that goes with a code, if there is one. -/
def help : DiagnosticCode → Option String
  | .invalidNode => some "Path nodes are keys, \"quoted keys\", [index], [] or [\x7bfilter\x7d]"
  | .expectedToken token => if token = '.' then some "Separate keys with '.'" else none
  | .misplacedFilter =>
      some "Attach the filter to a key (key\x7b...\x7d) or an element ([\x7b...\x7d])"
  | .nothingFound => some "Check that every step of the path exists in the tree"
  | _ => none

end DiagnosticCode

namespace Diagnostic

/-- The error with a code, described by the code alone. -/
def ofCode (code : DiagnosticCode) : Diagnostic :=
  ⟨.error, code, code.text, .point 0, none, code.help⟩

/-- An error in a source text. -/
def inSource (code : DiagnosticCode) (message : String) (span : Span) (source : String) :
    Diagnostic :=
  { ofCode code with message, span, source := some source }

/-- The diagnostic is an error. -/
def isError (diagnostic : Diagnostic) : Bool := diagnostic.severity == .error

/-- The diagnostic in one line. -/
def summary (diagnostic : Diagnostic) : String :=
  s!"[{diagnostic.severity.mark}] {diagnostic.code.text}: {diagnostic.message}"

end Diagnostic

end TreeQuery

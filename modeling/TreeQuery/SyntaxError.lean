/-!
# Syntax errors

A text that is no path or no literal is refused with a cause and a position.  The
position counts bytes from the start of the whole text.  `SyntaxFault` lists the
causes, `SyntaxFault.reason` is the wording without the position and
`SyntaxError.message` the wording with it.
-/

namespace TreeQuery

/-- What was being read when the text ended. -/
inductive Construct where
  /-- A value of a literal. -/
  | value
  /-- The key of an entry. -/
  | compoundKey
  /-- Text in quotes. -/
  | quotedString
  /-- The inside of the brackets of a path. -/
  | listIndex
deriving DecidableEq, Repr

/-- Why a text is refused. -/
inductive SyntaxFault where
  /-- A selector has no key where it needs one.  The next character, if any, is
  given. -/
  | missingKey (found : Option Char)
  /-- The text in the brackets of a selector is no integer. -/
  | badIndex (text : String)
  /-- One character must stand here and another does, or the text ends. -/
  | expected (wanted : Char) (found : Option Char)
  /-- The text ends inside a construct. -/
  | unexpectedEnd (within : Construct)
  /-- A filter without a key stands after the first selector. -/
  | misplacedRootFilter
  /-- A numeral is no integer of 64 bits. -/
  | badInteger (text : String)
  /-- A comma stands before the closing bracket. -/
  | trailingComma (close : Char)
  /-- An entry of a compound has no key. -/
  | missingEntryKey
  /-- A value is missing. -/
  | missingValue
  /-- More containers are open than the limit allows. -/
  | tooDeep (limit : Nat)
  /-- Text follows the end. -/
  | trailingInput
deriving DecidableEq, Repr

/-- A syntax error: the cause and where it is. -/
structure SyntaxError where
  /-- The cause. -/
  fault : SyntaxFault
  /-- The byte the error is at. -/
  position : Nat
deriving DecidableEq, Repr

/-- The name of a construct in messages. -/
def Construct.name : Construct → String
  | .value => "value"
  | .compoundKey => "compound key"
  | .quotedString => "quoted string"
  | .listIndex => "list index"

namespace SyntaxFault

/-- What is wrong with a selector or a literal, for the causes that are particular
to one of them. -/
def detail : SyntaxFault → String
  | .missingKey (some c) => s!"expected key, found '{c}'"
  | .missingKey none => "expected key"
  | .badIndex text => s!"invalid list index '{text}'"
  | .trailingComma close => s!"trailing ',' before '{close}'"
  | .missingEntryKey => "expected key"
  | .missingValue => "expected value"
  | _ => ""

/-- The cause in words. -/
def reason (fault : SyntaxFault) : String :=
  match fault with
  | .missingKey _ | .badIndex _ => s!"invalid path node: {fault.detail}"
  | .expected wanted (some c) => s!"expected '{wanted}', found '{c}'"
  | .expected wanted none => s!"expected '{wanted}' before end of input"
  | .unexpectedEnd within => s!"unexpected end of input while reading {within.name}"
  | .misplacedRootFilter => "root filter is only allowed as the first path node"
  | .badInteger text => s!"invalid integer '{text}'"
  | .trailingComma _ | .missingEntryKey | .missingValue => s!"invalid literal: {fault.detail}"
  | .tooDeep limit => s!"literal nested deeper than {limit} levels"
  | .trailingInput => "unexpected trailing input"

end SyntaxFault

namespace SyntaxError

/-- The cause in words. -/
def reason (error : SyntaxError) : String := error.fault.reason

/-- The cause and the position in words. -/
def message (error : SyntaxError) : String :=
  let place := s!"at position {error.position}"
  match error.fault with
  | .missingKey _ | .badIndex _ => s!"Invalid path node {place}: {error.fault.detail}"
  | .expected wanted found =>
      s!"Expected '{wanted}' {place}" ++ (found.elim "" fun c => s!", found '{c}'")
  | .unexpectedEnd within => s!"Unexpected end of input {place} while reading {within.name}"
  | .misplacedRootFilter => s!"Root filter {place} is only allowed as the first path node"
  | .badInteger text => s!"Invalid integer {place}: '{text}'"
  | .trailingComma _ | .missingEntryKey | .missingValue =>
      s!"Invalid literal {place}: {error.fault.detail}"
  | .tooDeep limit => s!"Literal nested deeper than {limit} levels {place}"
  | .trailingInput => s!"Unexpected trailing input {place}"

end SyntaxError

end TreeQuery

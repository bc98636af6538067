import TreeQuery.Diagnostic.Layout
import TreeQuery.Number.Numeral

/-!
# Commands and their options

A request is a command with its operands and the options that go with it.  The
command line that makes it is read in a later module.
-/

namespace TreeQuery

/-- The name of a command. -/
inductive Verb where
  /-- Print the values that a path picks. -/
  | get
  /-- Print how many values a path picks. -/
  | count
  /-- Write a value and print the document. -/
  | set
  /-- Take away what a path picks and print the document. -/
  | remove
  /-- Put values into lists and print the document. -/
  | insert
  /-- Print how a path is read. -/
  | parse
deriving DecidableEq, Repr

namespace Verb

/-- All verbs, in the order in which help lists them. -/
def all : List Verb := [.get, .count, .set, .remove, .insert, .parse]

/-- The verb as written. -/
def name : Verb → String
  | .get => "get"
  | .count => "count"
  | .set => "set"
  | .remove => "remove"
  | .insert => "insert"
  | .parse => "parse"

/-- The verb of a name. -/
def ofName? (name : String) : Option Verb := all.find? (·.name == name)

/-- How many operands a verb takes at most, if there is a bound. -/
def capacity? : Verb → Option Nat
  | .get | .count | .remove | .parse => some 1
  | .set => some 2
  | .insert => none

end Verb

/-- What to do with a document. -/
inductive Command where
  /-- Print the values that a path picks. -/
  | get (path : String)
  /-- Print how many values a path picks. -/
  | count (path : String)
  /-- Write a value and print the document. -/
  | set (path value : String)
  /-- Take away what a path picks and print the document. -/
  | remove (path : String)
  /-- Put values into lists and print the document. -/
  | insert (path : String) (index : Int64) (values : List String)
  /-- Print how a path is read. -/
  | parse (path : String)
deriving DecidableEq, Repr

/-- The command of a verb and its operands, unless they are too few or too many, or
the index is no number. -/
def Command.ofOperands? : Verb → List String → Option Command
  | .get, [path] => some (.get path)
  | .count, [path] => some (.count path)
  | .set, [path, value] => some (.set path value)
  | .remove, [path] => some (.remove path)
  | .insert, path :: index :: value :: values =>
      (Numeral.int64? index.toList).map fun index => .insert path index (value :: values)
  | .parse, [path] => some (.parse path)
  | _, _ => none

/-- The options of a command line, as far as they are given. -/
structure Options where
  /-- The file with the document. -/
  file : Option String := none
  /-- Whether JSON is to be indented. -/
  pretty : Option Unit := none
  /-- The layout of errors. -/
  layout : Option DiagnosticLayout := none
deriving DecidableEq, Repr

/-- The options given later, and the earlier ones where there are none. -/
def Options.orElse (later earlier : Options) : Options :=
  ⟨later.file <|> earlier.file, later.pretty <|> earlier.pretty, later.layout <|> earlier.layout⟩

/-- A command line that can be carried out. -/
structure Request where
  /-- The options. -/
  options : Options
  /-- The command. -/
  command : Command
deriving DecidableEq, Repr

end TreeQuery

import TreeQuery.CommandLine.Arguments
import TreeQuery.CommandLine.Files
import TreeQuery.CommandLine.Listing
import TreeQuery.Diagnostic.Failure
import TreeQuery.Json.Reader
import TreeQuery.Path.Reader

/-!
# Carrying out a command

A command reads its path first, then its values, then the document, and stops at
the first that is wrong.  So the document is only looked at when path and values
are in order.

A failure that has a diagnostic is reported in the layout that was asked for.  Its
source is the text that is wrong, or the path if the document does not fit it.
Any other failure is one line.
-/

namespace TreeQuery

/-- What a command prints, and its exit code. -/
structure Report where
  /-- Zero for success, one for a failure and two for misuse. -/
  exitCode : Nat
  /-- What goes to the output. -/
  output : String
  /-- What goes to the error output. -/
  errors : String
deriving DecidableEq, Repr

/-- Why a command fails. -/
inductive CommandError where
  /-- A text is wrong, or it does not fit the document. -/
  | inText (text : String) (failure : Failure)
  /-- The document cannot be read from its file or, if none is named, from the
  input. -/
  | unreadable (file : Option String) (error : FileError)
  /-- The document is no JSON. -/
  | invalidJson
  /-- The document has no value. -/
  | noValue (error : Json.UnsupportedNull)

namespace Request

/-- Whether the command reads a document at all. -/
def needsDocument (request : Request) : Bool :=
  match request.command with
  | .parse _ => false
  | _ => true

/-- The layout of errors. -/
def layout (request : Request) : DiagnosticLayout := request.options.layout.getD .text

/-- A document as printed. -/
def print (request : Request) (document : Json) : String :=
  (if request.options.pretty.isSome then document.indented else document.compact) ++ "\n"

end Request

namespace CommandLine

/-- Read a path. -/
def readPath (text : String) : Except CommandError Path :=
  (Path.parse text).mapError fun error => .inText text (.malformed error)

/-- Read a value. -/
def readValue (text : String) : Except CommandError Value :=
  (Literal.parse text).mapError fun error => .inText text (.malformed error)

/-- Read the tree of a document from its text, or from why there is no text. -/
def readTree (request : Request) (document : Except FileError String) :
    Except CommandError Value := do
  let text ← document.mapError fun error => .unreadable request.options.file error
  match Json.parse? text with
  | none => .error .invalidJson
  | some json => (Value.ofJson json).mapError .noValue

/-- What a command prints. -/
def output (request : Request) (document : Except FileError String) :
    Except CommandError String := do
  match request.command with
  | .get text =>
      let path ← readPath text
      let root ← readTree request document
      let found ← (path.get root).mapError fun error => .inText text (.notFound error)
      pure (request.print (.array (found.map Value.toJson)))
  | .count text =>
      let path ← readPath text
      let root ← readTree request document
      pure s!"{path.count root}\n"
  | .set text value =>
      let path ← readPath text
      let value ← readValue value
      let root ← readTree request document
      let (root, outcome) := path.writeValue root value
      discard <| outcome.mapError fun error => CommandError.inText text (.notFound error)
      pure (request.print root.toJson)
  | .remove text =>
      let path ← readPath text
      let root ← readTree request document
      pure (request.print (path.erase root).1.toJson)
  | .insert text index values =>
      let path ← readPath text
      let values ← values.mapM readValue
      let root ← readTree request document
      let (root, outcome) := path.insert index.toInt root values
      discard <| outcome.mapError fun error => CommandError.inText text (.edit error)
      pure (request.print root.toJson)
  | .parse text =>
      let path ← readPath text
      pure path.listing

/-- What is said about an error. -/
def describe (layout : DiagnosticLayout) : CommandError → String
  | .inText text failure =>
      match failure.diagnostic? text with
      | some diagnostic => diagnostic.render layout true ++ "\n"
      | none => s!"Error: {failure.message}\n"
  | .unreadable (some file) error => s!"Error: reading file '{file}': {error.message}\n"
  | .unreadable none error => s!"Error: reading from stdin: {error.message}\n"
  | .invalidJson => "Error: parsing JSON input\n"
  | .noValue error => s!"Error: {error.message}\n"

/-- What is said about a command line that makes no sense. -/
def complaint (argument : String) : String :=
  s!"error: unexpected argument '{argument}'\n\n" ++ Help.usage .program ++
    "\nFor more information, try '--help'.\n"

/-- Carry out a command line.  The document is given as its text, or as the reason
why there is no text. -/
def run (arguments : List String) (document : Except FileError String) : Report :=
  match Arguments.parse arguments with
  | .error (.help topic) => ⟨0, Help.text topic, ""⟩
  | .error .version => ⟨0, Help.versionLine, ""⟩
  | .error (.misuse argument) => ⟨2, "", complaint argument⟩
  | .ok request =>
      match output request document with
      | .ok output => ⟨0, output, ""⟩
      | .error error => ⟨1, "", describe request.layout error⟩

/-- Carry out a command line among some files.  Where no file is named, the document
is the input. -/
def runAmong (files : FileTree) (arguments : List String) (input : String) : Report :=
  let document :=
    match Arguments.parse arguments with
    | .ok request => request.options.file.elim (.ok input) files.read
    | .error _ => .ok input
  run arguments document

end CommandLine

end TreeQuery

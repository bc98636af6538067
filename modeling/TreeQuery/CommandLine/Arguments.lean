import TreeQuery.CommandLine.Help

/-!
# Command line arguments

A command line names a command with its operands.  Options may stand before the
name of the command and anywhere after it.

* `-f FILE`, `--file FILE` names the file with the document.
* `-p`, `--pretty` asks for indented JSON.
* `--error-format FORMAT` chooses the layout of errors.
* `-h`, `--help` asks for help, on the command if it stands after one.
* `-V`, `--version` asks for the version, before the name of a command.

The value of a long option may follow an equals sign, and the value of a short one
may follow at once.  Short options may be joined.  An option stands at most once
before the name of the command and once after it, and the one after it counts.
After `--` every argument is an operand.  An argument that starts with a hyphen is
no operand otherwise, except for a negative number where an index is due.

Arguments are judged from left to right, so help is only given if nothing before it
is wrong.  There are two delays.  Whether operands are missing is judged last.  A
value that stands apart from its option is judged together with the next option or
operand at the same side of the name of the command.  So the last one before the
name is judged after all that follows the name.
-/

namespace TreeQuery

/-- Why a command line is not carried out. -/
inductive Refusal where
  /-- Help is asked for. -/
  | help (topic : HelpTopic)
  /-- The version is asked for. -/
  | version
  /-- The command line makes no sense. -/
  | misuse (argument : String)
deriving DecidableEq, Repr

namespace Arguments

/-- An option that has a value. -/
inductive Valued where
  /-- The file with the document. -/
  | file
  /-- The layout of errors. -/
  | layout
deriving DecidableEq, Repr

/-- An option that is not judged yet. -/
inductive Unsettled where
  /-- The value must come next. -/
  | awaits (option : Valued)
  /-- The value stood apart from the option. -/
  | holds (option : Valued) (value : String)
deriving DecidableEq, Repr

/-- What has been read of a command line, up to the name of the command or after
it. -/
structure Scan where
  /-- The command, if its name is read. -/
  verb : Option Verb := none
  /-- The options. -/
  options : Options := {}
  /-- The last option, if it is not judged yet. -/
  unsettled : Option Unsettled := none
  /-- The operands. -/
  operands : List String := []
deriving DecidableEq, Repr

/-! ## Options -/

/-- The layout of a name. -/
def layout? : String → Option DiagnosticLayout
  | "text" => some .text
  | "compact" => some .compact
  | "json" => some .json
  | _ => none

/-- What help is about at this point. -/
def Scan.topic (scan : Scan) : HelpTopic := scan.verb.elim .program .command

/-- Take the value of an option. -/
def Scan.takeValue (scan : Scan) (option : Valued) (value : String) : Except Refusal Scan :=
  match option with
  | .file =>
      if value = "" ∨ scan.options.file.isSome then .error (.misuse value)
      else .ok { scan with options.file := some value }
  | .layout =>
      match layout? value, scan.options.layout with
      | some layout, none => .ok { scan with options.layout := some layout }
      | _, _ => .error (.misuse value)

/-- Take an option with the value that is joined to it, if there is one. -/
def Scan.takeValued (scan : Scan) (option : Valued) (value : Option String) :
    Except Refusal Scan :=
  match value with
  | some value => scan.takeValue option value
  | none => .ok { scan with unsettled := some (.awaits option) }

/-- Judge the last option, if that is still to be done. -/
def Scan.settle (scan : Scan) : Except Refusal Scan :=
  match scan.unsettled with
  | none => .ok scan
  | some (.awaits _) => .error (.misuse "")
  | some (.holds option value) => Scan.takeValue { scan with unsettled := none } option value

/-- Take the option for indented JSON. -/
def Scan.takePretty (scan : Scan) : Except Refusal Scan :=
  if scan.options.pretty.isSome then .error (.misuse "--pretty")
  else .ok { scan with options.pretty := some () }

/-- Take the option for the version. -/
def Scan.takeVersion (scan : Scan) : Except Refusal Scan :=
  .error (if scan.verb.isNone then .version else .misuse "--version")

/-- Take a long option, without its hyphens. -/
def Scan.takeLong (scan : Scan) (text : List Char) : Except Refusal Scan :=
  let name := String.ofList (text.takeWhile (· ≠ '='))
  let value :=
    match text.dropWhile (· ≠ '=') with
    | _ :: rest => some (String.ofList rest)
    | [] => none
  match name, value with
  | "file", _ => scan.takeValued .file value
  | "error-format", _ => scan.takeValued .layout value
  | "pretty", none => scan.takePretty
  | "help", none => .error (.help scan.topic)
  | "version", none => scan.takeVersion
  | _, _ => .error (.misuse name)

/-- Take joined short options, without their hyphen. -/
def Scan.takeShort (scan : Scan) : List Char → Except Refusal Scan
  | [] => .ok scan
  | 'p' :: rest => scan.takePretty.bind fun scan => scan.takeShort rest
  | 'h' :: _ => .error (.help scan.topic)
  | 'V' :: _ => scan.takeVersion
  | 'f' :: [] => scan.takeValued .file none
  | 'f' :: '=' :: rest => scan.takeValued .file (some (String.ofList rest))
  | 'f' :: rest => scan.takeValued .file (some (String.ofList rest))
  | c :: _ => .error (.misuse c.toString)

/-! ## Operands -/

/-- An index is the next operand. -/
def Scan.indexDue (scan : Scan) : Bool :=
  scan.verb = some .insert && scan.operands.length = 1

/-- Take an operand of a command. -/
def Scan.takeOperand (scan : Scan) (operand : String) : Except Refusal Scan :=
  let full := scan.verb.any fun verb => verb.capacity?.any (· ≤ scan.operands.length)
  if full || scan.indexDue && (Numeral.int64? operand.toList).isNone then
    .error (.misuse operand)
  else .ok { scan with operands := scan.operands ++ [operand] }

/-- Take operands in order. -/
def Scan.takeOperands (scan : Scan) (operands : List String) : Except Refusal Scan :=
  operands.foldlM Scan.takeOperand scan

/-! ## Arguments in order -/

/-- A number without sign: digits, of which a point and an exponent may follow the
first. -/
def isUnsigned (text : List Char) : Bool :=
  let whole := text.takeWhile Char.isDigit
  let afterWhole := text.dropWhile Char.isDigit
  let afterPoint :=
    match whole, afterWhole with
    | _ :: _, '.' :: rest => rest.dropWhile Char.isDigit
    | _, rest => rest
  match whole, afterPoint with
  | [], _ => text = []
  | _ :: _, [] => true
  | _ :: _, 'e' :: exponent => exponent ≠ [] && exponent.all Char.isDigit
  | _, _ => false

/-- The argument is an option, unless it is taken for a negative number. -/
def isOption (numberDue : Bool) (argument : String) : Bool :=
  match argument.toList with
  | '-' :: rest => rest ≠ [] && !(numberDue && isUnsigned rest)
  | _ => false

/-- The value of an option must come next. -/
def Scan.awaitsValue (scan : Scan) : Bool :=
  match scan.unsettled with
  | some (.awaits _) => true
  | _ => false

/-- Take one argument other than `--`. -/
def Scan.take (scan : Scan) (argument : String) : Except Refusal Scan :=
  if isOption scan.indexDue argument then
    scan.settle.bind fun scan =>
      match argument.toList with
      | '-' :: '-' :: text => scan.takeLong text
      | text => scan.takeShort (text.drop 1)
  else
    match scan.unsettled with
    | some (.awaits option) => .ok { scan with unsettled := some (.holds option argument) }
    | _ => scan.settle.bind fun scan => scan.takeOperand argument

/-- What is asked of the command `help` with its arguments. -/
def helpOn : List String → Refusal
  | [] => .help .program
  | [name] =>
      match Verb.ofName? name with
      | some verb => .help (.command verb)
      | none => if name = "help" then .help .help else .misuse name
  | _ :: name :: _ => .misuse name

/-- Read up to the name of the command.  The answer has what was read before it, the
command, and the arguments after it. -/
def readVerb : Scan → List String → Except Refusal (Scan × Verb × List String)
  | _, [] => .error (.misuse "")
  | scan, argument :: rest =>
      if argument = "--" then .error (.misuse argument)
      else if !scan.awaitsValue && !isOption false argument then
        match Verb.ofName? argument with
        | some verb => .ok (scan, verb, rest)
        | none => .error (if argument = "help" then helpOn rest else .misuse argument)
      else (scan.take argument).bind fun scan => readVerb scan rest

/-- Read the arguments after the name of the command. -/
def readOperands : Scan → List String → Except Refusal Scan
  | scan, [] => scan.settle
  | scan, argument :: rest =>
      if argument = "--" then scan.settle.bind fun scan => scan.takeOperands rest
      else (scan.take argument).bind fun scan => readOperands scan rest

/-- Read a command line. -/
def parse (arguments : List String) : Except Refusal Request := do
  let (earlier, verb, rest) ← readVerb {} arguments
  let later ← readOperands { verb := some verb } rest
  match Command.ofOperands? verb later.operands with
  | none => .error (.misuse verb.name)
  | some command =>
      let earlier ← earlier.settle
      pure ⟨later.options.orElse earlier.options, command⟩

example : (parse ["-pf", "x.json", "insert", "a", "-1", "1", "--", "-2"]).toOption
    = some ⟨⟨some "x.json", some (), none⟩, .insert "a" (-1) ["1", "-2"]⟩ := by decide +kernel
example : (parse ["set", "a", "-1"]).toOption = none := by decide +kernel
/-- Help after the name of a command comes before a wrong value in front of it. -/
example : (match parse ["--error-format", "bad", "get", "-h"] with
    | .ok _ => none
    | .error refusal => some refusal) = some (.help (.command .get)) := by decide +kernel
example : (parse ["get", "a", "--file=b", "--file=c"]).toOption = none := by decide +kernel

end Arguments

end TreeQuery
